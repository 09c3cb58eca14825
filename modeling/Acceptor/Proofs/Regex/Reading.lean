import Acceptor.Proofs.Pattern.Closing
import Acceptor.Regex.Parse

/-!
# Reading character by character

What `Regex.parse` does with the next character depends on its role, and there is one equation for each.
An operand waits for a repetition behind it. If there is none, it might as well have been put to what was
read before (`Regex.parse_sealed`).
-/

namespace Acceptor

namespace Regex

/-- What was read of an alternative, and more behind it. -/
def join : Option Regex → Option Regex → Option Regex
  | none, r => r
  | l, none => l
  | some l, some r => some (.concat l r)

theorem join_none (x : Option Regex) : join x none = x := by
  cases x <;> rfl

theorem exists_join_eq (x : Option Regex) (hr : r ≠ .empty) :
    ∃ s, join x (some r) = some s ∧ s ≠ .empty := by
  cases x with
  | none => exact ⟨r, rfl, hr⟩
  | some l => exact ⟨.concat l r, rfl, by simp⟩

end Regex

namespace Branch

variable {b b' : Branch} {op : Repetition}

theorem repeat?_eq_some_iff : b.repeat? op = some b' ↔ ∃ r, b.operand = some r ∧
    b' = { before := regex? { b with operand := some (.repeated r op) } } := by
  rw [repeat?, Option.map_eq_some_iff]
  refine ⟨fun h => ?_, fun h => ?_⟩
  · obtain ⟨r, hr, rfl⟩ := h
    exact ⟨r, hr, rfl⟩
  · obtain ⟨r, hr, rfl⟩ := h
    exact ⟨r, hr, rfl⟩

/-- The branch, when its last operand is not repeated any more. -/
def sealed (b : Branch) : Branch := { before := b.regex? }

theorem regex?_sealed (b : Branch) : b.sealed.regex? = b.regex? := Regex.join_none _

end Branch

def Unrepeated (l : List Char) : Prop := ∀ c ∈ ['*', '+', '?'], l.head? ≠ some c

namespace Regex

variable {limit depth position n : Nat} {b b' : Branch} {c : Char} {cs : List Char}
  {op : Repetition} {body : Regex}

theorem parse_literal (hc : c ∉ Token.structural) : parse limit depth position b (c :: cs) =
    parse limit depth (position + 1) (b.push (.literal c)) cs := by
  rw [parse, Token.ofChar_eq_literal_iff.mpr ⟨hc, rfl⟩]

theorem parse_repetition (hop : b.repeat? op = some b') :
    parse limit depth position b ((Token.repetition op).toChar :: cs) =
      parse limit depth (position + 1) b' cs := by
  rw [parse, Token.ofChar_eq_repetition_iff.mpr rfl]
  simp only [hop]

theorem parse_bar : parse limit depth position b ('|' :: cs) =
    (parse limit depth (position + 1) {} cs).map (.union b.regex) := by
  rw [parse, Token.ofChar_eq_bar_iff.mpr rfl]

theorem parse_opening (hdepth : depth < limit) (hn : closing? 0 cs = some n)
    (hbody : parse limit (depth + 1) (position + 1) {} (cs.take n) = .ok body) :
    parse limit depth position b ('(' :: cs) =
      parse limit depth (position + n + 2) (b.push (.group body)) (cs.drop (n + 1)) := by
  rw [parse, Token.ofChar_eq_opening_iff.mpr rfl]
  simp only [if_neg (Nat.not_le.mpr hdepth), hn, hbody]

/-- Without a repetition next, it makes no difference what the last operand was. -/
theorem parse_sealed (b : Branch) (hcs : Unrepeated cs) :
    parse limit depth position b.sealed cs = parse limit depth position b cs := by
  have hregex : b.sealed.regex = b.regex := by rw [Branch.regex, Branch.regex, b.regex?_sealed]
  have hpush (r : Regex) : b.sealed.push r = b.push r := by rw [Branch.push, Branch.push, b.regex?_sealed]
  cases cs with
  | nil => rw [parse, parse, hregex]
  | cons c cs =>
    cases hc : Token.ofChar c with
    | repetition op =>
      have hop := Token.isRepetition_iff.mp ⟨op, hc⟩
      exact absurd rfl (hcs c (by simpa using hop))
    | literal d => simp only [parse, hc, hpush]
    | bar => simp only [parse, hc, hregex]
    | closing => simp only [parse, hc]
    | opening => simp only [parse, hc, hpush]

end Regex

end Acceptor
