import Acceptor.Proofs.Pattern.Scopes
import Acceptor.Proofs.Regex.Grammar
import Acceptor.Proofs.Regex.Thompson
import Mathlib.Algebra.Group.Nat.Even

/-!
# The size of a compiled automaton

Every operation that adds states adds two of them, and each is called for by something in the text: a
literal, a bar, a star, a plus, or an alternative without content. Parentheses add nothing, and neither
does an optional. So the number of states is twice the number of these things
(`Automaton.size_of_ofPattern`).

Between the text and the automaton stands the expression. What it adds to an automaton depends on the
expression alone (`Regex.size_build`), and reading a pattern keeps count (`Regex.pairs_of_parse`): a
branch that has not begun yet when its scope or a bar ends it is one of the gaps of the text.
-/

namespace Acceptor

variable {c : Char} {p cs : List Char} {r : Regex} {b b' : Branch} {op : Repetition}

/-! ### Pairs of states -/

/-- How many pairs of states a repetition adds. -/
def Repetition.pairs : Repetition → Nat
  | star | plus => 1
  | optional => 0

def Regex.pairs : Regex → Nat
  | empty => 1
  | literal _ => 1
  | group r => r.pairs
  | concat l r => l.pairs + r.pairs
  | union l r => l.pairs + r.pairs + 1
  | repeated r op => r.pairs + op.pairs

theorem Automaton.size_empty (A : Automaton) : A.empty.1.size = A.size + 2 := by
  simp [empty, connect]

theorem Automaton.size_repeated (A : Automaton) (f : Fragment) (op : Repetition) :
    (A.repeated f op).1.size = A.size + 2 * op.pairs := by
  cases op with
  | star => exact size_star
  | plus => exact size_plus
  | optional => exact size_optional

namespace Regex

theorem size_build (r : Regex) (A : Automaton) : (r.build A).1.size = A.size + 2 * r.pairs := by
  fun_induction Regex.build A r with
  | case1 A => exact A.size_empty
  | case2 A c => simp [pairs, Automaton.literal]
  | case3 A r ih => exact ih
  | case4 A l r B f hl C g hr ihl ihr =>
    have hB : B.size = A.size + 2 * l.pairs := by rw [← ihl, hl]
    have hC : C.size = B.size + 2 * r.pairs := by rw [← ihr, hr]
    rw [Automaton.size_concat, pairs]
    omega
  | case5 A r B g hr C f hempty ih =>
    have hB : B.size = A.size + 2 * r.pairs := by rw [← ih, hr]
    have hC : C.size = B.size + 2 := by
      rw [← Automaton.size_empty, hempty]
    rw [Automaton.size_union, pairs, pairs]
    omega
  | case6 A l r _ B f hl C g hr ihl ihr =>
    have hB : B.size = A.size + 2 * l.pairs := by rw [← ihl, hl]
    have hC : C.size = B.size + 2 * r.pairs := by rw [← ihr, hr]
    rw [Automaton.size_union, pairs]
    omega
  | case7 A r op B f hr ih =>
    have hB : B.size = A.size + 2 * r.pairs := by rw [← ih, hr]
    rw [Automaton.size_repeated, pairs]
    omega

theorem pairs_pos (r : Regex) : 0 < r.pairs := by
  induction r with
  | empty => exact Nat.one_pos
  | literal c => exact Nat.one_pos
  | group r ih => exact ih
  | concat l r ihl _ => exact Nat.add_pos_left ihl _
  | union l r _ _ => exact Nat.succ_pos _
  | repeated r op ih => exact Nat.add_pos_left ih _

end Regex

/-! ### Characters -/

/-- How many pairs of states a token calls for by itself. -/
def Token.pairs : Token → Nat
  | literal _ | bar => 1
  | repetition op => op.pairs
  | opening | closing => 0

def tally (cs : List Char) : Nat :=
  (literalsOf cs).length + cs.count '|' + cs.count '*' + cs.count '+'

theorem tally_append (cs cs' : List Char) : tally (cs ++ cs') = tally cs + tally cs' := by
  simp only [tally, literalsOf_append, List.length_append, List.count_append]
  omega

theorem tally_cons (c : Char) (cs : List Char) :
    tally (c :: cs) = (Token.ofChar c).pairs + tally cs := by
  have hone : tally [c] = (Token.ofChar c).pairs := by
    cases hc : Token.ofChar c with
    | literal d =>
      have hliteral := (Token.ofChar_eq_literal_iff.mp hc).1
      have hzero (d : Char) (hd : d ∈ Token.structural) : [c].count d = 0 :=
        List.count_eq_zero.mpr fun h => hliteral (List.mem_singleton.mp h ▸ hd)
      rw [tally, literalsOf_cons_of_not_mem hliteral, hzero _ (by decide), hzero _ (by decide),
        hzero _ (by decide)]
      rfl
    | repetition op =>
      rw [Token.eq_toChar hc]
      cases op <;> rfl
    | opening | closing | bar =>
      rw [Token.eq_toChar hc]
      rfl
  rw [← List.singleton_append, tally_append, hone]

/-- An opening parenthesis calls for nothing, and any other character for one pair at most. -/
theorem tally_le (cs : List Char) : tally cs + cs.count '(' ≤ cs.length := by
  induction cs with
  | nil => exact Nat.le_refl 0
  | cons c cs ih =>
    have hone : (Token.ofChar c).pairs + [c].count '(' ≤ 1 := by
      cases hc : Token.ofChar c with
      | literal d =>
        have hne : '(' ∉ [c] := by
          rw [List.mem_singleton]
          rintro rfl
          cases hc
        rw [List.count_eq_zero.mpr hne]
        exact Nat.le_refl 1
      | repetition op =>
        rw [Token.eq_toChar hc]
        cases op <;> decide
      | opening | closing | bar =>
        rw [Token.eq_toChar hc]
        decide
    rw [tally_cons, List.length_cons, ← List.singleton_append, List.count_append]
    omega

/-! ### Reading keeps count -/

namespace Branch

def pairs (b : Branch) : Nat := b.regex?.elim 0 Regex.pairs

theorem pairs_regex (b : Branch) : b.regex.pairs = b.pairs + gaps b.regex?.isNone [] := by
  rw [regex, pairs]
  cases b.regex? <;> rfl

theorem pairs_push (b : Branch) (r : Regex) : (b.push r).pairs = b.pairs + r.pairs := by
  unfold pairs push
  cases b.regex? with
  | none => exact (Nat.zero_add _).symm
  | some l => rfl

theorem isNone_push (b : Branch) (r : Regex) : (b.push r).regex?.isNone = false := by
  unfold push
  cases b.regex? <;> rfl

theorem pairs_repeat? (h : b.repeat? op = some b') : b'.pairs = b.pairs + op.pairs ∧
    b.regex?.isNone = false ∧ b'.regex?.isNone = false := by
  obtain ⟨before, operand⟩ := b
  obtain ⟨r, hr, rfl⟩ := repeat?_eq_some_iff.mp h
  obtain rfl : operand = some r := hr
  cases before with
  | none => exact ⟨rfl, rfl, rfl⟩
  | some l => exact ⟨(Nat.add_assoc ..).symm, rfl, rfl⟩

end Branch

/-- What is read calls for what was read before, what the characters call for, and one pair for each
alternative without a character. -/
theorem Regex.pairs_of_parse {limit depth position : Nat}
    (h : parse limit depth position b cs = .ok r) :
    r.pairs = b.pairs + tally cs + gaps b.regex?.isNone cs := by
  fun_induction parse limit depth position b cs generalizing r with
  | case1 depth position b =>
    cases h
    exact b.pairs_regex
  | case2 depth position b c cs d hc ih =>
    have hne {c' : Char} (hc' : c' ∈ Token.structural) : c ≠ c' := fun h =>
      (Token.ofChar_eq_literal_iff.mp hc).1 (h ▸ hc')
    rw [ih h, Branch.pairs_push, Branch.isNone_push, tally_cons, hc,
      gaps_cons (hne (by decide)) (hne (by decide)) (hne (by decide)), pairs, Token.pairs]
    omega
  | case3 depth position b c cs op hc b' hop ih =>
    obtain ⟨hpairs, hbegun, hgoes⟩ := Branch.pairs_repeat? hop
    have hgaps : gaps false (c :: cs) = gaps false cs := by
      rw [Token.eq_toChar hc]
      cases op <;> exact gaps_cons (by decide) (by decide) (by decide) false cs
    rw [ih h, hpairs, hbegun, hgoes, tally_cons, hc, hgaps, Token.pairs]
    omega
  | case4 => simp at h
  | case5 depth position b c cs hc ih =>
    cases hr : parse limit depth (position + 1) {} cs with
    | error e => rw [hr] at h; cases h
    | ok r' =>
      rw [hr] at h
      cases h
      rw [pairs, ih hr, b.pairs_regex, tally_cons, hc, Token.ofChar_eq_bar_iff.mp hc, gaps_bar,
        Token.pairs]
      show _ + (0 + tally cs + gaps true cs) + 1 = _
      omega
  | case6 => simp at h
  | case7 => simp at h
  | case8 => simp at h
  | case9 => simp at h
  | case10 depth position b c cs hc hdepth n hclosing body hbody ihbody ih =>
    have htally : tally cs = tally (cs.take n) + tally (cs.drop (n + 1)) := by
      conv_lhs => rw [eq_append_of_closing? hclosing]
      rw [tally_append, tally_cons]
      exact congrArg (tally (cs.take n) + ·) (Nat.zero_add _)
    have hgaps : gaps b.regex?.isNone (c :: cs) =
        gaps true (cs.take n) + gaps false (cs.drop (n + 1)) := by
      conv_lhs => rw [eq_append_of_closing? hclosing, Token.ofChar_eq_opening_iff.mp hc]
      exact gaps_group ..
    rw [ih h, Branch.pairs_push, Branch.isNone_push, pairs, ihbody hbody, tally_cons, hc, htally, hgaps,
      Token.pairs]
    show _ + (0 + tally (cs.take n) + gaps true (cs.take n)) + _ + _ = _
    omega

theorem Denotes.balanced {L : Language Char} (h : Denotes .alternation p L) : Balanced p where
  closed := by
    have hend := h.closing?_append 0 []
    rwa [List.append_nil] at hend
  opened := by
    have hend : closing? 0 (p ++ [')']) = some p.length :=
      (h.closing?_append 0 [')']).trans (congrArg some (Nat.zero_add _))
    have hbalance := (balance_of_closing? hend).2.1
    have hone : balance [')'] = -1 := rfl
    rw [List.take_of_length_le (by simp), balance_append, hone] at hbalance
    omega

namespace Automaton

variable {A : Automaton} {limit : Nat}

/-- The number of states of a compiled automaton is read off the pattern. -/
theorem size_of_ofPattern (h : ofPattern limit p = .ok A) :
    A.size = 2 * ((literalsOf p).length + p.count '|' + p.count '*' + p.count '+' +
      emptyAlternatives p) ∧
    (∀ s ∈ scopes p, ['|'].intercalate (alternatives 0 s) = s ∧
      (alternatives 0 s).length = topLevelBars s + 1) ∧
    2 ≤ A.size ∧ Even A.size ∧ A.size ≤ 4 * p.length + 2 := by
  rw [ofPattern_eq] at h
  cases hr : Regex.parse limit 0 0 {} p with
  | error e => rw [hr] at h; cases h
  | ok r =>
    rw [hr] at h
    obtain rfl : (r.build {}).1.finish (r.build {}).2 = A := Except.ok.inj h
    have hbalanced : Balanced p := (Regex.denotes_of_parse Branch.reading_nil hr).balanced
    have hempty := emptyAlternatives_eq_gaps hbalanced
    have hpairs : r.pairs = tally p + emptyAlternatives p := by
      rw [Regex.pairs_of_parse hr, hempty]
      exact congrArg (· + _) (Nat.zero_add _)
    have hsize : ((r.build {}).1.finish (r.build {}).2).size = 2 * r.pairs := by
      rw [size_finish, Regex.size_build]
      exact Nat.zero_add _
    have hpos := r.pairs_pos
    refine ⟨?_, fun s hs => ⟨intercalate_alternatives 0 s, ?_⟩, ?_, ?_, ?_⟩
    · rw [hsize, hpairs, tally]
    · exact length_alternatives (balanced_of_mem_scopes hbalanced hs)
    · omega
    · exact ⟨r.pairs, by rw [hsize, Nat.two_mul]⟩
    · -- A bar calls for the union and ends an alternative, so it may count twice.
      have hgaps : emptyAlternatives p ≤ p.count '(' + p.count '|' + 1 := hempty ▸ gaps_le true p
      have hbars : p.count '|' ≤ tally p := by
        unfold tally
        omega
      have htally := tally_le p
      omega

theorem size_of_ofPattern_nested : ∃ A, ofPattern 250 "a(|b)*|".toList = .ok A ∧ A.size = 14 := by
  let r : Regex := .union
    (.concat (.literal 'a') (.repeated (.group (.union .empty (.literal 'b'))) .star)) .empty
  have hparse : Regex.parse 250 0 0 {} "a(|b)*|".toList = .ok r := by cbv
  have hempty : emptyAlternatives "a(|b)*|".toList = 2 := by decide
  have h := ofPattern_of_parse hparse
  refine ⟨_, h, ?_⟩
  rw [(size_of_ofPattern h).1, hempty]
  decide

end Automaton

end Acceptor
