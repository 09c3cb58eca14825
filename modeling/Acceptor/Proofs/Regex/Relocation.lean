import Acceptor.Proofs.Automaton.Relocation
import Acceptor.Proofs.Regex.Language

/-!
# A scope compiled in its place and on its own

A scope is compiled in the midst of other things: its text is a part of a pattern, it stands inside some
groups, and its states go behind those that are there already. None of this enters into what is compiled.
The same text alone is read in the same way, up to the positions in its faults and the bound that they
name (`Regex.parse_relocate`), and it is built in the same way, up to the numbers of the states
(`Regex.build_append`). Together this says how a scope in its place is compiled
(`Cursor.compile_within`).
-/

namespace Acceptor

/-! ### Reading -/

/-- The error that a fault is reported as in a longer text, where what comes before is `offset` long and
groups may be nested `limit` deep. -/
def PatternError.relocate (offset limit : Nat) : PatternError → PatternError
  | unclosedGroup position => unclosedGroup (offset + position)
  | unopenedGroup position => unopenedGroup (offset + position)
  | missingOperand operator position => missingOperand operator (offset + position)
  | nestLimit _ => nestLimit limit
  | outOfScope position length => outOfScope (offset + position) length

namespace Regex

/-- A text is read in the same way further on in a pattern and inside further groups, as long as the bound
leaves it the same room. -/
theorem parse_relocate (limit depth position offset k : Nat) (b : Branch) (cs : List Char) :
    parse (limit + k) (depth + k) (offset + position) b cs =
      (parse limit depth position b cs).mapError (.relocate offset (limit + k)) := by
  fun_induction parse limit depth position b cs with
  | case1 depth position b =>
    rw [parse]
    rfl
  | case2 depth position b c cs d hc ih =>
    rw [parse, hc]
    exact ih
  | case3 depth position b c cs op hc b' hop ih =>
    rw [parse, hc]
    simp only [hop]
    exact ih
  | case4 depth position b c cs op hc hop =>
    rw [parse, hc]
    simp only [hop]
    rfl
  | case5 depth position b c cs hc ih =>
    rw [parse, hc]
    simp only
    rw [← map_mapError, ← ih]
    rfl
  | case6 depth position b c cs hc =>
    rw [parse, hc]
    rfl
  | case7 depth position b c cs hc hlimit =>
    rw [parse, hc]
    exact if_pos (Nat.add_le_add_right hlimit k)
  | case8 depth position b c cs hc hlimit hnone =>
    have hroom : ¬limit + k ≤ depth + k := by omega
    rw [parse, hc]
    simp only [if_neg hroom, hnone]
    rfl
  | case9 depth position b c cs hc hlimit n hn e herror ih =>
    have hroom : ¬limit + k ≤ depth + k := by omega
    have hbody : parse (limit + k) (depth + k + 1) (offset + position + 1) {} (cs.take n) =
        .error (e.relocate offset (limit + k)) := by
      rw [Nat.add_right_comm, Nat.add_assoc offset, ih, herror]
      rfl
    rw [parse, hc]
    simp only [if_neg hroom, hn, hbody]
    rfl
  | case10 depth position b c cs hc hlimit n hn body hok ihbody ih =>
    have hroom : ¬limit + k ≤ depth + k := by omega
    have hbody : parse (limit + k) (depth + k + 1) (offset + position + 1) {} (cs.take n) =
        .ok body := by
      rw [Nat.add_right_comm, Nat.add_assoc offset, ihbody, hok]
      rfl
    have hbehind : offset + position + n + 2 = offset + (position + n + 2) := by omega
    rw [parse, hc]
    simp only [if_neg hroom, hn, hbody, hbehind]
    exact ih

end Regex

/-! ### Building -/

theorem Automaton.repeated_append {A B : Automaton} {f : Fragment} (op : Repetition) :
    (A.append B).repeated (f.shift A.size) op = A.place (B.repeated f op) := by
  cases op with
  | star => exact star_append
  | plus => exact plus_append
  | optional => exact optional_append

/-- An expression is built behind other states as it is built on its own. -/
theorem Regex.build_append (A B : Automaton) (r : Regex) :
    r.build (A.append B) = A.place (r.build B) := by
  fun_induction build B r with
  | case1 B => exact Automaton.empty_append
  | case2 B c => exact Automaton.literal_append c
  | case3 B r ih => exact ih
  | case4 B l r C f hl D g hr ihl ihr =>
    rw [hl] at ihl
    rw [hr] at ihr
    simp only [build, ihl, Automaton.place, ihr]
    exact Automaton.concat_append
  | case5 B r C g hr D f hempty ih =>
    rw [hr] at ih
    simp only [build, ih, Automaton.place, Automaton.empty_append, hempty]
    exact Automaton.union_append
  | case6 B l r hne C f hl D g hr ihl ihr =>
    rw [hl] at ihl
    rw [hr] at ihr
    rw [build]
    · simp only [ihl, Automaton.place, ihr]
      exact Automaton.union_append
    · exact hne
  | case7 B r op C f hr ih =>
    rw [hr] at ih
    simp only [build, ih, Automaton.place]
    exact Automaton.repeated_append op

/-! ### A scope in its place -/

namespace Cursor

/-- The scope that a span of a pattern makes, compiled inside `depth` groups onto states that are there
already, and its text compiled on its own, with nested groups bounded by what `depth` leaves of the limit. -/
theorem compile_within (c : Cursor) (start stop : Nat) (limit depth : Nat) (A : Automaton)
    (hdepth : depth ≤ limit) :
    (c.within ⟨start, stop⟩).compile limit depth A =
      match (ofPattern ((c.pattern.take stop).drop start)).compile (limit - depth) 0 {} with
      | .ok (B, f) => .ok (A.append B, f.shift A.size)
      | .error e => .error (e.relocate start limit) := by
  have hparse := Regex.parse_relocate (limit - depth) 0 0 start depth {}
    ((c.pattern.take stop).drop start)
  rw [Nat.sub_add_cancel hdepth, Nat.zero_add, Nat.add_zero] at hparse
  rw [compile, compile, remaining_within, remaining_ofPattern]
  simp only [within, ofPattern, hparse]
  cases Regex.parse (limit - depth) 0 0 {} ((c.pattern.take stop).drop start) with
  | error e => rfl
  | ok r =>
    have hbuild := Regex.build_append A {} r
    rw [Automaton.append_empty] at hbuild
    exact congrArg Except.ok hbuild

theorem compile_within_group :
    (∃ B f, (ofPattern "|a(b)*".toList).compile 2 0 {} = .ok (B, f) ∧
      ((ofPattern "x(|a(b)*)+".toList).within ⟨2, 8⟩).compile 3 1 (({} : Automaton).literal 'x').1 =
        .ok ((({} : Automaton).literal 'x').1.append B, f.shift 2)) ∧
    (ofPattern "a(b)|*".toList).compile 2 0 {} = .error (.missingOperand '*' 5) ∧
    ((ofPattern "x(a(b)|*)+".toList).within ⟨2, 8⟩).compile 3 1 (({} : Automaton).literal 'x').1 =
      .error (.missingOperand '*' 7) := by
  let A := (({} : Automaton).literal 'x').1
  let r : Regex :=
    .union .empty (.concat (.literal 'a') (.repeated (.group (.literal 'b')) .star))
  have hread : (ofPattern "|a(b)*".toList).compile 2 0 {} = .ok (r.build {}) := by
    have hparse : Regex.parse 2 0 0 {} "|a(b)*".toList = .ok r := by cbv
    rw [compile, remaining_ofPattern]
    exact congrArg (Except.map (Regex.build {})) hparse
  have hfault : (ofPattern "a(b)|*".toList).compile 2 0 {} = .error (.missingOperand '*' 5) := by
    have hparse : Regex.parse 2 0 0 {} "a(b)|*".toList = .error (.missingOperand '*' 5) := by cbv
    rw [compile, remaining_ofPattern]
    exact congrArg (Except.map (Regex.build {})) hparse
  refine ⟨⟨(r.build {}).1, (r.build {}).2, hread, ?_⟩, hfault, ?_⟩
  · have hplace := compile_within (ofPattern "x(|a(b)*)+".toList) 2 8 3 1 A (by decide)
    have htext : ((ofPattern "x(|a(b)*)+".toList).pattern.take 8).drop 2 = "|a(b)*".toList := by decide
    rw [htext, hread] at hplace
    exact hplace
  · have hplace := compile_within (ofPattern "x(a(b)|*)+".toList) 2 8 3 1 A (by decide)
    have htext : ((ofPattern "x(a(b)|*)+".toList).pattern.take 8).drop 2 = "a(b)|*".toList := by decide
    rw [htext, hfault] at hplace
    exact hplace

end Cursor

end Acceptor
