import Acceptor.Proofs.Regex.Shape
import Acceptor.Proofs.Table.Matching

/-!
# Where nothing is accepted any more

The empty set leads to itself over every symbol, so a word that leads to the state without members has
no accepted continuation. In a compiled automaton the converse holds as well, because there every state
reaches the stop: as long as a word reaches any state at all, it can be continued to an accepted one
(`Compiled.reach_eq_empty_iff`). Both pass from sets to the places of a table, which a walk over the
table visits (`Discovered.foldlM_next?`).
-/

namespace Acceptor

/-! ### Walking symbol by symbol -/

theorem Table.follow_eq_ok_iff {T : Table} {id offset j : Nat} {w : List Char} :
    T.follow id offset w = .ok j ↔ w.foldlM T.next? id = some j := by
  induction w generalizing id offset with
  | nil => exact ⟨fun h => (by cases h; rfl), fun h => (by cases h; rfl)⟩
  | cons c w ih =>
    rw [Table.follow, List.foldlM_cons]
    cases T.next? id c with
    | none => exact ⟨fun h => (nomatch h), fun h => (nomatch h)⟩
    | some k => exact ih

namespace Automaton

variable {A : Automaton} {T : Table} {found : Array IdSet} {s : IdSet} {id i d : Nat}
  {v w : List Char}

theorem Discovered.foldlM_next? (h : A.Discovered none T found) (hs : found[id]? = some s)
    (w : List Char) :
    ∃ j, w.foldlM T.next? id = some j ∧ found[j]? = some (w.foldl A.move s) := by
  rcases h.follow_spec hs 0 w with ⟨j, hj, hfound, _⟩ | ⟨e, _, hrefused⟩
  · exact ⟨j, Table.follow_eq_ok_iff.mp hj, hfound⟩
  · obtain ⟨S, hS, _⟩ := hrefused.exists_foreign
    cases hS

theorem Discovered.foldlM_next?_eq_dead_iff (h : A.Discovered none T found)
    (hd : found[d]? = some ∅) : w.foldlM T.next? T.start = some d ↔ A.reach w = ∅ := by
  obtain ⟨j, hj, hfound⟩ := h.foldlM_next? h.start w
  rw [← reach] at hfound
  rw [hj]
  constructor
  · intro h
    cases h
    exact Option.some.inj (hfound.symm.trans hd)
  · intro hempty
    rw [hempty] at hfound
    rw [h.place_unique hfound hd]

theorem reach_append : A.reach (v ++ w) = w.foldl A.move (A.reach v) := List.foldl_append

theorem foldl_move_empty (w : List Char) : w.foldl A.move ∅ = ∅ := by
  induction w with
  | nil => rfl
  | cons c w ih => rw [List.foldl_cons, move_empty, ih]

/-! ### Compiled automata -/

theorem Compiled.exists_reads_stop (h : A.Compiled) (hi : i ∈ A.reach w) :
    ∃ t, A.Reads i t A.stop := by
  obtain ⟨L, hL⟩ := h.recognizes
  have hmem := (mem_reach_iff.mp hi).mem_of_start_mem hL.closed hL.start_mem
  exact h.trim.left i hmem

theorem Compiled.accepting_stop (h : A.Compiled) : A.accepting A.stop :=
  (h.accepting_iff A.stop).mpr rfl

/-- A word reaches no state exactly if none of its continuations is accepted. -/
theorem Compiled.reach_eq_empty_iff (h : A.Compiled) :
    A.reach w = ∅ ↔ ∀ t, ¬A.Accepts (w ++ t) := by
  constructor
  · intro hempty t haccepts
    rw [← acceptsAny_reach_iff, reach_append, hempty, foldl_move_empty, acceptsAny_iff] at haccepts
    obtain ⟨i, hi, _⟩ := haccepts
    exact Ascending.not_mem_empty i hi
  · intro hnone
    by_contra hne
    obtain ⟨i, hi⟩ := Ascending.exists_mem_of_ne_empty hne
    obtain ⟨t, ht⟩ := h.exists_reads_stop hi
    exact hnone t ⟨A.stop, (mem_reach_iff.mp hi).trans ht, h.accepting_stop⟩

theorem Discovered.exists_accepting (h : A.Discovered none T found) (hA : A.Compiled)
    (hs : found[id]? = some s) (hne : s ≠ ∅) :
    ∃ (t : List Char) (j : Nat), t.foldlM T.next? id = some j ∧ T.accepting j := by
  rcases h.origin s (Array.mem_of_getElem? hs) with ⟨w, _, rfl⟩ | ⟨_, hempty⟩
  · obtain ⟨i, hi⟩ := Ascending.exists_mem_of_ne_empty hne
    obtain ⟨t, ht⟩ := hA.exists_reads_stop hi
    obtain ⟨j, hj, hfound⟩ := h.foldlM_next? hs t
    refine ⟨t, j, hj, ?_⟩
    rw [h.accepting_eq hfound, ← reach_append, acceptsAny_reach_iff]
    exact ⟨A.stop, (mem_reach_iff.mp hi).trans ht, hA.accepting_stop⟩
  · exact absurd hempty hne

/-- A word leads the table of a compiled pattern to its dead state exactly if no continuation of the
word is accepted, and every state that has members can still reach an accepting one. -/
theorem dead_iff_no_continuation {limit : Nat} {pattern : List Char}
    (h : ofPattern limit pattern = .ok A) :
    ∃ T d, A.table none none = .ok T ∧ T.dead? = some d ∧
      (∀ s : List Char, s.foldlM T.next? T.start = some d ↔
        ∀ t, T.isMatch (s ++ t) ≠ .ok true) ∧
      ∀ (id : Nat) (q : Macrostate), T.states[id]? = some q → q.members ≠ ∅ →
        ∃ (t : List Char) (j : Nat), t.foldlM T.next? id = some j ∧ T.accepting j := by
  have hA := compiled_of_ofPattern h
  obtain ⟨T, hT⟩ := exists_table_eq_ok A none
  obtain ⟨found, hfound⟩ := exists_discovered_of_table hT
  obtain ⟨d, hd⟩ := Option.isSome_iff_exists.mp hfound.isSome_dead?
  refine ⟨T, d, hT, hd, ?_, ?_⟩
  · intro s
    have hmatch : ∀ t, T.isMatch (s ++ t) = .ok true ↔ A.Accepts (s ++ t) := by
      intro t
      obtain ⟨b, hb⟩ := exists_isMatch_of_table hT (s ++ t)
      rw [← accepts_iff_of_isMatch hT hb, hb, Except.ok.injEq]
    rw [hfound.foldlM_next?_eq_dead_iff (hfound.dead d hd), hA.reach_eq_empty_iff]
    exact forall_congr' fun t => not_congr (hmatch t).symm
  · intro id q hq hne
    obtain ⟨s, hs, rfl⟩ := hfound.exists_getElem?_eq hq
    exact hfound.exists_accepting hA hs hne

theorem dead_iff_no_continuation_loop :
    ∃ A T d, ofPattern 250 "(a|)*b".toList = .ok A ∧ A.table none none = .ok T ∧
      T.dead? = some d ∧
      (∀ s : List Char, s.foldlM T.next? T.start = some d ↔
        ∀ t, T.isMatch (s ++ t) ≠ .ok true) ∧
      ∀ (id : Nat) (q : Macrostate), T.states[id]? = some q → q.members ≠ ∅ →
        ∃ (t : List Char) (j : Nat), t.foldlM T.next? id = some j ∧ T.accepting j := by
  let r : Regex := .concat (.repeated (.group (.union (.literal 'a') .empty)) .star) (.literal 'b')
  have hparse : Regex.parse 250 0 0 {} "(a|)*b".toList = .ok r := by cbv
  have h := ofPattern_of_parse hparse
  obtain ⟨T, d, hspec⟩ := dead_iff_no_continuation h
  exact ⟨_, T, d, h, hspec⟩

end Automaton

end Acceptor
