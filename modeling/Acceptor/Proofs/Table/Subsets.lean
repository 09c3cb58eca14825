import Acceptor.Proofs.Table.Matching
import Mathlib.Data.Set.Function

/-!
# Which sets the states of a table stand for

A table is complete and holds nothing in vain: its states stand for the sets that the words over its
alphabet reach, each of them for a set of its own, and unless the alphabet is restricted one of them
stands for the empty set. Its transitions are those of the sets. `SubsetTable` puts this in terms of
paths through the automaton, and without a limit there always is such a table
(`exists_subsetTable`).
-/

namespace Acceptor

def Table.members (T : Table) (id : Nat) : Set Nat :=
  {i | ∃ q, T.states[id]? = some q ∧ i ∈ q.members}

namespace Automaton

def reachable (A : Automaton) (w : List Char) : Set Nat := {i | A.Reads A.start w i}

/-- The sets that the words over an alphabet reach and, unless the alphabet is restricted, the empty
set. -/
def reachableSets (A : Automaton) (restricted : Option Alphabet) (S : Alphabet) : Set (Set Nat) :=
  {M | (∃ w : List Char, (∀ c ∈ w, c ∈ S) ∧ M = A.reachable w) ∨ restricted = none ∧ M = ∅}

/-- The table is the subset construction of an automaton. -/
structure SubsetTable (A : Automaton) (restricted : Option Alphabet) (T : Table) : Prop where
  alphabet : T.alphabet = restricted.getD A.symbols
  /-- Unless it is restricted, the alphabet holds the symbols that label a transition. -/
  symbols : restricted = none → ∀ c, c ∈ T.alphabet ↔ ∃ i j, j ∈ A.targets i (.symbol c)
  /-- Each set is the set of members of exactly one state. -/
  bijOn : Set.BijOn T.members {id | id < T.size} (A.reachableSets restricted T.alphabet)
  ascending : ∀ q ∈ T.states, q.members.toList.Pairwise (· < ·)
  start : T.start < T.size ∧ T.members T.start = A.reachable []
  accepting : ∀ q ∈ T.states, q.accepting ↔ ∃ i ∈ q.members, A.accepting i
  /-- A symbol of the alphabet leads to the state of the set that it leads to. -/
  next_of_mem : ∀ (id : Nat) (q : Macrostate), T.states[id]? = some q → ∀ c ∈ T.alphabet,
    ∃ j r, T.next? id c = some j ∧ T.states[j]? = some r ∧ r.members = A.closure (A.step q.members c)
  /-- Another symbol leads to the state without members, or nowhere if the alphabet is restricted. -/
  next_of_not_mem : ∀ (id : Nat) (q : Macrostate), T.states[id]? = some q → ∀ c ∉ T.alphabet,
    match restricted with
    | none => ∃ j r, T.next? id c = some j ∧ T.states[j]? = some r ∧ r.members = ∅
    | some _ => T.next? id c = none

variable {A : Automaton} {restricted : Option Alphabet} {T : Table} {found : Array IdSet}
  {s : IdSet} {id : Nat} {q : Macrostate} {w : List Char}

theorem setOf_mem_reach : {i | i ∈ A.reach w} = A.reachable w :=
  Set.ext fun _ => mem_reach_iff

namespace Discovered

theorem members_eq (h : A.Discovered restricted T found) (hs : found[id]? = some s) :
    T.members id = {i | i ∈ s} := by
  ext i
  constructor
  · rintro ⟨q, hq, hi⟩
    rw [h.getElem?_states hs] at hq
    cases hq
    exact hi
  · intro hi
    exact ⟨A.macrostate s, h.getElem?_states hs, hi⟩

theorem mapsTo_members (h : A.Discovered restricted T found) :
    Set.MapsTo T.members {id | id < T.size} (A.reachableSets restricted T.alphabet) := by
  intro id hid
  obtain ⟨s, hs⟩ := h.exists_getElem?_of_lt hid
  rw [h.members_eq hs]
  rcases h.origin s (Array.mem_of_getElem? hs) with ⟨w, hw, rfl⟩ | ⟨hnone, rfl⟩
  · exact .inl ⟨w, hw, setOf_mem_reach⟩
  · exact .inr ⟨hnone, Set.eq_empty_of_forall_notMem Ascending.not_mem_empty⟩

theorem injOn_members (h : A.Discovered restricted T found) :
    Set.InjOn T.members {id | id < T.size} := by
  intro id hid j hj heq
  obtain ⟨s, hs⟩ := h.exists_getElem?_of_lt hid
  obtain ⟨t, ht⟩ := h.exists_getElem?_of_lt hj
  rw [h.members_eq hs, h.members_eq ht] at heq
  obtain rfl : s = t := Ascending.ext fun i => Set.ext_iff.mp heq i
  exact h.place_unique hs ht

theorem surjOn_members (h : A.Discovered restricted T found) :
    Set.SurjOn T.members {id | id < T.size} (A.reachableSets restricted T.alphabet) := by
  rintro M (⟨w, hw, rfl⟩ | ⟨rfl, rfl⟩)
  · obtain ⟨j, _, hfound⟩ := h.exists_follow_eq_ok h.start hw 0
    refine ⟨j, h.lt_size hfound, ?_⟩
    rw [h.members_eq hfound, ← setOf_mem_reach, reach]
  · obtain ⟨d, hd⟩ := Option.isSome_iff_exists.mp h.isSome_dead?
    have hempty := h.dead d hd
    refine ⟨d, h.lt_size hempty, ?_⟩
    rw [h.members_eq hempty]
    exact Set.eq_empty_of_forall_notMem Ascending.not_mem_empty

theorem bijOn_members (h : A.Discovered restricted T found) :
    Set.BijOn T.members {id | id < T.size} (A.reachableSets restricted T.alphabet) :=
  ⟨h.mapsTo_members, h.injOn_members, h.surjOn_members⟩

theorem subsetTable (h : A.Discovered restricted T found) : A.SubsetTable restricted T where
  alphabet := h.alphabet
  symbols := by
    rintro rfl c
    rw [h.alphabet]
    exact mem_symbols
  bijOn := h.bijOn_members
  ascending q _ := q.members.ascending
  start := by
    refine ⟨h.lt_size h.start, ?_⟩
    rw [h.members_eq h.start, ← setOf_mem_reach]
    rfl
  accepting q hq := by
    obtain ⟨id, hid⟩ := Array.getElem?_of_mem hq
    obtain ⟨s, _, rfl⟩ := h.exists_getElem?_eq hid
    exact acceptsAny_iff
  next_of_mem id q hq c hc := by
    obtain ⟨s, hs, rfl⟩ := h.exists_getElem?_eq hq
    obtain ⟨j, hj, hfound⟩ := h.next?_of_mem hs hc
    exact ⟨j, _, hj, h.getElem?_states hfound, rfl⟩
  next_of_not_mem id q hq c hc := by
    obtain ⟨s, hs, rfl⟩ := h.exists_getElem?_eq hq
    have hnext := h.next?_of_not_mem hs hc
    have hsome := h.isSome_dead?
    cases restricted with
    | none =>
      obtain ⟨d, hd⟩ := Option.isSome_iff_exists.mp hsome
      exact ⟨d, _, hnext.trans hd, h.getElem?_states (h.dead d hd), rfl⟩
    | some S => exact hnext.trans (Option.not_isSome_iff_eq_none.mp (by simp [hsome]))

end Discovered

/-- Without a limit on its states, the table of any automaton is built, and it is the subset
construction. -/
theorem exists_subsetTable (A : Automaton) (restricted : Option Alphabet) :
    ∃ T, A.table restricted none = .ok T ∧ A.SubsetTable restricted T := by
  obtain ⟨T, hT⟩ := exists_table_eq_ok A restricted
  obtain ⟨found, hfound⟩ := exists_discovered_of_table hT
  exact ⟨T, hT, hfound.subsetTable⟩

end Automaton

end Acceptor
