import Acceptor.Automaton.Basic

/-!
# What building does to an automaton

An automaton is seen through its size, the targets of its states and its accepting states. Each way
of building changes one of the three and leaves the others: `addState` the size, `link` the targets
of one state under one label, `accept` whether one state accepts.
-/

namespace Acceptor.Automaton

variable {A : Automaton} {i j s t u : Nat} {l m : Label}

/-! ### Size -/

@[simp] theorem size_addState : A.addState.size = A.size + 1 := by
  simp [size, addState]

@[simp] theorem size_link : (A.link s l t).size = A.size := by
  simp [size, link]

@[simp] theorem size_accept : (A.accept i).size = A.size := by
  simp [size, accept]

/-! ### Targets -/

theorem targets_of_getElem? {q : State} (h : A.states[i]? = some q) :
    A.targets i l = q.targets l := by
  rw [targets, h, Option.elim_some]

theorem targets_of_size_le (h : A.size ≤ i) : A.targets i l = ∅ := by
  rw [targets, Array.getElem?_eq_none h, Option.elim_none]

theorem lt_size_of_mem_targets (h : t ∈ A.targets i l) : i < A.size := by
  rcases Nat.lt_or_ge i A.size with hlt | hle
  · exact hlt
  · rw [targets_of_size_le hle] at h
    exact absurd h (Ascending.not_mem_empty t)

@[simp] theorem targets_addState : A.addState.targets i l = A.targets i l := by
  by_cases h : i < A.size
  · simp only [targets, addState, Array.getElem?_push_lt h, Array.getElem?_eq_getElem h]
  · rw [targets_of_size_le (Nat.not_lt.mp h)]
    by_cases hi : i = A.size
    · subst hi
      have hq : A.addState.states[A.size]? = some {} := by simp [addState, size]
      rw [targets_of_getElem? hq]
      exact Ascending.toList_injective rfl
    · exact targets_of_size_le (by rw [size_addState]; omega)

@[simp] theorem mem_targets_link :
    u ∈ (A.link s l t).targets j m ↔
      (j = s ∧ s < A.size ∧ m = l ∧ u = t) ∨ u ∈ A.targets j m := by
  have hget : (A.link s l t).states[j]? =
      if s = j then (A.states[j]?).map (·.link l t) else A.states[j]? :=
    Array.getElem?_modify
  cases hq : A.states[j]? with
  | none =>
    have hj : A.size ≤ j := Array.getElem?_eq_none_iff.mp hq
    rw [targets_of_size_le hj, targets_of_size_le (by rwa [size_link])]
    simp only [Ascending.not_mem_empty, or_false, false_iff]
    rintro ⟨rfl, hs, _⟩
    omega
  | some q =>
    have hj : j < A.size := (Array.getElem?_eq_some_iff.mp hq).1
    rw [targets_of_getElem? hq]
    by_cases h : s = j
    · rw [targets_of_getElem? (hget.trans (by rw [if_pos h, hq]; rfl)), State.mem_targets_link]
      subst h
      simp [hj]
    · rw [targets_of_getElem? (hget.trans (by rw [if_neg h, hq]))]
      simp [Ne.symm h]

@[simp] theorem targets_accept : (A.accept s).targets i l = A.targets i l := by
  have hget : (A.accept s).states[i]? =
      if s = i then (A.states[i]?).map ({ · with accepting := true }) else A.states[i]? :=
    Array.getElem?_modify
  simp only [targets, hget]
  split
  · cases A.states[i]? <;> rfl
  · rfl

/-! ### Accepting states -/

@[simp] theorem accepting_addState : A.addState.accepting i = A.accepting i := by
  by_cases h : i < A.size
  · simp only [accepting, addState, Array.getElem?_push_lt h, Array.getElem?_eq_getElem h]
  · have hnone : A.states[i]? = none := Array.getElem?_eq_none (Nat.not_lt.mp h)
    by_cases hi : i = A.size
    · subst hi
      have hq : A.addState.states[A.size]? = some {} := by simp [addState, size]
      simp only [accepting, hq, hnone, Option.any_some, Option.any_none]
    · have hnone' : A.addState.states[i]? = none :=
        Array.getElem?_eq_none (by have := A.size_addState; simp only [size] at *; omega)
      simp only [accepting, hnone, hnone']

@[simp] theorem accepting_link : (A.link s l t).accepting i = A.accepting i := by
  have hget : (A.link s l t).states[i]? =
      if s = i then (A.states[i]?).map (·.link l t) else A.states[i]? :=
    Array.getElem?_modify
  simp only [accepting, hget]
  split
  · cases A.states[i]? <;> rfl
  · rfl

theorem accepting_accept : (A.accept s).accepting i ↔ (i = s ∧ s < A.size) ∨ A.accepting i := by
  have hget : (A.accept s).states[i]? =
      if s = i then (A.states[i]?).map ({ · with accepting := true }) else A.states[i]? :=
    Array.getElem?_modify
  simp only [accepting, hget]
  cases hq : A.states[i]? with
  | none =>
    have hi : A.size ≤ i := Array.getElem?_eq_none_iff.mp hq
    simp only [Option.map_none, ite_self, Option.any_none, Bool.false_eq_true, or_false, false_iff]
    rintro ⟨rfl, hs⟩
    omega
  | some q =>
    have hi : i < A.size := (Array.getElem?_eq_some_iff.mp hq).1
    split
    · next h => subst h; simp [hi]
    · next h => simp [Ne.symm h]

end Acceptor.Automaton
