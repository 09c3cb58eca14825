import Acceptor.Automaton.Basic

/-!
# Walking an automaton depth first

A walk goes through all ways of reading an input. It keeps one visit for each state on the current
path, the latest on top, and a visit remembers which of its choices were tried. From a state, silent
transitions are tried first, then those on the next symbol, each by ascending target. A silent
transition to a state that was already entered since the last symbol is no choice, which keeps every
path finite. A state is asked whether it accepts only after all its choices were tried.

`Automaton.next` is one turn of a walk. It makes `Automaton.weight` smaller, so every walk ends.
-/

namespace Acceptor

/-- A state on the current path. -/
structure Visit where
  state : Nat
  /-- The input that is not yet consumed. -/
  rest : List Char
  /-- The states entered since the last symbol was consumed, this one first. -/
  run : List Nat
  /-- The steps from the start, the latest first. -/
  path : List Step
  tried : Nat := 0
deriving DecidableEq, Repr

namespace Visit

def first (start : Nat) (input : List Char) : Visit where
  state := start
  rest := input
  run := [start]
  path := []

def enter (v : Visit) (s : Step) : Visit :=
  match s.label with
  | .epsilon => { state := s.target, rest := v.rest, run := s.target :: v.run, path := s :: v.path }
  | .symbol _ => { state := s.target, rest := v.rest.tail, run := [s.target], path := s :: v.path }

variable {v : Visit} {s : Step}

@[simp] theorem state_enter : (v.enter s).state = s.target := by
  unfold enter
  split <;> rfl

@[simp] theorem path_enter : (v.enter s).path = s :: v.path := by
  unfold enter
  split <;> rfl

@[simp] theorem tried_enter : (v.enter s).tried = 0 := by
  unfold enter
  split <;> rfl

end Visit

/-- The state of a walk. -/
structure Walk where
  /-- The visits on the current path, the latest first. -/
  stack : List Visit
  /-- The paths that were tried, the latest first; in each of them the last step stands first. -/
  attempts : List (List Step) := []
deriving DecidableEq, Repr

def Walk.begin (start : Nat) (input : List Char) : Walk where
  stack := [.first start input]

/-- What one turn of a walk does. -/
inductive Turn where
  | enter (w : Walk)
  /-- The latest visit had no choice left, and without it the walk is `w`. -/
  | leave (w : Walk)
  | done (accepted : Bool)
deriving DecidableEq, Repr

namespace Automaton

/-- The silent steps from a visit that do not return to its run. -/
def silentChoices (A : Automaton) (v : Visit) : List Step :=
  ((A.epsilons v.state).filter (· ∉ v.run)).toList.map (⟨v.state, .epsilon, ·⟩)

def symbolChoices (A : Automaton) (v : Visit) : List Step :=
  match v.rest with
  | [] => []
  | c :: _ => (A.targets v.state (.symbol c)).toList.map (⟨v.state, .symbol c, ·⟩)

/-- The steps that may be tried from a visit, in the order in which they are. -/
def choices (A : Automaton) (v : Visit) : List Step := A.silentChoices v ++ A.symbolChoices v

/-- One turn of a walk. -/
def next (A : Automaton) (w : Walk) : Turn :=
  match w.stack with
  | [] => .done false
  | v :: below =>
    match (A.choices v)[v.tried]? with
    | some s =>
      .enter
        { stack := v.enter s :: { v with tried := v.tried + 1 } :: below
          attempts := (s :: v.path) :: w.attempts }
    | none =>
      if v.rest.isEmpty && A.accepting v.state then .done true
      else .leave { w with stack := below }

theorem exists_of_next_enter {A : Automaton} {w w' : Walk} (h : A.next w = .enter w') :
    ∃ v below s, w.stack = v :: below ∧ (A.choices v)[v.tried]? = some s ∧
      w' = ⟨v.enter s :: { v with tried := v.tried + 1 } :: below, (s :: v.path) :: w.attempts⟩ := by
  unfold next at h
  split at h
  · cases h
  · next v below hstack =>
    split at h
    · next s hs =>
      cases h
      exact ⟨v, below, s, hstack, hs, rfl⟩
    · split at h <;> cases h

theorem exists_of_next_leave {A : Automaton} {w w' : Walk} (h : A.next w = .leave w') :
    ∃ v below, w.stack = v :: below ∧ (A.choices v)[v.tried]? = none ∧
      ¬(v.rest = [] ∧ A.accepting v.state) ∧ w' = ⟨below, w.attempts⟩ := by
  unfold next at h
  split at h
  · cases h
  · next v below hstack =>
    split at h
    · cases h
    · next hnone =>
      split at h
      · cases h
      · next haccept =>
        cases h
        exact ⟨v, below, hstack, hnone, by simpa using haccept, rfl⟩

theorem exists_of_next_done {A : Automaton} {w : Walk} {accepted : Bool}
    (h : A.next w = .done accepted) :
    accepted = false ∧ w.stack = [] ∨
      accepted = true ∧ ∃ v below, w.stack = v :: below ∧ (A.choices v)[v.tried]? = none ∧
        v.rest = [] ∧ A.accepting v.state := by
  unfold next at h
  split at h
  · next hstack =>
    cases h
    exact .inl ⟨rfl, hstack⟩
  · next v below hstack =>
    split at h
    · cases h
    · next hnone =>
      split at h
      · next haccept =>
        cases h
        have : v.rest = [] ∧ A.accepting v.state := by simpa using haccept
        exact .inr ⟨rfl, v, below, hstack, hnone, this⟩
      · cases h

/-! ### Every walk ends -/

/-- A bound on the number of further steps on a path through `v`. -/
def rank (A : Automaton) (v : Visit) : Nat :=
  v.rest.length * (A.allTargets.size + 1) + (A.unfound v.run).size

/-- A bound on the number of turns that one choice of a visit with rank `r` takes. -/
def choiceWeight (A : Automaton) : Nat → Nat
  | 0 => 1
  | r + 1 => (2 * A.allTargets.size + 2) * A.choiceWeight r

/-- A bound on the number of turns that a visit takes, those of later visits included. -/
def visitWeight (A : Automaton) (v : Visit) : Nat :=
  1 + ((A.choices v).length - v.tried) * A.choiceWeight (A.rank v)

def stackWeight (A : Automaton) : List Visit → Nat
  | [] => 0
  | v :: below => A.visitWeight v + A.stackWeight below

def weight (A : Automaton) (w : Walk) : Nat := A.stackWeight w.stack

theorem choiceWeight_pos (A : Automaton) (r : Nat) : 0 < A.choiceWeight r := by
  induction r with
  | zero => exact Nat.one_pos
  | succ r ih => exact Nat.mul_pos (by omega) ih

theorem choiceWeight_mono (A : Automaton) {r s : Nat} (h : r ≤ s) :
    A.choiceWeight r ≤ A.choiceWeight s := by
  induction h with
  | refl => exact Nat.le_refl _
  | step _ ih => exact Nat.le_trans ih (Nat.le_mul_of_pos_left _ (by omega))

theorem length_choices_le (A : Automaton) (v : Visit) :
    (A.choices v).length ≤ 2 * A.allTargets.size := by
  have h₁ : (A.silentChoices v).length ≤ A.allTargets.size := by
    simp only [silentChoices, List.length_map]
    exact Nat.le_trans (Ascending.size_filter_le _ _)
      (Ascending.size_le_of_subset fun _ h => mem_allTargets h)
  have h₂ : (A.symbolChoices v).length ≤ A.allTargets.size := by
    simp only [symbolChoices]
    split
    · exact Nat.zero_le _
    · simp only [List.length_map]
      exact Ascending.size_le_of_subset fun _ h => mem_allTargets h
  simp only [choices, List.length_append]
  omega

theorem rank_enter_lt {A : Automaton} {v : Visit} {s : Step} (h : s ∈ A.choices v) :
    A.rank (v.enter s) < A.rank v := by
  simp only [choices, List.mem_append] at h
  rcases h with h | h
  · simp only [silentChoices, List.mem_map, Ascending.mem_toList, Ascending.mem_filter,
      decide_eq_true_eq] at h
    obtain ⟨t, ⟨ht, hrun⟩, rfl⟩ := h
    have : (A.unfound (t :: v.run)).size < (A.unfound v.run).size :=
      size_unfound_lt (fun i hi => List.mem_cons_of_mem _ hi) (mem_allTargets ht) hrun
        (List.mem_cons_self ..)
    simp only [rank, Visit.enter]
    omega
  · simp only [symbolChoices] at h
    split at h
    · exact absurd h List.not_mem_nil
    · next c rest hrest =>
      obtain ⟨t, _, rfl⟩ := List.mem_map.mp h
      have hle : (A.unfound [t]).size ≤ A.allTargets.size := Ascending.size_filter_le _ _
      simp only [rank, Visit.enter, hrest, List.tail_cons, List.length_cons, Nat.succ_mul]
      omega

theorem visitWeight_enter_lt {A : Automaton} {v : Visit} {s : Step} (h : s ∈ A.choices v) :
    A.visitWeight (v.enter s) < A.choiceWeight (A.rank v) := by
  have hlen := A.length_choices_le (v.enter s)
  have hpos := A.choiceWeight_pos (A.rank (v.enter s))
  rw [visitWeight, Visit.tried_enter, Nat.sub_zero]
  calc 1 + (A.choices (v.enter s)).length * A.choiceWeight (A.rank (v.enter s))
      < (A.choices (v.enter s)).length * A.choiceWeight (A.rank (v.enter s)) +
          2 * A.choiceWeight (A.rank (v.enter s)) := by omega
    _ = ((A.choices (v.enter s)).length + 2) * A.choiceWeight (A.rank (v.enter s)) := by
        rw [Nat.add_mul]
    _ ≤ (2 * A.allTargets.size + 2) * A.choiceWeight (A.rank (v.enter s)) :=
        Nat.mul_le_mul_right _ (by omega)
    _ ≤ A.choiceWeight (A.rank v) := A.choiceWeight_mono (rank_enter_lt h)

/-- A step that is tried takes its share from the visit, and the new visit weighs less than that. -/
theorem weight_enter_lt {A : Automaton} {v : Visit} {s : Step} {below : List Visit}
    {attempts attempts' : List (List Step)} (h : (A.choices v)[v.tried]? = some s) :
    A.weight ⟨v.enter s :: { v with tried := v.tried + 1 } :: below, attempts⟩ <
      A.weight ⟨v :: below, attempts'⟩ := by
  obtain ⟨htried, hs⟩ := List.getElem?_eq_some_iff.mp h
  have hnew := visitWeight_enter_lt (hs ▸ List.getElem_mem htried)
  have hrest : A.visitWeight { v with tried := v.tried + 1 } =
      1 + ((A.choices v).length - (v.tried + 1)) * A.choiceWeight (A.rank v) := rfl
  have hshare : ((A.choices v).length - v.tried) * A.choiceWeight (A.rank v) =
      ((A.choices v).length - (v.tried + 1)) * A.choiceWeight (A.rank v) +
        A.choiceWeight (A.rank v) := by
    rw [← Nat.succ_mul]
    congr 1
    omega
  have hv : A.visitWeight v =
      1 + ((A.choices v).length - v.tried) * A.choiceWeight (A.rank v) := rfl
  simp only [weight, stackWeight]
  omega

theorem weight_lt_of_next_enter {A : Automaton} {w w' : Walk} (h : A.next w = .enter w') :
    A.weight w' < A.weight w := by
  obtain ⟨v, below, s, hstack, hs, rfl⟩ := exists_of_next_enter h
  have hw : A.weight w = A.weight ⟨v :: below, w.attempts⟩ := by rw [weight, weight, hstack]
  rw [hw]
  exact weight_enter_lt hs

theorem weight_lt_of_next_leave {A : Automaton} {w w' : Walk} (h : A.next w = .leave w') :
    A.weight w' < A.weight w := by
  obtain ⟨v, below, hstack, _, _, rfl⟩ := exists_of_next_leave h
  simp only [weight, hstack, stackWeight, visitWeight]
  omega

end Automaton

end Acceptor
