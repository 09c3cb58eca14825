import Acceptor.Proofs.Search.Invariant

/-!
# What a successful search reports

A state is asked whether it accepts only after all its choices have failed, and the path tried last is
not taken back then. So the trail of a successful search is an accepting path with a tail: the silent
steps by which the walk left the accepting state for the last time, in vain.

The trail as a whole is connected and spells the input. It is itself an accepting path exactly if no
silent transition leaves the run of the accepting state, for only then is the tail empty, and no step
of a tail ends in an accepting state (`trail_of_accepted`). If no silent transitions leave accepting
states there is never a tail (`acceptingPath_of_accepted`).
-/

namespace Acceptor

/-! ### Runs -/

/-- The states entered since the last symbol, after one more step. -/
def Step.prolong (run : List Nat) (s : Step) : List Nat :=
  match s.label with
  | .epsilon => s.target :: run
  | .symbol _ => [s.target]

/-- The states that a trail from `start` has entered since its last symbol, the latest first. -/
def Trail.lastRun (start : Nat) (t : Trail) : List Nat := t.foldl Step.prolong [start]

namespace Automaton

variable {A : Automaton} {limit : Limit} {input : List Char} {v : Visit} {below : List Visit}
  {s : Step} {t : Trail} {r : Search}

/-- A visit stands where its path leads, with the rest of the input that the path leaves. -/
structure Reached (A : Automaton) (input : List Char) (v : Visit) : Prop where
  path : A.Path A.start v.path.reverse v.state
  word : Trail.consumed v.path.reverse ++ v.rest = input
  run : v.run = Trail.lastRun A.start v.path.reverse

theorem reached_first (A : Automaton) (input : List Char) : A.Reached input (.first A.start input) where
  path := .nil _
  word := rfl
  run := rfl

theorem Reached.enter (h : A.Reached input v) (hs : s ∈ A.choices v) :
    A.Reached input (v.enter s) := by
  obtain ⟨hpath, hword, hrun⟩ := h
  obtain ⟨hsource, htarget⟩ := mem_targets_of_mem_choices hs
  have hstep : s = ⟨v.state, s.label, s.target⟩ := by rw [← hsource]
  refine ⟨?_, ?_, ?_⟩
  · rw [Visit.path_enter, Visit.state_enter, List.reverse_cons, hstep]
    exact hpath.snoc htarget
  · rw [Visit.path_enter, List.reverse_cons, Trail.consumed_append, List.append_assoc, ← hword]
    congr 1
    rcases mem_choices_iff.mp hs with ⟨j, _, _, rfl⟩ | ⟨c, rest, hrest, j, _, rfl⟩
    · rfl
    · show [c] ++ v.rest.tail = v.rest
      rw [hrest]
      rfl
  · rw [Visit.path_enter, List.reverse_cons, Trail.lastRun, List.foldl_append, ← Trail.lastRun,
      ← hrun]
    show (v.enter s).run = Step.prolong v.run s
    unfold Visit.enter Step.prolong
    cases s.label <;> rfl

theorem Stacked.reached (h : A.Stacked (.first A.start input) v below) : A.Reached input v := by
  induction h with
  | root => exact reached_first A input
  | enter _ hs _ ih => exact ih.enter (List.mem_of_getElem? hs)

/-! ### Accepting paths -/

/-- The trail is a path from the start that spells the input and ends in an accepting state. -/
def AcceptingPath (A : Automaton) (input : List Char) (t : Trail) : Prop :=
  ∃ j, A.Path A.start t j ∧ t.consumed = input ∧ A.accepting j

theorem Path.exists_target_eq {i j : Nat} (h : A.Path i t j) (hne : t ≠ []) :
    ∃ s ∈ t, s.target = j := by
  induction h with
  | nil => exact absurd rfl hne
  | @cons i j k l t _ hrest ih =>
    cases t with
    | nil =>
      cases hrest
      exact ⟨_, List.mem_cons_self .., rfl⟩
    | cons s t =>
      obtain ⟨x, hx, hk⟩ := ih (by simp)
      exact ⟨x, List.mem_cons_of_mem _ hx, hk⟩

theorem choices_eq_nil_iff (hrest : v.rest = []) :
    A.choices v = [] ↔ ∀ j ∈ A.epsilons v.state, j ∈ v.run := by
  rw [List.eq_nil_iff_forall_not_mem]
  constructor
  · intro h j hj
    by_cases hrun : j ∈ v.run
    · exact hrun
    · exact absurd (mem_choices_iff.mpr (.inl ⟨j, hj, hrun, rfl⟩)) (h _)
  · intro h s hs
    rcases mem_choices_iff.mp hs with ⟨j, hj, hrun, _⟩ | ⟨c, rest, hcons, _⟩
    · exact hrun (h j hj)
    · simp [hrest] at hcons

/-- The trail of a successful search is an accepting path `u` and a tail `v` of silent steps that
accept nowhere. It is an accepting path as a whole exactly if `u` has already entered, since its last
symbol, all the silent targets of the state in which it ends. -/
theorem trail_of_accepted (h : A.search limit input = .ok r) (haccepted : r.accepted) :
    ∃ (u v : Trail) (q e : Nat), r.trail = u ++ v ∧
      A.Path A.start u q ∧ u.consumed = input ∧ A.accepting q ∧
      A.Path q v e ∧ v.consumed = [] ∧ (∀ s ∈ v, ¬A.accepting s.target) ∧
      (A.AcceptingPath input r.trail ↔ ∀ j ∈ A.epsilons q, j ∈ u.lastRun A.start) := by
  have hconcluded := concluded_of_search h
  rw [haccepted] at hconcluded
  generalize hlast : r.trail.reverse = last at hconcluded
  cases hconcluded with
  | @accepted x below hstacked hrest hacc hfail =>
    obtain ⟨hpath, hword, hrun⟩ := hstacked.reached
    rw [hrest, List.append_nil] at hword
    have htrail : r.trail = x.path.reverse ++ A.drift x := by
      rw [← r.trail.reverse_reverse, hlast, List.reverse_append, List.reverse_reverse]
    obtain ⟨e, rest, hdrift, hspell⟩ := exists_path_drift A x
    rw [hrest] at hspell
    have hsilent : Trail.consumed (A.drift x) = [] := (List.append_eq_nil_iff.mp hspell).1
    have htail := not_accepting_of_mem_drift hrest hfail
    refine ⟨_, _, _, e, htrail, hpath, hword, hacc, hdrift, hsilent, htail, ?_⟩
    rw [← hrun, ← choices_eq_nil_iff hrest, ← drift_eq_nil_iff, htrail]
    refine ⟨fun h => ?_, fun hnil => ?_⟩
    · obtain ⟨j, hj, _, hacc'⟩ := h
      by_cases hnil : A.drift x = []
      · exact hnil
      · obtain ⟨s, hs, htarget⟩ := hdrift.exists_target_eq hnil
        obtain rfl : e = j := (hpath.append hdrift).end_unique hj
        exact absurd (htarget ▸ hacc') (htail s hs)
    · rw [hnil, List.append_nil]
      exact ⟨_, hpath, hword, hacc⟩

/-- Two states, of which the first accepts and has a silent transition to the second. -/
def detour : Automaton := (({} : Automaton).addState.addState.connect 0 1).accept 0

theorem trail_of_accepted_detour :
    ∃ (u v : Trail) (q e : Nat), [⟨0, .epsilon, 1⟩] = u ++ v ∧
      detour.Path detour.start u q ∧ u.consumed = [] ∧ detour.accepting q ∧
      detour.Path q v e ∧ v.consumed = [] ∧ (∀ s ∈ v, ¬detour.accepting s.target) ∧
      (detour.AcceptingPath [] [⟨0, .epsilon, 1⟩] ↔
        ∀ j ∈ detour.epsilons q, j ∈ u.lastRun detour.start) := by
  have h : detour.search none [] = .ok ⟨true, [⟨0, .epsilon, 1⟩]⟩ := by cbv
  exact trail_of_accepted h rfl

/-- The start of `detour` accepts the empty word, yet the trail reported leads away from it. -/
theorem not_acceptingPath_detour :
    ∃ r, detour.search none [] = .ok r ∧ r.accepted ∧ ¬detour.AcceptingPath [] r.trail := by
  refine ⟨⟨true, [⟨0, .epsilon, 1⟩]⟩, by cbv, rfl, ?_⟩
  rintro ⟨j, hpath, _, hacc⟩
  cases hpath with
  | cons _ hrest =>
    cases hrest
    exact absurd hacc (by decide)

/-- If accepting states have no silent transitions, a successful search reports an accepting path. -/
theorem acceptingPath_of_accepted (hsilent : ∀ q, A.accepting q → A.epsilons q = ∅)
    (h : A.search limit input = .ok r) (haccepted : r.accepted) :
    A.AcceptingPath input r.trail := by
  obtain ⟨u, v, q, e, _, _, _, hacc, _, _, _, hiff⟩ := trail_of_accepted h haccepted
  apply hiff.mpr
  intro j hj
  rw [hsilent q hacc] at hj
  exact absurd hj (Ascending.not_mem_empty j)

end Automaton

end Acceptor
