import Acceptor.Proofs.Automaton.Trim
import Acceptor.Proofs.Regex.Language
import Mathlib.Order.Interval.Set.LinearOrder

/-!
# The shape of a compiled automaton

All the states that are added for an expression lie between the start and the stop of its fragment
(`Regex.fills_build`), so in the automaton of a pattern the fragment is all there is. With what is
known of fragments this gives the shape of such an automaton: no state is useless, no transition enters
the start, none leaves the stop, and only the stop accepts (`compiled_of_ofPattern`).
-/

namespace Acceptor

namespace Automaton

variable {A : Automaton} {p q : Automaton × Fragment}

/-! ### Expressions -/

/-- The states that were added to `A` are the states of a trim fragment. -/
structure Fills (A : Automaton) (p : Automaton × Fragment) : Prop where
  confined : A.Confined p.1 Set.univ
  trim : p.1.Trim p.2 (Set.Ico A.size p.1.size)

theorem fills_link (A : Automaton) (l : Label) :
    A.Fills (A.addPair.link A.size l (A.size + 1), A.newPair) where
  confined := Confined.addPair.trans (.link trivial)
  trim := by
    have htrim := trim_link A l
    rw [newStates_eq_Ico] at htrim
    rwa [size_link, size_addPair]

theorem fills_literal (A : Automaton) (c : Char) : A.Fills (A.literal c) :=
  fills_link A (.symbol c)

theorem fills_empty (A : Automaton) : A.Fills A.empty :=
  fills_link A .epsilon

theorem Fills.both (hp : A.Fills p) (hq : p.1.Fills q) :
    A.Confined q.1 Set.univ ∧ ∃ R S, R ∪ S = Set.Ico A.size q.1.size ∧
      q.1.Trim p.2 R ∧ q.1.Trim q.2 S := by
  refine ⟨hp.confined.trans hq.confined, _, _, ?_, hp.trim.frame hq.confined, hq.trim⟩
  exact Set.Ico_union_Ico_eq_Ico hp.confined.size_le hq.confined.size_le

theorem Fills.concat (hp : A.Fills p) (hq : p.1.Fills q) : A.Fills (q.1.concat p.2 q.2) := by
  obtain ⟨hconfined, R, S, hunion, hR, hS⟩ := hp.both hq
  refine ⟨hconfined.trans confined_concat, ?_⟩
  rw [size_concat, ← hunion]
  exact hR.concat hS

theorem Ico_union_newStates {B : Automaton} (h : A.size ≤ B.size) :
    Set.Ico A.size B.size ∪ B.newStates = Set.Ico A.size (B.size + 2) := by
  rw [newStates_eq_Ico]
  exact Set.Ico_union_Ico_eq_Ico h (Nat.le_add_right ..)

theorem Fills.union (hp : A.Fills p) (hq : p.1.Fills q) : A.Fills (q.1.union p.2 q.2) := by
  obtain ⟨hconfined, R, S, hunion, hR, hS⟩ := hp.both hq
  refine ⟨hconfined.trans confined_union, ?_⟩
  rw [size_union, ← Ico_union_newStates hconfined.size_le, ← hunion]
  exact hR.union hS

theorem Fills.union_swap (hp : A.Fills p) (hq : p.1.Fills q) : A.Fills (q.1.union q.2 p.2) := by
  obtain ⟨hconfined, R, S, hunion, hR, hS⟩ := hp.both hq
  refine ⟨hconfined.trans confined_union, ?_⟩
  rw [size_union, ← Ico_union_newStates hconfined.size_le, ← hunion, Set.union_comm R S]
  exact hS.union hR

theorem Fills.repeated (hp : A.Fills p) (op : Repetition) : A.Fills (p.1.repeated p.2 op) := by
  obtain ⟨hconfined, hR⟩ := hp
  cases op with
  | star =>
    refine ⟨(hconfined.trans confined_plus).trans confined_optional, ?_⟩
    show (p.1.star p.2).1.Trim _ (Set.Ico A.size (p.1.star p.2).1.size)
    rw [size_star, ← Ico_union_newStates hconfined.size_le]
    exact hR.star
  | plus =>
    refine ⟨hconfined.trans confined_plus, ?_⟩
    show (p.1.plus p.2).1.Trim _ (Set.Ico A.size (p.1.plus p.2).1.size)
    rw [size_plus, ← Ico_union_newStates hconfined.size_le]
    exact hR.plus
  | optional =>
    refine ⟨hconfined.trans confined_optional, ?_⟩
    show (p.1.optional p.2).1.Trim _ (Set.Ico A.size (p.1.optional p.2).1.size)
    rw [size_optional]
    exact hR.optional

end Automaton

open Automaton in
/-- The states added for an expression are those of a trim fragment. -/
theorem Regex.fills_build (r : Regex) (A : Automaton) : A.Fills (r.build A) := by
  fun_induction Regex.build A r with
  | case1 A => exact fills_empty A
  | case2 A c => exact fills_literal A c
  | case3 A r ih => exact ih
  | case4 A l r B f hl C g hr ihl ihr =>
    rw [hl] at ihl
    rw [hr] at ihr
    have hconcat := ihl.concat ihr
    exact hconcat
  | case5 A r B g hr C f hempty ih =>
    -- The empty alternative is built last, although it stands first.
    rw [hr] at ih
    have hlast := fills_empty B
    rw [hempty] at hlast
    have hunion := ih.union_swap hlast
    exact hunion
  | case6 A l r _ B f hl C g hr ihl ihr =>
    rw [hl] at ihl
    rw [hr] at ihr
    have hunion := ihl.union ihr
    exact hunion
  | case7 A r op B f hr ih =>
    rw [hr] at ih
    have hrepeated := ih.repeated op
    exact hrepeated

/-! ### Patterns -/

namespace Automaton

variable {A : Automaton} {f : Fragment} {R : Set Nat} {L : Language Char} {p : Automaton × Fragment}

theorem Recognizes.finish (hf : A.Recognizes f R L) : (A.finish f).Recognizes f R L where
  lt_size i hi := size_finish.symm ▸ hf.lt_size i hi
  closed i hi l := by
    rw [targets_finish]
    exact hf.closed i hi l
  start_mem := hf.start_mem
  stop_mem := hf.stop_mem
  start_ne_stop := hf.start_ne_stop
  fresh i hi l := by
    rw [targets_finish]
    exact hf.fresh i hi l
  final l := by
    rw [targets_finish]
    exact hf.final l
  reads_iff w := reads_finish_iff.trans (hf.reads_iff w)

theorem Trim.finish (hf : A.Trim f R) : (A.finish f).Trim f R where
  lt_size i hi := size_finish.symm ▸ hf.lt_size i hi
  start_mem := hf.start_mem
  stop_mem := hf.stop_mem
  entered i hi := by
    obtain ⟨w, hw⟩ := hf.entered i hi
    exact ⟨w, reads_finish_iff.mpr hw⟩
  left i hi := by
    obtain ⟨w, hw⟩ := hf.left i hi
    exact ⟨w, reads_finish_iff.mpr hw⟩

/-- All states lie between the start, which no transition enters, and the stop, which no transition
leaves and which alone accepts. -/
structure Compiled (A : Automaton) : Prop where
  accepting_iff : ∀ i, A.accepting i ↔ i = A.stop
  trim : A.Trim ⟨A.start, A.stop⟩ {i | i < A.size}
  recognizes : ∃ L, A.Recognizes ⟨A.start, A.stop⟩ {i | i < A.size} L

theorem Builds.compiled_finish (h : ({} : Automaton).Builds p L) (hfills : ({} : Automaton).Fills p) :
    (p.1.finish p.2).Compiled := by
  obtain ⟨R, _, hR⟩ := h.recognizes
  have htrim := hfills.trim
  have hall : Set.Ico ({} : Automaton).size p.1.size = {i | i < p.1.size} :=
    Set.ext fun i => ⟨fun hi => hi.2, fun hi => ⟨Nat.zero_le i, hi⟩⟩
  rw [hall] at htrim
  -- Whatever the start reaches is in `R`, and it reaches all states.
  have hregion : R = {i | i < p.1.size} := by
    ext i
    refine ⟨hR.lt_size i, fun hi => ?_⟩
    obtain ⟨w, hw⟩ := htrim.entered i hi
    exact hw.mem_of_start_mem hR.closed hR.start_mem
  subst hregion
  have hsize : (p.1.finish p.2).size = p.1.size := size_finish
  refine ⟨h.accepting_finish_iff, ?_, L, ?_⟩
  · rw [hsize]
    exact htrim.finish
  · rw [hsize]
    exact hR.finish

/-- What a pattern is compiled into has no useless state and one that accepts. -/
theorem compiled_of_ofPattern {limit : Nat} {pattern : List Char}
    (h : ofPattern limit pattern = .ok A) : A.Compiled := by
  rw [ofPattern_eq] at h
  cases hr : Regex.parse limit 0 0 {} pattern with
  | error e => rw [hr] at h; cases h
  | ok r =>
    rw [hr] at h
    cases h
    exact (r.builds_build {}).compiled_finish (r.fills_build {})

end Automaton

end Acceptor
