import Acceptor.Proofs.Automaton.Closure
import Mathlib.Logic.Relation

/-!
# Closure in whatever order

The closure of a set holds what chains of silent transitions reach from it, and nothing else
(`mem_closure_iff_chain`). Hence it is a closure operator, and it distributes over unions.

`Automaton.closeOver` follows the pending identifiers in one particular order. `A.Saturates w w'` leaves
the order open: any pending identifier may be followed next, and what it brings in may be put anywhere.
What is known between two steps (`Midway`) does not depend on the order. So a run can go on as long as
something is pending, it has to end (`wellFounded_saturates`), and it ends with the closure
(`Midway.eq_closure`).
-/

namespace Acceptor.Automaton

open Relation

variable {A : Automaton} {S T found : IdSet} {pending next : List Nat} {i j : Nat}

/-! ### Chains of silent transitions -/

def Silent (A : Automaton) (i j : Nat) : Prop := j ∈ A.epsilons i

theorem reads_nil_iff_chain : A.Reads i [] j ↔ ReflTransGen A.Silent i j := by
  constructor
  · intro h
    generalize hw : ([] : List Char) = w at h
    induction h with
    | refl => exact .refl
    | silent hstep _ ih => exact .head hstep (ih hw)
    | symbol => cases hw
  · intro h
    induction h with
    | refl => exact .refl _
    | tail _ hstep ih => exact ih.trans (.of_silent hstep)

theorem mem_closure_iff_chain : i ∈ A.closure S ↔ ∃ j ∈ S, ReflTransGen A.Silent j i := by
  simp only [mem_closure_iff, reads_nil_iff_chain]

theorem subset_closure (h : i ∈ S) : i ∈ A.closure S := mem_closure_iff_chain.mpr ⟨i, h, .refl⟩

theorem closure_mono (hsub : ∀ i ∈ S, i ∈ T) (h : i ∈ A.closure S) : i ∈ A.closure T := by
  obtain ⟨j, hj, hchain⟩ := mem_closure_iff_chain.mp h
  exact mem_closure_iff_chain.mpr ⟨j, hsub j hj, hchain⟩

theorem closure_closure (A : Automaton) (S : IdSet) : A.closure (A.closure S) = A.closure S := by
  apply Ascending.ext
  intro i
  constructor
  · intro h
    obtain ⟨j, hj, hchain⟩ := mem_closure_iff_chain.mp h
    obtain ⟨k, hk, hchain'⟩ := mem_closure_iff_chain.mp hj
    exact mem_closure_iff_chain.mpr ⟨k, hk, hchain'.trans hchain⟩
  · exact subset_closure

theorem closure_union (A : Automaton) (S T : IdSet) :
    A.closure (S ∪ T) = A.closure S ∪ A.closure T := by
  apply Ascending.ext
  intro i
  simp only [Ascending.mem_union, mem_closure_iff_chain, or_and_right, exists_or]

/-! ### Saturating in any order -/

/-- What was found so far, and what of it is still to be followed. -/
structure Worklist where
  found : IdSet
  pending : List Nat

/-- One of the pending identifiers is followed. The targets that were not found before are found now and
become pending. -/
inductive Saturates (A : Automaton) : Worklist → Worklist → Prop
  | follow {found : IdSet} {id : Nat} {pending rest next : List Nat} :
      pending.Perm (id :: rest) →
      next.Perm (((A.epsilons id).filter (· ∉ found)).toList ++ rest) →
        A.Saturates ⟨found, pending⟩ ⟨found ∪ (A.epsilons id).filter (· ∉ found), next⟩

theorem exists_saturates (A : Automaton) {w : Worklist} (h : w.pending ≠ []) :
    ∃ w', A.Saturates w w' := by
  obtain ⟨found, pending⟩ := w
  obtain ⟨id, rest, rfl⟩ := List.exists_cons_of_ne_nil h
  exact ⟨_, .follow (.refl _) (.refl _)⟩

def Worklist.left (A : Automaton) (w : Worklist) : Nat × Nat :=
  ((A.unfound w.found.toList).size, w.pending.length)

/-- A step that finds something leaves less to be found, and one that finds nothing leaves less pending. -/
theorem Saturates.left_lt {w w' : Worklist} (h : A.Saturates w w') :
    Prod.Lex (· < ·) (· < ·) (w'.left A) (w.left A) := by
  cases h with
  | @follow found id pending rest next hpending hnext =>
    by_cases hnone : (A.epsilons id).filter (· ∉ found) = ∅
    · have hlength := hpending.length_eq
      have hlength' := hnext.length_eq
      rw [hnone] at hlength' ⊢
      have hlt : next.length < pending.length := by
        rw [hlength, hlength']
        exact Nat.lt_succ_self rest.length
      exact .right _ hlt
    · obtain ⟨i, hi⟩ := Ascending.exists_mem_of_ne_empty hnone
      obtain ⟨hstep, hfound⟩ := Ascending.mem_filter.mp hi
      refine .left _ _ (size_unfound_lt (fun j hj => ?_) (mem_allTargets hstep) ?_ ?_)
      · exact Ascending.mem_union.mpr (.inl hj)
      · simpa using hfound
      · exact Ascending.mem_union.mpr (.inr hi)

theorem wellFounded_saturates (A : Automaton) : WellFounded fun w' w => A.Saturates w w' :=
  Subrelation.wf (fun h => h.left_lt)
    (InvImage.wf (Worklist.left A) (Prod.lex Nat.lt_wfRel Nat.lt_wfRel).wf)

theorem saturates_closeOver (A : Automaton) (found : IdSet) (pending : List Nat) :
    ReflTransGen A.Saturates ⟨found, pending⟩ ⟨A.closeOver found pending, []⟩ := by
  fun_induction closeOver A found pending with
  | case1 => exact .refl
  | case2 found id pending fresh ih => exact .head (.follow (.refl _) (.refl _)) ih

/-- What is known while the closure of `S` is computed. -/
structure Midway (A : Automaton) (S : IdSet) (w : Worklist) : Prop where
  given : ∀ i ∈ S, i ∈ w.found
  reached : ∀ i ∈ w.found, i ∈ A.closure S
  pending : ∀ i ∈ w.pending, i ∈ w.found
  settled : A.Settled w.found w.pending

namespace Midway

variable {w w' : Worklist}

theorem start (A : Automaton) (S : IdSet) : A.Midway S ⟨S, S.toList⟩ where
  given _ hi := hi
  reached _ hi := subset_closure hi
  pending _ hi := hi
  settled _ hi hpending := absurd hi hpending

theorem step (h : A.Midway S w) (hstep : A.Saturates w w') : A.Midway S w' := by
  cases hstep with
  | @follow found id pending rest next hpending hnext =>
    have hid : id ∈ found := h.pending id (hpending.mem_iff.mpr (List.mem_cons_self ..))
    have hsettled : A.Settled found (id :: rest) := fun i hi hnot =>
      h.settled i hi (mt hpending.mem_iff.mp hnot)
    refine ⟨fun i hi => Ascending.mem_union.mpr (.inl (h.given i hi)), ?_, ?_, ?_⟩
    · intro i hi
      rcases Ascending.mem_union.mp hi with hi | hi
      · exact h.reached i hi
      · exact epsilons_subset_closure (h.reached id hid) (Ascending.mem_filter.mp hi).1
    · intro i hi
      rcases List.mem_append.mp (hnext.mem_iff.mp hi) with hi | hi
      · exact Ascending.mem_union.mpr (.inr hi)
      · have hmem : i ∈ pending := hpending.mem_iff.mpr (List.mem_cons_of_mem _ hi)
        exact Ascending.mem_union.mpr (.inl (h.pending i hmem))
    · exact fun i hi hnot => hsettled.follow i hi (mt hnext.mem_iff.mpr hnot)

theorem run (h : A.Midway S w) (hrun : ReflTransGen A.Saturates w w') : A.Midway S w' := by
  induction hrun with
  | refl => exact h
  | tail _ hstep ih => exact ih.step hstep

theorem eq_closure (h : A.Midway S w) (hpending : w.pending = []) : w.found = A.closure S := by
  apply Ascending.ext
  intro i
  refine ⟨h.reached i, fun hi => ?_⟩
  obtain ⟨j, hj, hchain⟩ := mem_closure_iff_chain.mp hi
  induction hchain with
  | refl => exact h.given _ hj
  | tail hchain hstep ih =>
    have hfound := ih (mem_closure_iff_chain.mpr ⟨j, hj, hchain⟩)
    exact h.settled _ hfound (by simp [hpending]) _ hstep

end Midway

/-- The closure of a set holds exactly what chains of silent transitions reach from it. It is extensive,
monotone, idempotent and distributes over unions. Whatever is followed first, a run that begins with the
set comes to an end, and where nothing is pending the closure was found. -/
theorem closure_spec (A : Automaton) (S : IdSet) :
    (∀ i, i ∈ A.closure S ↔ ∃ j ∈ S, ReflTransGen A.Silent j i) ∧
    (∀ i ∈ S, i ∈ A.closure S) ∧
    (∀ T : IdSet, (∀ i ∈ S, i ∈ T) → ∀ i ∈ A.closure S, i ∈ A.closure T) ∧
    A.closure (A.closure S) = A.closure S ∧
    (∀ T, A.closure (S ∪ T) = A.closure S ∪ A.closure T) ∧
    (WellFounded fun w' w => A.Saturates w w') ∧
    ReflTransGen A.Saturates ⟨S, S.toList⟩ ⟨A.closure S, []⟩ ∧
    ∀ w, ReflTransGen A.Saturates ⟨S, S.toList⟩ w →
      (w.pending = [] → w.found = A.closure S) ∧ (w.pending ≠ [] → ∃ w', A.Saturates w w') := by
  refine ⟨fun i => mem_closure_iff_chain, fun i => subset_closure, fun T hsub i => closure_mono hsub,
    closure_closure A S, closure_union A S, wellFounded_saturates A, saturates_closeOver A S _,
    fun w hrun => ⟨?_, exists_saturates A⟩⟩
  exact ((Midway.start A S).run hrun).eq_closure

end Acceptor.Automaton
