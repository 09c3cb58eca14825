import Acceptor.Automaton.Fragment
import Acceptor.Proofs.Automaton.Path
import Mathlib.Computability.Language

/-!
# The languages of fragments

The operations on fragments change an automaton in place, so what a fragment means must be said within
an automaton that holds other states too. `A.Recognizes f R L` says that the states of `R` are closed
under transitions, that `f` is entered at a state that no transition enters and left at a state that no
transition leaves, and that the words of `L` are those that lead from the one to the other.

* An operation changes transitions of its own states only (`Confined`), so a fragment over other states
  keeps its meaning (`Recognizes.frame`).
* Each operation adds silent transitions out of one end of its operands. A path that starts among the
  states of an operand stays there until it takes such a transition for the first time
  (`Reads.first_exit`). The theorem for the operation follows by splitting words there.
-/

namespace Acceptor.Automaton

open Computability

variable {A B C : Automaton} {R S : Set Nat} {f g : Fragment} {L M : Language Char}
  {i j k x : Nat} {l : Label} {v w : List Char} {c : Char}

/-! ### What an operation leaves alone -/

/-- `B` has the states of `A` and perhaps more, and only transitions out of `R` were added. -/
structure Confined (A B : Automaton) (R : Set Nat) : Prop where
  size_le : A.size ≤ B.size
  targets_eq : ∀ i ∉ R, ∀ l, B.targets i l = A.targets i l
  targets_subset : ∀ i l, ∀ j ∈ A.targets i l, j ∈ B.targets i l
  accepting_eq : ∀ i, B.accepting i = A.accepting i

namespace Confined

theorem trans (h : A.Confined B R) (h' : B.Confined C R) : A.Confined C R where
  size_le := Nat.le_trans h.size_le h'.size_le
  targets_eq i hi l := (h'.targets_eq i hi l).trans (h.targets_eq i hi l)
  targets_subset i l j hj := h'.targets_subset i l j (h.targets_subset i l j hj)
  accepting_eq i := (h'.accepting_eq i).trans (h.accepting_eq i)

theorem mono (h : A.Confined B R) (hsub : R ⊆ S) : A.Confined B S where
  size_le := h.size_le
  targets_eq i hi := h.targets_eq i fun hR => hi (hsub hR)
  targets_subset := h.targets_subset
  accepting_eq := h.accepting_eq

theorem reads (h : A.Confined B R) (hw : A.Reads i w j) : B.Reads i w j :=
  hw.mono h.targets_subset

theorem addPair : A.Confined A.addPair R where
  size_le := by simp [Automaton.addPair]; omega
  targets_eq := by simp [Automaton.addPair]
  targets_subset := by simp [Automaton.addPair]
  accepting_eq := by simp [Automaton.addPair]

theorem link (hi : i ∈ R) : A.Confined (A.link i l j) R where
  size_le := by simp
  targets_eq k hk m := by
    have hne : k ≠ i := fun h => hk (h ▸ hi)
    apply Ascending.ext
    simp [hne]
  targets_subset := by
    intro k m u hu
    exact mem_targets_link.mpr (.inr hu)
  accepting_eq := by simp

end Confined

/-! ### Paths out of a region -/

def Closed (A : Automaton) (R : Set Nat) : Prop := ∀ i ∈ R, ∀ l, ∀ j ∈ A.targets i l, j ∈ R

/-- From the states of `R`, the automaton `B` has the transitions of `A` and silent ones from `x` to the
states of `E`. -/
def Adds (A B : Automaton) (R : Set Nat) (x : Nat) (E : Set Nat) : Prop :=
  ∀ i ∈ R, ∀ l j, j ∈ B.targets i l ↔ j ∈ A.targets i l ∨ i = x ∧ l = .epsilon ∧ j ∈ E

theorem Reads.mem_of_start_mem (hclosed : A.Closed R) (h : A.Reads i w j) (hi : i ∈ R) : j ∈ R := by
  induction h with
  | refl => exact hi
  | silent hstep _ ih => exact ih (hclosed _ hi _ _ hstep)
  | symbol hstep _ ih => exact ih (hclosed _ hi _ _ hstep)

/-- A path stays within a closed region until it takes an added transition. -/
theorem Reads.first_exit {E : Set Nat} (hclosed : A.Closed R) (hadds : A.Adds B R x E)
    (h : B.Reads i w k) (hi : i ∈ R) :
    A.Reads i w k ∨ ∃ u v, u ++ v = w ∧ A.Reads i u x ∧ ∃ e ∈ E, B.Reads e v k := by
  induction h with
  | refl i => exact .inl (.refl i)
  | @silent i j k w hstep hrest ih =>
    rcases (hadds i hi _ _).mp hstep with hold | ⟨rfl, _, hj⟩
    · rcases ih (hclosed i hi _ _ hold) with hreads | ⟨u, v, huv, hu, hexit⟩
      · exact .inl (.silent hold hreads)
      · exact .inr ⟨u, v, huv, .silent hold hu, hexit⟩
    · exact .inr ⟨[], w, rfl, .refl i, j, hj, hrest⟩
  | @symbol i j k c w hstep _ ih =>
    rcases (hadds i hi _ _).mp hstep with hold | ⟨_, hl, _⟩
    · rcases ih (hclosed i hi _ _ hold) with hreads | ⟨u, v, rfl, hu, hexit⟩
      · exact .inl (.symbol hold hreads)
      · exact .inr ⟨c :: u, v, rfl, .symbol hold hu, hexit⟩
    · cases hl

theorem Reads.eq_of_final (hfinal : ∀ l j, j ∉ A.targets i l) (h : A.Reads i w j) :
    w = [] ∧ i = j := by
  cases h with
  | refl => exact ⟨rfl, rfl⟩
  | silent hstep => exact absurd hstep (hfinal _ _)
  | symbol hstep => exact absurd hstep (hfinal _ _)

theorem Reads.eq_of_fresh (hclosed : A.Closed R) (hfresh : ∀ i ∈ R, ∀ l, k ∉ A.targets i l)
    (h : A.Reads i w k) (hi : i ∈ R) : w = [] ∧ i = k := by
  induction h with
  | refl => exact ⟨rfl, rfl⟩
  | silent hstep _ ih =>
    obtain ⟨_, rfl⟩ := ih hfresh (hclosed _ hi _ _ hstep)
    exact absurd hstep (hfresh _ hi _)
  | symbol hstep _ ih =>
    obtain ⟨_, rfl⟩ := ih hfresh (hclosed _ hi _ _ hstep)
    exact absurd hstep (hfresh _ hi _)

/-! ### Fragments that recognize languages -/

/-- Within the states of `R`, the fragment `f` leads over exactly the words of `L`. -/
structure Recognizes (A : Automaton) (f : Fragment) (R : Set Nat) (L : Language Char) : Prop where
  lt_size : ∀ i ∈ R, i < A.size
  closed : A.Closed R
  start_mem : f.start ∈ R
  stop_mem : f.stop ∈ R
  start_ne_stop : f.start ≠ f.stop
  fresh : ∀ i ∈ R, ∀ l, f.start ∉ A.targets i l
  final : ∀ l j, j ∉ A.targets f.stop l
  reads_iff : ∀ w, A.Reads f.start w f.stop ↔ w ∈ L

/-- From states that no change touched, everything is read as before. -/
theorem Confined.reads_iff (h : A.Confined B S) (hdisjoint : ∀ i ∈ R, i ∉ S) (hclosed : A.Closed R)
    (hi : i ∈ R) : B.Reads i w j ↔ A.Reads i w j := by
  constructor
  · intro hw
    induction hw with
    | refl => exact .refl _
    | silent hstep _ ih =>
      rw [h.targets_eq _ (hdisjoint _ hi)] at hstep
      exact .silent hstep (ih (hclosed _ hi _ _ hstep))
    | symbol hstep _ ih =>
      rw [h.targets_eq _ (hdisjoint _ hi)] at hstep
      exact .symbol hstep (ih (hclosed _ hi _ _ hstep))
  · exact h.reads

/-- A fragment keeps its meaning while other states change. -/
theorem Recognizes.frame (hf : A.Recognizes f R L) (h : A.Confined B S)
    (hdisjoint : ∀ i ∈ R, i ∉ S) : B.Recognizes f R L where
  lt_size i hi := Nat.lt_of_lt_of_le (hf.lt_size i hi) h.size_le
  closed i hi l := by
    rw [h.targets_eq i (hdisjoint i hi)]
    exact hf.closed i hi l
  start_mem := hf.start_mem
  stop_mem := hf.stop_mem
  start_ne_stop := hf.start_ne_stop
  fresh i hi l := by
    rw [h.targets_eq i (hdisjoint i hi)]
    exact hf.fresh i hi l
  final l := by
    rw [h.targets_eq _ (hdisjoint _ hf.stop_mem)]
    exact hf.final l
  reads_iff w := by
    rw [h.reads_iff hdisjoint hf.closed hf.start_mem]
    exact hf.reads_iff w

end Acceptor.Automaton
