import Acceptor.Automaton.Lemmas

/-!
# Paths and the words they spell

`A.Path i t j` says that the steps of the trail `t` are transitions of `A`, each leaving the state that
the step before it entered, and that they lead from `i` to `j`. `A.Reads i w j` forgets the states in
between and keeps the word: some path from `i` to `j` spells `w` (`reads_iff_exists_path`).

Proofs about words go by induction on `Reads`, proofs about what a search reports by induction on
`Path`.
-/

namespace Acceptor

namespace Trail

@[simp] theorem consumed_nil : consumed [] = [] := rfl

@[simp] theorem consumed_cons (s : Step) (t : Trail) :
    consumed (s :: t) = s.label.symbol?.toList ++ consumed t := by
  rw [consumed, consumed, List.filterMap_cons]
  cases s.label.symbol? <;> rfl

@[simp] theorem consumed_append (t u : Trail) : consumed (t ++ u) = consumed t ++ consumed u :=
  List.filterMap_append

end Trail

namespace Automaton

/-- The steps of a trail are transitions that lead from one state to another. -/
inductive Path (A : Automaton) : Nat → Trail → Nat → Prop
  | nil (i : Nat) : A.Path i [] i
  | cons {i j k : Nat} {l : Label} {t : Trail} :
      j ∈ A.targets i l → A.Path j t k → A.Path i (⟨i, l, j⟩ :: t) k

/-- Some path from one state to another spells a word. -/
inductive Reads (A : Automaton) : Nat → List Char → Nat → Prop
  | refl (i : Nat) : A.Reads i [] i
  | silent {i j k : Nat} {w : List Char} :
      j ∈ A.targets i .epsilon → A.Reads j w k → A.Reads i w k
  | symbol {i j k : Nat} {c : Char} {w : List Char} :
      j ∈ A.targets i (.symbol c) → A.Reads j w k → A.Reads i (c :: w) k

def Accepts (A : Automaton) (w : List Char) : Prop :=
  ∃ j, A.Reads A.start w j ∧ A.accepting j

variable {A : Automaton} {i j k : Nat} {l : Label} {t u : Trail} {v w : List Char}

/-! ### Trails along transitions -/

theorem Path.append (ht : A.Path i t j) (hu : A.Path j u k) : A.Path i (t ++ u) k := by
  induction ht with
  | nil => exact hu
  | cons h _ ih => exact .cons h (ih hu)

theorem Path.snoc (ht : A.Path i t j) (h : k ∈ A.targets j l) : A.Path i (t ++ [⟨j, l, k⟩]) k :=
  ht.append (.cons h (.nil k))

theorem Path.end_unique (h : A.Path i t j) (h' : A.Path i t k) : j = k := by
  induction h with
  | nil => cases h'; rfl
  | cons _ _ ih =>
    cases h' with
    | cons _ hrest => exact ih hrest

/-! ### Words along transitions -/

theorem Reads.trans (hv : A.Reads i v j) (hw : A.Reads j w k) : A.Reads i (v ++ w) k := by
  induction hv with
  | refl => exact hw
  | silent h _ ih => exact .silent h (ih hw)
  | symbol h _ ih => exact .symbol h (ih hw)

theorem Reads.mono {B : Automaton} (hsub : ∀ i l, ∀ j ∈ A.targets i l, j ∈ B.targets i l)
    (h : A.Reads i w j) : B.Reads i w j := by
  induction h with
  | refl => exact .refl _
  | silent hstep _ ih => exact .silent (hsub _ _ _ hstep) ih
  | symbol hstep _ ih => exact .symbol (hsub _ _ _ hstep) ih

theorem Reads.of_silent (h : j ∈ A.targets i .epsilon) : A.Reads i [] j := .silent h (.refl j)

theorem Path.reads (h : A.Path i t j) : A.Reads i t.consumed j := by
  induction h with
  | nil => exact .refl _
  | @cons _ _ _ l _ h _ ih =>
    cases l with
    | epsilon => exact .silent h ih
    | symbol c => exact .symbol h ih

theorem reads_iff_exists_path : A.Reads i w j ↔ ∃ t, A.Path i t j ∧ t.consumed = w := by
  refine ⟨fun h => ?_, fun h => ?_⟩
  · induction h with
    | refl i => exact ⟨[], .nil i, rfl⟩
    | silent h _ ih =>
      obtain ⟨t, ht, rfl⟩ := ih
      exact ⟨_, .cons h ht, by rw [Trail.consumed_cons]; rfl⟩
    | symbol h _ ih =>
      obtain ⟨t, ht, rfl⟩ := ih
      exact ⟨_, .cons h ht, by rw [Trail.consumed_cons]; rfl⟩
  · obtain ⟨t, ht, rfl⟩ := h
    exact ht.reads

theorem Reads.exists_of_cons {c : Char} (h : A.Reads i (c :: w) k) :
    ∃ p q, A.Reads i [] p ∧ q ∈ A.targets p (.symbol c) ∧ A.Reads q w k := by
  generalize hcw : c :: w = cw at h
  induction h with
  | refl => cases hcw
  | silent hj _ ih =>
    obtain ⟨p, q, hp, hq, hrest⟩ := ih hcw
    exact ⟨p, q, .silent hj hp, hq, hrest⟩
  | symbol hj hrest _ =>
    cases hcw
    exact ⟨_, _, .refl _, hj, hrest⟩

theorem Reads.mem_of_closed {S : Nat → Prop} (hS : ∀ p, S p → ∀ q ∈ A.targets p .epsilon, S q)
    (h : A.Reads i [] j) (hi : S i) : S j := by
  generalize hw : ([] : List Char) = w at h
  induction h with
  | refl => exact hi
  | silent hj _ ih => exact ih (hS _ hi _ hj) hw
  | symbol => cases hw

end Automaton

end Acceptor
