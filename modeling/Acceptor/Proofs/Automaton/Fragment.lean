import Acceptor.Proofs.Automaton.Region

/-!
# What the operations on fragments compute

One theorem for each operation: from the languages of the operands it tells the language of the result
and the states that the operation was confined to (`Yields`). Operands lie in regions that share no
state; the region of the result is their union with the states that are new.
-/

namespace Acceptor.Automaton

open Computability

variable {A B : Automaton} {R S T : Set Nat} {f g : Fragment} {L M : Language Char}
  {i j z : Nat} {l : Label} {w : List Char}

/-- The states that `addPair` adds. -/
def newStates (A : Automaton) : Set Nat := {A.size, A.size + 1}

/-- An operation on `A` has changed no states outside `T` and returned a fragment for `L` there. -/
structure Yields (A : Automaton) (p : Automaton × Fragment) (T : Set Nat) (L : Language Char) :
    Prop where
  confined : A.Confined p.1 T
  recognizes : p.1.Recognizes p.2 T L

theorem mem_newStates : i ∈ A.newStates ↔ i = A.size ∨ i = A.size + 1 := Iff.rfl

theorem not_mem_targets_of_mem_newStates (hi : i ∈ A.newStates) : j ∉ A.targets i l := by
  rw [mem_newStates] at hi
  rw [targets_of_size_le (by omega)]
  exact Ascending.not_mem_empty j

theorem Recognizes.not_mem_newStates (hf : A.Recognizes f R L) (hi : i ∈ R) : i ∉ A.newStates := by
  intro hnew
  rw [mem_newStates] at hnew
  have := hf.lt_size i hi
  omega

@[simp] theorem targets_addPair : A.addPair.targets i l = A.targets i l := by
  simp [addPair]

@[simp] theorem size_addPair : A.addPair.size = A.size + 2 := by
  simp [addPair]

/-! ### One symbol, no symbol -/

theorem yields_link (A : Automaton) (l : Label) :
    A.Yields (A.addPair.link A.size l (A.size + 1), A.newPair) A.newStates {l.symbol?.toList} := by
  have hmem : ∀ i m j, j ∈ (A.addPair.link A.size l (A.size + 1)).targets i m ↔
      (i = A.size ∧ m = l ∧ j = A.size + 1) ∨ j ∈ A.targets i m := by
    intro i m j
    simp
  have hfinal : ∀ m j, j ∉ (A.addPair.link A.size l (A.size + 1)).targets (A.size + 1) m := by
    intro m j hj
    rcases (hmem _ _ _).mp hj with ⟨h, _⟩ | h
    · omega
    · exact not_mem_targets_of_mem_newStates (.inr rfl) h
  have hedge : ∀ i ∈ A.newStates, ∀ m j,
      j ∈ (A.addPair.link A.size l (A.size + 1)).targets i m → m = l ∧ j = A.size + 1 := by
    intro i hi m j hj
    rcases (hmem _ _ _).mp hj with ⟨_, hm, hj⟩ | h
    · exact ⟨hm, hj⟩
    · exact absurd h (not_mem_targets_of_mem_newStates hi)
  refine ⟨Confined.addPair.trans (.link (.inl rfl)), ?_⟩
  refine ⟨?_, ?_, .inl rfl, .inr rfl, ?_, ?_, hfinal, ?_⟩
  · intro i hi
    rw [mem_newStates] at hi
    rw [size_link, size_addPair]
    omega
  · intro i hi m j hj
    exact .inr (hedge i hi m j hj).2
  · show A.size ≠ A.size + 1
    omega
  · intro i hi m hj
    have : A.size = A.size + 1 := (hedge i hi m _ hj).2
    omega
  · intro w
    show Reads _ A.size w (A.size + 1) ↔ w = l.symbol?.toList
    constructor
    · intro h
      generalize hs : A.size = s at h
      cases h with
      | silent hstep hrest =>
        subst hs
        obtain ⟨rfl, rfl⟩ := hedge _ (.inl rfl) _ _ hstep
        exact (hrest.eq_of_final hfinal).1
      | symbol hstep hrest =>
        subst hs
        obtain ⟨rfl, rfl⟩ := hedge _ (.inl rfl) _ _ hstep
        rw [(hrest.eq_of_final hfinal).1]
        rfl
    · rintro rfl
      have hstep := (hmem A.size l (A.size + 1)).mpr (.inl ⟨rfl, rfl, rfl⟩)
      cases l with
      | epsilon => exact .silent hstep (.refl _)
      | symbol c => exact .symbol hstep (.refl _)

theorem yields_literal (A : Automaton) (c : Char) : A.Yields (A.literal c) A.newStates {[c]} :=
  yields_link A (.symbol c)

theorem yields_empty (A : Automaton) : A.Yields A.empty A.newStates 1 :=
  yields_link A .epsilon

/-! ### One after the other -/

theorem yields_concat (hf : A.Recognizes f R L) (hg : A.Recognizes g S M)
    (hdisjoint : ∀ i ∈ R, i ∉ S) : A.Yields (A.concat f g) (R ∪ S) (L * M) := by
  have hconfined : A.Confined (A.concat f g).1 R := .link hf.stop_mem
  have hadds : A.Adds (A.concat f g).1 R f.stop {g.start} := by
    intro i hi l j
    have := hf.lt_size _ hf.stop_mem
    simp only [concat, connect, mem_targets_link, Set.mem_singleton_iff]
    tauto
  have hg' := hg.frame hconfined fun i hi hR => hdisjoint i hR hi
  refine ⟨hconfined.mono Set.subset_union_left, ?_⟩
  refine ⟨?_, ?_, .inl hf.start_mem, .inr hg.stop_mem, ?_, ?_, hg'.final, ?_⟩
  · rintro i (hi | hi)
    · exact Nat.lt_of_lt_of_le (hf.lt_size i hi) hconfined.size_le
    · exact hg'.lt_size i hi
  · rintro i (hi | hi) l j hj
    · rcases (hadds i hi l j).mp hj with hold | ⟨_, _, rfl⟩
      · exact .inl (hf.closed i hi l j hold)
      · exact .inr hg.start_mem
    · exact .inr (hg'.closed i hi l j hj)
  · intro h
    exact hdisjoint _ hf.start_mem (h ▸ hg.stop_mem)
  · rintro i (hi | hi) l hj
    · rcases (hadds i hi l _).mp hj with hold | ⟨_, _, h⟩
      · exact hf.fresh i hi l hold
      · exact hdisjoint _ hf.start_mem (Set.mem_singleton_iff.mp h ▸ hg.start_mem)
    · exact hdisjoint _ hf.start_mem (hg'.closed i hi l _ hj)
  · intro w
    rw [Language.mem_mul]
    refine ⟨fun h => ?_, fun h => ?_⟩
    · rcases h.first_exit hf.closed hadds hf.start_mem with hin | ⟨u, v, huv, hu, e, rfl, hv⟩
      · exact absurd hg.stop_mem (hdisjoint _ (hin.mem_of_start_mem hf.closed hf.start_mem))
      · exact ⟨u, (hf.reads_iff u).mp hu, v, (hg'.reads_iff v).mp hv, huv⟩
    · obtain ⟨u, hu, v, hv, rfl⟩ := h
      have hstep := (hadds f.stop hf.stop_mem .epsilon g.start).mpr (.inr ⟨rfl, rfl, rfl⟩)
      exact (hconfined.reads ((hf.reads_iff u).mpr hu)).trans
        (.silent hstep ((hg'.reads_iff v).mpr hv))

/-! ### Between new states -/

/-- Around the states of `Q` stand two new ones: from the first, silent transitions lead to the states
of `E`, and the second is entered from `Q`. -/
structure Wraps (A B : Automaton) (Q E : Set Nat) : Prop where
  confined : A.Confined B (Q ∪ A.newStates)
  size_eq : B.size = A.size + 2
  lt_size : ∀ i ∈ Q, i < A.size
  entries : E ⊆ Q
  entry : ∀ l j, j ∈ B.targets A.size l ↔ l = .epsilon ∧ j ∈ E
  inner : ∀ i ∈ Q, ∀ l, ∀ j ∈ B.targets i l, j ∈ Q ∨ j = A.size + 1
  final : ∀ l j, j ∉ B.targets (A.size + 1) l

theorem Wraps.reads_iff {E Q : Set Nat} (h : A.Wraps B Q E) :
    B.Reads A.size w (A.size + 1) ↔ ∃ e ∈ E, B.Reads e w (A.size + 1) := by
  refine ⟨fun hw => ?_, fun h => ?_⟩
  · generalize hs : A.size = s at hw
    cases hw with
    | silent hstep hrest =>
      subst hs
      exact ⟨_, ((h.entry _ _).mp hstep).2, hrest⟩
    | symbol hstep _ =>
      subst hs
      cases ((h.entry _ _).mp hstep).1
  · obtain ⟨e, he, hw⟩ := h
    exact .silent ((h.entry _ _).mpr ⟨rfl, he⟩) hw

theorem Wraps.yields {E Q : Set Nat} (h : A.Wraps B Q E)
    (hL : ∀ w, (∃ e ∈ E, B.Reads e w (A.size + 1)) ↔ w ∈ L) :
    A.Yields (B, A.newPair) (Q ∪ A.newStates) L := by
  have hout : ∀ i ∈ Q ∪ A.newStates, ∀ l, ∀ j ∈ B.targets i l, j ∈ Q ∨ j = A.size + 1 := by
    rintro i (hi | rfl | rfl) l j hj
    · exact h.inner i hi l j hj
    · exact .inl (h.entries ((h.entry l j).mp hj).2)
    · exact absurd hj (h.final l j)
  refine ⟨h.confined, ?_, ?_, .inr (.inl rfl), .inr (.inr rfl), ?_, ?_, h.final, ?_⟩
  · intro i hi
    show i < B.size
    rw [h.size_eq]
    rcases hi with hi | rfl | rfl
    · have := h.lt_size i hi
      omega
    · omega
    · omega
  · intro i hi l j hj
    exact (hout i hi l j hj).imp_right .inr
  · show A.size ≠ A.size + 1
    omega
  · intro i hi l hj
    rcases hout i hi l _ hj with hQ | hstop
    · exact Nat.lt_irrefl _ (h.lt_size _ hQ)
    · have : A.size = A.size + 1 := hstop
      omega
  · intro w
    exact h.reads_iff.trans (hL w)

/-! ### Either of two -/

theorem Recognizes.reads_exit_iff (hf : A.Recognizes f R L) (hconfined : A.Confined B T)
    (hadds : A.Adds B R f.stop {z}) (hz : z ∉ R) (hfinal : ∀ l j, j ∉ B.targets z l) :
    B.Reads f.start w z ↔ w ∈ L := by
  refine ⟨fun h => ?_, fun hw => ?_⟩
  · rcases h.first_exit hf.closed hadds hf.start_mem with hin | ⟨u, v, rfl, hu, e, rfl, hv⟩
    · exact absurd (hin.mem_of_start_mem hf.closed hf.start_mem) hz
    · rw [(hv.eq_of_final hfinal).1, List.append_nil]
      exact (hf.reads_iff u).mp hu
  · have hstep := (hadds f.stop hf.stop_mem .epsilon z).mpr (.inr ⟨rfl, rfl, rfl⟩)
    rw [← List.append_nil w]
    exact (hconfined.reads ((hf.reads_iff w).mpr hw)).trans (.of_silent hstep)

theorem mem_targets_union (hf : f.stop < A.size) (hg : g.stop < A.size) :
    j ∈ (A.union f g).1.targets i l ↔ j ∈ A.targets i l ∨
      l = .epsilon ∧ (i = A.size ∧ (j = f.start ∨ j = g.start) ∨
        (i = f.stop ∨ i = g.stop) ∧ j = A.size + 1) := by
  have hf' : f.stop < A.size + 2 := by omega
  have hg' : g.stop < A.size + 2 := by omega
  simp only [union, connect, newPair, mem_targets_link, size_link, size_addPair, targets_addPair]
  refine ⟨fun h => ?_, fun h => ?_⟩
  · rcases h with ⟨rfl, _, rfl, rfl⟩ | ⟨rfl, _, rfl, rfl⟩ | ⟨rfl, _, rfl, rfl⟩ | ⟨rfl, _, rfl, rfl⟩ | h
    · exact .inr ⟨rfl, .inr ⟨.inr rfl, rfl⟩⟩
    · exact .inr ⟨rfl, .inr ⟨.inl rfl, rfl⟩⟩
    · exact .inr ⟨rfl, .inl ⟨rfl, .inr rfl⟩⟩
    · exact .inr ⟨rfl, .inl ⟨rfl, .inl rfl⟩⟩
    · exact .inl h
  · rcases h with h | ⟨rfl, ⟨rfl, rfl | rfl⟩ | ⟨rfl | rfl, rfl⟩⟩
    · simp [h]
    · simp
    · simp
    · simp [hf']
    · simp [hg']

theorem wraps_union (hf : A.Recognizes f R L) (hg : A.Recognizes g S M) :
    A.Wraps (A.union f g).1 (R ∪ S) {f.start, g.start} := by
  have hfstop := hf.lt_size _ hf.stop_mem
  have hgstop := hg.lt_size _ hg.stop_mem
  refine ⟨?_, by simp [union, connect], ?_, ?_, ?_, ?_, ?_⟩
  · exact (((Confined.addPair.trans (.link (.inr (.inl rfl)))).trans (.link (.inr (.inl rfl)))).trans
      (.link (.inl (.inl hf.stop_mem)))).trans (.link (.inl (.inr hg.stop_mem)))
  · rintro i (hi | hi)
    · exact hf.lt_size i hi
    · exact hg.lt_size i hi
  · rintro i (rfl | rfl)
    · exact .inl hf.start_mem
    · exact .inr hg.start_mem
  · intro l j
    rw [mem_targets_union hfstop hgstop]
    refine ⟨fun h => ?_, fun h => ?_⟩
    · rcases h with h | ⟨rfl, ⟨_, h⟩ | ⟨h, _⟩⟩
      · exact absurd h (not_mem_targets_of_mem_newStates (.inl rfl))
      · exact ⟨rfl, h⟩
      · omega
    · obtain ⟨rfl, h⟩ := h
      exact .inr ⟨rfl, .inl ⟨rfl, h⟩⟩
  · intro i hi l j hj
    rcases (mem_targets_union hfstop hgstop).mp hj with h | ⟨_, ⟨_, rfl | rfl⟩ | ⟨_, rfl⟩⟩
    · exact .inl (hi.imp (hf.closed i · l j h) (hg.closed i · l j h))
    · exact .inl (.inl hf.start_mem)
    · exact .inl (.inr hg.start_mem)
    · exact .inr rfl
  · intro l j hj
    rcases (mem_targets_union hfstop hgstop).mp hj with h | ⟨_, ⟨h, _⟩ | ⟨h, _⟩⟩
    · exact not_mem_targets_of_mem_newStates (.inr rfl) h
    · omega
    · omega

theorem yields_union (hf : A.Recognizes f R L) (hg : A.Recognizes g S M)
    (hdisjoint : ∀ i ∈ R, i ∉ S) :
    A.Yields (A.union f g) (R ∪ S ∪ A.newStates) (L + M) := by
  have hfstop := hf.lt_size _ hf.stop_mem
  have hgstop := hg.lt_size _ hg.stop_mem
  have hwraps := wraps_union hf hg
  have haddsf : A.Adds (A.union f g).1 R f.stop {A.size + 1} := by
    intro i hi l j
    have hsize : i ≠ A.size := Nat.ne_of_lt (hf.lt_size i hi)
    have hstop : i ≠ g.stop := fun h => hdisjoint i hi (h ▸ hg.stop_mem)
    rw [mem_targets_union hfstop hgstop, Set.mem_singleton_iff]
    tauto
  have haddsg : A.Adds (A.union f g).1 S g.stop {A.size + 1} := by
    intro i hi l j
    have hsize : i ≠ A.size := Nat.ne_of_lt (hg.lt_size i hi)
    have hstop : i ≠ f.stop := fun h => hdisjoint i (h ▸ hf.stop_mem) hi
    rw [mem_targets_union hfstop hgstop, Set.mem_singleton_iff]
    tauto
  refine hwraps.yields fun w => ?_
  have hl := hf.reads_exit_iff (w := w) hwraps.confined haddsf
    (fun h => hf.not_mem_newStates h (.inr rfl)) hwraps.final
  have hr := hg.reads_exit_iff (w := w) hwraps.confined haddsg
    (fun h => hg.not_mem_newStates h (.inr rfl)) hwraps.final
  rw [Language.mem_add, ← hl, ← hr]
  refine ⟨fun h => ?_, fun h => ?_⟩
  · obtain ⟨e, rfl | rfl, h⟩ := h
    · exact .inl h
    · exact .inr h
  · rcases h with h | h
    · exact ⟨_, .inl rfl, h⟩
    · exact ⟨_, .inr rfl, h⟩

/-! ### Again and again -/

theorem mem_targets_plus (hf : f.stop < A.size) :
    j ∈ (A.plus f).1.targets i l ↔ j ∈ A.targets i l ∨
      l = .epsilon ∧ (i = A.size ∧ j = f.start ∨
        i = f.stop ∧ (j = f.start ∨ j = A.size + 1)) := by
  have hf' : f.stop < A.size + 2 := by omega
  simp only [plus, connect, newPair, mem_targets_link, size_link, size_addPair, targets_addPair]
  refine ⟨fun h => ?_, fun h => ?_⟩
  · rcases h with ⟨rfl, _, rfl, rfl⟩ | ⟨rfl, _, rfl, rfl⟩ | ⟨rfl, _, rfl, rfl⟩ | h
    · exact .inr ⟨rfl, .inr ⟨rfl, .inl rfl⟩⟩
    · exact .inr ⟨rfl, .inr ⟨rfl, .inr rfl⟩⟩
    · exact .inr ⟨rfl, .inl ⟨rfl, rfl⟩⟩
    · exact .inl h
  · rcases h with h | ⟨rfl, ⟨rfl, rfl⟩ | ⟨rfl, rfl | rfl⟩⟩
    · simp [h]
    · simp
    · simp [hf']
    · simp [hf']

theorem wraps_plus (hf : A.Recognizes f R L) : A.Wraps (A.plus f).1 R {f.start} := by
  have hstop := hf.lt_size _ hf.stop_mem
  refine ⟨?_, by simp [plus, connect], hf.lt_size, ?_, ?_, ?_, ?_⟩
  · exact ((Confined.addPair.trans (.link (.inr (.inl rfl)))).trans (.link (.inl hf.stop_mem))).trans
      (.link (.inl hf.stop_mem))
  · rintro i rfl
    exact hf.start_mem
  · intro l j
    rw [mem_targets_plus hstop]
    refine ⟨fun h => ?_, fun h => ?_⟩
    · rcases h with h | ⟨rfl, ⟨_, rfl⟩ | ⟨h, _⟩⟩
      · exact absurd h (not_mem_targets_of_mem_newStates (.inl rfl))
      · exact ⟨rfl, rfl⟩
      · omega
    · obtain ⟨rfl, rfl⟩ := h
      exact .inr ⟨rfl, .inl ⟨rfl, rfl⟩⟩
  · intro i hi l j hj
    rcases (mem_targets_plus hstop).mp hj with h | ⟨_, ⟨_, rfl⟩ | ⟨_, rfl | rfl⟩⟩
    · exact .inl (hf.closed i hi l j h)
    · exact .inl hf.start_mem
    · exact .inl hf.start_mem
    · exact .inr rfl
  · intro l j hj
    rcases (mem_targets_plus hstop).mp hj with h | ⟨_, ⟨h, _⟩ | ⟨h, _⟩⟩
    · exact not_mem_targets_of_mem_newStates (.inr rfl) h
    · omega
    · omega

/-- From inside the loop, a path finishes the word that it is in and then spells any number of others. -/
theorem Recognizes.exists_of_reads_plus (hf : A.Recognizes f R L) (hi : i ∈ R)
    (h : (A.plus f).1.Reads i w (A.size + 1)) :
    ∃ u v, u ++ v = w ∧ A.Reads i u f.stop ∧ v ∈ L∗ := by
  have hstop := hf.lt_size _ hf.stop_mem
  generalize hz : A.size + 1 = z at h
  induction h with
  | refl i =>
    have := hf.lt_size i hi
    omega
  | @silent i j z w hstep hrest ih =>
    subst hz
    rcases (mem_targets_plus hstop).mp hstep with hold | ⟨_, ⟨rfl, _⟩ | ⟨rfl, rfl | rfl⟩⟩
    · obtain ⟨u, v, huv, hu, hv⟩ := ih (hf.closed i hi _ _ hold) rfl
      exact ⟨u, v, huv, .silent hold hu, hv⟩
    · exact absurd (hf.lt_size _ hi) (Nat.lt_irrefl _)
    · -- Back at the start of the loop, the rest begins with a word of `L`.
      obtain ⟨u, v, rfl, hu, hv⟩ := ih hf.start_mem rfl
      refine ⟨[], u ++ v, rfl, .refl _, ?_⟩
      rw [← Language.one_add_self_mul_kstar_eq_kstar]
      exact .inr (Language.append_mem_mul ((hf.reads_iff u).mp hu) hv)
    · rw [(hrest.eq_of_final (wraps_plus hf).final).1]
      exact ⟨[], [], rfl, .refl _, Language.nil_mem_kstar L⟩
  | @symbol i j z c w hstep _ ih =>
    subst hz
    rcases (mem_targets_plus hstop).mp hstep with hold | ⟨hl, _⟩
    · obtain ⟨u, v, rfl, hu, hv⟩ := ih (hf.closed i hi _ _ hold) rfl
      exact ⟨c :: u, v, rfl, .symbol hold hu, hv⟩
    · cases hl

theorem Recognizes.reads_plus (hf : A.Recognizes f R L) (words : List (List Char))
    (hwords : ∀ u ∈ words, u ∈ L) : (A.plus f).1.Reads f.stop words.flatten (A.size + 1) := by
  have hstop := hf.lt_size _ hf.stop_mem
  induction words with
  | nil => exact .of_silent ((mem_targets_plus hstop).mpr (.inr ⟨rfl, .inr ⟨rfl, .inr rfl⟩⟩))
  | cons u words ih =>
    have hback : f.start ∈ (A.plus f).1.targets f.stop .epsilon :=
      (mem_targets_plus hstop).mpr (.inr ⟨rfl, .inr ⟨rfl, .inl rfl⟩⟩)
    have hu := (wraps_plus hf).confined.reads
      ((hf.reads_iff u).mpr (hwords u (List.mem_cons_self ..)))
    exact .silent hback (hu.trans (ih fun v hv => hwords v (List.mem_cons_of_mem _ hv)))

theorem yields_plus (hf : A.Recognizes f R L) :
    A.Yields (A.plus f) (R ∪ A.newStates) (L * L∗) := by
  refine (wraps_plus hf).yields fun w => ?_
  rw [Language.mem_mul]
  refine ⟨fun h => ?_, fun h => ?_⟩
  · obtain ⟨e, rfl, h⟩ := h
    obtain ⟨u, v, huv, hu, hv⟩ := hf.exists_of_reads_plus hf.start_mem h
    exact ⟨u, (hf.reads_iff u).mp hu, v, hv, huv⟩
  · obtain ⟨u, hu, v, hv, rfl⟩ := h
    obtain ⟨words, rfl, hwords⟩ := Language.mem_kstar.mp hv
    refine ⟨f.start, rfl, ?_⟩
    exact ((wraps_plus hf).confined.reads ((hf.reads_iff u).mpr hu)).trans
      (hf.reads_plus words hwords)

/-! ### Or nothing at all -/

theorem yields_optional (hf : A.Recognizes f R L) : A.Yields (A.optional f) R (L + 1) := by
  have hconfined : A.Confined (A.optional f).1 R := .link hf.start_mem
  have hadds : A.Adds (A.optional f).1 R f.start {f.stop} := by
    intro i hi l j
    have := hf.lt_size _ hf.start_mem
    simp only [optional, connect, mem_targets_link, Set.mem_singleton_iff]
    tauto
  have hfinal : ∀ l j, j ∉ (A.optional f).1.targets f.stop l := by
    intro l j hj
    rcases (hadds _ hf.stop_mem l j).mp hj with h | ⟨h, _⟩
    · exact hf.final l j h
    · exact hf.start_ne_stop h.symm
  refine ⟨hconfined, ?_, ?_, hf.start_mem, hf.stop_mem, hf.start_ne_stop, ?_, hfinal, ?_⟩
  · intro i hi
    exact Nat.lt_of_lt_of_le (hf.lt_size i hi) hconfined.size_le
  · intro i hi l j hj
    rcases (hadds i hi l j).mp hj with h | ⟨_, _, rfl⟩
    · exact hf.closed i hi l j h
    · exact hf.stop_mem
  · intro i hi l hj
    rcases (hadds i hi l _).mp hj with h | ⟨_, _, h⟩
    · exact hf.fresh i hi l h
    · exact hf.start_ne_stop h
  · intro w
    rw [Language.mem_add, Language.mem_one]
    refine ⟨fun h => ?_, fun h => ?_⟩
    · rcases h.first_exit hf.closed hadds hf.start_mem with hin | ⟨u, v, rfl, hu, e, rfl, hv⟩
      · exact .inl ((hf.reads_iff w).mp hin)
      · -- Nothing returns to the start, and nothing leaves the stop.
        rw [(hu.eq_of_fresh hf.closed hf.fresh hf.start_mem).1, (hv.eq_of_final hfinal).1]
        exact .inr rfl
    · rcases h with h | rfl
      · exact hconfined.reads ((hf.reads_iff w).mpr h)
      · exact .of_silent ((hadds _ hf.start_mem _ _).mpr (.inr ⟨rfl, rfl, rfl⟩))

theorem yields_star (hf : A.Recognizes f R L) : A.Yields (A.star f) (R ∪ A.newStates) L∗ := by
  have hplus := yields_plus hf
  have hoptional := yields_optional hplus.recognizes
  rw [add_comm, Language.one_add_self_mul_kstar_eq_kstar] at hoptional
  exact ⟨hplus.confined.trans hoptional.confined, hoptional.recognizes⟩

end Acceptor.Automaton
