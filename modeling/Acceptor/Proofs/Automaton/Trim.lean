import Acceptor.Proofs.Automaton.Fragment

/-!
# Fragments without useless states

A fragment is trim if each of its states lies on some path from its start to its stop. Every operation
on fragments keeps this, for it only adds transitions: what was reached before is still reached
(`Trim.frame`), and the new transitions join the operands to the ends of the result. The states of the
result are the ones that the operation was confined to, as in the theorems on languages.
-/

namespace Acceptor.Automaton

variable {A B : Automaton} {R S T : Set Nat} {f g : Fragment} {i j k : Nat} {l : Label}

/-! ### Reaching a state by any word -/

def Leads (A : Automaton) (i j : Nat) : Prop := ∃ w, A.Reads i w j

theorem Leads.refl (A : Automaton) (i : Nat) : A.Leads i i := ⟨[], .refl i⟩

theorem Leads.trans (h : A.Leads i j) (h' : A.Leads j k) : A.Leads i k := by
  obtain ⟨v, hv⟩ := h
  obtain ⟨w, hw⟩ := h'
  exact ⟨v ++ w, hv.trans hw⟩

theorem leads_of_mem_targets (h : j ∈ A.targets i l) : A.Leads i j := by
  cases l with
  | epsilon => exact ⟨[], .silent h (.refl j)⟩
  | symbol c => exact ⟨[c], .symbol h (.refl j)⟩

theorem Confined.leads (h : A.Confined B T) (hij : A.Leads i j) : B.Leads i j := by
  obtain ⟨w, hw⟩ := hij
  exact ⟨w, h.reads hw⟩

/-! ### Operations only add -/

theorem newStates_eq_Ico (A : Automaton) : A.newStates = Set.Ico A.size (A.size + 2) := by
  ext i
  rw [mem_newStates, Set.mem_Ico]
  omega

@[simp] theorem size_concat : (A.concat f g).1.size = A.size := size_link

@[simp] theorem size_union : (A.union f g).1.size = A.size + 2 := by
  simp [Automaton.union, connect]

@[simp] theorem size_plus : (A.plus f).1.size = A.size + 2 := by
  simp [Automaton.plus, connect]

@[simp] theorem size_optional : (A.optional f).1.size = A.size := size_link

@[simp] theorem size_star : (A.star f).1.size = A.size + 2 :=
  (size_optional (A := (A.plus f).1)).trans size_plus

theorem confined_connect : A.Confined (A.connect i j) Set.univ := .link trivial

theorem confined_concat : A.Confined (A.concat f g).1 Set.univ := confined_connect

theorem confined_union : A.Confined (A.union f g).1 Set.univ :=
  (((Confined.addPair.trans confined_connect).trans confined_connect).trans
    confined_connect).trans confined_connect

theorem confined_plus : A.Confined (A.plus f).1 Set.univ :=
  ((Confined.addPair.trans confined_connect).trans confined_connect).trans confined_connect

theorem confined_optional : A.Confined (A.optional f).1 Set.univ := confined_connect

/-! ### Trim fragments -/

/-- The states of `R` are reached from the start of the fragment and reach its stop. -/
structure Trim (A : Automaton) (f : Fragment) (R : Set Nat) : Prop where
  lt_size : ∀ i ∈ R, i < A.size
  start_mem : f.start ∈ R
  stop_mem : f.stop ∈ R
  entered : ∀ i ∈ R, A.Leads f.start i
  left : ∀ i ∈ R, A.Leads i f.stop

/-- A fragment stays trim while the automaton grows. -/
theorem Trim.frame (hf : A.Trim f R) (h : A.Confined B T) : B.Trim f R where
  lt_size i hi := Nat.lt_of_lt_of_le (hf.lt_size i hi) h.size_le
  start_mem := hf.start_mem
  stop_mem := hf.stop_mem
  entered i hi := h.leads (hf.entered i hi)
  left i hi := h.leads (hf.left i hi)

theorem Trim.leads (hf : A.Trim f R) : A.Leads f.start f.stop := hf.entered _ hf.stop_mem

/-! ### The operations -/

theorem trim_newPair (hsize : B.size = A.size + 2) (hlt : ∀ i ∈ R, i < A.size)
    (hentered : ∀ i ∈ R, B.Leads A.size i) (hleft : ∀ i ∈ R, B.Leads i (A.size + 1))
    (hthrough : B.Leads A.size (A.size + 1)) : B.Trim A.newPair (R ∪ A.newStates) where
  lt_size := by
    rintro i (hi | rfl | rfl)
    · have := hlt i hi
      omega
    · omega
    · omega
  start_mem := .inr (.inl rfl)
  stop_mem := .inr (.inr rfl)
  entered := by
    rintro i (hi | rfl | rfl)
    · exact hentered i hi
    · exact .refl B _
    · exact hthrough
  left := by
    rintro i (hi | rfl | rfl)
    · exact hleft i hi
    · exact hthrough
    · exact .refl B _

theorem trim_link (A : Automaton) (l : Label) :
    (A.addPair.link A.size l (A.size + 1)).Trim A.newPair A.newStates := by
  have hthrough : (A.addPair.link A.size l (A.size + 1)).Leads A.size (A.size + 1) :=
    leads_of_mem_targets (mem_targets_link.mpr (.inl ⟨rfl, by simp, rfl, rfl⟩))
  have htrim := trim_newPair (A := A) (R := ∅) (by simp) (by simp) (by simp) (by simp) hthrough
  rwa [Set.empty_union] at htrim

theorem Trim.concat (hf : A.Trim f R) (hg : A.Trim g S) :
    (A.concat f g).1.Trim (A.concat f g).2 (R ∪ S) := by
  have hstep : (A.concat f g).1.Leads f.stop g.start :=
    leads_of_mem_targets (mem_targets_link.mpr (.inl ⟨rfl, hf.lt_size _ hf.stop_mem, rfl, rfl⟩))
  have hf' := hf.frame (confined_concat (f := f) (g := g))
  have hg' := hg.frame (confined_concat (f := f) (g := g))
  refine ⟨?_, .inl hf.start_mem, .inr hg.stop_mem, ?_, ?_⟩
  · rintro i (hi | hi)
    · exact hf'.lt_size i hi
    · exact hg'.lt_size i hi
  · rintro i (hi | hi)
    · exact hf'.entered i hi
    · exact hf'.leads.trans (hstep.trans (hg'.entered i hi))
  · rintro i (hi | hi)
    · exact (hf'.left i hi).trans (hstep.trans hg'.leads)
    · exact hg'.left i hi

theorem Trim.union (hf : A.Trim f R) (hg : A.Trim g S) :
    (A.union f g).1.Trim (A.union f g).2 (R ∪ S ∪ A.newStates) := by
  have hfstop := hf.lt_size _ hf.stop_mem
  have hgstop := hg.lt_size _ hg.stop_mem
  have hf' := hf.frame (confined_union (f := f) (g := g))
  have hg' := hg.frame (confined_union (f := f) (g := g))
  have hinf : (A.union f g).1.Leads A.size f.start :=
    leads_of_mem_targets ((mem_targets_union hfstop hgstop).mpr (.inr ⟨rfl, .inl ⟨rfl, .inl rfl⟩⟩))
  have hing : (A.union f g).1.Leads A.size g.start :=
    leads_of_mem_targets ((mem_targets_union hfstop hgstop).mpr (.inr ⟨rfl, .inl ⟨rfl, .inr rfl⟩⟩))
  have houtf : (A.union f g).1.Leads f.stop (A.size + 1) :=
    leads_of_mem_targets ((mem_targets_union hfstop hgstop).mpr (.inr ⟨rfl, .inr ⟨.inl rfl, rfl⟩⟩))
  have houtg : (A.union f g).1.Leads g.stop (A.size + 1) :=
    leads_of_mem_targets ((mem_targets_union hfstop hgstop).mpr (.inr ⟨rfl, .inr ⟨.inr rfl, rfl⟩⟩))
  refine trim_newPair size_union ?_ ?_ ?_ (hinf.trans (hf'.leads.trans houtf))
  · rintro i (hi | hi)
    · exact hf.lt_size i hi
    · exact hg.lt_size i hi
  · rintro i (hi | hi)
    · exact hinf.trans (hf'.entered i hi)
    · exact hing.trans (hg'.entered i hi)
  · rintro i (hi | hi)
    · exact (hf'.left i hi).trans houtf
    · exact (hg'.left i hi).trans houtg

theorem Trim.plus (hf : A.Trim f R) : (A.plus f).1.Trim (A.plus f).2 (R ∪ A.newStates) := by
  have hstop := hf.lt_size _ hf.stop_mem
  have hf' := hf.frame (confined_plus (f := f))
  have hin : (A.plus f).1.Leads A.size f.start :=
    leads_of_mem_targets ((mem_targets_plus hstop).mpr (.inr ⟨rfl, .inl ⟨rfl, rfl⟩⟩))
  have hout : (A.plus f).1.Leads f.stop (A.size + 1) :=
    leads_of_mem_targets ((mem_targets_plus hstop).mpr (.inr ⟨rfl, .inr ⟨rfl, .inr rfl⟩⟩))
  refine trim_newPair size_plus hf.lt_size ?_ ?_
    (hin.trans (hf'.leads.trans hout))
  · exact fun i hi => hin.trans (hf'.entered i hi)
  · exact fun i hi => (hf'.left i hi).trans hout

theorem Trim.optional (hf : A.Trim f R) : (A.optional f).1.Trim (A.optional f).2 R :=
  hf.frame confined_optional

theorem Trim.star (hf : A.Trim f R) : (A.star f).1.Trim (A.star f).2 (R ∪ A.newStates) :=
  hf.plus.optional

end Acceptor.Automaton
