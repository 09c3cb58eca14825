import Acceptor.Proofs.Automaton.Fragment
import Acceptor.Regex.Compilation

/-!
# The language of an expression, and the automaton built for it

`Regex.language` is the usual meaning of an expression, and `Regex.build` adds a fragment for it
(`Regex.builds_build`). Whatever was there before stays as it was, so a part of an expression that is
built keeps its meaning while the next part is being built.
-/

namespace Acceptor

open Computability

def Repetition.language (L : Language Char) : Repetition → Language Char
  | .star => L∗
  | .plus => L * L∗
  | .optional => L + 1

def Regex.language : Regex → Language Char
  | empty => 1
  | literal c => {[c]}
  | group r => r.language
  | concat l r => l.language * r.language
  | union l r => l.language + r.language
  | repeated r op => op.language r.language

namespace Automaton

variable {A B : Automaton} {R S : Set Nat} {f : Fragment} {L M : Language Char}
  {p q : Automaton × Fragment}

def statesFrom (n : Nat) : Set Nat := {i | n ≤ i}

theorem statesFrom_subset {m n : Nat} (h : m ≤ n) : statesFrom n ⊆ statesFrom m :=
  fun _ hi => Nat.le_trans h hi

theorem newStates_subset (h : A.size ≤ B.size) : B.newStates ⊆ statesFrom A.size := by
  rintro i (rfl | rfl)
  · exact h
  · exact Nat.le_succ_of_le h

/-- New states were added to `A`, and over some of them a fragment for `L`. -/
structure Builds (A : Automaton) (p : Automaton × Fragment) (L : Language Char) : Prop where
  confined : A.Confined p.1 (statesFrom A.size)
  recognizes : ∃ R ⊆ statesFrom A.size, p.1.Recognizes p.2 R L

theorem Yields.builds (h : B.Yields p R L) (hconfined : A.Confined B (statesFrom A.size))
    (hsub : R ⊆ statesFrom A.size) : A.Builds p L where
  confined := hconfined.trans (h.confined.mono hsub)
  recognizes := ⟨R, hsub, h.recognizes⟩

theorem Yields.builds_self (h : A.Yields p A.newStates L) : A.Builds p L where
  confined := h.confined.mono (newStates_subset (Nat.le_refl _))
  recognizes := ⟨_, newStates_subset (Nat.le_refl _), h.recognizes⟩

/-- What was built first keeps its meaning, and shares no state with what was built next. -/
theorem Builds.both (hp : A.Builds p L) (hq : p.1.Builds q M) :
    A.Confined q.1 (statesFrom A.size) ∧ ∃ R S, R ∪ S ⊆ statesFrom A.size ∧ (∀ i ∈ R, i ∉ S) ∧
      q.1.Recognizes p.2 R L ∧ q.1.Recognizes q.2 S M := by
  obtain ⟨hpconfined, R, hR, hpR⟩ := hp
  obtain ⟨hqconfined, S, hS, hqS⟩ := hq
  have hsub := statesFrom_subset hpconfined.size_le
  have hapart : ∀ i ∈ R, i ∉ statesFrom p.1.size := by
    intro i hi hfrom
    have := hpR.lt_size i hi
    have : p.1.size ≤ i := hfrom
    omega
  refine ⟨hpconfined.trans (hqconfined.mono hsub), R, S, ?_, ?_, hpR.frame hqconfined hapart, hqS⟩
  · rintro i (hi | hi)
    · exact hR hi
    · exact hsub (hS hi)
  · exact fun i hi hiS => hapart i hi (hS hiS)

theorem Builds.concat (hp : A.Builds p L) (hq : p.1.Builds q M) :
    A.Builds (q.1.concat p.2 q.2) (L * M) := by
  obtain ⟨hconfined, R, S, hsub, hdisjoint, hR, hS⟩ := hp.both hq
  exact (yields_concat hR hS hdisjoint).builds hconfined hsub

theorem Builds.union (hp : A.Builds p L) (hq : p.1.Builds q M) :
    A.Builds (q.1.union p.2 q.2) (L + M) := by
  obtain ⟨hconfined, R, S, hsub, hdisjoint, hR, hS⟩ := hp.both hq
  exact (yields_union hR hS hdisjoint).builds hconfined
    (Set.union_subset hsub (newStates_subset hconfined.size_le))

theorem Builds.union_swap (hp : A.Builds p L) (hq : p.1.Builds q M) :
    A.Builds (q.1.union q.2 p.2) (M + L) := by
  obtain ⟨hconfined, R, S, hsub, hdisjoint, hR, hS⟩ := hp.both hq
  rw [Set.union_comm] at hsub
  exact (yields_union hS hR fun i hi hiR => hdisjoint i hiR hi).builds hconfined
    (Set.union_subset hsub (newStates_subset hconfined.size_le))

theorem Builds.repeated (hp : A.Builds p L) (op : Repetition) :
    A.Builds (p.1.repeated p.2 op) (op.language L) := by
  obtain ⟨hconfined, R, hsub, hR⟩ := hp
  have hnew := Set.union_subset hsub (newStates_subset hconfined.size_le)
  cases op with
  | star => exact (yields_star hR).builds hconfined hnew
  | plus => exact (yields_plus hR).builds hconfined hnew
  | optional => exact (yields_optional hR).builds hconfined hsub

end Automaton

open Automaton in
/-- Building an expression adds a fragment for its language. -/
theorem Regex.builds_build (r : Regex) (A : Automaton) : A.Builds (r.build A) r.language := by
  fun_induction Regex.build A r with
  | case1 A => exact (yields_empty A).builds_self
  | case2 A c => exact (yields_literal A c).builds_self
  | case3 A r ih => exact ih
  | case4 A l r B f hl C g hr ihl ihr =>
    rw [hl] at ihl
    rw [hr] at ihr
    have hconcat := ihl.concat ihr
    rwa [language]
  | case5 A r B g hr C f hempty ih =>
    -- The empty alternative is built last, although it stands first.
    rw [hr] at ih
    have hlast := (yields_empty B).builds_self
    rw [hempty] at hlast
    have hunion := ih.union_swap hlast
    rwa [language, language]
  | case6 A l r _ B f hl C g hr ihl ihr =>
    rw [hl] at ihl
    rw [hr] at ihr
    have hunion := ihl.union ihr
    rwa [language]
  | case7 A r op B f hr ih =>
    rw [hr] at ih
    have hrepeated := ih.repeated op
    rwa [language]

/-! ### Whole automata -/

namespace Automaton

variable {A : Automaton} {f : Fragment} {i j : Nat} {l : Label} {w : List Char} {L : Language Char}
  {p : Automaton × Fragment}

@[simp] theorem targets_finish : (A.finish f).targets i l = A.targets i l :=
  targets_accept (s := f.stop)

theorem accepting_finish : (A.finish f).accepting i ↔ (i = f.stop ∧ f.stop < A.size) ∨ A.accepting i :=
  accepting_accept

@[simp] theorem size_finish : (A.finish f).size = A.size := size_accept (i := f.stop)

@[simp] theorem reads_finish_iff : (A.finish f).Reads i w j ↔ A.Reads i w j := by
  constructor
  · exact Reads.mono fun i l j hj => targets_finish ▸ hj
  · exact Reads.mono fun i l j hj => targets_finish.symm ▸ hj

theorem Builds.accepting_finish_iff (h : ({} : Automaton).Builds p L) (i : Nat) :
    (p.1.finish p.2).accepting i ↔ i = p.2.stop := by
  obtain ⟨hconfined, R, _, hR⟩ := h
  rw [accepting_finish, hconfined.accepting_eq]
  constructor
  · rintro (⟨rfl, _⟩ | h)
    · rfl
    · cases h
  · rintro rfl
    exact .inl ⟨rfl, hR.lt_size _ hR.stop_mem⟩

/-- Built onto nothing and finished, a fragment for `L` is an automaton that accepts `L`. -/
theorem Builds.accepts_finish_iff (h : ({} : Automaton).Builds p L) :
    (p.1.finish p.2).Accepts w ↔ w ∈ L := by
  obtain ⟨R, _, hR⟩ := h.recognizes
  rw [← hR.reads_iff]
  refine ⟨fun haccepts => ?_, fun hreads => ?_⟩
  · obtain ⟨j, hreads, hj⟩ := haccepts
    rw [h.accepting_finish_iff] at hj
    subst hj
    exact reads_finish_iff.mp hreads
  · exact ⟨p.2.stop, reads_finish_iff.mpr hreads, (h.accepting_finish_iff _).mpr rfl⟩

theorem ofPattern_eq (limit : Nat) (pattern : List Char) :
    ofPattern limit pattern = (Regex.parse limit 0 0 {} pattern).map
      fun r => (r.build {}).1.finish (r.build {}).2 := by
  unfold ofPattern Cursor.compile
  rw [Cursor.remaining_ofPattern]
  show (Except.map _ (Regex.parse limit 0 0 {} pattern)).map _ = _
  cases Regex.parse limit 0 0 {} pattern <;> rfl

theorem ofPattern_of_parse {limit : Nat} {pattern : List Char} {r : Regex}
    (h : Regex.parse limit 0 0 {} pattern = .ok r) :
    ofPattern limit pattern = .ok ((r.build {}).1.finish (r.build {}).2) := by
  rw [ofPattern_eq, h]
  rfl

/-- The automaton of a pattern accepts the language of the expression that the pattern is read as. -/
theorem exists_parse_of_ofPattern {limit : Nat} {pattern : List Char}
    (h : ofPattern limit pattern = .ok A) :
    ∃ r, Regex.parse limit 0 0 {} pattern = .ok r ∧ ∀ w, A.Accepts w ↔ w ∈ r.language := by
  rw [ofPattern_eq] at h
  cases hr : Regex.parse limit 0 0 {} pattern with
  | error e => rw [hr] at h; cases h
  | ok r =>
    rw [hr] at h
    cases h
    exact ⟨r, rfl, fun w => (r.builds_build {}).accepts_finish_iff⟩

end Automaton

end Acceptor
