import Acceptor.Proofs.Automaton.Path

/-!
# What sets of states can reach

`Automaton.closure` is computed by a worklist. Its invariant (`Settled`) is that every identifier found
is either still pending or has all its silent targets found; at the end nothing is pending, so the set
found is closed and hence holds all that silent transitions reach (`mem_closure_iff`).

`A.reach w` folds `Automaton.move` over a word. It is the set of all states that a path from the start
reaches by spelling `w` (`mem_reach_iff`), and some member accepts exactly if the automaton accepts the
word (`acceptsAny_reach_iff`).
-/

namespace Acceptor.Automaton

variable {A : Automaton} {found ids : IdSet} {pending : List Nat} {i j : Nat} {c : Char}
  {w : List Char}

/-! ### The worklist -/

/-- Each identifier found is pending or has all its silent targets found. -/
def Settled (A : Automaton) (found : IdSet) (pending : List Nat) : Prop :=
  ∀ i ∈ found, i ∉ pending → ∀ j ∈ A.epsilons i, j ∈ found

/-- Following one pending identifier settles it; what it brings in becomes pending. -/
theorem Settled.follow {id : Nat} (h : A.Settled found (id :: pending)) :
    A.Settled (found ∪ (A.epsilons id).filter (· ∉ found))
      (((A.epsilons id).filter (· ∉ found)).toList ++ pending) := by
  intro i hi hpending j hj
  rw [List.mem_append, Ascending.mem_toList, not_or] at hpending
  have hfound : i ∈ found := (Ascending.mem_union.mp hi).resolve_right hpending.1
  rw [Ascending.mem_union, Ascending.mem_filter, decide_eq_true_eq]
  by_cases hmem : j ∈ found
  · exact .inl hmem
  · by_cases hid : i = id
    · subst hid
      exact .inr ⟨hj, hmem⟩
    · refine absurd (h i hfound ?_ j hj) hmem
      rw [List.mem_cons, not_or]
      exact ⟨hid, hpending.2⟩

theorem mem_closeOver_of_mem (h : i ∈ found) : i ∈ A.closeOver found pending := by
  fun_induction closeOver A found pending with
  | case1 => exact h
  | case2 _ _ _ _ ih => exact ih (Ascending.mem_union.mpr (.inl h))

theorem epsilons_subset_closeOver (h : A.Settled found pending)
    (hi : i ∈ A.closeOver found pending) (hj : j ∈ A.epsilons i) :
    j ∈ A.closeOver found pending := by
  fun_induction closeOver A found pending with
  | case1 => exact h i hi List.not_mem_nil j hj
  | case2 _ _ _ _ ih => exact ih h.follow hi

theorem exists_reads_of_mem_closeOver (hsub : ∀ p ∈ pending, p ∈ found)
    (h : i ∈ A.closeOver found pending) : ∃ j ∈ found, A.Reads j [] i := by
  fun_induction closeOver A found pending with
  | case1 => exact ⟨i, h, .refl i⟩
  | case2 found id pending fresh ih =>
    have hsub' : ∀ p ∈ fresh.toList ++ pending, p ∈ found ∪ fresh := by
      intro p hp
      rw [Ascending.mem_union]
      rcases List.mem_append.mp hp with hp | hp
      · exact .inr hp
      · exact .inl (hsub p (List.mem_cons_of_mem _ hp))
    obtain ⟨j, hj, hreads⟩ := ih hsub' h
    rcases Ascending.mem_union.mp hj with hj | hj
    · exact ⟨j, hj, hreads⟩
    · exact ⟨id, hsub id (List.mem_cons_self ..), .silent (Ascending.mem_filter.mp hj).1 hreads⟩

/-! ### Closure and move -/

theorem epsilons_subset_closure (hi : i ∈ A.closure ids) (hj : j ∈ A.epsilons i) :
    j ∈ A.closure ids :=
  epsilons_subset_closeOver (fun _ hp hnot => absurd hp hnot) hi hj

/-- The closure of a set holds exactly what the empty word reaches from its members. -/
theorem mem_closure_iff : i ∈ A.closure ids ↔ ∃ j ∈ ids, A.Reads j [] i := by
  constructor
  · exact exists_reads_of_mem_closeOver fun p hp => hp
  · rintro ⟨j, hj, h⟩
    exact h.mem_of_closed (S := (· ∈ A.closure ids)) (fun p hp q hq => epsilons_subset_closure hp hq)
      (mem_closeOver_of_mem hj)

theorem epsilons_subset_move (hi : i ∈ A.move ids c) (hj : j ∈ A.epsilons i) : j ∈ A.move ids c :=
  epsilons_subset_closure hi hj

theorem mem_move_iff :
    i ∈ A.move ids c ↔ ∃ p ∈ ids, ∃ q ∈ A.targets p (.symbol c), A.Reads q [] i := by
  rw [move, mem_closure_iff]
  refine ⟨fun h => ?_, fun h => ?_⟩
  · obtain ⟨q, hq, h⟩ := h
    obtain ⟨p, hp, hpq⟩ := mem_step.mp hq
    exact ⟨p, hp, q, hpq, h⟩
  · obtain ⟨p, hp, q, hpq, h⟩ := h
    exact ⟨q, mem_step.mpr ⟨p, hp, hpq⟩, h⟩

/-! ### Words -/

/-- The states that the start reaches by a word. -/
def reach (A : Automaton) (w : List Char) : IdSet := w.foldl A.move (A.closure (.singleton A.start))

theorem mem_foldl_move_iff (hclosed : ∀ p ∈ ids, ∀ q ∈ A.epsilons p, q ∈ ids) :
    i ∈ w.foldl A.move ids ↔ ∃ j ∈ ids, A.Reads j w i := by
  induction w generalizing ids with
  | nil =>
    constructor
    · exact fun h => ⟨i, h, .refl i⟩
    · rintro ⟨j, hj, h⟩
      exact h.mem_of_closed (S := (· ∈ ids)) hclosed hj
  | cons c w ih =>
    rw [List.foldl_cons, ih fun p hp q hq => epsilons_subset_move hp hq]
    refine ⟨fun h => ?_, fun h => ?_⟩
    · obtain ⟨j, hj, hw⟩ := h
      obtain ⟨p, hp, q, hq, hqj⟩ := mem_move_iff.mp hj
      exact ⟨p, hp, .symbol hq (hqj.trans hw)⟩
    · obtain ⟨j, hj, h⟩ := h
      obtain ⟨p, q, hjp, hq, hw⟩ := h.exists_of_cons
      have hp : p ∈ ids := hjp.mem_of_closed (S := (· ∈ ids)) hclosed hj
      exact ⟨q, mem_move_iff.mpr ⟨p, hp, q, hq, .refl q⟩, hw⟩

theorem mem_reach_iff : i ∈ A.reach w ↔ A.Reads A.start w i := by
  rw [reach, mem_foldl_move_iff fun p hp q hq => epsilons_subset_closure hp hq]
  refine ⟨fun h => ?_, fun h => ?_⟩
  · obtain ⟨j, hj, hw⟩ := h
    obtain ⟨p, hp, hpj⟩ := mem_closure_iff.mp hj
    rw [Ascending.mem_singleton] at hp
    subst hp
    exact hpj.trans hw
  · exact ⟨A.start, mem_closure_iff.mpr ⟨A.start, Ascending.mem_singleton.mpr rfl, .refl _⟩, h⟩

theorem acceptsAny_iff : A.acceptsAny ids ↔ ∃ i ∈ ids, A.accepting i := by
  rw [acceptsAny, List.any_eq_true]
  rfl

theorem acceptsAny_reach_iff : A.acceptsAny (A.reach w) ↔ A.Accepts w := by
  rw [acceptsAny_iff, Accepts]
  refine ⟨fun h => ?_, fun h => ?_⟩
  · obtain ⟨i, hi, hacc⟩ := h
    exact ⟨i, mem_reach_iff.mp hi, hacc⟩
  · obtain ⟨i, hi, hacc⟩ := h
    exact ⟨i, mem_reach_iff.mpr hi, hacc⟩

/-! ### No states, no symbols -/

theorem move_empty : A.move ∅ c = ∅ := by
  apply Ascending.ext
  intro i
  rw [mem_move_iff]
  refine ⟨fun h => ?_, fun hi => ?_⟩
  · obtain ⟨p, hp, _⟩ := h
    exact absurd hp (Ascending.not_mem_empty p)
  · exact absurd hi (Ascending.not_mem_empty i)

theorem move_eq_empty_of_not_mem_symbols (h : c ∉ A.symbols) : A.move ids c = ∅ := by
  apply Ascending.ext
  intro i
  rw [mem_move_iff]
  refine ⟨fun h => ?_, fun hi => ?_⟩
  · obtain ⟨p, _, q, hq, _⟩ := h
    exact absurd (mem_symbols.mpr ⟨p, q, hq⟩) h
  · exact absurd hi (Ascending.not_mem_empty i)

end Acceptor.Automaton
