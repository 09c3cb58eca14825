import Acceptor.Proofs.Automaton.Path
import Acceptor.Search.Loop
import Mathlib.Data.Set.Card
import Mathlib.Order.Bounds.Basic

/-!
# Frames and their trail

What the loop of a search keeps true of its frames and its trail (`Automaton.Consistent`): each frame is
joined to the next by a transition, which the trail records at the depth of the first of them, `runStart`
is where the frames at the same position begin, and no two frames at one position are in one state.

The loop drops the last frame (`Consistent.pop`), or it takes a silent step to a state that the run of
the last frame has not entered (`Consistent.push_silent`), or a step on the next symbol
(`Consistent.push_symbol`). What was recorded behind the frames stays on the trail until it is
overwritten, so the whole trail is a path at any time.

There are only as many frames as pairs of a position and a state that can be entered
(`Consistent.length_le`).
-/

namespace Acceptor.Automaton

variable {A : Automaton} {input : List Char} {ps : List Place} {t : Trail} {p q : Place} {s : Step}
  {d e : Nat} {c : Char}

inductive Joins (A : Automaton) (input : List Char) (p : Place) : Step → Place → Prop
  | silent {i runStart : Nat} : i ∈ A.targets p.state .epsilon →
      A.Joins input p ⟨p.state, .epsilon, i⟩ ⟨i, p.position, runStart⟩
  | symbol {c : Char} {i runStart : Nat} : input[p.position]? = some c →
      i ∈ A.targets p.state (.symbol c) →
      A.Joins input p ⟨p.state, .symbol c, i⟩ ⟨i, p.position + 1, runStart⟩

/-- The frames that stand at `ps` and the trail `t` belong to a search over the input. -/
structure Consistent (A : Automaton) (input : List Char) (ps : List Place) (t : Trail) : Prop where
  root : ∀ p, ps[0]? = some p → p.state = A.start ∧ p.position = 0
  /-- The trail begins with the steps from each frame to the next. -/
  joined : ∀ d p q, ps[d]? = some p → ps[d + 1]? = some q →
    ∃ s, t[d]? = some s ∧ A.Joins input p s q
  /-- The run of a frame begins with the first frame at its position. -/
  runStart : ∀ p ∈ ps, IsLeast {d | ∃ q, ps[d]? = some q ∧ q.position = p.position} p.runStart
  /-- Frames at one position are in different states. -/
  nodup : (ps.map fun p => (p.position, p.state)).Nodup
  path : ∃ i, A.Path A.start t i
  consumed : t.consumed <+: input

theorem consistent_begin (A : Automaton) (input : List Char) :
    A.Consistent input (Loop.begin A.start).places (Loop.begin A.start).trail where
  root p hp := by
    cases hp
    exact ⟨rfl, rfl⟩
  joined d p q _ hq := by cases hq
  runStart p hp := by
    rw [List.mem_singleton.mp hp]
    exact ⟨⟨_, rfl, rfl⟩, fun d _ => Nat.zero_le d⟩
  nodup := List.nodup_singleton _
  path := ⟨A.start, .nil A.start⟩
  consumed := List.nil_prefix

namespace Joins

theorem position_le (h : A.Joins input p s q) : p.position ≤ q.position := by
  cases h with
  | silent _ => exact Nat.le_refl _
  | symbol _ _ => exact Nat.le_succ _

theorem path_snoc {i : Nat} (h : A.Joins input p s q) (ht : A.Path i t p.state) :
    A.Path i (t ++ [s]) q.state := by
  cases h with
  | silent htarget => exact ht.snoc htarget
  | symbol _ htarget => exact ht.snoc htarget

theorem consumed_snoc (h : A.Joins input p s q) (ht : t.consumed = input.take p.position) :
    Trail.consumed (t ++ [s]) = input.take q.position := by
  rw [Trail.consumed_append, ht]
  cases h with
  | silent _ => exact List.append_nil _
  | symbol hc _ =>
    rw [List.take_add_one, hc]
    rfl

theorem position_le_length (h : A.Joins input p s q) (hp : p.position ≤ input.length) :
    q.position ≤ input.length := by
  cases h with
  | silent _ => exact hp
  | symbol hc _ => exact (List.getElem?_eq_some_iff.mp hc).1

end Joins

namespace Consistent

/-! ### The path of the stack -/

theorem exists_getElem? (hq : ps[d + 1]? = some q) : ∃ p, ps[d]? = some p :=
  ⟨_, List.getElem?_eq_getElem (Nat.lt_of_succ_lt (List.getElem?_eq_some_iff.mp hq).1)⟩

theorem path_to (h : A.Consistent input ps t) (hp : ps[d]? = some p) :
    A.Path A.start (t.take d) p.state ∧ Trail.consumed (t.take d) = input.take p.position ∧
      p.position ≤ input.length ∧ d ≤ t.length := by
  induction d generalizing p with
  | zero =>
    obtain ⟨hstate, hposition⟩ := h.root p hp
    rw [hstate, hposition]
    exact ⟨.nil _, rfl, Nat.zero_le _, Nat.zero_le _⟩
  | succ d ih =>
    obtain ⟨o, ho⟩ := exists_getElem? hp
    obtain ⟨s, hs, hjoins⟩ := h.joined d o p ho hp
    obtain ⟨hpath, hconsumed, hposition, _⟩ := ih ho
    rw [List.take_add_one, hs]
    exact ⟨hjoins.path_snoc hpath, hjoins.consumed_snoc hconsumed, hjoins.position_le_length hposition,
      (List.getElem?_eq_some_iff.mp hs).1⟩

theorem position_mono (h : A.Consistent input ps t) (hde : d ≤ e) (hp : ps[d]? = some p)
    (hq : ps[e]? = some q) : p.position ≤ q.position := by
  induction hde generalizing q with
  | refl =>
    rw [hp] at hq
    exact Nat.le_of_eq (congrArg Place.position (Option.some.inj hq))
  | step _ ih =>
    obtain ⟨o, ho⟩ := exists_getElem? hq
    obtain ⟨s, _, hjoins⟩ := h.joined _ o q ho hq
    exact Nat.le_trans (ih ho) hjoins.position_le

/-! ### The run of the last frame -/

section last

variable (hlength : ps.length = d + 1) (hp : ps[d]? = some p)

include hlength hp

theorem position_le_last (h : A.Consistent input ps t) (hq : q ∈ ps) : q.position ≤ p.position := by
  obtain ⟨e, he⟩ := List.mem_iff_getElem?.mp hq
  have hlt := (List.getElem?_eq_some_iff.mp he).1
  exact h.position_mono (by omega) he hp

/-- From the beginning of its run on, all frames are at the position of the last one, and no others. -/
theorem mem_drop_runStart_iff (h : A.Consistent input ps t) :
    q ∈ ps.drop p.runStart ↔ q ∈ ps ∧ q.position = p.position := by
  obtain ⟨⟨o, ho, hposition⟩, hleast⟩ := h.runStart p (List.mem_of_getElem? hp)
  refine ⟨fun hq => ?_, fun hq => ?_⟩
  · have hmem := List.mem_of_mem_drop hq
    obtain ⟨k, hk⟩ := List.mem_iff_getElem?.mp hq
    rw [List.getElem?_drop] at hk
    have hfirst := h.position_mono (Nat.le_add_right _ _) ho hk
    have hlast := h.position_le_last hlength hp hmem
    exact ⟨hmem, by omega⟩
  · obtain ⟨hq, hsame⟩ := hq
    obtain ⟨e, he⟩ := List.mem_iff_getElem?.mp hq
    have hle : p.runStart ≤ e := hleast ⟨q, he, hsame⟩
    refine List.mem_iff_getElem?.mpr ⟨e - p.runStart, ?_⟩
    rwa [List.getElem?_drop, Nat.add_sub_cancel' hle]

theorem nodup_drop_runStart (h : A.Consistent input ps t) :
    ((ps.drop p.runStart).map (·.state)).Nodup := by
  have hnodup := h.nodup.sublist ((List.drop_sublist p.runStart ps).map _)
  rw [List.Nodup, List.pairwise_map] at hnodup ⊢
  refine hnodup.imp_of_mem fun {o q} ho hq hne hstate => hne ?_
  have hposition := ((h.mem_drop_runStart_iff hlength hp).mp ho).2
  rw [hposition, ((h.mem_drop_runStart_iff hlength hp).mp hq).2, hstate]

end last

/-! ### One iteration -/

theorem pop (h : A.Consistent input ps t) : A.Consistent input ps.dropLast t := by
  have hkept {d : Nat} {p : Place} (hp : ps.dropLast[d]? = some p) : ps[d]? = some p := by
    rw [List.getElem?_dropLast] at hp
    split at hp
    · exact hp
    · cases hp
  exact {
    root := fun p hp => h.root p (hkept hp)
    joined := fun d p q hp hq => h.joined d p q (hkept hp) (hkept hq)
    runStart := by
      intro p hp
      obtain ⟨e, he⟩ := List.mem_iff_getElem?.mp hp
      obtain ⟨⟨o, ho, hposition⟩, hleast⟩ := h.runStart p (List.mem_of_getElem? (hkept he))
      have hle : p.runStart ≤ e := hleast ⟨p, hkept he, rfl⟩
      have hlt := (List.getElem?_eq_some_iff.mp he).1
      rw [List.length_dropLast] at hlt
      refine ⟨⟨o, ?_, hposition⟩, fun k ⟨x, hx, hsame⟩ => hleast ⟨x, hkept hx, hsame⟩⟩
      rwa [List.getElem?_dropLast, if_pos (by omega)]
    nodup := h.nodup.sublist ((List.dropLast_sublist ps).map _)
    path := h.path
    consumed := h.consumed }

theorem getElem?_concat_eq_some_iff {o : Place} :
    (ps ++ [q])[e]? = some o ↔ ps[e]? = some o ∨ e = ps.length ∧ o = q := by
  rcases Nat.lt_trichotomy e ps.length with hlt | rfl | hgt
  · rw [List.getElem?_append_left hlt]
    exact ⟨.inl, fun h => h.resolve_right fun h => Nat.ne_of_lt hlt h.1⟩
  · rw [List.getElem?_concat_length, List.getElem?_eq_none (Nat.le_refl _)]
    simp [eq_comm]
  · rw [List.getElem?_eq_none (by simpa using hgt), List.getElem?_eq_none (Nat.le_of_lt hgt)]
    simp [Nat.ne_of_gt hgt]

theorem push (h : A.Consistent input ps t) (hlength : ps.length = d + 1) (hp : ps[d]? = some p)
    (hjoins : A.Joins input p s q)
    (hleast : IsLeast {e | ∃ o, (ps ++ [q])[e]? = some o ∧ o.position = q.position} q.runStart)
    (hfresh : ∀ o ∈ ps, o.position = q.position → o.state ≠ q.state) :
    A.Consistent input (ps ++ [q]) (t.take d ++ [s]) := by
  obtain ⟨hpath, hconsumed, _, hd⟩ := h.path_to hp
  have hdepth : (t.take d).length = d := List.length_take_of_le hd
  refine ⟨fun o ho => ?_, fun e x y hx hy => ?_, fun o ho => ?_, ?_, ?_, ?_⟩
  · rcases getElem?_concat_eq_some_iff.mp ho with ho | ⟨hzero, _⟩
    · exact h.root o ho
    · omega
  · rcases getElem?_concat_eq_some_iff.mp hy with hy | ⟨he, rfl⟩
    · have he := (List.getElem?_eq_some_iff.mp hy).1
      rw [List.getElem?_append_left (by omega)] at hx
      obtain ⟨s', hs', hjoins'⟩ := h.joined e x y hx hy
      refine ⟨s', ?_, hjoins'⟩
      rwa [List.getElem?_append_left (by omega), List.getElem?_take_of_lt (by omega)]
    · obtain rfl : e = d := by omega
      rw [List.getElem?_append_left (by omega), hp] at hx
      obtain rfl := Option.some.inj hx
      refine ⟨s, ?_, hjoins⟩
      rw [List.getElem?_append_right (Nat.le_of_eq hdepth), hdepth, Nat.sub_self]
      rfl
  · rcases List.mem_append.mp ho with ho | ho
    · -- The new frame stands behind those that were there, so their runs begin where they did.
      obtain ⟨⟨x, hx, hsame⟩, hfirst⟩ := h.runStart o ho
      refine ⟨⟨x, getElem?_concat_eq_some_iff.mpr (.inl hx), hsame⟩, ?_⟩
      rintro e ⟨y, hy, hsame'⟩
      rcases getElem?_concat_eq_some_iff.mp hy with hy | ⟨rfl, _⟩
      · exact hfirst ⟨y, hy, hsame'⟩
      · exact Nat.le_of_lt (List.getElem?_eq_some_iff.mp hx).1
    · rw [List.mem_singleton.mp ho]
      exact hleast
  · rw [List.map_append, List.nodup_append]
    refine ⟨h.nodup, List.nodup_singleton _, ?_⟩
    intro x hx y hy hxy
    obtain ⟨o, ho, rfl⟩ := List.mem_map.mp hx
    rw [List.map_singleton, List.mem_singleton] at hy
    rw [hy, Prod.mk.injEq] at hxy
    exact hfresh o ho hxy.1 hxy.2
  · exact ⟨q.state, hjoins.path_snoc hpath⟩
  · rw [hjoins.consumed_snoc hconsumed]
    exact List.take_prefix _ _

theorem push_silent {i : Nat} (h : A.Consistent input ps t) (hlength : ps.length = d + 1)
    (hp : ps[d]? = some p) (hi : i ∈ A.targets p.state .epsilon)
    (hrun : i ∉ (ps.drop p.runStart).map (·.state)) :
    A.Consistent input (ps ++ [⟨i, p.position, p.runStart⟩])
      (t.take d ++ [⟨p.state, .epsilon, i⟩]) := by
  have hjoins : A.Joins input p ⟨p.state, .epsilon, i⟩ ⟨i, p.position, p.runStart⟩ := .silent hi
  refine h.push hlength hp hjoins ?_ ?_
  · obtain ⟨⟨o, ho, hposition⟩, hfirst⟩ := h.runStart p (List.mem_of_getElem? hp)
    refine ⟨⟨o, getElem?_concat_eq_some_iff.mpr (.inl ho), hposition⟩, ?_⟩
    rintro e ⟨y, hy, hsame⟩
    rcases getElem?_concat_eq_some_iff.mp hy with hy | ⟨rfl, _⟩
    · exact hfirst ⟨y, hy, hsame⟩
    · exact Nat.le_of_lt (List.getElem?_eq_some_iff.mp ho).1
  · intro o ho hsame hstate
    have hmem := (h.mem_drop_runStart_iff hlength hp).mpr ⟨ho, hsame⟩
    exact hrun (List.mem_map.mpr ⟨o, hmem, hstate⟩)

theorem push_symbol {i : Nat} (h : A.Consistent input ps t) (hlength : ps.length = d + 1)
    (hp : ps[d]? = some p) (hc : input[p.position]? = some c)
    (hi : i ∈ A.targets p.state (.symbol c)) :
    A.Consistent input (ps ++ [⟨i, p.position + 1, ps.length⟩])
      (t.take d ++ [⟨p.state, .symbol c, i⟩]) := by
  have hjoins : A.Joins input p ⟨p.state, .symbol c, i⟩ ⟨i, p.position + 1, ps.length⟩ :=
    .symbol hc hi
  have hbehind (o : Place) (ho : o ∈ ps) : o.position ≠ p.position + 1 := by
    have := h.position_le_last hlength hp ho
    omega
  refine h.push hlength hp hjoins ⟨⟨_, getElem?_concat_eq_some_iff.mpr (.inr ⟨rfl, rfl⟩), rfl⟩, ?_⟩ ?_
  · rintro e ⟨y, hy, hsame⟩
    rcases getElem?_concat_eq_some_iff.mp hy with hy | ⟨rfl, _⟩
    · exact absurd hsame (hbehind y (List.mem_of_getElem? hy))
    · exact Nat.le_refl _
  · intro o ho hsame
    exact absurd hsame (hbehind o ho)

end Consistent

/-! ### How many frames there are -/

/-- The identifiers that can be entered: the start and the targets of transitions. -/
def entries (A : Automaton) : Set Nat := {i | i = A.start ∨ ∃ j l, i ∈ A.targets j l}

theorem finite_entries (A : Automaton) : A.entries.Finite := by
  refine (A.start :: A.allTargets.toList).finite_toSet.subset ?_
  rintro i (rfl | ⟨j, l, hi⟩)
  · exact List.mem_cons_self
  · exact List.mem_cons_of_mem _ (Ascending.mem_toList.mpr (mem_allTargets hi))

namespace Consistent

theorem state_mem_entries (h : A.Consistent input ps t) (hp : ps[d]? = some p) :
    p.state ∈ A.entries := by
  cases d with
  | zero => exact .inl (h.root p hp).1
  | succ d =>
    obtain ⟨o, ho⟩ := exists_getElem? hp
    obtain ⟨s, _, hjoins⟩ := h.joined d o p ho hp
    cases hjoins with
    | silent htarget => exact .inr ⟨_, _, htarget⟩
    | symbol _ htarget => exact .inr ⟨_, _, htarget⟩

/-- Each frame has a position and a state of its own. -/
theorem length_le (h : A.Consistent input ps t) :
    ps.length ≤ (input.length + 1) * A.entries.ncard := by
  have hsub : (ps.map fun p => (p.position, p.state)).toFinset ⊆
      Finset.range (input.length + 1) ×ˢ A.finite_entries.toFinset := by
    intro x hx
    obtain ⟨p, hp, rfl⟩ := List.mem_map.mp (List.mem_toFinset.mp hx)
    obtain ⟨d, hd⟩ := List.mem_iff_getElem?.mp hp
    rw [Finset.mem_product, Finset.mem_range, Set.Finite.mem_toFinset]
    exact ⟨Nat.lt_succ_of_le (h.path_to hd).2.2.1, h.state_mem_entries hd⟩
  calc ps.length = (ps.map fun p => (p.position, p.state)).toFinset.card := by
        rw [List.toFinset_card_of_nodup h.nodup, List.length_map]
    _ ≤ (Finset.range (input.length + 1) ×ˢ A.finite_entries.toFinset).card :=
        Finset.card_le_card hsub
    _ = (input.length + 1) * A.entries.ncard := by
        rw [Finset.card_product, Finset.card_range, Set.ncard_eq_toFinset_card _ A.finite_entries]

end Consistent

end Acceptor.Automaton
