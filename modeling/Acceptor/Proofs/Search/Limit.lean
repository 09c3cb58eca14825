import Acceptor.Search.Basic
import Mathlib.Data.List.Forall2

/-!
# What a limit on steps does

A limit decides where a walk stops and nothing else. The walk with a limit is the walk without one, cut
off before the first step that is too many (`walk_some`): no turn looks at the limit, only steps are
counted, and a silent step that is no choice is none.

Every step is one event. So if `n` steps are tried without a limit, then with a limit of `n` or more the
search is the same, and with a lower limit `l` it fails after the first `l` of these events
(`search_and_events_of_limit`).
-/

namespace Acceptor

/-! ### Events -/

/-- The event of trying the last step of a trail, after the others. -/
def Event.Tries (e : Event) (t : Trail) : Prop := ∃ u s, t = u ++ [s] ∧ e = .attempted u.length s

namespace Exploration

variable {x : Exploration} {ps : List (List Step)} {l : Nat} {b : Bool}

def trails (x : Exploration) : List Trail := x.attempts.reverse.map List.reverse

@[simp] theorem length_trails (x : Exploration) : x.trails.length = x.attempts.length := by
  rw [trails, List.length_map, List.length_reverse]

theorem getLastD_trails (x : Exploration) : x.trails.getLastD [] = (x.attempts.headD []).reverse := by
  unfold trails
  cases x.attempts <;> simp

def trace (x : Exploration) : List Event := x.attempts.reverse.flatMap attempted

theorem events_of_ok (length : Nat) (h : x.outcome = .ok b) :
    x.events length = x.trace ++ [.searched length b x.attempts.length] := by
  rw [events, h, trace]

theorem events_of_error (length : Nat) {e : MatchError} (h : x.outcome = .error e) :
    x.events length = x.trace := by
  rw [events, h, List.append_nil, trace]

theorem exists_eq_attempted {e : Event} (h : e ∈ x.trace) : ∃ depth s, e = .attempted depth s := by
  obtain ⟨p, _, he⟩ := List.mem_flatMap.mp h
  cases p with
  | nil => exact absurd he List.not_mem_nil
  | cons s before => exact ⟨_, s, List.mem_singleton.mp he⟩

theorem forall₂_tries_flatMap (h : ∀ p ∈ ps, p ≠ []) :
    List.Forall₂ Event.Tries (ps.flatMap attempted) (ps.map List.reverse) := by
  induction ps with
  | nil => exact .nil
  | cons p ps ih =>
    obtain ⟨s, before, rfl⟩ := List.exists_cons_of_ne_nil (h p (List.mem_cons_self ..))
    refine .cons ⟨before.reverse, s, List.reverse_cons, ?_⟩
      (ih fun q hq => h q (List.mem_cons_of_mem _ hq))
    rw [List.length_reverse]

theorem forall₂_tries (h : ∀ p ∈ x.attempts, p ≠ []) : List.Forall₂ Event.Tries x.trace x.trails :=
  forall₂_tries_flatMap fun p hp => h p (List.mem_reverse.mp hp)

theorem length_trace (h : ∀ p ∈ x.attempts, p ≠ []) : x.trace.length = x.attempts.length := by
  rw [(forall₂_tries h).length_eq, length_trails]

theorem flatMap_attempted_take (h : ∀ p ∈ ps, p ≠ []) (n : Nat) :
    (ps.take n).flatMap attempted = (ps.flatMap attempted).take n := by
  induction ps generalizing n with
  | nil => simp
  | cons p ps ih =>
    obtain ⟨s, before, rfl⟩ := List.exists_cons_of_ne_nil (h p (List.mem_cons_self ..))
    cases n with
    | zero => rfl
    | succ n =>
      show _ :: (ps.take n).flatMap attempted = _ :: (ps.flatMap attempted).take n
      rw [ih fun q hq => h q (List.mem_cons_of_mem _ hq)]

/-! ### Explorations cut off -/

/-- What the exploration would have been with a limit of `l` steps. -/
def limited (l : Nat) (x : Exploration) : Exploration :=
  if x.attempts.length ≤ l then x
  else ⟨.error (.stepLimit l), x.attempts.drop (x.attempts.length - l)⟩

theorem limited_of_le (h : x.attempts.length ≤ l) : x.limited l = x := if_pos h

theorem limited_of_lt (h : l < x.attempts.length) :
    x.limited l = ⟨.error (.stepLimit l), x.attempts.drop (x.attempts.length - l)⟩ :=
  if_neg (Nat.not_le_of_lt h)

theorem limited_of_suffix {p : List Step} (hsuffix : p :: ps <:+ x.attempts) (hl : ps.length = l) :
    x.limited l = ⟨.error (.stepLimit l), ps⟩ := by
  have hlt : l < x.attempts.length := by
    have := hsuffix.length_le
    rw [List.length_cons] at this
    omega
  have hps := List.suffix_iff_eq_drop.mp ((List.suffix_cons p ps).trans hsuffix)
  rw [limited_of_lt hlt, ← hl, ← hps]

theorem trace_limited (h : ∀ p ∈ x.attempts, p ≠ []) (hlt : l < x.attempts.length) :
    (x.limited l).trace = x.trace.take l := by
  rw [limited_of_lt hlt, trace, trace, ← List.take_reverse]
  exact flatMap_attempted_take (fun p hp => h p (List.mem_reverse.mp hp)) l

end Exploration

namespace Automaton

variable {A : Automaton} {limit : Limit} {steps l : Nat} {w : Walk} {input : List Char}

/-! ### The walk -/

theorem attempts_of_next_enter {w' : Walk} (h : A.next w = .enter w') :
    ∃ s before, w'.attempts = (s :: before) :: w.attempts := by
  obtain ⟨v, _, s, _, _, rfl⟩ := exists_of_next_enter h
  exact ⟨s, v.path, rfl⟩

theorem attempts_of_next_leave {w' : Walk} (h : A.next w = .leave w') : w'.attempts = w.attempts := by
  obtain ⟨_, _, _, _, _, rfl⟩ := exists_of_next_leave h
  rfl

theorem suffix_attempts_walk (A : Automaton) (limit : Limit) (steps : Nat) (w : Walk) :
    w.attempts <:+ (A.walk limit steps w).attempts := by
  fun_induction Automaton.walk A limit steps w with
  | case1 => exact List.suffix_rfl
  | case2 steps w w' hnext ih => rwa [attempts_of_next_leave hnext] at ih
  | case3 => exact List.suffix_rfl
  | case4 steps w w' hnext hlimit ih =>
    obtain ⟨s, before, hattempts⟩ := attempts_of_next_enter hnext
    rw [hattempts] at ih
    exact (List.suffix_cons _ _).trans ih

theorem exists_outcome_walk (A : Automaton) (steps : Nat) (w : Walk) :
    ∃ b, (A.walk none steps w).outcome = .ok b := by
  fun_induction Automaton.walk A none steps w with
  | case1 _ _ accepted => exact ⟨accepted, rfl⟩
  | case2 _ _ _ _ ih => exact ih
  | case3 _ _ _ _ _ hlimit => simp at hlimit
  | case4 _ _ _ _ _ ih => exact ih

theorem ne_nil_of_mem_attempts (h : ∀ p ∈ w.attempts, p ≠ []) :
    ∀ p ∈ (A.walk limit steps w).attempts, p ≠ [] := by
  fun_induction Automaton.walk A limit steps w with
  | case1 => exact h
  | case2 steps w w' hnext ih => exact ih (attempts_of_next_leave hnext ▸ h)
  | case3 => exact h
  | case4 steps w w' hnext hlimit ih =>
    obtain ⟨s, before, hattempts⟩ := attempts_of_next_enter hnext
    refine ih fun p hp => ?_
    rw [hattempts] at hp
    rcases List.mem_cons.mp hp with rfl | hp
    · exact List.cons_ne_nil s before
    · exact h p hp

/-- With a limit that is not exceeded yet, the walk is cut off at the limit. -/
theorem walk_some (hsteps : w.attempts.length = steps) (hle : steps ≤ l) :
    A.walk (some l) steps w = (A.walk none steps w).limited l := by
  fun_induction Automaton.walk A none steps w with
  | case1 steps w accepted hnext =>
    rw [walk_of_done hnext, Exploration.limited_of_le (hsteps ▸ hle)]
  | case2 steps w w' hnext ih =>
    rw [walk_of_leave hnext]
    exact ih (attempts_of_next_leave hnext ▸ hsteps) hle
  | case3 steps w w' hnext l' hlimit => simp at hlimit
  | case4 steps w w' hnext hlimit ih =>
    obtain ⟨s, before, hattempts⟩ := attempts_of_next_enter hnext
    rw [walk_of_enter hnext]
    by_cases hroom : steps + 1 ≤ l
    · simp only [Limit.exceededBy?_of_le hroom]
      exact ih (by rw [hattempts, List.length_cons, hsteps]) hroom
    · -- This step is the first that is too many, and the walk without a limit goes on with it.
      have hl : w.attempts.length = l := by omega
      have hsuffix := suffix_attempts_walk A none (steps + 1) w'
      rw [hattempts] at hsuffix
      simp only [Limit.exceededBy?_of_lt (Nat.lt_of_not_le hroom)]
      exact (Exploration.limited_of_suffix hsuffix hl).symm

/-! ### The search -/

theorem explore_some (A : Automaton) (l : Nat) (input : List Char) :
    A.explore (some l) input = (A.explore none input).limited l :=
  walk_some rfl (Nat.zero_le l)

theorem explore_of_le (h : (A.explore none input).attempts.length ≤ l) :
    A.explore (some l) input = A.explore none input := by
  rw [explore_some, Exploration.limited_of_le h]

theorem outcome_of_lt (h : l < (A.explore none input).attempts.length) :
    (A.explore (some l) input).outcome = .error (.stepLimit l) := by
  rw [explore_some, Exploration.limited_of_lt h]

theorem exists_outcome_eq_ok (A : Automaton) (input : List Char) :
    ∃ b, (A.explore none input).outcome = .ok b := exists_outcome_walk ..

theorem search_eq_ok_iff {r : Search} :
    A.search limit input = .ok r ↔ (A.explore limit input).outcome = .ok r.accepted ∧
      r.trail = ((A.explore limit input).attempts.headD []).reverse := by
  obtain ⟨accepted, trail⟩ := r
  rw [search, Exploration.search]
  cases (A.explore limit input).outcome with
  | error e => simp [Except.map]
  | ok b => simp [Except.map, eq_comm]

theorem search_of_outcome {b : Bool} (h : (A.explore limit input).outcome = .ok b) :
    A.search limit input = .ok ⟨b, ((A.explore limit input).attempts.headD []).reverse⟩ :=
  search_eq_ok_iff.mpr ⟨h, rfl⟩

theorem search_of_lt (h : l < (A.explore none input).attempts.length) :
    A.search (some l) input = .error (.stepLimit l) := by
  rw [search, Exploration.search, outcome_of_lt h]
  rfl

theorem search_eq_ok_or (A : Automaton) (limit : Limit) (input : List Char) :
    (∃ r, A.search limit input = .ok r) ∨
      ∃ l, limit = some l ∧ A.search limit input = .error (.stepLimit l) := by
  obtain ⟨b, hb⟩ := exists_outcome_eq_ok A input
  cases limit with
  | none => exact .inl ⟨_, search_of_outcome hb⟩
  | some l =>
    rcases Nat.lt_or_ge l (A.explore none input).attempts.length with hlt | hle
    · exact .inr ⟨l, rfl, search_of_lt hlt⟩
    · exact .inl ⟨_, search_of_outcome (explore_of_le hle ▸ hb)⟩

theorem ne_nil_of_mem_explore (A : Automaton) (limit : Limit) (input : List Char) :
    ∀ p ∈ (A.explore limit input).attempts, p ≠ [] :=
  ne_nil_of_mem_attempts fun _ hp => absurd hp List.not_mem_nil

/-- A search without a limit finds an answer after some steps, each of them an event. With a limit it
does the same if these steps are no more, and else fails after the first of them, as many as the limit
allows. -/
theorem search_and_events_of_limit (A : Automaton) (input : List Char) :
    ∃ (r : Search) (trace : List Event),
      A.search none input = .ok r ∧
      (A.explore none input).events input.length =
        trace ++ [.searched input.length r.accepted trace.length] ∧
      (∀ e ∈ trace, ∃ depth s, e = .attempted depth s) ∧
      ∀ l : Nat,
        (trace.length ≤ l → A.search (some l) input = .ok r ∧
          (A.explore (some l) input).events input.length =
            trace ++ [.searched input.length r.accepted trace.length]) ∧
        (l < trace.length → A.search (some l) input = .error (.stepLimit l) ∧
          (A.explore (some l) input).events input.length = trace.take l) := by
  have hne := ne_nil_of_mem_explore A none input
  obtain ⟨b, hb⟩ := exists_outcome_eq_ok A input
  have hevents := Exploration.events_of_ok input.length hb
  rw [← Exploration.length_trace hne] at hevents
  refine ⟨_, _, search_of_outcome hb, hevents, fun e he => Exploration.exists_eq_attempted he,
    fun l => ⟨fun hle => ?_, fun hlt => ?_⟩⟩
  · rw [Exploration.length_trace hne] at hle
    rw [search, explore_of_le hle]
    exact ⟨search_of_outcome hb, hevents⟩
  · rw [Exploration.length_trace hne] at hlt
    refine ⟨search_of_lt hlt, ?_⟩
    rw [Exploration.events_of_error _ (outcome_of_lt hlt), explore_some,
      Exploration.trace_limited hne hlt]

end Automaton

end Acceptor
