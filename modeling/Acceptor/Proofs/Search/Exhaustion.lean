import Acceptor.Proofs.Search.Order
import Mathlib.Data.Set.Card
import Mathlib.Order.Bounds.Defs

/-!
# What a failed search has tried

The trails that a walk may try form a tree, and `Automaton.ways` lists them depth first. A walk keeps
the tree as a stack of visits, each with the number of choices that were tried; what it has still to
try are the trails through the choices that were not (`pending`). A turn that enters tries the first
trail of this list, and a turn that leaves does not change it (`pending_of_next_enter`,
`pending_of_next_leave`). So a walk that fails has tried the whole list, each trail once
(`trails_walk`).

No walk is needed to say which trails these are: they are the simple paths from the start that spell a
beginning of the input (`Candidate`), in lexicographic order (`pairwise_ways`). The one tried last is
reported, and it is the path that always takes the last step there is (`Drifts`).
-/

namespace Acceptor.Automaton

variable {A : Automaton} {v : Visit} {below : List Visit} {s s' : Step} {t t' : Trail} {i j : Nat}
  {run : List Nat} {limit : Limit} {steps : Nat} {w w' : Walk} {rest input : List Char} {r : Search}

/-! ### The tree of choices -/

/-- The trails that a walk may try from a visit, depth first. -/
def ways (A : Automaton) (v : Visit) : List Trail :=
  (A.choices v).attach.flatMap fun s => [s.1] :: (A.ways (v.enter s.1)).map (s.1 :: ·)
termination_by A.rank v
decreasing_by exact rank_enter_lt s.2

def branch (A : Automaton) (v : Visit) (s : Step) : List Trail :=
  [s] :: (A.ways (v.enter s)).map (s :: ·)

theorem ways_eq (A : Automaton) (v : Visit) : A.ways v = (A.choices v).flatMap (A.branch v) := by
  rw [ways, List.flatMap_subtype (g := A.branch v) (fun _ _ => rfl), List.unattach_attach]

theorem mem_branch_iff :
    t ∈ A.branch v s ↔ ∃ t', t = s :: t' ∧ (t' = [] ∨ t' ∈ A.ways (v.enter s)) := by
  rw [branch, List.mem_cons, List.mem_map]
  constructor
  · rintro (rfl | ⟨t', ht', rfl⟩)
    · exact ⟨[], rfl, .inl rfl⟩
    · exact ⟨t', rfl, .inr ht'⟩
  · rintro ⟨t', rfl, rfl | ht'⟩
    · exact .inl rfl
    · exact .inr ⟨t', ht', rfl⟩

theorem nil_not_mem_ways : [] ∉ A.ways v := by
  rw [ways_eq, List.mem_flatMap]
  rintro ⟨s, _, hmem⟩
  obtain ⟨t', hnil, _⟩ := mem_branch_iff.mp hmem
  cases hnil

theorem cons_mem_ways_iff :
    s :: t ∈ A.ways v ↔ s ∈ A.choices v ∧ (t = [] ∨ t ∈ A.ways (v.enter s)) := by
  rw [ways_eq, List.mem_flatMap]
  constructor
  · rintro ⟨s', hs', hmem⟩
    obtain ⟨t', heq, ht'⟩ := mem_branch_iff.mp hmem
    cases heq
    exact ⟨hs', ht'⟩
  · rintro ⟨hs, ht⟩
    exact ⟨s, hs, mem_branch_iff.mpr ⟨t, rfl, ht⟩⟩

theorem mem_ways_iff : t ∈ A.ways v ↔ t ≠ [] ∧ ∃ j rest, A.Follows v t j rest := by
  induction t generalizing v with
  | nil => exact ⟨fun h => absurd h nil_not_mem_ways, fun h => absurd rfl h.1⟩
  | cons s t ih =>
    simp only [cons_mem_ways_iff, ih, follows_cons_iff, exists_and_left]
    constructor
    · rintro ⟨hs, rfl | ⟨_, hfollows⟩⟩
      · exact ⟨List.cons_ne_nil s [], hs, _, _, A.follows_nil _⟩
      · exact ⟨List.cons_ne_nil s t, hs, hfollows⟩
    · rintro ⟨_, hs, hfollows⟩
      by_cases ht : t = []
      · exact ⟨hs, .inl ht⟩
      · exact ⟨hs, .inr ⟨ht, hfollows⟩⟩

theorem pairwise_ways (A : Automaton) (v : Visit) : (A.ways v).Pairwise (List.Lex Step.Before) := by
  rw [ways_eq, List.pairwise_flatMap]
  refine ⟨fun s hs => ?_, (A.pairwise_choices v).imp fun hbefore t ht t' ht' => ?_⟩
  · rw [branch, List.pairwise_cons, List.pairwise_map]
    constructor
    · rintro _ hlonger
      obtain ⟨t, ht, rfl⟩ := List.mem_map.mp hlonger
      obtain ⟨s', t', rfl⟩ := List.exists_cons_of_ne_nil (mem_ways_iff.mp ht).1
      exact .cons .nil
    · exact (pairwise_ways A (v.enter s)).imp .cons
  · obtain ⟨_, rfl, _⟩ := mem_branch_iff.mp ht
    obtain ⟨_, rfl, _⟩ := mem_branch_iff.mp ht'
    exact .rel hbefore
termination_by A.rank v
decreasing_by exact rank_enter_lt hs

/-! ### What is pending -/

/-- The trails, each from the start, that a walk with these visits has still to try. -/
def pending (A : Automaton) : List Visit → List Trail
  | [] => []
  | v :: below =>
    (((A.choices v).drop v.tried).flatMap (A.branch v)).map (v.path.reverse ++ ·) ++ A.pending below

theorem pending_fresh (h : v.tried = 0) :
    A.pending (v :: below) = (A.ways v).map (v.path.reverse ++ ·) ++ A.pending below := by
  rw [pending, h, List.drop_zero, ways_eq]

/-- Entering a choice tries the first trail that is pending. -/
theorem pending_of_next_enter (h : A.next w = .enter w') :
    ∃ p, w'.attempts = p :: w.attempts ∧ A.pending w.stack = p.reverse :: A.pending w'.stack := by
  obtain ⟨v, below, s, hstack, hs, rfl⟩ := exists_of_next_enter h
  refine ⟨s :: v.path, rfl, ?_⟩
  have hdrop : (A.choices v).drop v.tried = s :: (A.choices v).drop (v.tried + 1) := by
    obtain ⟨hn, rfl⟩ := List.getElem?_eq_some_iff.mp hs
    exact List.drop_eq_getElem_cons hn
  have hlater : A.pending ({ v with tried := v.tried + 1 } :: below) =
      (((A.choices v).drop (v.tried + 1)).flatMap (A.branch v)).map (v.path.reverse ++ ·) ++
        A.pending below := rfl
  rw [hstack, pending, hdrop, pending_fresh Visit.tried_enter, hlater, Visit.path_enter,
    List.flatMap_cons, branch]
  simp [Function.comp_def]

theorem pending_of_next_leave (h : A.next w = .leave w') : A.pending w.stack = A.pending w'.stack := by
  obtain ⟨v, below, hstack, hnone, _, rfl⟩ := exists_of_next_leave h
  rw [hstack, pending, List.drop_eq_nil_of_le (List.getElem?_eq_none_iff.mp hnone)]
  rfl

/-- A walk that fails has tried all that was pending, in order. -/
theorem trails_walk (h : (A.walk limit steps w).outcome = .ok false) :
    (A.walk limit steps w).trails = w.attempts.reverse.map List.reverse ++ A.pending w.stack := by
  fun_induction Automaton.walk A limit steps w with
  | case1 steps w accepted hnext =>
    cases h
    rcases exists_of_next_done hnext with ⟨_, hstack⟩ | ⟨htrue, _⟩
    · rw [hstack, pending, List.append_nil, Exploration.trails]
    · cases htrue
  | case2 steps w w' hnext ih =>
    rw [ih h, pending_of_next_leave hnext, attempts_of_next_leave hnext]
  | case3 => cases h
  | case4 steps w w' hnext hlimit ih =>
    obtain ⟨p, hattempts, hpending⟩ := pending_of_next_enter hnext
    rw [ih h, hpending, hattempts]
    simp

theorem trails_explore (h : (A.explore limit input).outcome = .ok false) :
    (A.explore limit input).trails = A.ways (.first A.start input) := by
  rw [explore, trails_walk h]
  show A.pending [.first A.start input] = _
  rw [pending_fresh rfl]
  simp [Visit.first, pending]

/-! ### The last choices -/

/-- The trail from `i` that always takes the last step there is: to the greatest target on the next
symbol, or else to the greatest silent target outside the run, until there is none. -/
inductive Drifts (A : Automaton) : Nat → List Nat → List Char → Trail → Prop
  | symbol {i j : Nat} {run : List Nat} {c : Char} {rest : List Char} {t : Trail} :
      IsGreatest {k | k ∈ A.targets i (.symbol c)} j → A.Drifts j [j] rest t →
        A.Drifts i run (c :: rest) (⟨i, .symbol c, j⟩ :: t)
  | silent {i j : Nat} {run : List Nat} {rest : List Char} {t : Trail} :
      (∀ c ∈ rest.head?, ∀ k, k ∉ A.targets i (.symbol c)) →
        IsGreatest {k | k ∈ A.epsilons i ∧ k ∉ run} j → A.Drifts j (j :: run) rest t →
        A.Drifts i run rest (⟨i, .epsilon, j⟩ :: t)
  | stuck {i : Nat} {run : List Nat} {rest : List Char} :
      (∀ c ∈ rest.head?, ∀ k, k ∉ A.targets i (.symbol c)) → (∀ k ∈ A.epsilons i, k ∈ run) →
        A.Drifts i run rest []

theorem silent_mem_choices (hj : j ∈ A.epsilons v.state) (hrun : j ∉ v.run) :
    ⟨v.state, .epsilon, j⟩ ∈ A.choices v :=
  mem_choices_iff.mpr (.inl ⟨j, hj, hrun, rfl⟩)

theorem symbol_mem_choices {c : Char} (hc : c ∈ v.rest.head?)
    (hj : j ∈ A.targets v.state (.symbol c)) : ⟨v.state, .symbol c, j⟩ ∈ A.choices v := by
  obtain ⟨rest, hrest⟩ := List.head?_eq_some_iff.mp hc
  exact mem_choices_iff.mpr (.inr ⟨c, rest, hrest, j, hj, rfl⟩)

theorem eq_or_before_of_getLast? (h : (A.choices v).getLast? = some s) (hs' : s' ∈ A.choices v) :
    s' = s ∨ s'.Before s := by
  obtain ⟨front, hfront⟩ := List.getLast?_eq_some_iff.mp h
  have hpairwise := A.pairwise_choices v
  rw [hfront, List.pairwise_append] at hpairwise
  rw [hfront, List.mem_append, List.mem_singleton] at hs'
  rcases hs' with hs' | rfl
  · exact .inr (hpairwise.2.2 s' hs' s (List.mem_singleton_self s))
  · exact .inl rfl

theorem label_of_getLast? (h : (A.choices v).getLast? = some s) (hs' : s' ∈ A.choices v)
    (hsilent : s.label = .epsilon) : s'.label = .epsilon := by
  rcases eq_or_before_of_getLast? h hs' with rfl | ⟨hsilent', _⟩ | ⟨hlabel, _⟩
  · exact hsilent
  · exact hsilent'
  · exact hlabel.trans hsilent

theorem target_le_of_getLast? (h : (A.choices v).getLast? = some s) (hs' : s' ∈ A.choices v)
    (hlabel : s'.label = s.label) : s'.target ≤ s.target := by
  rcases eq_or_before_of_getLast? h hs' with rfl | ⟨hsilent, hne⟩ | ⟨_, hlt⟩
  · exact Nat.le_refl _
  · exact absurd (hlabel.symm.trans hsilent) hne
  · exact Nat.le_of_lt hlt

/-- Always making the last choice is always taking the last step there is. -/
theorem drifts_drift (A : Automaton) (v : Visit) : A.Drifts v.state v.run v.rest (A.drift v) := by
  fun_induction drift A v with
  | case1 v hnone =>
    have hchoices : ∀ s, s ∉ A.choices v := by
      rw [List.getLast?_eq_none_iff.mp hnone]
      exact fun s => List.not_mem_nil
    refine .stuck (fun c hc k hk => hchoices _ (symbol_mem_choices hc hk)) (fun k hk => ?_)
    by_contra hrun
    exact hchoices _ (silent_mem_choices hk hrun)
  | case2 v s hs ih =>
    rcases mem_choices_iff.mp (List.mem_of_getLast? hs) with ⟨j, hj, hrun, rfl⟩ |
      ⟨c, rest, hrest, j, hj, rfl⟩
    · refine .silent (fun c hc k hk => ?_) ⟨⟨hj, hrun⟩, fun k hk => ?_⟩ ih
      · have hlabel : Label.symbol c = .epsilon :=
          label_of_getLast? hs (symbol_mem_choices hc hk) rfl
        cases hlabel
      · exact target_le_of_getLast? hs (silent_mem_choices hk.1 hk.2) rfl
    · replace ih : A.Drifts j [j] v.rest.tail _ := ih
      have hc : c ∈ v.rest.head? := by rw [hrest]; rfl
      rw [hrest] at ih ⊢
      exact .symbol ⟨hj, fun k hk => target_le_of_getLast? hs (symbol_mem_choices hc hk) rfl⟩ ih

theorem Drifts.unique (h : A.Drifts i run rest t) (h' : A.Drifts i run rest t') : t = t' := by
  induction h generalizing t' with
  | symbol hj _ ih =>
    cases h' with
    | symbol hj' hrest =>
      cases hj.unique hj'
      rw [ih hrest]
    | silent hnone _ _ => exact absurd hj.1 (hnone _ rfl _)
    | stuck hnone _ => exact absurd hj.1 (hnone _ rfl _)
  | silent hnone hj _ ih =>
    cases h' with
    | symbol hj' _ => exact absurd hj'.1 (hnone _ rfl _)
    | silent _ hj' hrest =>
      cases hj.unique hj'
      rw [ih hrest]
    | stuck _ hrun => exact absurd (hrun _ hj.1.1) hj.1.2
  | stuck hnone hrun =>
    cases h' with
    | symbol hj' _ => exact absurd hj'.1 (hnone _ rfl _)
    | silent _ hj' _ => exact absurd (hrun _ hj'.1.1) hj'.1.2
    | stuck => rfl

theorem drifts_iff : A.Drifts v.state v.run v.rest t ↔ t = A.drift v := by
  constructor
  · exact fun h => h.unique (A.drifts_drift v)
  · rintro rfl
    exact A.drifts_drift v

/-! ### Failed searches -/

/-- A path from the start, of one step or more, that spells a beginning of the input and repeats no
state in a stretch of silent steps. -/
structure Candidate (A : Automaton) (input : List Char) (t : Trail) : Prop where
  ne_nil : t ≠ []
  path : ∃ j, A.Path A.start t j
  simple : t.Simple [A.start]
  word : t.consumed <+: input

theorem mem_ways_first_iff : t ∈ A.ways (.first A.start input) ↔ A.Candidate input t := by
  rw [mem_ways_iff]
  constructor
  · rintro ⟨hne, j, rest, hpath, hsimple, hword⟩
    exact ⟨hne, ⟨j, hpath⟩, hsimple, ⟨rest, hword⟩⟩
  · rintro ⟨hne, ⟨j, hpath⟩, hsimple, ⟨rest, hword⟩⟩
    exact ⟨hne, j, rest, hpath, hsimple, hword⟩

theorem nodup_ways (A : Automaton) (v : Visit) : (A.ways v).Nodup :=
  (A.pairwise_ways v).imp fun h => (h.imp fun _ _ hbefore => hbefore.ne).to_ne

theorem ncard_candidate (A : Automaton) (input : List Char) :
    {t | A.Candidate input t}.ncard = (A.ways (.first A.start input)).length := by
  have hset : {t | A.Candidate input t} = ((A.ways (.first A.start input)).toFinset : Set Trail) := by
    ext t
    rw [List.coe_toFinset, Set.mem_ofPred_eq, Set.mem_ofPred_eq, mem_ways_first_iff]
  rw [hset, Set.ncard_coe_finset, List.toFinset_card_of_nodup (A.nodup_ways _)]

theorem trail_of_rejected (h : A.search limit input = .ok r) (hrejected : r.accepted = false) :
    r.trail = A.drift (.first A.start input) := by
  have hconcluded := concluded_of_search h
  rw [hrejected] at hconcluded
  generalize hlast : r.trail.reverse = last at hconcluded
  cases hconcluded with
  | exhausted _ =>
    rw [← r.trail.reverse_reverse, hlast, List.reverse_append, List.reverse_reverse]
    rfl

/-- A failed search has tried each candidate once, in lexicographic order. It reports the last of them,
which is the one that always takes the last step there is. -/
theorem paths_and_events_of_rejected (h : A.search limit input = .ok r)
    (hrejected : r.accepted = false) :
    ∃ (paths : List Trail) (trace : List Event),
      (∀ t, t ∈ paths ↔ A.Candidate input t) ∧ paths.Pairwise (List.Lex Step.Before) ∧
      List.Forall₂ Event.Tries trace paths ∧
      (A.explore limit input).events input.length =
        trace ++ [.searched input.length false {t | A.Candidate input t}.ncard] ∧
      r.trail = paths.getLastD [] ∧ ∀ t, A.Drifts A.start [A.start] input t ↔ t = r.trail := by
  obtain ⟨hb, hlast⟩ := search_eq_ok_iff.mp h
  rw [hrejected] at hb
  have htries := Exploration.forall₂_tries (A.ne_nil_of_mem_explore limit input)
  have hevents := Exploration.events_of_ok input.length hb
  rw [← Exploration.length_trails, trails_explore hb, ← ncard_candidate] at hevents
  rw [← Exploration.getLastD_trails, trails_explore hb] at hlast
  rw [trails_explore hb] at htries
  refine ⟨_, _, fun t => mem_ways_first_iff, A.pairwise_ways _, htries, hevents, hlast, fun t => ?_⟩
  rw [trail_of_rejected h hrejected]
  exact drifts_iff (v := .first A.start input)

/-- A state with a silent loop, silent transitions to another state and back, and transitions on a
symbol to itself and to an identifier that is no state. -/
def tangle : Automaton :=
  ((((({} : Automaton).addState.addState.connect 0 0).connect 0 1).connect 1 0).link 0 (.symbol 'a')
    0).link 0 (.symbol 'a') 2

theorem paths_and_events_of_rejected_tangle :
    ∃ r, tangle.search none ['a'] = .ok r ∧ r.accepted = false ∧
      ∃ (paths : List Trail) (trace : List Event),
        (∀ t, t ∈ paths ↔ tangle.Candidate ['a'] t) ∧ paths.Pairwise (List.Lex Step.Before) ∧
        List.Forall₂ Event.Tries trace paths ∧
        (tangle.explore none ['a']).events ['a'].length =
          trace ++ [.searched ['a'].length false {t | tangle.Candidate ['a'] t}.ncard] ∧
        r.trail = paths.getLastD [] ∧
        ∀ t, tangle.Drifts tangle.start [tangle.start] ['a'] t ↔ t = r.trail := by
  have h : tangle.search none ['a'] = .ok ⟨false, [⟨0, .symbol 'a', 2⟩]⟩ := by decide +kernel
  exact ⟨_, h, rfl, paths_and_events_of_rejected h rfl⟩

end Acceptor.Automaton
