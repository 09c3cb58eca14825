import Acceptor.Proofs.Automaton.Path
import Acceptor.Search.Walk

/-!
# When a visit leads to acceptance

A walk refuses every silent step back into the run of a visit, so it follows simple trails only: those
that enter no state twice between two symbols. This loses no word. A detour from a state back to itself
spells nothing, and cutting it out leaves a path for the same word (`Reads.exists_simple`).

`A.Succeeds v` says that some choices, made one after the other from `v`, end where the automaton
accepts.

* Choices are exactly the steps of simple paths that spell a part of what is left (`follows_cons_iff`).
* So a visit succeeds exactly if such a path spells all that is left and ends in an accepting state
  (`succeeds_iff`).
* Hence the first visit succeeds exactly if the automaton accepts the input (`succeeds_first_iff`).
-/

namespace Acceptor

/-! ### Simple trails -/

namespace Trail

/-- No state is entered twice between two symbols, nor one of `run` before the first symbol. -/
inductive Simple : List Nat → Trail → Prop
  | nil {run : List Nat} : Simple run []
  | silent {run : List Nat} {i j : Nat} {t : Trail} :
      j ∉ run → Simple (j :: run) t → Simple run (⟨i, .epsilon, j⟩ :: t)
  | symbol {run : List Nat} {i j : Nat} {c : Char} {t : Trail} :
      Simple [j] t → Simple run (⟨i, .symbol c, j⟩ :: t)

theorem Simple.mono {run run' : List Nat} {t : Trail} (h : Simple run t)
    (hsub : ∀ i ∈ run', i ∈ run) : Simple run' t := by
  induction h generalizing run' with
  | nil => exact .nil
  | @silent run i j t hj _ ih =>
    refine .silent (fun h => hj (hsub j h)) (ih ?_)
    intro k hk
    rcases List.mem_cons.mp hk with rfl | hk
    · exact List.mem_cons_self ..
    · exact List.mem_cons_of_mem _ (hsub k hk)
  | symbol h _ => exact .symbol h

end Trail

namespace Automaton

variable {A : Automaton} {i j k : Nat} {w rest : List Char} {run : List Nat} {t : Trail} {s : Step}
  {v : Visit}

/-- Either a simple path avoids `i` until its first symbol, or what follows the visit of `i` is a
shorter path for the same word. -/
theorem Path.avoids_or_exists_shortcut (h : A.Path j t k) (hsimple : t.Simple run) :
    t.Simple (i :: run) ∨ ∃ t', A.Path i t' k ∧ t'.Simple [i] ∧ t'.consumed = t.consumed := by
  induction hsimple generalizing j with
  | nil => exact .inl .nil
  | @silent run p q t hq htail ih =>
    cases h with
    | cons hstep hrest =>
      by_cases hqi : q = i
      · subst hqi
        refine .inr ⟨t, hrest, htail.mono ?_, rfl⟩
        intro x hx
        rw [List.mem_singleton.mp hx]
        exact List.mem_cons_self ..
      · rcases ih hrest with havoid | ⟨t', hpath, hsimple', hword⟩
        · refine .inl (.silent ?_ (havoid.mono ?_))
          · rw [List.mem_cons, not_or]
            exact ⟨hqi, hq⟩
          · intro x hx
            simp only [List.mem_cons] at hx ⊢
            exact or_left_comm.mp hx
        · exact .inr ⟨t', hpath, hsimple', hword⟩
  | symbol htail _ => exact .inl (.symbol htail)

/-- Whatever a path spells is spelled by a simple one. -/
theorem Reads.exists_simple (h : A.Reads i w k) :
    ∃ t, A.Path i t k ∧ t.Simple [i] ∧ t.consumed = w := by
  induction h with
  | refl i => exact ⟨[], .nil i, .nil, rfl⟩
  | @silent i j k w hstep _ ih =>
    obtain ⟨t, hpath, hsimple, rfl⟩ := ih
    by_cases hij : j = i
    · subst hij
      exact ⟨t, hpath, hsimple, rfl⟩
    · -- The rest may come back to `i` before it consumes a symbol. Then it is cut off there.
      rcases hpath.avoids_or_exists_shortcut (i := i) hsimple with havoid | hcut
      · refine ⟨⟨i, .epsilon, j⟩ :: t, .cons hstep hpath, .silent ?_ (havoid.mono ?_), rfl⟩
        · rw [List.mem_singleton]
          exact hij
        · intro x hx
          simp only [List.mem_cons] at hx ⊢
          exact or_left_comm.mp hx
      · exact hcut
  | @symbol i j k c w hstep _ ih =>
    obtain ⟨t, hpath, hsimple, rfl⟩ := ih
    exact ⟨⟨i, .symbol c, j⟩ :: t, .cons hstep hpath, .symbol hsimple, rfl⟩

/-! ### Choices -/

theorem mem_choices_iff :
    s ∈ A.choices v ↔
      (∃ j ∈ A.targets v.state .epsilon, j ∉ v.run ∧ s = ⟨v.state, .epsilon, j⟩) ∨
      ∃ c rest, v.rest = c :: rest ∧
        ∃ j ∈ A.targets v.state (.symbol c), s = ⟨v.state, .symbol c, j⟩ := by
  have hsilent : s ∈ A.silentChoices v ↔
      ∃ j ∈ A.targets v.state .epsilon, j ∉ v.run ∧ s = ⟨v.state, .epsilon, j⟩ := by
    simp only [silentChoices, epsilons, List.mem_map, Ascending.mem_toList, Ascending.mem_filter,
      decide_eq_true_eq, and_assoc, @eq_comm Step]
  have hsymbol : s ∈ A.symbolChoices v ↔ ∃ c rest, v.rest = c :: rest ∧
      ∃ j ∈ A.targets v.state (.symbol c), s = ⟨v.state, .symbol c, j⟩ := by
    unfold symbolChoices
    cases v.rest with
    | nil => simp
    | cons c rest =>
      simp only [List.mem_map, Ascending.mem_toList, List.cons.injEq, eq_comm]
      constructor
      · exact fun h => ⟨c, rest, ⟨rfl, rfl⟩, h⟩
      · rintro ⟨_, _, ⟨rfl, rfl⟩, h⟩
        exact h
  rw [choices, List.mem_append, hsilent, hsymbol]

theorem mem_targets_of_mem_choices (h : s ∈ A.choices v) :
    s.source = v.state ∧ s.target ∈ A.targets v.state s.label := by
  rcases mem_choices_iff.mp h with ⟨j, hj, _, rfl⟩ | ⟨c, rest, _, j, hj, rfl⟩
  · exact ⟨rfl, hj⟩
  · exact ⟨rfl, hj⟩

theorem label_of_mem_choices (hrest : v.rest = []) (h : s ∈ A.choices v) : s.label = .epsilon := by
  rcases mem_choices_iff.mp h with ⟨_, _, _, rfl⟩ | ⟨_, _, hcons, _⟩
  · rfl
  · simp [hrest] at hcons

/-! ### Following choices -/

/-- The trail leads from a visit to `j` as a walk may go, and leaves `rest` of the input. -/
structure Follows (A : Automaton) (v : Visit) (t : Trail) (j : Nat) (rest : List Char) : Prop where
  path : A.Path v.state t j
  simple : t.Simple v.run
  word : t.consumed ++ rest = v.rest

theorem follows_nil (A : Automaton) (v : Visit) : A.Follows v [] v.state v.rest := ⟨.nil _, .nil, rfl⟩

theorem follows_cons_iff :
    A.Follows v (s :: t) j rest ↔ s ∈ A.choices v ∧ A.Follows (v.enter s) t j rest := by
  rw [mem_choices_iff]
  constructor
  · rintro ⟨hpath, hsimple, hword⟩
    cases hpath with
    | cons hstep hrest =>
      cases hsimple with
      | silent hrun hsimple => exact ⟨.inl ⟨_, hstep, hrun, rfl⟩, hrest, hsimple, hword⟩
      | symbol hsimple =>
        refine ⟨.inr ⟨_, _, hword.symm, _, hstep, rfl⟩, hrest, hsimple, ?_⟩
        exact congrArg List.tail hword
  · rintro ⟨⟨i, hi, hrun, rfl⟩ | ⟨c, cs, hcs, i, hi, rfl⟩, hpath, hsimple, hword⟩
    · exact ⟨.cons hi hpath, .silent hrun hsimple, hword⟩
    · refine ⟨.cons hi hpath, .symbol hsimple, ?_⟩
      replace hword : t.consumed ++ rest = v.rest.tail := hword
      rw [Trail.consumed_cons, List.append_assoc, hword, hcs]
      rfl

/-! ### Success -/

/-- Choices from the visit can end where the automaton accepts. -/
inductive Succeeds (A : Automaton) : Visit → Prop
  | here {v : Visit} : v.rest = [] → A.accepting v.state → A.Succeeds v
  | there {v : Visit} {s : Step} : s ∈ A.choices v → A.Succeeds (v.enter s) → A.Succeeds v

theorem Succeeds.exists_follows (h : A.Succeeds v) : ∃ t j, A.Follows v t j [] ∧ A.accepting j := by
  induction h with
  | @here v hrest hacc => exact ⟨[], v.state, hrest ▸ A.follows_nil v, hacc⟩
  | @there v s hs _ ih =>
    obtain ⟨t, j, hfollows, hacc⟩ := ih
    exact ⟨s :: t, j, follows_cons_iff.mpr ⟨hs, hfollows⟩, hacc⟩

theorem Follows.succeeds (h : A.Follows v t j []) (hacc : A.accepting j) : A.Succeeds v := by
  induction t generalizing v with
  | nil =>
    obtain ⟨hpath, _, hword⟩ := h
    cases hpath
    exact .here hword.symm hacc
  | cons s t ih =>
    obtain ⟨hs, hrest⟩ := follows_cons_iff.mp h
    exact .there hs (ih hrest)

/-- A visit succeeds exactly if a simple path spells what is left and ends in an accepting state. -/
theorem succeeds_iff : A.Succeeds v ↔ ∃ t j, A.Follows v t j [] ∧ A.accepting j := by
  constructor
  · exact Succeeds.exists_follows
  · rintro ⟨t, j, hfollows, hacc⟩
    exact hfollows.succeeds hacc

theorem succeeds_first_iff : A.Succeeds (.first A.start w) ↔ A.Accepts w := by
  rw [succeeds_iff]
  refine ⟨fun h => ?_, fun h => ?_⟩
  · obtain ⟨t, j, ⟨hpath, _, hword⟩, hacc⟩ := h
    obtain rfl : t.consumed = w := by rwa [List.append_nil] at hword
    exact ⟨j, hpath.reads, hacc⟩
  · obtain ⟨j, hreads, hacc⟩ := h
    obtain ⟨t, hpath, hsimple, hword⟩ := hreads.exists_simple
    exact ⟨t, j, ⟨hpath, hsimple, by rwa [List.append_nil]⟩, hacc⟩

end Automaton

end Acceptor
