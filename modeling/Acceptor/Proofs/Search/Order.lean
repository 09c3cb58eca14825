import Acceptor.Proofs.Regex.Shape
import Acceptor.Proofs.Search.Invariant

/-!
# Which accepting path is found

Many paths may spell an input. A walk tries its choices in order, silent steps before steps on the next
symbol and under one label by ascending target (`pairwise_choices`), and it has refuted every choice
that it has gone past. So a simple path to the stop that differs from the path walked so far takes a
later choice where the two part (`Stacked.exists_eq_or_precedes`).

In a compiled automaton nothing leaves the stop. Hence the walk ends where its path does, no simple
path to the stop goes on where another ends, and the trail reported is the first of them all
(`firstPath_iff_of_accepted`).
-/

namespace Acceptor

/-! ### The order of trails -/

/-- Of two steps from the same state, the first is tried before the second. -/
def Step.Before (s s' : Step) : Prop :=
  s.label = .epsilon ∧ s'.label ≠ .epsilon ∨ s.label = s'.label ∧ s.target < s'.target

theorem Step.Before.asymm {s s' : Step} (h : s.Before s') : ¬s'.Before s := by
  rintro (⟨hsilent', hne⟩ | ⟨hlabel, hlt⟩)
  · rcases h with ⟨hsilent, _⟩ | ⟨hlabel, _⟩
    · exact hne hsilent
    · exact hne (hlabel.trans hsilent')
  · rcases h with ⟨hsilent, hne⟩ | ⟨_, hlt'⟩
    · exact hne (hlabel.trans hsilent)
    · exact Nat.lt_asymm hlt hlt'

theorem Step.Before.ne {s s' : Step} (h : s.Before s') : s ≠ s' := by
  rintro rfl
  exact h.asymm h

namespace Trail

/-- Where the trails differ for the first time, the step of the first is tried before that of the
second. -/
inductive Precedes : Trail → Trail → Prop
  | here {s s' : Step} {t t' : Trail} : s.Before s' → Precedes (s :: t) (s' :: t')
  | there {s : Step} {t t' : Trail} : Precedes t t' → Precedes (s :: t) (s :: t')

variable {t t' : Trail}

theorem Precedes.asymm (h : t.Precedes t') : ¬t'.Precedes t := by
  intro h'
  induction h with
  | here hbefore =>
    cases h' with
    | here hbefore' => exact hbefore.asymm hbefore'
    | there _ => exact hbefore.asymm hbefore
  | there _ ih =>
    cases h' with
    | here hbefore' => exact hbefore'.asymm hbefore'
    | there h' => exact ih h'

theorem Precedes.append_left (u : Trail) (h : t.Precedes t') : Precedes (u ++ t) (u ++ t') := by
  induction u with
  | nil => exact h
  | cons s u ih => exact .there ih

end Trail

namespace Automaton

variable {A : Automaton} {root v : Visit} {below : List Visit} {s : Step} {t u : Trail} {n : Nat}
  {limit : Limit} {input : List Char} {r : Search}

theorem pairwise_choices (A : Automaton) (v : Visit) : (A.choices v).Pairwise Step.Before := by
  have hascending : ∀ (l : Label) (ids : IdSet),
      (ids.toList.map (⟨v.state, l, ·⟩ : Nat → Step)).Pairwise Step.Before := fun l ids =>
    List.pairwise_map.mpr (ids.ascending.imp fun h => .inr ⟨rfl, h⟩)
  rw [choices, List.pairwise_append]
  refine ⟨hascending _ _, ?_, ?_⟩
  · unfold symbolChoices
    cases v.rest with
    | nil => exact .nil
    | cons c rest => exact hascending _ _
  · intro s hs s' hs'
    have hsilent : s.label = .epsilon := by
      obtain ⟨j, _, rfl⟩ := List.mem_map.mp hs
      rfl
    refine .inl ⟨hsilent, ?_⟩
    unfold symbolChoices at hs'
    cases hrest : v.rest with
    | nil => simp [hrest] at hs'
    | cons c rest =>
      rw [hrest] at hs'
      obtain ⟨j, _, rfl⟩ := List.mem_map.mp hs'
      simp

/-! ### Simple paths to the stop -/

/-- A path from `i` to the stop that spells `w`. It enters no state twice between two symbols, nor one
of `run` before the first symbol. -/
structure SimplePath (A : Automaton) (i : Nat) (run : List Nat) (w : List Char) (t : Trail) :
    Prop where
  path : A.Path i t A.stop
  simple : t.Simple run
  word : t.consumed = w

/-- The trail leads from a visit to the stop as a walk may go. -/
def Completes (A : Automaton) (v : Visit) (t : Trail) : Prop :=
  A.SimplePath v.state v.run v.rest t

theorem completes_iff : A.Completes v t ↔ A.Follows v t A.stop [] := by
  constructor
  · exact fun h => ⟨h.path, h.simple, by rw [List.append_nil, h.word]⟩
  · exact fun h => ⟨h.path, h.simple, by rw [← h.word, List.append_nil]⟩

theorem completes_cons_iff :
    A.Completes v (s :: t) ↔ s ∈ A.choices v ∧ A.Completes (v.enter s) t := by
  rw [completes_iff, completes_iff]
  exact follows_cons_iff

theorem Completes.succeeds (h : A.Completes v t) (hstop : A.accepting A.stop) : A.Succeeds v :=
  (completes_iff.mp h).succeeds hstop

theorem Completes.eq_nil (h : A.Completes v t) (hchoices : A.choices v = []) : t = [] := by
  cases t with
  | nil => rfl
  | cons s t =>
    have hs := (completes_cons_iff.mp h).1
    rw [hchoices] at hs
    exact absurd hs List.not_mem_nil

theorem Stacked.completes (h : A.Stacked root v below) (hroot : root.path = [])
    (ht : A.Completes v t) : A.Completes root (v.path.reverse ++ t) := by
  induction h generalizing t with
  | root => rwa [hroot]
  | enter _ hs _ ih =>
    rw [Visit.path_enter, List.reverse_cons, List.append_assoc]
    exact ih (completes_cons_iff.mpr ⟨List.mem_of_getElem? hs, ht⟩)

/-- A way from the root to the stop either goes through the latest visit or comes after every trail
that does. -/
theorem Stacked.exists_eq_or_precedes (h : A.Stacked root v below) (hroot : root.path = [])
    (hstop : A.accepting A.stop) (hfinal : ∀ l j, j ∉ A.targets A.stop l)
    (ht : A.Completes root t) :
    (∃ t', t = v.path.reverse ++ t' ∧ A.Completes v t') ∨
      ∀ x, Trail.Precedes (v.path.reverse ++ x) t := by
  induction h with
  | root => exact .inl ⟨t, by rw [hroot]; rfl, ht⟩
  | @enter u below s n _ hs hrefuted ih =>
    rw [Visit.path_enter, List.reverse_cons]
    simp only [List.append_assoc, List.singleton_append]
    rcases ih with ⟨t', rfl, ht'⟩ | hprecedes
    · cases t' with
      | nil =>
        -- The way ends here, where nothing could have been chosen.
        have hstate : u.state = A.stop := Path.end_unique (.nil u.state) ht'.path
        have htarget := (mem_targets_of_mem_choices (List.mem_of_getElem? hs)).2
        rw [hstate] at htarget
        exact absurd htarget (hfinal _ _)
      | cons s' t' =>
        obtain ⟨hs', hrest⟩ := completes_cons_iff.mp ht'
        obtain ⟨m, hm⟩ := List.mem_iff_getElem?.mp hs'
        rcases Nat.lt_trichotomy m n with hlt | rfl | hgt
        · refine absurd (hrest.succeeds hstop) (hrefuted s' ?_)
          exact List.mem_of_getElem? (i := m) (by rwa [List.getElem?_take_of_lt hlt])
        · rw [hs] at hm
          cases hm
          exact .inl ⟨t', rfl, hrest⟩
        · right
          intro x
          obtain ⟨hn, rfl⟩ := List.getElem?_eq_some_iff.mp hs
          obtain ⟨hlt, rfl⟩ := List.getElem?_eq_some_iff.mp hm
          have hbefore := List.pairwise_iff_getElem.mp (A.pairwise_choices u) n m hn hlt hgt
          exact .append_left _ (.here hbefore)
    · exact .inr fun x => hprecedes _

/-! ### The first path -/

/-- Of the simple paths from the start to the stop that spell the input, the trail is the one that
precedes all others. -/
structure FirstPath (A : Automaton) (input : List Char) (t : Trail) : Prop where
  simplePath : A.SimplePath A.start [A.start] input t
  least : ∀ u, A.SimplePath A.start [A.start] input u → u = t ∨ t.Precedes u

theorem FirstPath.unique (ht : A.FirstPath input t) (hu : A.FirstPath input u) : t = u := by
  rcases ht.least u hu.simplePath with h | h
  · exact h.symm
  · rcases hu.least t ht.simplePath with h' | h'
    · exact h'
    · exact absurd h' h.asymm

theorem Compiled.firstPath_of_accepted (hA : A.Compiled) (h : A.search limit input = .ok r)
    (haccepted : r.accepted) : A.FirstPath input r.trail := by
  obtain ⟨L, hL⟩ := hA.recognizes
  have hstop : A.accepting A.stop := (hA.accepting_iff A.stop).mpr rfl
  have hconcluded := concluded_of_search h
  rw [haccepted] at hconcluded
  generalize hlast : r.trail.reverse = last at hconcluded
  cases hconcluded with
  | @accepted v below hstacked hrest hacc _ =>
    have hstate : v.state = A.stop := (hA.accepting_iff v.state).mp hacc
    have hchoices : A.choices v = [] := by
      rw [List.eq_nil_iff_forall_not_mem]
      intro s hs
      have htarget := (mem_targets_of_mem_choices hs).2
      rw [hstate] at htarget
      exact hL.final _ _ htarget
    have htrail : r.trail = v.path.reverse := by
      rw [← r.trail.reverse_reverse, hlast, drift_eq_nil_iff.mpr hchoices]
      rfl
    have hhere : A.Completes v [] := ⟨hstate ▸ .nil _, .nil, hrest.symm⟩
    rw [htrail]
    refine ⟨?_, fun u hu => ?_⟩
    · have hcompletes := hstacked.completes rfl hhere
      rwa [List.append_nil] at hcompletes
    · rcases hstacked.exists_eq_or_precedes rfl hstop hL.final hu with ⟨t', rfl, ht'⟩ | hprecedes
      · rw [ht'.eq_nil hchoices, List.append_nil]
        exact .inl rfl
      · have hfirst := hprecedes []
        rw [List.append_nil] at hfirst
        exact .inr hfirst

/-- A successful search in a compiled automaton reports the first path that spells the input. -/
theorem firstPath_iff_of_accepted {nestLimit : Nat} {pattern : List Char}
    (hpattern : ofPattern nestLimit pattern = .ok A) (h : A.search limit input = .ok r)
    (haccepted : r.accepted) (t : Trail) : A.FirstPath input t ↔ t = r.trail := by
  have hfirst := (compiled_of_ofPattern hpattern).firstPath_of_accepted h haccepted
  constructor
  · exact fun ht => ht.unique hfirst
  · rintro rfl
    exact hfirst

theorem firstPath_iff_of_accepted_loop :
    ∃ A r, ofPattern 250 "(a|a)*".toList = .ok A ∧ A.search none ['a'] = .ok r ∧ r.accepted ∧
      ∀ t, A.FirstPath ['a'] t ↔ t = r.trail := by
  let r : Regex := .repeated (.group (.union (.literal 'a') (.literal 'a'))) .star
  have hparse : Regex.parse 250 0 0 {} "(a|a)*".toList = .ok r := by cbv
  have hpattern := ofPattern_of_parse hparse
  have hsearch : ((r.build {}).1.finish (r.build {}).2).search none ['a'] =
      .ok ⟨true, [⟨6, .epsilon, 4⟩, ⟨4, .epsilon, 0⟩, ⟨0, .symbol 'a', 1⟩, ⟨1, .epsilon, 5⟩,
        ⟨5, .epsilon, 7⟩]⟩ := by decide +kernel
  exact ⟨_, _, hpattern, hsearch, rfl, firstPath_iff_of_accepted hpattern hsearch rfl⟩

end Automaton

end Acceptor
