import Acceptor.Proofs.Regex.Commands

/-!
# Fragments built side by side

The regular operations may be called in any order on the fragments of one automaton, as long as no
fragment is combined with itself and none is used again after it became the second part of another.
Under this discipline `Command.express` keeps account of the expression that each fragment stands for.

The invariant is `Represents`: the fragments in use lie in regions that share no state, and each of
them recognizes the language of its expression in its own region. An operation stays within the regions
of its operands and the states that it adds, so it replaces one region and leaves the others
(`Represents.replace`). Hence whatever the order of the calls, the paths through each fragment in use
spell the words of its expression (`exists_path_iff_mem_language`).
-/

namespace Acceptor

namespace Command

/-- The expressions after fragment `i` was changed by an operation. -/
def amend (E : Array (Option Regex)) (i : Nat) (op : Regex → Regex) :
    Option (Array (Option Regex)) :=
  match (E[i]?).join with
  | some r => some (E.setIfInBounds i (some (op r)))
  | none => none

/-- The expressions after fragment `j` became part of fragment `i`. -/
def combine (E : Array (Option Regex)) (i j : Nat) (op : Regex → Regex → Regex) :
    Option (Array (Option Regex)) :=
  match (E[i]?).join, (E[j]?).join with
  | some l, some r =>
    if i = j then none else some ((E.setIfInBounds j none).setIfInBounds i (some (op l r)))
  | _, _ => none

/-- The expressions that fragments stand for after a command. A fragment that became part of another
stands for nothing any more. There is no answer if the command uses such a fragment, or one that was
not made yet, or combines a fragment with itself, or is no regular operation. -/
def express (E : Array (Option Regex)) : Command → Option (Array (Option Regex))
  | literal c => some (E.push (some (.literal c)))
  | empty => some (E.push (some .empty))
  | concat i j => combine E i j .concat
  | union i j => combine E i j .union
  | plus i => amend E i (.repeated · .plus)
  | star i => amend E i (.repeated · .star)
  | optional i => amend E i (.repeated · .optional)
  | _ => none

variable {E E' : Array (Option Regex)} {i j : Nat}

theorem amend_eq_some {op : Regex → Regex} (h : amend E i op = some E') :
    ∃ r, E[i]? = some (some r) ∧ E' = E.setIfInBounds i (some (op r)) := by
  unfold amend at h
  split at h
  · next r hr =>
    cases h
    exact ⟨r, Option.join_eq_some_iff.mp hr, rfl⟩
  · cases h

theorem combine_eq_some {op : Regex → Regex → Regex} (h : combine E i j op = some E') :
    ∃ l r, i ≠ j ∧ E[i]? = some (some l) ∧ E[j]? = some (some r) ∧
      E' = (E.setIfInBounds j none).setIfInBounds i (some (op l r)) := by
  unfold combine at h
  split at h
  · next l r hl hr =>
    split at h
    · cases h
    · next hne =>
      cases h
      exact ⟨l, r, hne, Option.join_eq_some_iff.mp hl, Option.join_eq_some_iff.mp hr, rfl⟩
  · cases h

end Command

namespace Automaton

variable {A : Automaton} {f : Fragment} {R : Set Nat} {L : Language Char}

theorem yields_repeated (hf : A.Recognizes f R L) (op : Repetition) :
    ∃ T, T ⊆ R ∪ A.newStates ∧ A.Yields (A.repeated f op) T (op.language L) := by
  cases op with
  | star => exact ⟨_, subset_rfl, yields_star hf⟩
  | plus => exact ⟨_, subset_rfl, yields_plus hf⟩
  | optional => exact ⟨R, Set.subset_union_left, yields_optional hf⟩

end Automaton

namespace Workspace

open Automaton

variable {W W' : Workspace} {E E' : Array (Option Regex)} {R : Nat → Set Nat} {T U : Set Nat}
  {p : Automaton × Fragment} {r : Regex} {i j : Nat} {c : Command}

/-- Each fragment in use has a region of its own, in which it recognizes the language of the expression
that it stands for. -/
structure Represents (W : Workspace) (E : Array (Option Regex)) (R : Nat → Set Nat) : Prop where
  size_eq : E.size = W.fragments.size
  recognizes : ∀ i r, E[i]? = some (some r) →
    ∃ f, W.fragments[i]? = some f ∧ W.automaton.Recognizes f (R i) r.language
  apart : ∀ i j l r, i ≠ j → E[i]? = some (some l) → E[j]? = some (some r) → ∀ x ∈ R i, x ∉ R j

theorem represents_empty : Represents {} #[] R where
  size_eq := rfl
  recognizes i r h := by simp at h
  apart i j l r _ h := by simp at h

theorem Represents.not_mem_newStates {x : Nat} (h : W.Represents E R) (hi : E[i]? = some (some r))
    (hx : x ∈ R i) : x ∉ W.automaton.newStates := by
  obtain ⟨f, _, hrecognizes⟩ := h.recognizes i r hi
  exact hrecognizes.not_mem_newStates hx

/-- The result of an operation takes the place of fragment `i`. Its region is made of the states `U` of
the operands and of new ones, and the other fragments that are still in use keep out of `U`. -/
theorem Represents.replace (h : W.Represents E R) (hp : W.automaton.Yields p T r.language)
    (hT : T ⊆ U ∪ W.automaton.newStates) (hautomaton : W'.automaton = p.1)
    (hsize : E'.size = W'.fragments.size) (hfragment : W'.fragments[i]? = some p.2)
    (hexpression : E'[i]? = some (some r))
    (hothers : ∀ k s, k ≠ i → E'[k]? = some (some s) →
      E[k]? = some (some s) ∧ W'.fragments[k]? = W.fragments[k]? ∧ ∀ x ∈ R k, x ∉ U) :
    W'.Represents E' (Function.update R i T) := by
  have hout : ∀ k s, k ≠ i → E'[k]? = some (some s) → ∀ x ∈ R k, x ∉ T := by
    intro k s hki hk x hx hxT
    obtain ⟨hold, _, hout⟩ := hothers k s hki hk
    rcases hT hxT with hxU | hnew
    · exact hout x hx hxU
    · exact h.not_mem_newStates hold hx hnew
  refine ⟨hsize, ?_, ?_⟩
  · intro k s hk
    rw [hautomaton]
    by_cases hki : k = i
    · subst hki
      rw [hexpression] at hk
      cases hk
      rw [Function.update_self]
      exact ⟨p.2, hfragment, hp.recognizes⟩
    · obtain ⟨hold, hkept, _⟩ := hothers k s hki hk
      obtain ⟨f, hf, hrecognizes⟩ := h.recognizes k s hold
      rw [Function.update_of_ne hki]
      exact ⟨f, hkept.trans hf, hrecognizes.frame hp.confined (hout k s hki hk)⟩
  · intro k m s t hkm hk hm
    by_cases hki : k = i
    · subst hki
      have hmk : m ≠ k := Ne.symm hkm
      rw [Function.update_self, Function.update_of_ne hmk]
      exact fun x hx hxm => hout m t hmk hm x hxm hx
    · rw [Function.update_of_ne hki]
      by_cases hmi : m = i
      · subst hmi
        rw [Function.update_self]
        exact hout k s hki hk
      · rw [Function.update_of_ne hmi]
        exact h.apart k m s t hkm (hothers k s hki hk).1 (hothers m t hmi hm).1

/-! ### One command -/

theorem Represents.push (h : W.Represents E R)
    (hp : W.automaton.Yields p W.automaton.newStates r.language) :
    ∃ R', (W.pushFragment p).1.Represents (E.push (some r)) R' := by
  have hexpression : (E.push (some r))[W.fragments.size]? = some (some r) :=
    h.size_eq ▸ Array.getElem?_push_size
  have hsize : (E.push (some r)).size = (W.fragments.push p.2).size := by
    rw [Array.size_push, Array.size_push, h.size_eq]
  have hT : W.automaton.newStates ⊆ ∅ ∪ W.automaton.newStates := Set.subset_union_right
  refine ⟨_, h.replace hp hT rfl hsize Array.getElem?_push_size hexpression ?_⟩
  intro k s hk hs
  rw [Array.getElem?_push, if_neg (h.size_eq ▸ hk)] at hs
  refine ⟨hs, ?_, fun x _ => Set.notMem_empty x⟩
  show (W.fragments.push p.2)[k]? = W.fragments[k]?
  rw [Array.getElem?_push, if_neg hk]

theorem Represents.set (h : W.Represents E R) (hi : i < E.size)
    (hp : W.automaton.Yields p T r.language) (hT : T ⊆ U ∪ W.automaton.newStates)
    (hsize : E'.size = E.size) (hexpression : E'[i]? = some (some r))
    (hothers : ∀ k s, k ≠ i → E'[k]? = some (some s) → E[k]? = some (some s) ∧ ∀ x ∈ R k, x ∉ U) :
    ∃ R', (W.setFragment i p).1.Represents E' R' := by
  have hfragment : (W.fragments.setIfInBounds i p.2)[i]? = some p.2 :=
    Array.getElem?_setIfInBounds_self_of_lt (h.size_eq ▸ hi)
  have hsize' : E'.size = (W.fragments.setIfInBounds i p.2).size := by
    rw [hsize, h.size_eq, Array.size_setIfInBounds]
  refine ⟨_, h.replace hp hT rfl hsize' hfragment hexpression ?_⟩
  intro k s hk hs
  obtain ⟨hold, hout⟩ := hothers k s hk hs
  exact ⟨hold, Array.getElem?_setIfInBounds_ne (Ne.symm hk), hout⟩

theorem Represents.amended {t : Regex} (h : W.Represents E R) (hr : E[i]? = some (some r))
    (hp : W.automaton.Yields p T t.language) (hT : T ⊆ R i ∪ W.automaton.newStates) :
    ∃ R', (W.setFragment i p).1.Represents (E.setIfInBounds i (some t)) R' := by
  have hi : i < E.size := (Array.getElem?_eq_some_iff.mp hr).1
  refine h.set hi hp hT (by simp) (Array.getElem?_setIfInBounds_self_of_lt hi) ?_
  intro k s hk hs
  rw [Array.getElem?_setIfInBounds_ne (Ne.symm hk)] at hs
  exact ⟨hs, h.apart k i s r hk hs hr⟩

theorem Represents.combined {l t : Regex} (h : W.Represents E R) (hl : E[i]? = some (some l))
    (hr : E[j]? = some (some r)) (hp : W.automaton.Yields p T t.language)
    (hT : T ⊆ R i ∪ R j ∪ W.automaton.newStates) :
    ∃ R', (W.setFragment i p).1.Represents
      ((E.setIfInBounds j none).setIfInBounds i (some t)) R' := by
  have hi : i < E.size := (Array.getElem?_eq_some_iff.mp hl).1
  refine h.set hi hp hT (by simp) (by simp [hi]) ?_
  intro k s hk hs
  rw [Array.getElem?_setIfInBounds_ne (Ne.symm hk)] at hs
  have hkj : k ≠ j := by
    rintro rfl
    have hj : k < E.size := (Array.getElem?_eq_some_iff.mp hr).1
    rw [Array.getElem?_setIfInBounds_self_of_lt hj] at hs
    cases hs
  rw [Array.getElem?_setIfInBounds_ne (Ne.symm hkj)] at hs
  refine ⟨hs, fun x hx hxU => ?_⟩
  rcases hxU with hxi | hxj
  · exact h.apart k i s l hk hs hl x hx hxi
  · exact h.apart k j s r hkj hs hr x hx hxj

theorem Represents.repeated (h : W.Represents E R) (hr : E[i]? = some (some r)) (op : Repetition) :
    ∃ W' reply R', W.run (op.command i) = some (W', reply) ∧
      W'.Represents (E.setIfInBounds i (some (.repeated r op))) R' := by
  obtain ⟨f, hf, hrecognizes⟩ := h.recognizes i r hr
  obtain ⟨T, hT, hyields⟩ := yields_repeated hrecognizes op
  obtain ⟨R', hR'⟩ := h.amended (t := .repeated r op) hr hyields hT
  have hrun : W.run (op.command i) = some (W.setFragment i (W.automaton.repeated f op)) :=
    run_command hf (hrecognizes.lt_size _ hrecognizes.start_mem)
      (hrecognizes.lt_size _ hrecognizes.stop_mem)
  exact ⟨_, _, R', hrun, hR'⟩

/-- A command that keeps to the discipline is carried out, and the fragments in use stand for what it
makes of their expressions. -/
theorem Represents.run (h : W.Represents E R) (hc : c.express E = some E') :
    ∃ W' reply R', W.run c = some (W', reply) ∧ W'.Represents E' R' := by
  cases c with
  | literal c =>
    cases hc
    obtain ⟨R', hR'⟩ := h.push (r := .literal c) (yields_literal _ c)
    exact ⟨_, _, R', rfl, hR'⟩
  | empty =>
    cases hc
    obtain ⟨R', hR'⟩ := h.push (r := .empty) (yields_empty _)
    exact ⟨_, _, R', rfl, hR'⟩
  | concat i j =>
    obtain ⟨l, r, hij, hl, hr, rfl⟩ := Command.combine_eq_some hc
    obtain ⟨f, hf, hfR⟩ := h.recognizes i l hl
    obtain ⟨g, hg, hgR⟩ := h.recognizes j r hr
    have hyields := yields_concat hfR hgR (h.apart i j l r hij hl hr)
    obtain ⟨R', hR'⟩ := h.combined (t := .concat l r) hl hr hyields Set.subset_union_left
    exact ⟨_, _, R', run_concat hf hg (hfR.lt_size _ hfR.stop_mem), hR'⟩
  | union i j =>
    obtain ⟨l, r, hij, hl, hr, rfl⟩ := Command.combine_eq_some hc
    obtain ⟨f, hf, hfR⟩ := h.recognizes i l hl
    obtain ⟨g, hg, hgR⟩ := h.recognizes j r hr
    have hyields := yields_union hfR hgR (h.apart i j l r hij hl hr)
    obtain ⟨R', hR'⟩ := h.combined (t := .union l r) hl hr hyields subset_rfl
    exact ⟨_, _, R', run_union hf hg (hfR.lt_size _ hfR.stop_mem) (hgR.lt_size _ hgR.stop_mem), hR'⟩
  | plus i =>
    obtain ⟨r, hr, rfl⟩ := Command.amend_eq_some hc
    exact h.repeated hr .plus
  | star i =>
    obtain ⟨r, hr, rfl⟩ := Command.amend_eq_some hc
    exact h.repeated hr .star
  | optional i =>
    obtain ⟨r, hr, rfl⟩ := Command.amend_eq_some hc
    exact h.repeated hr .optional
  | _ => cases hc

/-! ### Any number of commands -/

theorem Represents.runAll {cs : List Command} (h : W.Represents E R)
    (hcs : cs.foldlM Command.express E = some E') :
    ∃ W' R', W.runAll cs = some W' ∧ W'.Represents E' R' := by
  induction cs generalizing W E R with
  | nil =>
    cases hcs
    exact ⟨W, R, rfl, h⟩
  | cons c cs ih =>
    obtain ⟨E₁, hc, hcs⟩ := Option.bind_eq_some_iff.mp hcs
    obtain ⟨W₁, reply, R₁, hrun, h₁⟩ := h.run hc
    obtain ⟨W', R', hrunAll, h'⟩ := ih h₁ hcs
    refine ⟨W', R', ?_, h'⟩
    rw [Workspace.runAll, hrun]
    exact hrunAll

/-- Whatever regular operations are called and in whatever order, as long as each fragment is used by
one other at most, none of the calls is refused, and the paths through a fragment that is still in use
spell the words of the expression that was built for it. -/
theorem exists_path_iff_mem_language {cs : List Command}
    (hcs : cs.foldlM Command.express #[] = some E) :
    ∃ W, runAll {} cs = some W ∧ ∀ (i : Nat) (r : Regex), E[i]? = some (some r) →
      ∃ f, W.fragments[i]? = some f ∧ ∀ w : List Char,
        (∃ t, W.automaton.Path f.start t f.stop ∧ t.consumed = w) ↔ w ∈ r.language := by
  have hempty : Represents {} #[] fun _ => ∅ := represents_empty
  obtain ⟨W, R, hrun, hW⟩ := hempty.runAll hcs
  refine ⟨W, hrun, fun i r hr => ?_⟩
  obtain ⟨f, hf, hrecognizes⟩ := hW.recognizes i r hr
  refine ⟨f, hf, fun w => ?_⟩
  rw [← reads_iff_exists_path]
  exact hrecognizes.reads_iff w

/-- Calls for `a?(b|)*` and for `c+` that take turns. -/
def interleaved : List Command :=
  [.literal 'a', .literal 'b', .optional 0, .empty, .union 1 2, .literal 'c', .star 1, .concat 0 1,
    .plus 3]

theorem exists_path_iff_mem_language_interleaved :
    ∃ E W, interleaved.foldlM Command.express #[] = some E ∧ runAll {} interleaved = some W ∧
      ∀ (i : Nat) (r : Regex), E[i]? = some (some r) →
        ∃ f, W.fragments[i]? = some f ∧ ∀ w : List Char,
          (∃ t, W.automaton.Path f.start t f.stop ∧ t.consumed = w) ↔ w ∈ r.language := by
  have h : interleaved.foldlM Command.express #[] =
      some #[some (.concat (.repeated (.literal 'a') .optional)
        (.repeated (.union (.literal 'b') .empty) .star)), none, none,
        some (.repeated (.literal 'c') .plus)] := rfl
  obtain ⟨W, hrun, hspec⟩ := exists_path_iff_mem_language h
  exact ⟨_, W, h, hrun, hspec⟩

end Workspace

end Acceptor
