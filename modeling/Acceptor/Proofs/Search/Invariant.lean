import Acceptor.Proofs.Search.Limit
import Acceptor.Proofs.Search.Success

/-!
# What a walk has explored

A walk is a post-order traversal of the tree of choices. Its invariant (`Explored`) has two parts.

* Behind: every choice that was tried, the latest of each visit on the stack aside, cannot succeed
  (`Refuted`), and each visit on the stack was entered by the latest choice of the one below it
  (`Stacked`).
* At hand: the path tried last (`Latest`). After a visit is left it is not the path to that visit: the
  walk has gone on by the last choice, and the last choice after it, until none was left (`drift`).

One turn keeps the invariant (`Explored.enter`, `Explored.leave`) or ends the walk with the answer that
it implies (`Explored.done`).
-/

namespace Acceptor.Automaton

variable {A : Automaton} {root v : Visit} {below : List Visit} {s : Step} {n : Nat} {w : Walk}
  {last : List Step} {limit : Limit} {steps : Nat} {b : Bool}

/-! ### The last way on -/

/-- The steps that a walk takes from a visit by always making the last choice. -/
def drift (A : Automaton) (v : Visit) : Trail :=
  match _h : (A.choices v).getLast? with
  | none => []
  | some s => s :: A.drift (v.enter s)
termination_by A.rank v
decreasing_by exact rank_enter_lt (List.mem_of_getLast? _h)

theorem drift_of_getLast? (h : (A.choices v).getLast? = some s) :
    A.drift v = s :: A.drift (v.enter s) := by
  rw [drift]
  split
  · next hnone => simp [h] at hnone
  · next s' hs' =>
    rw [h] at hs'
    cases hs'
    rfl

theorem drift_eq_nil_iff : A.drift v = [] ↔ A.choices v = [] := by
  rw [drift]
  split
  · next hnone => exact ⟨fun _ => List.getLast?_eq_none_iff.mp hnone, fun _ => rfl⟩
  · next s hs =>
    refine ⟨fun h => ?_, fun h => ?_⟩
    · cases h
    · simp [h] at hs

theorem exists_follows_drift (A : Automaton) (v : Visit) :
    ∃ j rest, A.Follows v (A.drift v) j rest := by
  fun_induction drift A v with
  | case1 v => exact ⟨v.state, v.rest, A.follows_nil v⟩
  | case2 v s hs ih =>
    obtain ⟨j, rest, hfollows⟩ := ih
    exact ⟨j, rest, follows_cons_iff.mpr ⟨List.mem_of_getLast? hs, hfollows⟩⟩

theorem exists_path_drift (A : Automaton) (v : Visit) :
    ∃ j rest, A.Path v.state (A.drift v) j ∧ Trail.consumed (A.drift v) ++ rest = v.rest := by
  obtain ⟨j, rest, hfollows⟩ := A.exists_follows_drift v
  exact ⟨j, rest, hfollows.path, hfollows.word⟩

theorem not_accepting_of_mem_drift (hrest : v.rest = [])
    (hfail : ∀ s ∈ A.choices v, ¬A.Succeeds (v.enter s)) :
    ∀ s ∈ A.drift v, ¬A.accepting s.target := by
  fun_induction drift A v with
  | case1 => exact fun s hs => absurd hs List.not_mem_nil
  | case2 v s hlast ih =>
    have hs := List.mem_of_getLast? hlast
    have hrest' : (v.enter s).rest = [] := by
      rw [Visit.enter, label_of_mem_choices hrest hs]
      exact hrest
    intro x hx
    rcases List.mem_cons.mp hx with rfl | hx
    · intro hacc
      exact hfail x hs (.here hrest' (Visit.state_enter ▸ hacc))
    · exact ih hrest' (fun y hy h => hfail s hs (.there hy h)) x hx

/-! ### The invariant -/

/-- None of the first `n` choices of a visit can succeed. -/
def Refuted (A : Automaton) (v : Visit) (n : Nat) : Prop :=
  ∀ s ∈ (A.choices v).take n, ¬A.Succeeds (v.enter s)

theorem Refuted.snoc (h : A.Refuted v n) (hs : (A.choices v)[n]? = some s)
    (hfail : ¬A.Succeeds (v.enter s)) : A.Refuted v (n + 1) := by
  intro x hx
  rw [List.take_add_one, hs, List.mem_append] at hx
  rcases hx with hx | hx
  · exact h x hx
  · rw [List.mem_singleton.mp hx]
    exact hfail

theorem Refuted.all (h : A.Refuted v n) (hnone : (A.choices v)[n]? = none) :
    ∀ s ∈ A.choices v, ¬A.Succeeds (v.enter s) := by
  intro s hs
  apply h
  rwa [List.take_of_length_le (List.getElem?_eq_none_iff.mp hnone)]

theorem not_succeeds (hfail : ∀ s ∈ A.choices v, ¬A.Succeeds (v.enter s))
    (hhere : ¬(v.rest = [] ∧ A.accepting v.state)) : ¬A.Succeeds v := by
  intro h
  cases h with
  | here hrest hacc => exact hhere ⟨hrest, hacc⟩
  | there hs hsucceeds => exact hfail _ hs hsucceeds

/-- The visit `v` has just been entered, and below it are the visits on the path to it from `root`. -/
inductive Stacked (A : Automaton) (root : Visit) : Visit → List Visit → Prop
  | root : A.Stacked root root []
  | enter {u : Visit} {below : List Visit} {s : Step} {n : Nat} :
      A.Stacked root u below → (A.choices u)[n]? = some s → A.Refuted u n →
        A.Stacked root (u.enter s) ({ u with tried := n + 1 } :: below)

/-- The path tried last, when `v` is on top and the first `n` of its choices were tried. -/
inductive Latest (A : Automaton) (v : Visit) : Nat → List Step → Prop
  | fresh : A.Latest v 0 v.path
  | tried {n : Nat} {s : Step} : (A.choices v)[n]? = some s →
      A.Latest v (n + 1) ((A.drift (v.enter s)).reverse ++ s :: v.path)

theorem Latest.eq_drift (h : A.Latest v n last) (hnone : (A.choices v)[n]? = none) :
    last = (A.drift v).reverse ++ v.path := by
  have hlength := List.getElem?_eq_none_iff.mp hnone
  cases h with
  | fresh =>
    have hnil : A.choices v = [] := List.eq_nil_of_length_eq_zero (by omega)
    rw [drift_eq_nil_iff.mpr hnil]
    rfl
  | @tried n s hs =>
    have hn := (List.getElem?_eq_some_iff.mp hs).1
    have hlast : (A.choices v).getLast? = some s := by
      rw [List.getLast?_eq_getElem?, ← hs]
      congr 1
      omega
    rw [drift_of_getLast? hlast, List.reverse_cons, List.append_assoc]
    rfl

/-- What is known of a walk from `root` between two turns. -/
inductive Explored (A : Automaton) (root : Visit) : Walk → Prop
  | running {v : Visit} {below : List Visit} {n : Nat} {attempts : List (List Step)} :
      A.Stacked root v below → A.Refuted v n → A.Latest v n (attempts.headD []) →
        A.Explored root ⟨{ v with tried := n } :: below, attempts⟩
  | exhausted {attempts : List (List Step)} :
      ¬A.Succeeds root → attempts.headD [] = (A.drift root).reverse ++ root.path →
        A.Explored root ⟨[], attempts⟩

/-- What is known when the walk has ended with this answer and this path tried last. -/
inductive Concluded (A : Automaton) (root : Visit) : Bool → List Step → Prop
  | accepted {v : Visit} {below : List Visit} :
      A.Stacked root v below → v.rest = [] → A.accepting v.state →
        (∀ s ∈ A.choices v, ¬A.Succeeds (v.enter s)) →
        A.Concluded root true ((A.drift v).reverse ++ v.path)
  | exhausted : ¬A.Succeeds root → A.Concluded root false ((A.drift root).reverse ++ root.path)

theorem explored_begin (A : Automaton) (input : List Char) :
    A.Explored (.first A.start input) (.begin A.start input) :=
  .running (v := .first A.start input) .root (fun _ hs => absurd hs List.not_mem_nil) .fresh

/-! ### One turn -/

/-- Entering a choice puts a fresh visit on top. -/
theorem Stacked.explored_enter {attempts : List (List Step)} (h : A.Stacked root v below)
    (hrefuted : A.Refuted v n) (hs : (A.choices v)[n]? = some s) :
    A.Explored root ⟨v.enter s :: { v with tried := n + 1 } :: below, (s :: v.path) :: attempts⟩ := by
  have hfresh : { v.enter s with tried := 0 } = v.enter s := by
    unfold Visit.enter
    split <;> rfl
  rw [← hfresh]
  refine .running (h.enter hs hrefuted) (fun _ hx => absurd hx List.not_mem_nil) ?_
  have : A.Latest (v.enter s) 0 (v.enter s).path := .fresh
  rwa [Visit.path_enter] at this

/-- Leaving a visit that cannot succeed refutes the choice that led to it. -/
theorem Stacked.explored_leave {attempts : List (List Step)} (h : A.Stacked root v below)
    (hfail : ¬A.Succeeds v) (hlast : attempts.headD [] = (A.drift v).reverse ++ v.path) :
    A.Explored root ⟨below, attempts⟩ := by
  cases h with
  | root => exact .exhausted hfail hlast
  | @enter u below s n hu hs hrefuted =>
    refine .running hu (hrefuted.snoc hs hfail) ?_
    rw [hlast, Visit.path_enter]
    exact .tried hs

theorem Explored.enter {w' : Walk} (h : A.Explored root w) (hnext : A.next w = .enter w') :
    A.Explored root w' := by
  obtain ⟨v, below, s, hstack, hs, rfl⟩ := exists_of_next_enter hnext
  cases h with
  | exhausted _ _ => cases hstack
  | running hstacked hrefuted _ =>
    cases hstack
    exact hstacked.explored_enter hrefuted hs

theorem Explored.leave {w' : Walk} (h : A.Explored root w) (hnext : A.next w = .leave w') :
    A.Explored root w' := by
  obtain ⟨v, below, hstack, hnone, hhere, rfl⟩ := exists_of_next_leave hnext
  cases h with
  | exhausted _ _ => cases hstack
  | running hstacked hrefuted hlatest =>
    cases hstack
    -- Every choice was tried in vain, and the state itself does not accept.
    exact hstacked.explored_leave (not_succeeds (hrefuted.all hnone) hhere) (hlatest.eq_drift hnone)

theorem Explored.done (h : A.Explored root w) (hnext : A.next w = .done b) :
    A.Concluded root b (w.attempts.headD []) := by
  cases h with
  | exhausted hfail hlast =>
    rcases exists_of_next_done hnext with ⟨rfl, _⟩ | ⟨_, _, _, hstack, _⟩
    · rw [hlast]
      exact .exhausted hfail
    · cases hstack
  | running hstacked hrefuted hlatest =>
    rcases exists_of_next_done hnext with ⟨_, hstack⟩ | ⟨rfl, _, _, hstack, hnone, hrest, hacc⟩
    · cases hstack
    · cases hstack
      rw [hlatest.eq_drift hnone]
      exact .accepted hstacked hrest hacc (hrefuted.all hnone)

/-! ### The whole walk -/

theorem Explored.walk (h : A.Explored root w) (hb : (A.walk limit steps w).outcome = .ok b) :
    A.Concluded root b ((A.walk limit steps w).attempts.headD []) := by
  fun_induction Automaton.walk A limit steps w with
  | case1 steps w accepted hnext =>
    cases hb
    exact h.done hnext
  | case2 steps w w' hnext ih => exact ih (h.leave hnext) hb
  | case3 => cases hb
  | case4 steps w w' hnext hlimit ih => exact ih (h.enter hnext) hb

/-- A walk that ends answers whether its root succeeds. -/
theorem Concluded.iff_succeeds (h : A.Concluded root b last) : b ↔ A.Succeeds root := by
  cases h with
  | @accepted v below hstacked hrest hacc hfail =>
    have hup : ∀ {u below}, A.Stacked root u below → A.Succeeds u → A.Succeeds root := by
      intro u below h
      induction h with
      | root => exact id
      | enter _ hs _ ih => exact fun h => ih (.there (List.mem_of_getElem? hs) h)
    exact ⟨fun _ => hup hstacked (.here hrest hacc), fun _ => rfl⟩
  | exhausted hfail => exact ⟨fun h => (by cases h), fun h => absurd h hfail⟩

/-! ### Searches -/

theorem concluded_of_search {input : List Char} {r : Search} (h : A.search limit input = .ok r) :
    A.Concluded (.first A.start input) r.accepted r.trail.reverse := by
  obtain ⟨hb, htrail⟩ := search_eq_ok_iff.mp h
  rw [htrail, List.reverse_reverse]
  exact (explored_begin A input).walk hb

/-- What a search answers is whether the automaton accepts. -/
theorem accepted_iff_accepts {input : List Char} {r : Search} (h : A.search limit input = .ok r) :
    r.accepted ↔ A.Accepts input := by
  rw [← succeeds_first_iff]
  exact (concluded_of_search h).iff_succeeds

end Acceptor.Automaton
