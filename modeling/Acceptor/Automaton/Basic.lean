import Acceptor.Automaton.State

/-!
# Automata with silent transitions

An automaton holds its states in one array, and a state is named by its place there. A transition may
lead to an identifier that is no state: such a target can be reached, has no transitions of its own
and does not accept.

* `Automaton.closure` is what silent transitions reach from a set of identifiers;
* `Automaton.step` is what one symbol reaches, silent transitions aside;
* `Automaton.move` is a step followed by its closure.

A trail is a list of steps through an automaton. Printed, it has one line for each step, with the
label between the two states.
-/

namespace Acceptor

/-- A nondeterministic automaton with silent transitions. -/
structure Automaton where
  /-- The states, each at the place that is its identifier. -/
  states : Array State := #[]
  start : Nat := 0
  /-- Where the outermost fragment ends. -/
  stop : Nat := 0
deriving DecidableEq, Inhabited

namespace Automaton

def size (A : Automaton) : Nat := A.states.size

def isEmpty (A : Automaton) : Bool := A.states.isEmpty

/-! ### Building -/

/-- The automaton with one more state, which has no transitions and does not accept. Its identifier
is the size that the automaton had before. -/
def addState (A : Automaton) : Automaton :=
  { A with states := A.states.push {} }

/-- The automaton with a transition out of `source`. Nothing changes if `source` is no state. -/
def link (A : Automaton) (source : Nat) (label : Label) (target : Nat) : Automaton :=
  { A with states := A.states.modify source (·.link label target) }

def connect (A : Automaton) (source target : Nat) : Automaton :=
  A.link source .epsilon target

/-- The automaton in which `id` accepts. Nothing changes if `id` is no state. -/
def accept (A : Automaton) (id : Nat) : Automaton :=
  { A with states := A.states.modify id ({ · with accepting := true }) }

/-! ### Reading -/

/-- The states that `label` leads to from `id`, none if `id` is no state. -/
def targets (A : Automaton) (id : Nat) (label : Label) : IdSet :=
  (A.states[id]?).elim ∅ (·.targets label)

/-- The states reached from `id` by one silent transition. -/
def epsilons (A : Automaton) (id : Nat) : IdSet := A.targets id .epsilon

def accepting (A : Automaton) (id : Nat) : Bool :=
  (A.states[id]?).any (·.accepting)

/-- Whether some member of `ids` is an accepting state. -/
def acceptsAny (A : Automaton) (ids : IdSet) : Bool := ids.toList.any A.accepting

/-- The symbols that label some transition. -/
def symbols (A : Automaton) : Ascending Char :=
  .ofList (A.states.toList.flatMap State.symbols)

def allTargets (A : Automaton) : IdSet :=
  .ofList (A.states.toList.flatMap fun q => q.edges.toList.map Edge.target)

theorem mem_targets_iff {A : Automaton} {id t : Nat} {label : Label} :
    t ∈ A.targets id label ↔ ∃ q, A.states[id]? = some q ∧ t ∈ q.targets label := by
  rw [targets]
  cases A.states[id]? with
  | none => simp
  | some q => simp

theorem mem_symbols {A : Automaton} {c : Char} :
    c ∈ A.symbols ↔ ∃ id t, t ∈ A.targets id (.symbol c) := by
  simp only [symbols, Ascending.mem_ofList, List.mem_flatMap, State.mem_symbols, mem_targets_iff]
  constructor
  · rintro ⟨q, hq, t, ht⟩
    obtain ⟨id, hid⟩ := List.mem_iff_getElem?.mp hq
    exact ⟨id, t, q, by rwa [Array.getElem?_toList] at hid, ht⟩
  · rintro ⟨id, t, q, hq, ht⟩
    exact ⟨q, Array.mem_toList_iff.mpr (Array.mem_of_getElem? hq), t, ht⟩

theorem mem_allTargets {A : Automaton} {id t : Nat} {label : Label} (h : t ∈ A.targets id label) :
    t ∈ A.allTargets := by
  obtain ⟨q, hq, ht⟩ := mem_targets_iff.mp h
  exact Ascending.mem_ofList.mpr <| List.mem_flatMap.mpr
    ⟨q, Array.mem_toList_iff.mpr (Array.mem_of_getElem? hq),
      List.mem_map.mpr ⟨_, State.mem_targets.mp ht, rfl⟩⟩

/-- The identifiers that some transition leads to and that are not in `found`. -/
def unfound (A : Automaton) (found : List Nat) : IdSet := A.allTargets.filter (· ∉ found)

theorem size_unfound_lt {A : Automaton} {found more : List Nat} (h : ∀ i ∈ found, i ∈ more) {i : Nat}
    (hi : i ∈ A.allTargets) (hfound : i ∉ found) (hmore : i ∈ more) :
    (A.unfound more).size < (A.unfound found).size :=
  Ascending.size_filter_lt (by simpa using fun j _ => mt (h j)) hi (by simpa) (by simpa)

/-- Adds to `found` what silent transitions reach from the pending identifiers. Each identifier is
followed once: only targets not found before become pending. -/
def closeOver (A : Automaton) (found : IdSet) : List Nat → IdSet
  | [] => found
  | id :: pending =>
    let fresh := (A.epsilons id).filter (· ∉ found)
    A.closeOver (found ∪ fresh) (fresh.toList ++ pending)
termination_by pending => ((A.unfound found.toList).size, pending.length)
decreasing_by
  by_cases h : (A.epsilons id).filter (· ∉ found) = ∅
  · rw [h]
    exact .right _ (Nat.lt_succ_self _)
  · obtain ⟨i, hi⟩ := Ascending.exists_mem_of_ne_empty h
    have hi' := Ascending.mem_filter.mp hi
    exact .left _ _ <| size_unfound_lt (fun j hj => Ascending.mem_union.mpr (.inl hj))
      (mem_allTargets hi'.1) (by simpa using hi'.2) (Ascending.mem_union.mpr (.inr hi))

theorem mem_or_mem_allTargets_of_mem_closeOver {A : Automaton} {found : IdSet} {pending : List Nat}
    {i : Nat} (h : i ∈ A.closeOver found pending) : i ∈ found ∨ i ∈ A.allTargets := by
  fun_induction closeOver A found pending with
  | case1 found => exact .inl h
  | case2 found id pending fresh ih =>
    rcases ih h with h | h
    · rcases Ascending.mem_union.mp h with h | h
      · exact .inl h
      · exact .inr (mem_allTargets (Ascending.mem_filter.mp h).1)
    · exact .inr h

def closure (A : Automaton) (ids : IdSet) : IdSet := A.closeOver ids ids.toList

def step (A : Automaton) (ids : IdSet) (c : Char) : IdSet :=
  .ofList (ids.toList.flatMap fun id => (A.targets id (.symbol c)).toList)

def move (A : Automaton) (ids : IdSet) (c : Char) : IdSet := A.closure (A.step ids c)

theorem mem_step {A : Automaton} {ids : IdSet} {c : Char} {i : Nat} :
    i ∈ A.step ids c ↔ ∃ id ∈ ids, i ∈ A.targets id (.symbol c) := by
  simp [step]

theorem mem_allTargets_of_mem_move {A : Automaton} {ids : IdSet} {c : Char} {i : Nat}
    (h : i ∈ A.move ids c) : i ∈ A.allTargets := by
  rcases mem_or_mem_allTargets_of_mem_closeOver h with h | h
  · obtain ⟨_, _, h⟩ := mem_step.mp h
    exact mem_allTargets h
  · exact h

end Automaton

/-! ### Trails -/

structure Step where
  source : Nat
  label : Label
  target : Nat
deriving DecidableEq, Repr

def Step.text (s : Step) : String := s!"{s.source} --" ++ s.label.text ++ s!"--> {s.target}"

/-- Steps in the order in which they were taken. -/
abbrev Trail := List Step

namespace Trail

def consumed (t : Trail) : List Char := t.filterMap (·.label.symbol?)

def text (t : Trail) : String := String.join (t.map fun s => s.text ++ "\n")

end Trail

end Acceptor
