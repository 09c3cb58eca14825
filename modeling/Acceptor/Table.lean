import Acceptor.Error
import Acceptor.Event
import Acceptor.Options

/-!
# Transition tables

A table is a deterministic automaton over an alphabet. Each of its states stands for the set of
states in which a nondeterministic automaton may be at once. A table over a restricted alphabet
refuses input that holds another symbol; any other table leads such a symbol to the state without
members.

The states of a table are found breadth first. The first is what silent transitions reach from the
start. Then the states found are taken in order, and for each symbol, in ascending order, the set
that it leads to is looked up among those found and added at the end if it is new. A limit on the
number of states is checked whenever one is added.

Only sets of targets are ever added after the first, and each of them once, so the search ends.
-/

namespace Acceptor

/-- A set of states that can be reached together. -/
structure Macrostate where
  members : IdSet
  accepting : Bool
deriving DecidableEq

/-- Whether nothing is accepted any more. -/
def Macrostate.isDead (q : Macrostate) : Bool := q.members.isEmpty

/-- A deterministic automaton with a row for each state and a column for each symbol. -/
structure Table where
  states : Array Macrostate
  /-- For each state and each symbol of the alphabet, the next state. -/
  rows : Array (Array Nat)
  alphabet : Alphabet
  start : Nat
  /-- Where symbols without a column lead, if they are not refused. -/
  dead? : Option Nat
deriving DecidableEq

namespace Table

def size (T : Table) : Nat := T.states.size

def isEmpty (T : Table) : Bool := T.states.isEmpty

/-- The state that `c` leads to from `id`. It is `none` if `id` is no state, or if the alphabet is
restricted and `c` is not in it. -/
def next? (T : Table) (id : Nat) (c : Char) : Option Nat :=
  if id < T.size then
    match T.alphabet.index? c with
    | some column => (T.rows[id]?).bind (·[column]?)
    | none => T.dead?
  else none

/-- The state that an input leads to from `id`. The input is what follows the first `offset` symbols
of a longer one. -/
def follow (T : Table) (id offset : Nat) : List Char → Except MatchError Nat
  | [] => .ok id
  | c :: cs =>
    match T.next? id c with
    | some id => T.follow id (offset + 1) cs
    | none => .error (.foreignSymbol c offset)

def accepting (T : Table) (id : Nat) : Bool := (T.states[id]?).any (·.accepting)

def isMatch (T : Table) (input : List Char) : Except MatchError Bool :=
  (T.follow T.start 0 input).map T.accepting

end Table

/-! ### Discovering the states of a table -/

/-- The sets found when a limit was exceeded, the one too many included. -/
structure Overflow where
  limit : Nat
  found : Array IdSet
deriving DecidableEq

def Overflow.error (o : Overflow) : BuildError := .tooManyStates o.limit

def subsets : List Nat → List (List Nat)
  | [] => [[]]
  | a :: l => subsets l ++ (subsets l).map (a :: ·)

theorem mem_subsets_of_sublist {l m : List Nat} (h : l.Sublist m) : l ∈ subsets m := by
  induction h with
  | slnil => exact List.mem_singleton.mpr rfl
  | cons a _ ih => exact List.mem_append_left _ ih
  | cons_cons a _ ih => exact List.mem_append_right _ (List.mem_map_of_mem ih)

def addFound (limit : Limit) (found : Array IdSet) (s : IdSet) :
    Except Overflow (Array IdSet × Nat) :=
  match limit.exceededBy? (found.size + 1) with
  | some l => .error ⟨l, found.push s⟩
  | none => .ok (found.push s, found.size)

/-- The place of a set among those found, to which it is added if it is new. -/
def locate (limit : Limit) (found : Array IdSet) (s : IdSet) :
    Except Overflow (Array IdSet × Nat) :=
  match found.idxOf? s with
  | some i => .ok (found, i)
  | none => addFound limit found s

namespace Automaton

def unmet (A : Automaton) (found : Array IdSet) : List (List Nat) :=
  (subsets A.allTargets.toList).filter fun l => ∀ s ∈ found, s.toList ≠ l

/-- Adds to the sets found those that the symbols lead to from `members`, and to the row their
places. -/
def fillRow (A : Automaton) (limit : Limit) (members : IdSet) (found : Array IdSet)
    (row : Array Nat) : List Char → Except Overflow (Array IdSet × Array Nat)
  | [] => .ok (found, row)
  | c :: cs =>
    match locate limit found (A.move members c) with
    | .error e => .error e
    | .ok (found, i) => A.fillRow limit members found (row.push i) cs

theorem length_unmet_push_lt {A : Automaton} {found : Array IdSet} {s : IdSet}
    (hs : ∀ i ∈ s, i ∈ A.allTargets) (hnew : s ∉ found) :
    (A.unmet (found.push s)).length < (A.unmet found).length := by
  have hmem : s.toList ∈ subsets A.allTargets.toList :=
    mem_subsets_of_sublist (Ascending.sublist_of_subset s.ascending A.allTargets.ascending hs)
  have hfree : ∀ t ∈ found, t.toList ≠ s.toList := fun t ht h =>
    hnew (Ascending.toList_injective h ▸ ht)
  simp only [unmet, ← List.countP_eq_length_filter]
  generalize subsets A.allTargets.toList = ls at hmem
  induction ls with
  | nil => exact absurd hmem List.not_mem_nil
  | cons l ls ih =>
    have hle : ls.countP (fun l => decide (∀ t ∈ found.push s, t.toList ≠ l)) ≤
        ls.countP (fun l => decide (∀ t ∈ found, t.toList ≠ l)) :=
      List.countP_mono_left fun l _ h => by
        simp only [decide_eq_true_eq] at h ⊢
        exact fun t ht => h t (Array.mem_push.mpr (.inl ht))
    have hmono : (∀ t ∈ found.push s, t.toList ≠ l) → ∀ t ∈ found, t.toList ≠ l :=
      fun h t ht => h t (Array.mem_push.mpr (.inl ht))
    simp only [List.countP_cons, decide_eq_true_eq]
    rcases List.mem_cons.mp hmem with rfl | hmem
    · rw [if_neg fun h => h s (Array.mem_push.mpr (.inr rfl)) rfl, if_pos hfree]
      omega
    · have := ih hmem
      by_cases h : ∀ t ∈ found.push s, t.toList ≠ l
      · rw [if_pos h, if_pos (hmono h)]
        omega
      · rw [if_neg h]
        omega

theorem length_unmet_add_size_le_of_locate {A : Automaton} {limit : Limit}
    {found found' : Array IdSet} {s : IdSet} {i : Nat} (hs : ∀ i ∈ s, i ∈ A.allTargets)
    (h : locate limit found s = .ok (found', i)) :
    (A.unmet found').length + found'.size ≤ (A.unmet found).length + found.size := by
  simp only [locate] at h
  split at h
  · cases h; exact Nat.le_refl _
  · next hnone =>
    simp only [addFound] at h
    split at h
    · cases h
    · cases h
      have : (A.unmet (found.push s)).length < (A.unmet found).length :=
        length_unmet_push_lt hs (by simpa using hnone)
      simp only [Array.size_push]
      omega

theorem length_unmet_add_size_le_of_fillRow {A : Automaton} {limit : Limit} {members : IdSet}
    {cs : List Char} {found found' : Array IdSet} {row row' : Array Nat}
    (h : A.fillRow limit members found row cs = .ok (found', row')) :
    (A.unmet found').length + found'.size ≤ (A.unmet found).length + found.size := by
  induction cs generalizing found row with
  | nil => cases h; exact Nat.le_refl _
  | cons c cs ih =>
    simp only [fillRow] at h
    split at h
    · cases h
    · next hl =>
      exact Nat.le_trans (ih h)
        (length_unmet_add_size_le_of_locate (fun _ => mem_allTargets_of_mem_move) hl)

/-- Adds the rows of the sets found that have none yet, and the sets that turn up on the way. -/
def fill (A : Automaton) (limit : Limit) (symbols : List Char) (found : Array IdSet)
    (rows : Array (Array Nat)) : Except Overflow (Array IdSet × Array (Array Nat)) :=
  match _hnext : found[rows.size]? with
  | none => .ok (found, rows)
  | some members =>
    match _hrow : A.fillRow limit members found #[] symbols with
    | .error e => .error e
    | .ok (found', row) => A.fill limit symbols found' (rows.push row)
termination_by (A.unmet found).length + found.size - rows.size
decreasing_by
  have := length_unmet_add_size_le_of_fillRow _hrow
  have := (Array.getElem?_eq_some_iff.mp _hnext).1
  simp only [Array.size_push]
  omega

def macrostate (A : Automaton) (members : IdSet) : Macrostate where
  members := members
  accepting := A.acceptsAny members

/-- Adds the set without members, whose row leads back to itself, unless it was found before. The last
part of the answer is its place. -/
def addDead (limit : Limit) (width : Nat) (found : Array IdSet) (rows : Array (Array Nat)) :
    Except Overflow (Array IdSet × Array (Array Nat) × Nat) :=
  match found.idxOf? ∅ with
  | some dead => .ok (found, rows, dead)
  | none => (addFound limit found ∅).map fun (found, dead) =>
    (found, rows.push (.replicate width dead), dead)

/-- Builds the table of an automaton, over a restricted alphabet if one is given and over the symbols
of the automaton otherwise. Unless the alphabet is restricted, the state without members is always
there. -/
def discover (A : Automaton) (restricted : Option Alphabet) (limit : Limit) :
    Except Overflow Table := do
  let alphabet := restricted.getD A.symbols
  let (found, start) ← addFound limit #[] (A.closure (.singleton A.start))
  let (found, rows) ← A.fill limit alphabet.toList found #[]
  if restricted.isSome then
    return { states := found.map A.macrostate, rows, alphabet, start, dead? := none }
  else
    let (found, rows, dead) ← addDead limit alphabet.size found rows
    return { states := found.map A.macrostate, rows, alphabet, start, dead? := some dead }

def discoveryEvents (A : Automaton) (r : Except Overflow Table) : List Event :=
  let discovered (id : Nat) (q : Macrostate) : Event := .discovered id q.members.toList q.accepting
  match r with
  | .error o => (o.found.toList.map A.macrostate).mapIdx discovered
  | .ok T => T.states.toList.mapIdx discovered ++ [.determinized A.size T.size T.alphabet.size]

/-- Builds the table of an automaton, or reports that it has too many states. -/
def table (A : Automaton) (restricted : Option Alphabet) (limit : Limit) :
    Except BuildError Table :=
  (A.discover restricted limit).mapError Overflow.error

end Automaton

end Acceptor
