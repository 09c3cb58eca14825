import Acceptor.Error
import Acceptor.Event
import Acceptor.Options
import Acceptor.Search.Walk

/-!
# Searching for an accepting path

A search walks an automaton until a path is accepted or none is left, unless it has tried more steps
than its limit allows. What it reports is the path that was tried last: after a success an accepting
path is a beginning of it, after a failure it is where the walk gave up.
-/

namespace Acceptor

/-- What a walk has done by its end. -/
structure Exploration where
  outcome : Except MatchError Bool
  /-- The paths tried, the latest first; in each of them the last step stands first. -/
  attempts : List (List Step)

/-- The answer of a search. -/
structure Search where
  accepted : Bool
  /-- The path tried last. -/
  trail : Trail
deriving DecidableEq, Repr

namespace Automaton

/-- Walks on from `w`, after `steps` steps. -/
def walk (A : Automaton) (limit : Limit) (steps : Nat) (w : Walk) : Exploration :=
  match _h : A.next w with
  | .done accepted => ⟨.ok accepted, w.attempts⟩
  | .leave w' => A.walk limit steps w'
  | .enter w' =>
    match limit.exceededBy? (steps + 1) with
    | some l => ⟨.error (.stepLimit l), w.attempts⟩
    | none => A.walk limit (steps + 1) w'
termination_by A.weight w
decreasing_by
  · exact weight_lt_of_next_leave _h
  · exact weight_lt_of_next_enter _h

theorem walk_of_done {A : Automaton} {limit : Limit} {steps : Nat} {w : Walk} {b : Bool}
    (h : A.next w = .done b) : A.walk limit steps w = ⟨.ok b, w.attempts⟩ := by
  rw [walk, h]

theorem walk_of_leave {A : Automaton} {limit : Limit} {steps : Nat} {w w' : Walk}
    (h : A.next w = .leave w') : A.walk limit steps w = A.walk limit steps w' := by
  rw [walk, h]

theorem walk_of_enter {A : Automaton} {limit : Limit} {steps : Nat} {w w' : Walk}
    (h : A.next w = .enter w') : A.walk limit steps w =
      match limit.exceededBy? (steps + 1) with
      | some l => ⟨.error (.stepLimit l), w.attempts⟩
      | none => A.walk limit (steps + 1) w' := by
  rw [walk, h]

def explore (A : Automaton) (limit : Limit) (input : List Char) : Exploration :=
  A.walk limit 0 (.begin A.start input)

end Automaton

namespace Exploration

/-- The answer of the search, if it came to one. -/
def search (x : Exploration) : Except MatchError Search :=
  x.outcome.map fun accepted => ⟨accepted, (x.attempts.headD []).reverse⟩

def attempted : List Step → List Event
  | [] => []
  | s :: before => [.attempted before.length s]

/-- What happened in a search over an input of this length. -/
def events (length : Nat) (x : Exploration) : List Event :=
  x.attempts.reverse.flatMap attempted ++
    match x.outcome with
    | .ok accepted => [.searched length accepted x.attempts.length]
    | .error _ => []

end Exploration

def Automaton.search (A : Automaton) (limit : Limit) (input : List Char) :
    Except MatchError Search :=
  (A.explore limit input).search

end Acceptor
