import Acceptor.Search.Basic

/-!
# A search as a loop

A visit of a walk holds lists: the input that is left, the states of its run, the path to it. A loop
holds numbers instead. A frame has a position in the input and the index of the first frame of its run,
and a single trail serves all frames: a step from the frame at depth `d` overwrites what is recorded from
`d` on.

`Automaton.iterate?` is one iteration of the loop. It has no result where an index is out of range.
-/

namespace Acceptor

structure Place where
  state : Nat
  /-- The offset in the input when the state was entered. -/
  position : Nat
  /-- The index of the first frame that was entered since the last symbol was consumed. -/
  runStart : Nat
deriving DecidableEq, Repr

/-- A state on the current path. The index of a frame is its depth. -/
structure Frame extends Place where
  tried : Nat := 0
deriving DecidableEq, Repr

def Frame.tick (f : Frame) : Frame := { f with tried := f.tried + 1 }

/-- What the loop works on. -/
structure Loop where
  /-- The frames on the current path, the latest last. -/
  stack : List Frame
  /-- The path tried last. -/
  trail : Trail := []
  steps : Nat := 0
  outcome : Option (Except MatchError Bool) := none

namespace Loop

def begin (start : Nat) : Loop where
  stack := [{ state := start, position := 0, runStart := 0 }]

def places (l : Loop) : List Place := l.stack.map (·.toPlace)

/-- Counts a transition of the frame at depth `d` as tried, if there is such a frame. -/
def tick? (l : Loop) (d : Nat) : Option Loop :=
  if d < l.stack.length then some { l with stack := l.stack.modify d Frame.tick } else none

/-- The frames from index `i` on, if `i` is not beyond the end of the stack. -/
def framesFrom? (l : Loop) (i : Nat) : Option (List Frame) :=
  if i ≤ l.stack.length then some (l.stack.drop i) else none

/-- Takes the step `s` from the frame at depth `d` to the frame `g`, unless this exceeds the limit. -/
def attempt (l : Loop) (limit : Limit) (d : Nat) (s : Step) (g : Frame) : Loop :=
  match limit.exceededBy? (l.steps + 1) with
  | some k => { l with steps := l.steps + 1, outcome := some (.error (.stepLimit k)) }
  | none => { l with stack := l.stack ++ [g], trail := l.trail.take d ++ [s], steps := l.steps + 1 }

end Loop

namespace Automaton

def silentExits (A : Automaton) (p : Place) : List Step :=
  (A.epsilons p.state).toList.map (⟨p.state, .epsilon, ·⟩)

def symbolExits (A : Automaton) (input : List Char) (p : Place) : List Step :=
  match input[p.position]? with
  | none => []
  | some c => (A.targets p.state (.symbol c)).toList.map (⟨p.state, .symbol c, ·⟩)

/-- The transitions out of a place, in the order in which they are tried. -/
def exits (A : Automaton) (input : List Char) (p : Place) : List Step :=
  A.silentExits p ++ A.symbolExits input p

/-- One iteration of the loop. A loop that has ended stays as it is. -/
def iterate? (A : Automaton) (limit : Limit) (input : List Char) (l : Loop) : Option Loop :=
  match l.outcome, l.stack.getLast? with
  | some _, _ => some l
  | none, none => some { l with outcome := some (.ok false) }
  | none, some f =>
    let depth := l.stack.length - 1
    match (A.exits input f.toPlace)[f.tried]? with
    | none =>
      if f.position = input.length ∧ A.accepting f.state then
        some { l with outcome := some (.ok true) }
      else
        some { l with stack := l.stack.dropLast }
    | some s =>
      (l.tick? depth).bind fun l =>
        match s.label with
        | .epsilon =>
          (l.framesFrom? f.runStart).map fun run =>
            if run.any (·.state == s.target) then l
            else l.attempt limit depth s { f with state := s.target, tried := 0 }
        | .symbol _ =>
          let g := { state := s.target, position := f.position + 1, runStart := l.stack.length }
          some (l.attempt limit depth s g)

def loop? (A : Automaton) (limit : Limit) (input : List Char) : Nat → Option Loop
  | 0 => some (.begin A.start)
  | n + 1 => (A.loop? limit input n).bind (A.iterate? limit input)

end Automaton

end Acceptor
