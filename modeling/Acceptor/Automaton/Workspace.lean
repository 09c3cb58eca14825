import Acceptor.Automaton.Fragment

/-!
# Building by hand

A workspace is an automaton under construction together with the fragments made so far, which are
named by the order in which they were made. A command changes the workspace and is answered by a
reply. A command that would change a state that does not exist is refused.
-/

namespace Acceptor

/-- One step in the construction of an automaton. Fragments are named by their index. -/
inductive Command where
  | addState
  | link (source : Nat) (label : Label) (target : Nat)
  | accept (id : Nat)
  | setStart (id : Nat)
  | setStop (id : Nat)
  -- new fragments
  | literal (c : Char)
  | empty
  | fragment (f : Fragment)
  -- the first fragment is replaced by the result, the second stays
  | concat (f g : Nat)
  | union (f g : Nat)
  | plus (f : Nat)
  | star (f : Nat)
  | optional (f : Nat)
  | finish (f : Nat)
deriving DecidableEq, Repr

/-- What a command reports once it is done. -/
inductive Reply where
  | id (id : Nat)
  | state (q : State)
  /-- Whether the state that was to accept does. -/
  | accepting (b : Bool)
  /-- The fragment that was made or changed, and the size of the automaton. -/
  | fragment (f : Fragment) (size : Nat)
deriving DecidableEq

/-- An automaton under construction. -/
structure Workspace where
  automaton : Automaton := {}
  fragments : Array Fragment := #[]
deriving DecidableEq, Inhabited

namespace Workspace

def pushFragment (W : Workspace) : Automaton × Fragment → Workspace × Reply
  | (A, f) => ({ automaton := A, fragments := W.fragments.push f }, .fragment f A.size)

def setFragment (W : Workspace) (i : Nat) : Automaton × Fragment → Workspace × Reply
  | (A, f) =>
    ({ automaton := A, fragments := W.fragments.setIfInBounds i f }, .fragment f A.size)

/-- Carries out a command. The answer is `none` if the command names a fragment that does not exist,
or would change a state that does not exist by then: the two states that an operation adds are there
before it adds its transitions. -/
def run (W : Workspace) : Command → Option (Workspace × Reply)
  | .addState =>
    some ({ W with automaton := W.automaton.addState }, .id W.automaton.size)
  | .link source label target =>
    let A := W.automaton.link source label target
    (A.states[source]?).map fun q => ({ W with automaton := A }, .state q)
  | .accept id =>
    let A := W.automaton.accept id
    (A.states[id]?).map fun q => ({ W with automaton := A }, .accepting q.accepting)
  | .setStart id => some ({ W with automaton.start := id }, .id id)
  | .setStop id => some ({ W with automaton.stop := id }, .id id)
  | .literal c => some (W.pushFragment (W.automaton.literal c))
  | .empty => some (W.pushFragment W.automaton.empty)
  | .fragment f => some (W.pushFragment (W.automaton, f))
  | .concat i j => do
    let f ← W.fragments[i]?
    let g ← W.fragments[j]?
    guard (f.stop < W.automaton.size)
    return W.setFragment i (W.automaton.concat f g)
  | .union i j => do
    let f ← W.fragments[i]?
    let g ← W.fragments[j]?
    guard (f.stop < W.automaton.size + 2 ∧ g.stop < W.automaton.size + 2)
    return W.setFragment i (W.automaton.union f g)
  | .plus i => do
    let f ← W.fragments[i]?
    guard (f.stop < W.automaton.size + 2)
    return W.setFragment i (W.automaton.plus f)
  | .star i => do
    let f ← W.fragments[i]?
    guard (f.stop < W.automaton.size + 2)
    return W.setFragment i (W.automaton.star f)
  | .optional i => do
    let f ← W.fragments[i]?
    guard (f.start < W.automaton.size)
    return W.setFragment i (W.automaton.optional f)
  | .finish i => do
    let f ← W.fragments[i]?
    guard (f.stop < W.automaton.size)
    return W.setFragment i (W.automaton.finish f, f)

def runAll (W : Workspace) : List Command → Option Workspace
  | [] => some W
  | c :: cs => do
    let (W, _) ← W.run c
    W.runAll cs

end Workspace

end Acceptor
