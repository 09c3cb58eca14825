import Acceptor.Automaton.Basic

/-!
# Fragments

A fragment is a part of an automaton that is entered at one state and left at another. The regular
operations are carried out in place: they add transitions between states that are already there and
at most two new states, and no state is ever copied.

| operation  | new states | new silent transitions                                        |
|------------|------------|---------------------------------------------------------------|
| `literal`  | 2          | none (one transition on the symbol)                           |
| `empty`    | 2          | start to stop                                                 |
| `concat`   | 0          | first stop to second start                                    |
| `union`    | 2          | new start to both starts, both stops to new stop              |
| `plus`     | 2          | new start to start, stop to new stop, stop back to start      |
| `star`     | 2          | those of `plus`, and new start to new stop                    |
| `optional` | 0          | start to stop                                                 |
-/

namespace Acceptor

/-- A part of an automaton, entered at `start` and left at `stop`. -/
structure Fragment where
  start : Nat
  stop : Nat
deriving DecidableEq, Repr, Inhabited

namespace Automaton

def addPair (A : Automaton) : Automaton := A.addState.addState

/-- The fragment between the two states that `addPair` adds. -/
def newPair (A : Automaton) : Fragment := ⟨A.size, A.size + 1⟩

def literal (A : Automaton) (c : Char) : Automaton × Fragment :=
  let new := A.newPair
  (A.addPair.link new.start (.symbol c) new.stop, new)

def empty (A : Automaton) : Automaton × Fragment :=
  let new := A.newPair
  (A.addPair.connect new.start new.stop, new)

def concat (A : Automaton) (f g : Fragment) : Automaton × Fragment :=
  (A.connect f.stop g.start, ⟨f.start, g.stop⟩)

def union (A : Automaton) (f g : Fragment) : Automaton × Fragment :=
  let new := A.newPair
  let A := A.addPair.connect new.start f.start
  let A := A.connect new.start g.start
  let A := A.connect f.stop new.stop
  (A.connect g.stop new.stop, new)

def plus (A : Automaton) (f : Fragment) : Automaton × Fragment :=
  let new := A.newPair
  let A := A.addPair.connect new.start f.start
  let A := A.connect f.stop new.stop
  (A.connect f.stop f.start, new)

def optional (A : Automaton) (f : Fragment) : Automaton × Fragment :=
  (A.connect f.start f.stop, f)

/-- A fragment for any number of words of `f` in a row: a bypass around `plus`. -/
def star (A : Automaton) (f : Fragment) : Automaton × Fragment :=
  let (A, g) := A.plus f
  A.optional g

/-- The automaton that begins where `f` begins and accepts where `f` ends. -/
def finish (A : Automaton) (f : Fragment) : Automaton :=
  { A.accept f.stop with start := f.start, stop := f.stop }

end Automaton

end Acceptor
