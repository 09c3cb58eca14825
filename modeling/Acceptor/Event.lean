import Acceptor.Automaton.Basic
import Acceptor.Text

/-!
# Events

What happens while a pattern is compiled, a table is built and an input is searched can be followed
as a list of events. Single steps are details; what concludes a task is not.
-/

namespace Acceptor

/-- How much of the work an event shows. -/
inductive Level where
  | debug
  | trace
deriving DecidableEq, Repr

inductive Event where
  | compiled (pattern : String) (size start stop : Nat)
  | discovered (id : Nat) (members : List Nat) (accepting : Bool)
  | determinized (size tableSize alphabetSize : Nat)
  /-- A step was tried, after `depth` others on the same path. -/
  | attempted (depth : Nat) (step : Step)
  | searched (length : Nat) (accepted : Bool) (steps : Nat)
deriving DecidableEq, Repr

namespace Event

def level : Event → Level
  | discovered .. | attempted .. => .trace
  | _ => .debug

def idsText (ids : List Nat) : String := "[" ++ ", ".intercalate (ids.map toString) ++ "]"

def message : Event → String
  | compiled pattern size start stop =>
    "compiled " ++ Text.quoteText pattern ++
      s!" into NFA with {size} states (start: {start}, end: {stop})"
  | discovered id members accepting =>
    s!"DFA state {id} = " ++ idsText members ++ s!" (accepting: {accepting})"
  | determinized size tableSize alphabetSize =>
    s!"determinized NFA with {size} states into DFA with {tableSize} states over " ++
      s!"{alphabetSize} symbols"
  | attempted depth step => s!"depth {depth}: " ++ step.text
  | searched length accepted steps =>
    s!"backtracking over {length} symbols " ++ (if accepted then "matched" else "failed") ++
      s!" after {steps} steps"

end Event

end Acceptor
