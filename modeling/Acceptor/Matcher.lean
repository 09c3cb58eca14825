import Acceptor.Options
import Acceptor.Regex.Compilation
import Acceptor.Search.Basic
import Acceptor.Table

/-!
# Matchers

A matcher is a pattern made ready for use: its automaton, which can be searched for a path that
explains the answer, and its table, which decides an input in one pass.
-/

namespace Acceptor

/-- A pattern with its automaton and its table. -/
structure Matcher where
  pattern : String
  automaton : Automaton
  table : Table
  stepLimit : Limit
deriving DecidableEq

namespace Matcher

/-- Compiles a pattern and builds its table. -/
def build (o : Options) (pattern : String) : Except Error Matcher := do
  let automaton ← (Automaton.ofPattern o.nestLimit pattern.toList).mapError .pattern
  let table ← (automaton.table o.alphabet? o.stateLimit).mapError .build
  return { pattern, automaton, table, stepLimit := o.stepLimit }

def isMatch (m : Matcher) (input : String) : Except Error Bool :=
  (m.table.isMatch input.toList).mapError .search

def search (m : Matcher) (input : String) : Except Error Search :=
  (m.automaton.search m.stepLimit input.toList).mapError .search

/-- The pattern as a quoted text, under the name of its kind. -/
def debugText (m : Matcher) : String := "Regex(" ++ Text.quoteText m.pattern ++ ")"

end Matcher

end Acceptor
