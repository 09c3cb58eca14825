import Acceptor.Error
import Acceptor.Pattern.Token

/-!
# Regular expressions and how they are read

A regular expression is the structure that a pattern denotes. Groups are kept, because a group without
content is made when it is read, and an alternative without content only when the alternatives around
it are joined.

`Regex.parse` reads the characters of one scope from left to right. A group is cut out at the
parenthesis that closes it and its body is read as a scope of its own, so faults are met in the order
of their positions, except that a group that is never closed is found before its body is looked at.
-/

namespace Acceptor

inductive Regex where
  /-- An alternative without content. -/
  | empty
  | literal (c : Char)
  | group (r : Regex)
  | concat (l r : Regex)
  | union (l r : Regex)
  | repeated (r : Regex) (op : Repetition)
deriving DecidableEq, Repr, Inhabited

/-! ### Reading -/

/-- An alternative that is being read. -/
structure Branch where
  /-- All that was read before the last operand. -/
  before : Option Regex := none
  /-- The last operand, as long as it may still be repeated. -/
  operand : Option Regex := none
deriving DecidableEq, Repr

namespace Branch

/-- All that was read, if anything. -/
def regex? (b : Branch) : Option Regex :=
  match b.before, b.operand with
  | none, r => r
  | l, none => l
  | some l, some r => some (.concat l r)

def regex (b : Branch) : Regex := b.regex?.getD .empty

def push (b : Branch) (r : Regex) : Branch where
  before := b.regex?
  operand := some r

/-- The alternative with its last operand repeated, if there is one that may still be. -/
def repeat? (b : Branch) (op : Repetition) : Option Branch :=
  b.operand.map fun r => { before := regex? { b with operand := some (.repeated r op) } }

end Branch

namespace Regex

/-- Reads the rest of a scope, which begins at `position` and stands inside `depth` groups, after the
part `b` of an alternative. Alternatives extend to the end of the scope. -/
def parse (limit depth position : Nat) (b : Branch) : List Char → Except PatternError Regex
  | [] => .ok b.regex
  | c :: cs =>
    match Token.ofChar c with
    | .literal c => parse limit depth (position + 1) (b.push (.literal c)) cs
    | .repetition op =>
      match b.repeat? op with
      | some b => parse limit depth (position + 1) b cs
      | none => .error (.missingOperand c position)
    | .bar => (parse limit depth (position + 1) {} cs).map (.union b.regex)
    | .closing => .error (.unopenedGroup position)
    | .opening =>
      if limit ≤ depth then .error (.nestLimit limit)
      else
        match closing? 0 cs with
        | none => .error (.unclosedGroup position)
        | some n =>
          match parse limit (depth + 1) (position + 1) {} (cs.take n) with
          | .error e => .error e
          | .ok body => parse limit depth (position + n + 2) (b.push (.group body)) (cs.drop (n + 1))
termination_by cs => cs.length
decreasing_by
  all_goals simp only [List.length_cons, List.length_take, List.length_drop]
  all_goals omega

end Regex

end Acceptor
