import Acceptor.Automaton.Workspace
import Acceptor.Event
import Acceptor.Pattern.Cursor
import Acceptor.Regex.Parse

/-!
# Patterns as automata

`Regex.build` adds the states of an expression to an automaton and returns the fragment between them.
The parts of an expression are built from left to right, each operation after its operands, with one
exception: an alternative without content on the left of a union is built after what stands on its
right.

A scope of a pattern is compiled onto an automaton that may already have states; a whole pattern is
compiled onto the empty one, and what its fragment ends in is the only accepting state.

A scope may also be read and built in one pass (`Automaton.onePass`).
-/

namespace Acceptor

def Automaton.repeated (A : Automaton) (f : Fragment) : Repetition → Automaton × Fragment
  | .star => A.star f
  | .plus => A.plus f
  | .optional => A.optional f

def Regex.build (A : Automaton) : Regex → Automaton × Fragment
  | empty => A.empty
  | literal c => A.literal c
  | group r => r.build A
  | concat l r =>
    let (A, f) := l.build A
    let (A, g) := r.build A
    A.concat f g
  | union empty r =>
    let (A, g) := r.build A
    let (A, f) := A.empty
    A.union f g
  | union l r =>
    let (A, f) := l.build A
    let (A, g) := r.build A
    A.union f g
  | repeated r op =>
    let (A, f) := r.build A
    A.repeated f op

theorem Regex.build_union {l r : Regex} (hl : l ≠ .empty) (A : Automaton) : (union l r).build A =
    (r.build (l.build A).1).1.union (l.build A).2 (r.build (l.build A).1).2 := by
  rw [build]
  exact hl

/-! ### Patterns -/

/-- Compiles what is left in the scope of a cursor that stands inside `depth` groups. The states are
added to those of `A`. -/
def Cursor.compile (c : Cursor) (limit depth : Nat) (A : Automaton) :
    Except PatternError (Automaton × Fragment) :=
  (Regex.parse limit depth c.position {} c.remaining).map (Regex.build A)

/-- The automaton of a pattern in which groups are nested at most `limit` deep. -/
def Automaton.ofPattern (limit : Nat) (pattern : List Char) : Except PatternError Automaton :=
  ((Cursor.ofPattern pattern).compile limit 0 {}).map fun (A, f) => A.finish f

def Automaton.compiledEvent (A : Automaton) (pattern : List Char) : Event :=
  .compiled (.ofList pattern) A.size A.start A.stop

/-! ### Compiling in one pass

`Cursor.compile` reads a scope to its end before it builds anything. In one pass an operation is carried
out as soon as its operands are there, so a part of the automaton may be built already when the pattern
turns out to be at fault.

The pass also ends where an operation would change a state that does not exist. Operations are those of a
workspace and are refused as they are there. -/

/-- Why a pass ended early. -/
inductive Halt where
  | fault (e : PatternError)
  | refused
deriving DecidableEq, Repr

def Repetition.command (f : Nat) : Repetition → Command
  | star => .star f
  | plus => .plus f
  | optional => .optional f

namespace Automaton

/-- Carries out an operation on fragments that are named by their places in `operands`. -/
def perform (A : Automaton) (operands : List Fragment) (c : Command) :
    Except Halt (Automaton × Fragment) :=
  match Workspace.run { automaton := A, fragments := operands.toArray } c with
  | some (W, .fragment f _) => .ok (W.automaton, f)
  | _ => .error .refused

def orEmpty (A : Automaton) : Option Fragment → Except Halt (Automaton × Fragment)
  | some f => .ok (A, f)
  | none => A.perform [] .empty

/-- Joins `right` with the alternatives before it, the nearest of which stands first. -/
def join (A : Automaton) (right : Fragment) :
    List (Option Fragment) → Except Halt (Automaton × Fragment)
  | [] => .ok (A, right)
  | left :: before => do
    let (A, left) ← A.orEmpty left
    let (A, right) ← A.perform [left, right] (.union 0 1)
    A.join right before

end Automaton

/-- A scope of which a part has been compiled. An alternative without content has no fragment. -/
structure Pass where
  cursor : Cursor
  automaton : Automaton
  /-- The alternatives that have ended, the last one first. -/
  ended : List (Option Fragment) := []
  /-- What there is of the alternative that has not ended. -/
  graph : Option Fragment := none

namespace Pass

/-- Repeats an operand if a repetition operator comes next, which is then read. -/
def applyPostfix (P : Pass) (f : Fragment) : Except Halt (Pass × Fragment) :=
  match P.cursor.peek?.map Token.ofChar with
  | some (.repetition op) => do
    let (A, f) ← P.automaton.perform [f] (op.command 0)
    let (_, c) ← P.cursor.next.mapError .fault
    return ({ P with cursor := c, automaton := A }, f)
  | _ => return (P, f)

def append (P : Pass) (f : Fragment) : Except Halt Pass :=
  match P.graph with
  | some g => do
    let (A, g) ← P.automaton.perform [g, f] (.concat 0 1)
    return { P with automaton := A, graph := some g }
  | none => return { P with graph := some f }

def operand (P : Pass) (c : Cursor) (p : Automaton × Fragment) : Except Halt Pass := do
  let (P, f) ← applyPostfix { P with cursor := c, automaton := p.1 } p.2
  P.append f

def literal (P : Pass) (c : Cursor) (ch : Char) : Except Halt Pass := do
  let p ← P.automaton.perform [] (.literal ch)
  P.operand c p

variable {P P' : Pass} {c : Cursor} {f f' : Fragment} {p : Automaton × Fragment}

theorem cursor_append (h : P.append f = .ok P') : P'.cursor = P.cursor := by
  rw [append] at h
  split at h
  · obtain ⟨_, _, hP⟩ := bind_eq_ok.mp h
    cases hP
    rfl
  · cases h
    rfl

theorem length_remaining_applyPostfix (h : P.applyPostfix f = .ok (P', f')) :
    P'.cursor.remaining.length ≤ P.cursor.remaining.length := by
  rw [applyPostfix] at h
  split at h
  · obtain ⟨_, _, hP⟩ := bind_eq_ok.mp h
    obtain ⟨_, hnext, hP⟩ := bind_eq_ok.mp hP
    cases hP
    rw [(Cursor.read_of_next (mapError_eq_ok_iff.mp hnext)).1]
    exact Nat.le_succ _
  · cases h
    exact Nat.le_refl _

theorem length_remaining_operand (h : P.operand c p = .ok P') :
    P'.cursor.remaining.length ≤ c.remaining.length := by
  obtain ⟨_, hpostfix, happend⟩ := bind_eq_ok.mp h
  rw [cursor_append happend]
  exact length_remaining_applyPostfix hpostfix

theorem length_remaining_literal {ch : Char} (h : P.literal c ch = .ok P') :
    P'.cursor.remaining.length ≤ c.remaining.length := by
  obtain ⟨_, _, hoperand⟩ := bind_eq_ok.mp h
  exact length_remaining_operand hoperand

/-- Compiles the rest of the scope, which stands inside `depth` groups. -/
def run (limit depth : Nat) (P : Pass) : Except Halt (Automaton × Fragment) :=
  if P.cursor.hasNext then
    match _hnext : P.cursor.next with
    | .error e => .error (.fault e)
    | .ok (ch, c) =>
      match Token.ofChar ch with
      | .opening =>
        if limit ≤ depth then .error (.fault (.nestLimit limit))
        else
          match _hgroup : c.readGroup with
          | .error e => .error (.fault e)
          | .ok (body, c') =>
            match run limit (depth + 1) { cursor := c'.within body, automaton := P.automaton } with
            | .error halt => .error halt
            | .ok p =>
              match _hoperand : P.operand c' p with
              | .error halt => .error halt
              | .ok P => run limit depth P
      | .closing => .error (.fault (.unopenedGroup P.cursor.position))
      | .bar => run limit depth { P with cursor := c, ended := P.graph :: P.ended, graph := none }
      | .repetition _ => .error (.fault (.missingOperand ch P.cursor.position))
      | .literal ch =>
        match _hliteral : P.literal c ch with
        | .error halt => .error halt
        | .ok P => run limit depth P
  else do
    let (A, right) ← P.automaton.orEmpty P.graph
    A.join right P.ended
termination_by P.cursor.remaining.length
decreasing_by
  all_goals
    have hread := congrArg List.length (Cursor.read_of_next _hnext).1
    rw [List.length_cons] at hread
  · -- the body of a group
    obtain ⟨n, _, hbody, _⟩ := Cursor.read_of_readGroup _hgroup
    rw [hbody, List.length_take]
    omega
  · -- what follows the group
    obtain ⟨n, _, _, _, hbehind, _⟩ := Cursor.read_of_readGroup _hgroup
    have hle := length_remaining_operand _hoperand
    rw [hbehind, List.length_drop] at hle
    omega
  · omega
  · have hle := length_remaining_literal _hliteral
    omega

end Pass

def Automaton.onePass (limit : Nat) (pattern : List Char) : Except Halt Automaton := do
  let (A, f) ← Pass.run limit 0 { cursor := .ofPattern pattern, automaton := {} }
  let (A, _) ← A.perform [f] (.finish 0)
  return A

end Acceptor
