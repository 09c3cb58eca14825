import Acceptor.Error
import Acceptor.Pattern.Token

/-!
# Reading within a scope

A cursor stands at a position of a pattern and sees the characters up to the end of its scope.
Positions always count from the beginning of the whole pattern, also when the scope is the body of a
group.
-/

namespace Acceptor

/-- The positions from `start` up to `stop`, the latter excluded. -/
structure Span where
  start : Nat
  stop : Nat
deriving DecidableEq, Repr

namespace Span

/-- The number of positions, if the bounds are in order. -/
def length? (s : Span) : Option Nat := if s.start ≤ s.stop then some (s.stop - s.start) else none

def isEmpty (s : Span) : Bool := s.stop ≤ s.start

end Span

/-- A place in a pattern from which the rest of a scope is read. -/
structure Cursor where
  pattern : List Char
  /-- The position of the next character. -/
  position : Nat
  stop : Nat
  stop_le : stop ≤ pattern.length := by omega
deriving DecidableEq, Repr

namespace Cursor

/-- The cursor at the beginning of a pattern, with all of it in scope. -/
def ofPattern (pattern : List Char) : Cursor where
  pattern := pattern
  position := 0
  stop := pattern.length

/-- The cursor at the beginning of a span of the same pattern. The part of the span that lies beyond
the pattern is left out. -/
def within (c : Cursor) (s : Span) : Cursor where
  pattern := c.pattern
  position := s.start
  stop := min s.stop c.pattern.length

/-- The characters between the cursor and the end of its scope. -/
def remaining (c : Cursor) : List Char := (c.pattern.take c.stop).drop c.position

def hasNext (c : Cursor) : Bool := c.position < c.stop

/-- The next character, which stays unread. -/
def peek? (c : Cursor) : Option Char := c.remaining.head?

def next (c : Cursor) : Except PatternError (Char × Cursor) :=
  match c.peek? with
  | some ch => .ok (ch, { c with position := c.position + 1 })
  | none => .error (.outOfScope c.position c.pattern.length)

/-- Reads the body of a group whose opening parenthesis stands before the cursor, and its closing
parenthesis. Without a closing parenthesis in the scope, the group is reported as unclosed. -/
def readGroup (c : Cursor) : Except PatternError (Span × Cursor) :=
  match closing? 0 c.remaining with
  | some n =>
    .ok (⟨c.position, c.position + n⟩, { c with position := c.position + n + 1 })
  | none => .error (.unclosedGroup (c.position - 1))

def readRemaining (c : Cursor) : Span × Cursor :=
  (⟨c.position, c.stop⟩, { c with position := c.stop })

theorem length_remaining (c : Cursor) : c.remaining.length = c.stop - c.position := by
  simp [remaining, Nat.min_eq_left c.stop_le]

theorem isSome_peek?_iff {c : Cursor} : c.peek?.isSome ↔ c.hasNext := by
  have h := c.length_remaining
  simp only [peek?, hasNext, decide_eq_true_eq, List.isSome_head?]
  rw [← List.length_pos_iff, h]
  omega

theorem remaining_add (c : Cursor) (n : Nat) :
    remaining { c with position := c.position + n } = c.remaining.drop n :=
  List.drop_drop.symm

theorem read_of_next {c c' : Cursor} {ch : Char} (h : c.next = .ok (ch, c')) :
    c.remaining = ch :: c'.remaining ∧ c'.position = c.position + 1 := by
  rw [next] at h
  cases hpeek : c.peek? with
  | none => rw [hpeek] at h; cases h
  | some d =>
    rw [hpeek] at h
    cases h
    obtain ⟨cs, hcs⟩ := List.head?_eq_some_iff.mp hpeek
    refine ⟨?_, rfl⟩
    rw [remaining_add, hcs]
    rfl

theorem remaining_within (c : Cursor) (s : Span) :
    (c.within s).remaining = (c.pattern.take s.stop).drop s.start := by
  rw [List.take_eq_take_min]
  rfl

/-- A group that is read leaves a scope for its body, and what follows its closing parenthesis. -/
theorem read_of_readGroup {c c' : Cursor} {s : Span} (h : c.readGroup = .ok (s, c')) :
    ∃ n, closing? 0 c.remaining = some n ∧
      (c'.within s).remaining = c.remaining.take n ∧ (c'.within s).position = c.position ∧
      c'.remaining = c.remaining.drop (n + 1) ∧ c'.position = c.position + n + 1 := by
  rw [readGroup] at h
  cases hn : closing? 0 c.remaining with
  | none => rw [hn] at h; cases h
  | some n =>
    rw [hn] at h
    cases h
    have hlt := lt_length_of_closing? hn
    rw [length_remaining] at hlt
    have hle : c.position + n ≤ c.stop := by omega
    refine ⟨n, rfl, ?_, rfl, c.remaining_add (n + 1), rfl⟩
    rw [remaining_within, remaining, List.take_drop, List.take_take, Nat.min_eq_left hle]

@[simp] theorem remaining_ofPattern (p : List Char) : (ofPattern p).remaining = p := by
  simp [remaining, ofPattern]

end Cursor

/-! ### The end of a group by counting

`Cursor.readGroup` looks for the end of a group in the list of the characters that are left. Counting goes
from position to position instead and keeps the number of groups that are open. It ends where this number
gets to zero, and only then the cursor is moved.

`Counting.turn?` is one turn of the loop. It has no result where a position is out of range, or where
nothing is open that could be closed. -/

/-- What the loop works on. -/
structure Counting where
  cursor : Cursor
  /-- The position of the character to be looked at next. -/
  index : Nat
  /-- How many groups are open, the one whose end is sought among them. -/
  depth : Nat := 1
  outcome : Option (Except PatternError Span) := none

namespace Counting

/-- Goes on to the next character, with `depth` groups open in front of it. -/
def pass (s : Counting) (depth : Nat) : Counting :=
  { s with index := s.index + 1, depth := depth }

/-- The group ends here: the cursor is moved behind it. -/
def close (s : Counting) : Counting where
  cursor := { s.cursor with position := s.index + 1 }
  index := s.index
  depth := 0
  outcome := some (.ok ⟨s.cursor.position, s.index⟩)

/-- One turn of the loop. A loop that has ended stays as it is. -/
def turn? (s : Counting) : Option Counting :=
  match s.outcome with
  | some _ => some s
  | none =>
    if s.index < s.cursor.stop then
      (s.cursor.pattern[s.index]?).bind fun c =>
        match Token.ofChar c, s.depth with
        | .opening, depth => some (s.pass (depth + 1))
        | .closing, 0 => none
        | .closing, depth + 1 => some (if depth = 0 then s.close else s.pass depth)
        | _, depth => some (s.pass depth)
    else
      some { s with outcome := some (.error (.unclosedGroup (s.cursor.position - 1))) }

end Counting

/-- The loop that looks for the end of a group from the cursor on, after `n` turns. -/
def Cursor.counting? (c : Cursor) : Nat → Option Counting
  | 0 => some { cursor := c, index := c.position }
  | n + 1 => (c.counting? n).bind Counting.turn?

end Acceptor
