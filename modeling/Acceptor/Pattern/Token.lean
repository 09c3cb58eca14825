/-!
# Characters of a pattern

The characters `( ) | * + ?` structure a pattern and every other character stands for itself.
`closing?` finds the parenthesis that closes a group.
-/

namespace Acceptor

/-- How often an operand may occur: any number of times, at least once, or at most once. -/
inductive Repetition where
  | star
  | plus
  | optional
deriving DecidableEq, Repr

/-- The role of a character in a pattern. -/
inductive Token where
  | opening
  | closing
  | bar
  | repetition (op : Repetition)
  /-- Stands for itself. -/
  | literal (c : Char)
deriving DecidableEq, Repr

namespace Token

def ofChar (c : Char) : Token :=
  if c = '(' then opening
  else if c = ')' then closing
  else if c = '|' then bar
  else if c = '*' then repetition .star
  else if c = '+' then repetition .plus
  else if c = '?' then repetition .optional
  else literal c

def toChar : Token → Char
  | opening => '('
  | closing => ')'
  | bar => '|'
  | repetition .star => '*'
  | repetition .plus => '+'
  | repetition .optional => '?'
  | literal c => c

@[simp] theorem toChar_ofChar (c : Char) : (ofChar c).toChar = c := by
  simp only [ofChar]
  repeat' split
  all_goals simp_all [toChar]

end Token

/-- The index of the first `)` that closes more than was opened before it, when `depth` groups are
open in addition to the one sought. -/
def closing? (depth : Nat) : List Char → Option Nat
  | [] => none
  | c :: cs =>
    match Token.ofChar c, depth with
    | .opening, depth => (closing? (depth + 1) cs).map (· + 1)
    | .closing, 0 => some 0
    | .closing, depth + 1 => (closing? depth cs).map (· + 1)
    | _, depth => (closing? depth cs).map (· + 1)

theorem lt_length_of_closing? {depth i : Nat} {cs : List Char} (h : closing? depth cs = some i) :
    i < cs.length := by
  induction cs generalizing depth i with
  | nil => simp [closing?] at h
  | cons c cs ih =>
    have step {d : Nat} (h : (closing? d cs).map (· + 1) = some i) : i < (c :: cs).length := by
      obtain ⟨j, hj, rfl⟩ := Option.map_eq_some_iff.mp h
      exact Nat.succ_lt_succ (ih hj)
    simp only [closing?] at h
    split at h
    · exact step h
    · cases h; exact Nat.succ_pos _
    · exact step h
    · exact step h

end Acceptor
