import Acceptor.Pattern.Cursor

/-!
# Several cursors over one pattern

A session is a family of cursors over the same pattern, named by the order in which they were made. A
request is made to one of them and is answered; requests for a copy or for a narrower scope add a
cursor.
-/

namespace Acceptor

inductive Request where
  | next
  | peek
  | hasNext
  | readGroup
  | readRemaining
  | within (span : Span)
  | copy
deriving DecidableEq, Repr

inductive Answer where
  | char (c : Char)
  | ahead (c : Option Char)
  | flag (b : Bool)
  | span (s : Span)
  /-- The name of the new cursor. -/
  | cursor (index : Nat)
  | failed (e : PatternError)
deriving DecidableEq, Repr

/-- The cursors made so far, oldest first. -/
abbrev Session := Array Cursor

namespace Session

def ofPattern (pattern : List Char) : Session := #[.ofPattern pattern]

/-- Makes a request to the cursor with this index, and is `none` if there is no such cursor. A
request that fails changes nothing. -/
def request (S : Session) (index : Nat) (r : Request) : Option (Session × Answer) := do
  let c ← S[index]?
  return match r with
  | .next =>
    match c.next with
    | .ok (ch, c) => (S.setIfInBounds index c, .char ch)
    | .error e => (S, .failed e)
  | .peek => (S, .ahead c.peek?)
  | .hasNext => (S, .flag c.hasNext)
  | .readGroup =>
    match c.readGroup with
    | .ok (s, c) => (S.setIfInBounds index c, .span s)
    | .error e => (S, .failed e)
  | .readRemaining =>
    let (s, c) := c.readRemaining
    (S.setIfInBounds index c, .span s)
  | .within s => (S.push (c.within s), .cursor S.size)
  | .copy => (S.push c, .cursor S.size)

end Session

end Acceptor
