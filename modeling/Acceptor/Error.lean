import Acceptor.Text

/-!
# Errors

Three kinds of fault, one for each thing that can be asked for: a pattern that cannot be read
(`PatternError`), a table that grows too large (`BuildError`), and a match that is not decided
(`MatchError`). `Error` is any of them. Positions and offsets count characters.
-/

namespace Acceptor

/-! ### Results in sequence -/

theorem bind_eq_ok {ε α β : Type} {x : Except ε α} {f : α → Except ε β} {b : β} :
    x >>= f = .ok b ↔ ∃ a, x = .ok a ∧ f a = .ok b := by
  cases x with
  | error e => exact ⟨fun h => (nomatch h), fun ⟨_, h, _⟩ => (nomatch h)⟩
  | ok a => exact ⟨fun h => ⟨a, rfl, h⟩, fun ⟨_, h, h'⟩ => by cases h; exact h'⟩

theorem exists_bind_eq_ok {ε α β : Type} {x : Except ε α} {f : α → Except ε β} {a : α}
    (hx : x = .ok a) (hf : ∃ b, f a = .ok b) : ∃ b, x >>= f = .ok b := by
  subst hx
  exact hf

theorem mapError_eq_ok_iff {ε ε' α : Type} {f : ε → ε'} {x : Except ε α} {a : α} :
    x.mapError f = .ok a ↔ x = .ok a := by
  cases x with
  | error e => exact ⟨fun h => (nomatch h), fun h => (nomatch h)⟩
  | ok a' => exact ⟨fun h => (by cases h; rfl), fun h => (by cases h; rfl)⟩

theorem map_eq_ok_iff {ε α β : Type} {x : Except ε α} {f : α → β} {b : β} :
    x.map f = .ok b ↔ ∃ a, x = .ok a ∧ f a = b := by
  cases x with
  | error e => exact ⟨fun h => (nomatch h), fun ⟨_, h, _⟩ => (nomatch h)⟩
  | ok a => exact ⟨fun h => ⟨a, rfl, by cases h; rfl⟩, fun ⟨_, h, h'⟩ => by cases h; cases h'; rfl⟩

theorem map_mapError {ε ε' α β : Type} (x : Except ε α) (f : ε → ε') (g : α → β) :
    (x.mapError f).map g = (x.map g).mapError f := by
  cases x <;> rfl

/-! ### Faults -/

/-- Why a pattern was rejected. -/
inductive PatternError where
  | unclosedGroup (position : Nat)
  | unopenedGroup (position : Nat)
  | missingOperand (operator : Char) (position : Nat)
  | nestLimit (limit : Nat)
  /-- A character was asked for at the end of a scope; `length` is that of the whole pattern. -/
  | outOfScope (position length : Nat)
deriving DecidableEq, Repr

/-- Why a table could not be built. -/
inductive BuildError where
  | tooManyStates (limit : Nat)
deriving DecidableEq, Repr

/-- Why a match was not decided. -/
inductive MatchError where
  | foreignSymbol (symbol : Char) (offset : Nat)
  | stepLimit (limit : Nat)
deriving DecidableEq, Repr

/-- Any fault in building or running a matcher. -/
inductive Error where
  | pattern (e : PatternError)
  | build (e : BuildError)
  | search (e : MatchError)
deriving DecidableEq, Repr

namespace PatternError

def message : PatternError → String
  | unclosedGroup position => s!"unclosed group opened at position {position}"
  | unopenedGroup position => s!"unopened group closed at position {position}"
  | missingOperand operator position =>
    s!"repetition operator '{operator}' at position {position} has no operand"
  | nestLimit limit => s!"group nesting exceeds limit of {limit}"
  | outOfScope position length =>
    s!"internal error: read past end of scope (pattern length: {length}, position: {position})"

/-- Whether the pattern is at fault, and not the one who reads it. -/
def isStructural : PatternError → Bool
  | outOfScope .. => false
  | _ => true

end PatternError

def BuildError.message : BuildError → String
  | tooManyStates limit => s!"DFA exceeds state limit of {limit}"

def MatchError.message : MatchError → String
  | foreignSymbol symbol offset =>
    "no such transition: symbol " ++ Text.quoteChar symbol ++
      s!" at offset {offset} is not in the alphabet"
  | stepLimit limit => s!"backtracking gave up after {limit} steps"

namespace Error

/-- The text of the fault itself. -/
def cause : Error → String
  | pattern e => e.message
  | build e => e.message
  | search e => e.message

/-- The text of the error: what was being done, then the fault. -/
def message : Error → String
  | pattern e => "regex parse error: " ++ e.message
  | build e => "regex build error: " ++ e.message
  | search e => "regex match error: " ++ e.message

end Error

end Acceptor
