import Acceptor.Ascending

/-!
# Options

Options bound the work that a pattern may cause and restrict the symbols that its input may hold.
They are set one at a time, and the last setting of each holds.
-/

namespace Acceptor

/-! ### Limits -/

/-- The greatest number allowed, or `none` if every number is. -/
abbrev Limit := Option Nat

namespace Limit

/-- The limit, if there is one and `n` is above it. -/
def exceededBy? (limit : Limit) (n : Nat) : Option Nat := limit.filter (· < n)

@[simp] theorem exceededBy?_none (n : Nat) : exceededBy? none n = none := rfl

theorem exceededBy?_of_le {l n : Nat} (h : n ≤ l) : exceededBy? (some l) n = none := by
  rw [exceededBy?, Option.filter_some, if_neg]
  simpa using h

theorem exceededBy?_of_lt {l n : Nat} (h : l < n) : exceededBy? (some l) n = some l := by
  rw [exceededBy?, Option.filter_eq_some_iff]
  exact ⟨rfl, decide_eq_true h⟩

end Limit

/-! ### All options -/

/-- How patterns are compiled, tables built and inputs searched. -/
structure Options where
  nestLimit : Nat := 250
  /-- The only symbols that an input may hold, if they are restricted. -/
  alphabet? : Option Alphabet := none
  stateLimit : Limit := none
  stepLimit : Limit := none
deriving DecidableEq, Inhabited

inductive Setting where
  | nestLimit (limit : Nat)
  | alphabet (symbols : Alphabet)
  | stateLimit (limit : Limit)
  | stepLimit (limit : Limit)
deriving DecidableEq

namespace Options

def set (o : Options) : Setting → Options
  | .nestLimit limit => { o with nestLimit := limit }
  | .alphabet symbols => { o with alphabet? := some symbols }
  | .stateLimit limit => { o with stateLimit := limit }
  | .stepLimit limit => { o with stepLimit := limit }

def setAll (o : Options) (l : List Setting) : Options := l.foldl set o

end Options

end Acceptor
