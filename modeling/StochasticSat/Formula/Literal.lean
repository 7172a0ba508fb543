/-!
# Literals

Two kinds of literals meet in this library.  A *signed literal* is what texts hold: a nonzero
32-bit integer whose magnitude names a variable and whose sign is the value it asks for.  A
`Literal` is what the search works on: a dense variable index together with the value it asks for.

A `Valuation` gives every index a truth value; `Literal.eval` reads a literal under it, and
`Valuation.flipAt` is the valuation after one flip.  `Reading` is its partial cousin, a valuation
that may lack a value for some indices, and `Literal.eval?` is the reading of a literal that fails
exactly when its index has no value.
-/

namespace StochasticSat

/-! ### Valuations -/

/-- A truth value for every variable index. -/
abbrev Valuation := Nat → Bool

/-- The valuation `v` with the value at `i` inverted. -/
def Valuation.flipAt (v : Valuation) (i : Nat) : Valuation := fun j => v j ^^ (j == i)

/-- A truth value for some of the variable indices. -/
abbrev Reading := Nat → Option Bool

/-- The reading `r` with the value at `i`, if it has one, inverted. -/
def Reading.flipAt (r : Reading) (i : Nat) : Reading := fun j => (r j).map (· ^^ (j == i))

@[simp] theorem Valuation.flipAt_apply (v : Valuation) (i j : Nat) :
    v.flipAt i j = (v j ^^ (j == i)) := rfl

@[simp] theorem Reading.flipAt_apply (r : Reading) (i j : Nat) :
    Reading.flipAt r i j = (r j).map (· ^^ (j == i)) := rfl

/-! ### Literals over dense indices -/

/-- A variable index together with the value asked of it; literals are ordered by index, and the
negative literal of an index comes before the positive one. -/
structure Literal where
  index : Nat
  positive : Bool
deriving DecidableEq, Ord, Inhabited

namespace Literal

/-- The largest index a literal can carry. -/
def maxIndex : Nat := Nat.pow 2 32 - 1

/-- The literal over `index`, provided a literal can carry that index. -/
def ofIndex? (index : Nat) (positive : Bool) : Option Literal :=
  if index ≤ maxIndex then some ⟨index, positive⟩ else none

/-- The complementary literal. -/
def negate (l : Literal) : Literal := ⟨l.index, !l.positive⟩

/-- Whether the literal holds under `v`. -/
def eval (v : Valuation) (l : Literal) : Bool := v l.index == l.positive

/-- Whether the literal holds under `r`, if `r` has a value for its index. -/
def eval? (r : Reading) (l : Literal) : Option Bool := (r l.index).map (· == l.positive)

@[simp] theorem negate_negate (l : Literal) : l.negate.negate = l := by simp [negate]

@[simp] theorem eval_negate (v : Valuation) (l : Literal) : l.negate.eval v = !l.eval v := by
  cases h : v l.index <;> cases h' : l.positive <;> simp [eval, negate, h, h']

end Literal

/-! ### Signed literals -/

/-- A literal as texts hold it: the magnitude names the variable, the sign is the value. -/
abbrev SignedLiteral := Int32

namespace SignedLiteral

/-- The largest variable a signed literal and its negation can both name. -/
def maxVariable : Nat := Nat.pow 2 31 - 1

/-- The variable a signed literal names. -/
def magnitude (l : SignedLiteral) : Nat := l.toInt.natAbs

/-- Whether a signed literal asks its variable to be true. -/
def isPositive (l : SignedLiteral) : Bool := decide (0 < l)

/-- The signed literal that gives the variable `x` the value `value`. -/
def ofVariable (x : Nat) (value : Bool) : SignedLiteral :=
  if value then Int32.ofNat x else -Int32.ofNat x

end SignedLiteral

end StochasticSat
