import StochasticSat.Formula.Literal

/-!
# Clauses

A clause is a disjunction of literals over dense indices.  `Clause.ofLiterals` keeps every distinct
literal once, in the order of first occurrence; an index that occurs with both polarities keeps both
literals, so that `x ∨ ¬x` stays a tautology (`Clause.isTautology`) instead of collapsing into one
of its halves.

`Clause.eval` is truth under a valuation.  `Clause.eval?` reads the literals from left to right and
stops at the first one that holds, so that it fails only if it meets an index without a value before
that.
-/

namespace StochasticSat

/-- A disjunction of literals, compared lexicographically. -/
structure Clause where
  literals : List Literal
deriving DecidableEq, Inhabited

namespace Clause

/-- The clause of the distinct literals of a list, in the order of their first occurrence. -/
def ofLiterals (ls : List Literal) : Clause := ⟨ls.eraseDups⟩

instance : Ord Clause := ⟨fun c d => c.literals.compareLex compare d.literals⟩

/-- The number of literals. -/
def size (c : Clause) : Nat := c.literals.length

def isEmpty (c : Clause) : Bool := c.literals.isEmpty

def isUnit (c : Clause) : Bool := c.size == 1

/-- The distinct variable indices of the clause, in the order of their first occurrence. -/
def indices (c : Clause) : List Nat := (c.literals.map (·.index)).eraseDups

/-- Whether some literal of the clause is over `i`. -/
def mentions (c : Clause) (i : Nat) : Bool := c.literals.any (·.index == i)

/-- Whether some literal of the list is followed by its complement. -/
def hasOpposites : List Literal → Bool
  | [] => false
  | l :: ls => ls.any (· == l.negate) || hasOpposites ls

/-- Whether the clause contains a literal together with its complement. -/
def isTautology (c : Clause) : Bool := hasOpposites c.literals

/-- Whether some literal of the clause holds under `v`. -/
def eval (v : Valuation) (c : Clause) : Bool := c.literals.any (·.eval v)

/-- Whether some literal of the clause holds under `r`; `none` if an index without a value is read
before such a literal is found. -/
def eval? (r : Reading) (c : Clause) : Option Bool := c.literals.anyM (·.eval? r)

theorem eval_iff {v : Valuation} {c : Clause} :
    c.eval v = true ↔ ∃ l ∈ c.literals, l.eval v = true := by simp [eval]

@[simp] theorem mem_literals_ofLiterals {l : Literal} {ls : List Literal} :
    l ∈ (ofLiterals ls).literals ↔ l ∈ ls := by simp [ofLiterals]

end Clause

end StochasticSat
