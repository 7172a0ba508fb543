import StochasticSat.Formula.Instance

/-!
# Evaluation

What a valuation makes of an instance: whether it satisfies every clause, how many it satisfies,
which it leaves unsatisfied, and how the count changes if one index is flipped.  A hypothetical flip
is evaluated under `Valuation.flipAt`; no assignment is changed for it.

`Instance.flipScore` counts all clauses anew, `Instance.flipDelta` looks only at the clauses that
mention the index.

The functions whose names end in a question mark do the same on a `Reading`.  They give `none` as
soon as they meet an index without a value; clauses are read one after the other, and a clause only
up to its first literal that holds.
-/

namespace StochasticSat

namespace Instance

/-! ### Under a valuation -/

def allSatisfied (inst : Instance) (v : Valuation) : Bool := inst.clauses.all (·.eval v)

def satisfiedCount (inst : Instance) (v : Valuation) : Nat := inst.clauses.countP (·.eval v)

/-- The number of clauses that are not satisfied. -/
def unsatisfiedCount (inst : Instance) (v : Valuation) : Nat :=
  inst.numClauses - inst.satisfiedCount v

/-- The positions of the clauses that are not satisfied, in ascending order. -/
def unsatisfied (inst : Instance) (v : Valuation) : List Nat :=
  inst.clauses.toList.zipIdx.filterMap fun (c, j) => if c.eval v then none else some j

/-- The number of clauses that are satisfied after flipping `i`. -/
def flipScore (inst : Instance) (v : Valuation) (i : Nat) : Nat :=
  inst.satisfiedCount (v.flipAt i)

/-- What flipping `i` adds to the truth of the clause `c`. -/
def clauseDelta (v : Valuation) (i : Nat) (c : Clause) : Int :=
  (c.eval (v.flipAt i)).toInt - (c.eval v).toInt

/-- What flipping `i` adds to the number of satisfied clauses. -/
def flipDelta (inst : Instance) (v : Valuation) (i : Nat) : Int :=
  ((inst.occurrences.getD i #[]).toList.map fun j =>
    clauseDelta v i (inst.clauses.getD j default)).foldr (· + ·) 0

/-! ### Under a reading -/

/-- Whether every clause is satisfied; clauses after the first one that is not are not read. -/
def allSatisfied? (inst : Instance) (r : Reading) : Option Bool := inst.clauses.allM (·.eval? r)

/-- The truth of every clause. -/
def clauseValues? (inst : Instance) (r : Reading) : Option (List Bool) :=
  inst.clauses.toList.mapM (·.eval? r)

/-- The number of satisfied clauses. -/
def satisfiedCount? (inst : Instance) (r : Reading) : Option Nat :=
  (inst.clauseValues? r).map (·.count true)

/-- The positions of the clauses that are not satisfied, in ascending order. -/
def unsatisfied? (inst : Instance) (r : Reading) : Option (List Nat) :=
  (inst.clauseValues? r).map fun bs =>
    bs.zipIdx.filterMap fun (b, j) => if b then none else some j

/-- What flipping `i` adds to the truth of the clause `c`. -/
def clauseDelta? (r : Reading) (i : Nat) (c : Clause) : Option Int := do
  let before ← c.eval? r
  let after ← c.eval? (Reading.flipAt r i)
  return after.toInt - before.toInt

/-- What flipping a known index adds to the number of satisfied clauses. -/
def deltaAt? (inst : Instance) (r : Reading) (i : Nat) : Option Int :=
  ((inst.occurrences.getD i #[]).toList.mapM fun j =>
    clauseDelta? r i (inst.clauses.getD j default)).map fun ds => ds.foldr (· + ·) 0

/-- The number of clauses that are satisfied after flipping a known index. -/
def flipScore? (inst : Instance) (r : Reading) (i : Nat) : Except Error (Option Nat) := do
  let i ← inst.check i
  return inst.satisfiedCount? (Reading.flipAt r i)

/-- What flipping a known index adds to the number of satisfied clauses. -/
def flipDelta? (inst : Instance) (r : Reading) (i : Nat) : Except Error (Option Int) := do
  let i ← inst.check i
  return inst.deltaAt? r i

end Instance

end StochasticSat
