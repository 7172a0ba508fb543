import StochasticSat.Formula.Evaluation

/-!
# Choosing the index to flip

Both strategies rank candidates by what flipping them adds to the number of satisfied clauses and
draw uniformly among the best (`bestOf`); ties are never broken by position.  `gsat` takes every
index of the instance as a candidate, `walksat` the indices of one unsatisfied clause, drawn
uniformly before.

`Noise` decides once in every iteration whether the strategy is overridden by a flip of a uniformly
drawn index.

`leaders` is the list of the best candidates, in order and with their repetitions.  A draw is made
only if there is something to draw from.
-/

namespace StochasticSat

open RandomStream

variable {σ : Type} [RandomStream σ]

/-! ### The best candidates -/

/-- The best score so far and the candidates that reach it, after one more scored candidate. -/
def keepBest (best : Int × Array Nat) (candidate : Nat × Int) : Int × Array Nat :=
  if best.1 < candidate.2 then (candidate.2, #[candidate.1])
  else if candidate.2 = best.1 then (best.1, best.2.push candidate.1)
  else best

/-- The scored candidates of the highest score, in order and with their repetitions. -/
def leaders : List (Nat × Int) → List Nat
  | [] => []
  | (i, score) :: rest => (rest.foldl keepBest (score, #[i])).2.toList

/-- A uniform draw among the best candidates. -/
def bestOf (inst : Instance) (v : Valuation) (candidates : List Nat) (s : σ) : Option Nat × σ :=
  choose (leaders (candidates.map fun i => (i, inst.flipDelta v i))) s

/-- A uniform draw among the best candidates, by scores that may be missing. -/
def bestOf? (inst : Instance) (r : Reading) (candidates : List Nat) (s : σ) :
    Option (Option Nat × σ) :=
  (candidates.mapM fun i => (inst.deltaAt? r i).map fun d => (i, d)).map fun scored =>
    choose (leaders scored) s

/-- A uniform draw among the best of candidates from outside, all of which must be known. -/
def greedyBest? (inst : Instance) (r : Reading) (candidates : List Nat) (s : σ) :
    Except Error (Option (Option Nat × σ)) := do
  let candidates ← candidates.mapM inst.check
  return bestOf? inst r candidates s

/-! ### Strategies -/

/-- How the candidates for a flip are found. -/
inductive Strategy where
  /-- Every index of the instance. -/
  | gsat
  /-- The indices of one unsatisfied clause. -/
  | walksat
deriving DecidableEq, Inhabited

def Strategy.name : Strategy → String
  | .gsat => "GSAT"
  | .walksat => "WalkSAT"

/-- The position of an unsatisfied clause, drawn uniformly. -/
def pickClause (inst : Instance) (v : Valuation) (s : σ) : Option Nat × σ :=
  choose (inst.unsatisfied v) s

/-- The position of an unsatisfied clause, drawn uniformly, by values that may be missing. -/
def pickClause? (inst : Instance) (r : Reading) (s : σ) : Option (Option Nat × σ) :=
  (inst.unsatisfied? r).map fun js => choose js s

/-- The indices of the clause at a position. -/
def clauseIndices (inst : Instance) (j : Nat) : List Nat := (inst.clauses.getD j default).indices

/-- **The index that a strategy proposes to flip**, if it has a candidate. -/
def Strategy.pick (strategy : Strategy) (inst : Instance) (v : Valuation) (s : σ) :
    Option Nat × σ :=
  match strategy with
  | .gsat => bestOf inst v inst.indices s
  | .walksat =>
    match pickClause inst v s with
    | (none, s) => (none, s)
    | (some j, s) => bestOf inst v (clauseIndices inst j) s

/-- The index that a strategy proposes to flip, by values that may be missing. -/
def Strategy.pick? (strategy : Strategy) (inst : Instance) (r : Reading) (s : σ) :
    Option (Option Nat × σ) :=
  match strategy with
  | .gsat => bestOf? inst r inst.indices s
  | .walksat => do
    match ← pickClause? inst r s with
    | (none, s) => return (none, s)
    | (some j, s) => bestOf? inst r (clauseIndices inst j) s

/-! ### Noise -/

/-- The random override: it happens when a draw from the unit interval exceeds the threshold. -/
structure Noise where
  threshold : Float

namespace Noise

/-- The threshold in the absence of a choice. -/
def defaultThreshold : Float := 0.7

/-- The noise with a threshold, which must lie between 0 and 1. -/
def ofThreshold (threshold : Float) : Except Error Noise :=
  if 0 ≤ threshold ∧ threshold ≤ 1 then .ok ⟨threshold⟩
  else .error (.invalidConfig (.noise threshold))

def probability (noise : Noise) : Float := 1 - noise.threshold

/-- Whether the override happens this time. -/
def isWalk (noise : Noise) (s : σ) : Bool × σ :=
  let (u, s) := RandomStream.unit s
  (decide (noise.threshold < u), s)

/-- A uniform draw among all indices of the instance. -/
def randomIndex (inst : Instance) (s : σ) : Option Nat × σ := choose inst.indices s

end Noise

end StochasticSat
