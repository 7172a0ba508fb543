import StochasticSat.Error
import StochasticSat.Formula.Literal
import StochasticSat.Random.Stream

/-!
# Random instances

Clauses of a fixed number of literals, every literal over a uniformly drawn variable and negated
with probability one half; variables may repeat within a clause.  `drawClauses` draws such clauses.
`drawPlanted` draws a hidden assignment first and inverts one literal of every clause that this
assignment falsifies, so that it satisfies all of them.

The number of clauses is the number of variables times a ratio, rounded down.
-/

namespace StochasticSat

open RandomStream

/-- The ratio of clauses to variables near which random clauses of three literals turn
unsatisfiable. -/
def thresholdRatio : Float := 4.267

/-- The numbers of variables, of clauses and of literals in a clause. -/
structure Shape where
  numVars : Nat
  numClauses : Nat
  clauseSize : Nat
  numVars_pos : 0 < numVars
  clauseSize_pos : 0 < clauseSize

/-- The number of clauses for a ratio, at most the largest word. -/
def clausesForRatio (numVars : Nat) (ratio : Float) : Nat :=
  (numVars.toUInt64.toFloat * ratio).floor.toUInt64.toNat

def Shape.ofRatio (numVars : Nat) (ratio : Float) (clauseSize : Nat) : Except Error Shape :=
  if h : 0 < numVars ∧ 0 < clauseSize then
    if SignedLiteral.maxVariable < numVars then
      .error (.invalidConfig (.tooManyVariables numVars))
    else if !ratio.isFinite || ratio < 0 then .error (.invalidConfig (.clauseRatio ratio))
    else .ok ⟨numVars, clausesForRatio numVars ratio, clauseSize, h.1, h.2⟩
  else .error (.invalidConfig (.emptyShape numVars clauseSize))

variable {σ : Type} [RandomStream σ]

/-- A literal over a variable drawn from `1, …, n`, negated with probability one half. -/
def drawLiteral (n : Nat) (h : 0 < n) (s : σ) : SignedLiteral × σ :=
  let (x, s) := belowNarrow n h s
  let (b, s) := coin s
  (.ofVariable (x + 1) b, s)

/-- `k` drawn literals. -/
def drawLiterals (n : Nat) (h : 0 < n) : Nat → σ → List SignedLiteral × σ
  | 0, s => ([], s)
  | k + 1, s =>
    let (l, s) := drawLiteral n h s
    let (ls, s) := drawLiterals n h k s
    (l :: ls, s)

/-- The rows that a draw gives, `m` of them. -/
def drawRows (row : σ → List SignedLiteral × σ) (rows : Array (List SignedLiteral)) :
    Nat → σ → Array (List SignedLiteral) × σ
  | 0, s => (rows, s)
  | m + 1, s =>
    let (c, s) := row s
    drawRows row (rows.push c) m s

/-- **Random clauses** of a shape. -/
def drawClauses (shape : Shape) (s : σ) : List (List SignedLiteral) × σ :=
  let (rows, s) := drawRows (drawLiterals shape.numVars shape.numVars_pos shape.clauseSize) #[]
    shape.numClauses s
  (rows.toList, s)

/-- Whether a literal holds under hidden values, one for every variable. -/
def agrees (hidden : Array Bool) (l : SignedLiteral) : Bool :=
  hidden.getD l.magnitude false == l.isPositive

/-- A drawn clause, with one literal inverted if the hidden values falsify it. -/
def drawAgreeing (shape : Shape) (hidden : Array Bool) (s : σ) : List SignedLiteral × σ :=
  let (c, s) := drawLiterals shape.numVars shape.numVars_pos shape.clauseSize s
  if c.any (agrees hidden) then (c, s)
  else
    let (i, s) := below shape.clauseSize shape.clauseSize_pos s
    (c.modify i (-·), s)

/-- **Random clauses that a hidden assignment satisfies.**  The hidden values have an unused slot
0. -/
def drawPlanted (shape : Shape) (s : σ) : List (List SignedLiteral) × σ :=
  let (hidden, s) := drawCoins (shape.numVars + 1) s
  let (rows, s) := drawRows (drawAgreeing shape hidden) #[] shape.numClauses s
  (rows.toList, s)

end StochasticSat
