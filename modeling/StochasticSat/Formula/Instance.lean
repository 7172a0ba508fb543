import StochasticSat.Assignment
import StochasticSat.Formula.Clause
import StochasticSat.Log

/-!
# Instances

An instance is built once from clauses of signed literals (`Instance.build`) and only read
afterwards.  Building refuses clauses that are empty or hold `0` or the least 32-bit integer, whose
magnitude has no positive counterpart.  It numbers the variables that occur by dense indices
`1, …, N` in ascending order (`names`), rewrites every clause onto these indices (`clauses`) and
notes for every index the positions of the clauses that mention it (`occurrences`).

Variables are found among the sorted `names` by halving (`positionWithin`).
-/

namespace StochasticSat

open Decimal

/-! ### Clauses of signed literals -/

/-- A clause as texts hold it. -/
abbrev SignedClause := List SignedLiteral

/-- What is wrong with a clause, if anything: a zero anywhere counts before the least integer. -/
def SignedClause.fault? (c : SignedClause) : Option ClauseFault :=
  if c.isEmpty then some .empty
  else if c.contains 0 then some .zeroLiteral
  else if c.contains Int32.minValue then some .outOfRange
  else none

/-- The first clause with a fault, and its fault. -/
def firstFault? (cs : List SignedClause) : Option (Nat × ClauseFault) :=
  cs.zipIdx.findSome? fun (c, i) => c.fault?.map fun f => (i, f)

/-- The text of a row of signed literals. -/
def signedText (separator : String) (ls : List SignedLiteral) : String :=
  separator.intercalate (ls.map fun l => intText l.toInt)

/-! ### Sorted variables -/

/-- A sorted list without its repetitions. -/
def dropRepeats : List Nat → List Nat
  | [] => []
  | [x] => [x]
  | x :: y :: xs => if x = y then dropRepeats (y :: xs) else x :: dropRepeats (y :: xs)

/-- The variables that clauses mention, in ascending order. -/
def mentionedVariables (cs : List SignedClause) : List Nat :=
  dropRepeats ((cs.flatMap fun c => c.map (·.magnitude)).mergeSort)

/-- The position of `x` in `xs` from `lo` on and before `hi`, found by halving. -/
def positionWithin (xs : Array Nat) (x : Nat) (lo hi : Nat) : Option Nat :=
  if lo < hi then
    let mid := (lo + hi) / 2
    let y := xs.getD mid 0
    if y < x then positionWithin xs x (mid + 1) hi
    else if x < y then positionWithin xs x lo mid
    else some mid
  else none
termination_by hi - lo

/-! ### Instances -/

/-- A formula over dense indices; `names` and `occurrences` have an unused slot 0. -/
structure Instance where
  clauses : Array Clause
  /-- The variables that occur, in ascending order. -/
  names : Array Nat
  occurrences : Array (Array Nat)
deriving DecidableEq, Inhabited

namespace Instance

/-- The number of variables. -/
def numVars (inst : Instance) : Nat := inst.names.size - 1

def numClauses (inst : Instance) : Nat := inst.clauses.size

/-- The number of literals in all clauses. -/
def numLiterals (inst : Instance) : Nat := inst.clauses.foldl (fun n c => n + c.size) 0

/-- The dense indices `1, …, N`. -/
def indices (inst : Instance) : List Nat := List.range' 1 inst.numVars

/-- The dense index of a variable, if it occurs. -/
def indexOf? (inst : Instance) (x : Nat) : Option Nat :=
  positionWithin inst.names x 1 inst.names.size

/-- Whether `i` is one of the indices `1, …, N`. -/
def knows (inst : Instance) (i : Nat) : Bool := i != 0 && i ≤ inst.numVars

/-- Passes `i` if it is one of the indices `1, …, N`. -/
def check (inst : Instance) (i : Nat) : Except Error Nat :=
  if inst.knows i then .ok i else .error (.unknownVariable i inst.numVars)

/-- The variable with index `i`, 0 if there is none. -/
def variableAt (inst : Instance) (i : Nat) : Nat := inst.names.getD i 0

/-- The variable with a known index. -/
def variableName (inst : Instance) (i : Nat) : Except Error Nat := do
  let i ← inst.check i
  return inst.variableAt i

/-- The positions of the clauses that mention index `i`, if `i` has a slot. -/
def occurrences? (inst : Instance) (i : Nat) : Option (Array Nat) := inst.occurrences[i]?

/-- The signed literal that gives the variable with index `i` a value. -/
def signed (inst : Instance) (i : Nat) (value : Bool) : SignedLiteral :=
  SignedLiteral.ofVariable (inst.variableAt i) value

def signedClause (inst : Instance) (c : Clause) : SignedClause :=
  c.literals.map fun l => inst.signed l.index l.positive

/-- The instance as text, one clause a line. -/
def text (inst : Instance) : String :=
  String.join (inst.clauses.toList.map fun c => signedText " " (inst.signedClause c) ++ "\n")

/-! ### Building -/

/-- Adds position `j` to the slots of the given indices. -/
def noteOccurrences (slots : Array (Array Nat)) (j : Nat) (is : List Nat) : Array (Array Nat) :=
  is.foldl (fun slots i => slots.modify i (·.push j)) slots

/-- For every slot of `size` the positions of the clauses that mention it, in ascending order. -/
def occurrenceTable (size : Nat) (cs : List Clause) : Array (Array Nat) :=
  cs.zipIdx.foldl (fun slots (c, j) => noteOccurrences slots j c.indices) (Array.replicate size #[])

/-- A signed literal over the indices of a sorted array of variables. -/
def literalOver (names : Array Nat) (l : SignedLiteral) : Literal :=
  ⟨(positionWithin names l.magnitude 1 names.size).getD 0, l.isPositive⟩

/-- A clause of signed literals over the indices of a sorted array of variables. -/
def clauseOver (names : Array Nat) (c : SignedClause) : Clause :=
  .ofLiterals (c.map (literalOver names))

/-- The instance of clauses without faults. -/
def ofClauses (cs : List SignedClause) : Instance :=
  let names := (0 :: mentionedVariables cs).toArray
  let clauses := cs.map (clauseOver names)
  { clauses := clauses.toArray
    names := names
    occurrences := occurrenceTable names.size clauses }

/-- **The instance of a list of clauses.**  The first clause with a fault is named. -/
def build (cs : List SignedClause) : Except Error Instance :=
  match firstFault? cs with
  | some (i, f) => .error (.malformedClause i f)
  | none => .ok (ofClauses cs)

/-- What building an instance has to say: a warning for every clause that is always satisfied, and
the size of the result. -/
def buildLog (cs : List SignedClause) (inst : Instance) : Log :=
  let warnings := (cs.zip inst.clauses.toList).zipIdx.filterMap fun ((raw, c), i) =>
    if c.isTautology then
      some ⟨.warn, "clause #" ++ natText i ++ " (" ++ signedText " " raw ++
        ") contains a variable with both polarities and is always satisfied"⟩
    else none
  warnings ++ [⟨.debug, "built instance: " ++ natText inst.numVars ++ " variables, " ++
    natText inst.numClauses ++ " clauses, " ++ natText inst.numLiterals ++ " literals"⟩]

end Instance

/-- A result together with what was logged on the way to it. -/
structure Logged (α : Type) where
  result : α
  log : Log

/-- The instance of a list of clauses, and what building it has to say. -/
def Instance.buildLogged (cs : List SignedClause) : Logged (Except Error Instance) :=
  match Instance.build cs with
  | .ok inst => ⟨.ok inst, inst.buildLog cs⟩
  | .error e => ⟨.error e, []⟩

end StochasticSat
