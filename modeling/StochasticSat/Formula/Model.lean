import StochasticSat.Formula.Evaluation

/-!
# Models as signed literals

An assignment of an instance's variables is written as one signed literal for every index, in
ascending order (`Instance.toLiterals`), and read back from any list of signed literals that gives
every variable a value (`Instance.ofLiterals`); a later literal of a variable overrides an earlier
one.  `Instance.verify` reads such a list and checks every clause.
-/

namespace StochasticSat

namespace Instance

/-- The signed literals of an assignment that covers exactly the variables of the instance. -/
def toLiterals (inst : Instance) (a : Assignment) : Except Error (List SignedLiteral) :=
  if a.numVars = inst.numVars then .ok (a.pairs.map fun (i, b) => inst.signed i b)
  else .error (.unknownVariable a.numVars inst.numVars)

/-- Notes the value that a signed literal gives to its variable. -/
def noteLiteral (inst : Instance) (values : Array (Option Bool)) (l : SignedLiteral) :
    Except Error (Array (Option Bool)) :=
  match if l = 0 then none else inst.indexOf? l.magnitude with
  | some i => .ok (values.setIfInBounds i (some l.isPositive))
  | none => .error (.unknownLiteral l)

/-- The value of index `i`, which must have been noted. -/
def notedValue (inst : Instance) : Option Bool × Nat → Except Error Bool
  | (some b, _) => .ok b
  | (none, i) => .error (.missingVariable (inst.variableAt i))

/-- The assignment that a list of signed literals describes. -/
def ofLiterals (inst : Instance) (ls : List SignedLiteral) : Except Error Assignment := do
  let values ← ls.foldlM inst.noteLiteral (Array.replicate (inst.numVars + 1) none)
  let values ← ((values.toList.drop 1).zipIdx 1).mapM inst.notedValue
  return .ofValues values

/-- Whether the assignment that a list of signed literals describes satisfies every clause. -/
def verify (inst : Instance) (ls : List SignedLiteral) : Except Error Bool := do
  let a ← inst.ofLiterals ls
  return inst.allSatisfied a.value

end Instance

end StochasticSat
