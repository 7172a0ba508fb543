import StochasticSat.Error
import StochasticSat.Formula.Literal
import StochasticSat.Random.Stream

/-!
# Assignments

The total assignment that a search changes one flip at a time.  The values of the indices `1, …, N`
sit in the slots of the same numbers; slot 0 is a sentinel, so that indices need no shift.  The
empty assignment has no slot at all, not even the sentinel.

An assignment is read in two ways: `Assignment.value` is its valuation, which is false where there
is no slot, and `Assignment.slot?` its reading, which has no value there.  `flip` is for the indices
a search made itself, `tryFlip` for those that come from outside.
-/

namespace StochasticSat

/-- The values of the indices of an instance, behind a sentinel. -/
structure Assignment where
  slots : Array Bool
deriving DecidableEq, Inhabited

namespace Assignment

/-- The assignment without slots. -/
def empty : Assignment := ⟨#[]⟩

/-- The assignment of the indices `1, …, n` to `n` values. -/
def ofValues (values : List Bool) : Assignment := ⟨(false :: values).toArray⟩

/-- The assignment of the indices `1, …, n` to independent coins. -/
def random {σ : Type} [RandomStream σ] (n : Nat) (s : σ) : Assignment × σ :=
  let (coins, s) := RandomStream.drawCoinsOnto #[false] n s
  (⟨coins⟩, s)

/-- The number of indices that have a value. -/
def numVars (a : Assignment) : Nat := a.slots.size - 1

/-- The value in slot `i`, if there is one. -/
def slot? (a : Assignment) : Reading := fun i => a.slots[i]?

/-- The value in slot `i`, false if there is none. -/
def value (a : Assignment) : Valuation := fun i => a.slots.getD i false

/-- The assignment with the value in slot `i` inverted. -/
def flip (a : Assignment) (i : Nat) : Assignment := ⟨a.slots.modify i not⟩

/-- The assignment with the value in slot `i` inverted, if there is such a slot. -/
def flip? (a : Assignment) (i : Nat) : Option Assignment :=
  if i < a.slots.size then some (a.flip i) else none

/-- Whether `i` is one of the indices `1, …, N`. -/
def knows (a : Assignment) (i : Nat) : Bool := i != 0 && i ≤ a.numVars

/-- Passes `i` if it is one of the indices `1, …, N`. -/
def check (a : Assignment) (i : Nat) : Except Error Nat :=
  if a.knows i then .ok i else .error (.unknownVariable i a.numVars)

/-- The value at a known index. -/
def get (a : Assignment) (i : Nat) : Except Error Bool := do
  let i ← a.check i
  return a.value i

/-- The assignment with the value at a known index inverted. -/
def tryFlip (a : Assignment) (i : Nat) : Except Error Assignment := do
  let i ← a.check i
  return a.flip i

/-- The values of the indices `1, …, N`. -/
def values (a : Assignment) : List Bool := a.slots.toList.drop 1

/-- The indices `1, …, N` with their values. -/
def pairs (a : Assignment) : List (Nat × Bool) := (a.values.zipIdx 1).map fun (b, i) => (i, b)

@[simp] theorem numVars_ofValues (bs : List Bool) : (ofValues bs).numVars = bs.length := by
  simp [ofValues, numVars]

@[simp] theorem values_ofValues (bs : List Bool) : (ofValues bs).values = bs := by
  simp [ofValues, values]

end Assignment

end StochasticSat
