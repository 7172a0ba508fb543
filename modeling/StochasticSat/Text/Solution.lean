import StochasticSat.Text.Dialect

/-!
# Solutions as text

A solution is written one signed literal a line, without a line feed at the end (`solutionText`).
It is read back from any text of signed literals separated by blanks (`readSolution`).
-/

namespace StochasticSat

open Text

def solutionText (ls : List SignedLiteral) : String := signedText "\n" ls

/-- The literals of the lines from line `n` on, behind the literals `done`. -/
def solutionOnto (done : Array SignedLiteral) (n : Nat) :
    Source → Except Error (Array SignedLiteral)
  | [] => .ok done
  | none :: _ => .error (.file .notText)
  | some line :: rest => do
    let done ← (tokens line).foldlM (fun done t => return done.push (← readLiteral n t)) done
    solutionOnto done (n + 1) rest

/-- **The literals of a solution.** -/
def readSolution (source : Source) : Except Error (List SignedLiteral) :=
  Array.toList <$> solutionOnto #[] 1 source

end StochasticSat
