import StochasticSat.Formula.Instance
import StochasticSat.Text.Line

/-!
# Instances as text

Clauses are written in one of two dialects.

* `plain`: one clause a line, its signed literals separated by blanks.  There is no header and no
  terminator: a `0` is read as a literal, and refused when the instance is built.  Blank lines are
  skipped.
* `dimacs`: lines whose first token is `c` or `p` are skipped, a line whose first token is `%` ends
  the data, and a `0` ends a clause, so that a clause may span lines or share one.  Numbers on a `p`
  line are not looked at.

`Dialect.detect` takes a text for the second if a line `p cnf` comes before its first clause.  Lines
are read one after the other, so the first bad line decides on the error.
-/

namespace StochasticSat

open Decimal Text

/-- How clauses are written. -/
inductive Dialect where
  | plain
  | dimacs
deriving DecidableEq, Inhabited

def Dialect.name : Dialect → String
  | .plain => "plain"
  | .dimacs => "dimacs"

/-! ### Signed literals -/

/-- A sign, if there is one, and the rest; true is the minus sign. -/
def splitSign : List Char → Bool × List Char
  | '-' :: cs => (true, cs)
  | '+' :: cs => (false, cs)
  | cs => (false, cs)

/-- The integer that a token writes: digits after an optional sign. -/
def readInt? (token : List Char) : Option Int :=
  let (negative, ds) := splitSign token
  if ds.isEmpty || !ds.all isDigit then none
  else some (if negative then -(ofDigits ds : Int) else ofDigits ds)

/-- The signed literal that a token writes, if it is in range. -/
def SignedLiteral.ofToken? (token : List Char) : Option SignedLiteral :=
  match readInt? token with
  | some z =>
    if Int32.minValue.toInt ≤ z ∧ z ≤ Int32.maxValue.toInt then some (Int32.ofInt z) else none
  | none => none

/-- The signed literal that a token on line `n` writes. -/
def readLiteral (n : Nat) (token : List Char) : Except Error SignedLiteral :=
  match SignedLiteral.ofToken? token with
  | some l => .ok l
  | none => .error (.badToken n (String.ofList token))

/-! ### Clauses -/

/-- The clauses of a plain text from line `n` on, behind the clauses `done`. -/
def plainOnto (done : Array SignedClause) (n : Nat) : Source → Except Error (Array SignedClause)
  | [] => .ok done
  | none :: _ => .error (.file .notText)
  | some line :: rest =>
    match tokens line with
    | [] => plainOnto done (n + 1) rest
    | ts => do
      let c ← ts.mapM (readLiteral n)
      plainOnto (done.push c) (n + 1) rest

/-- Clauses, and the beginning of the next one. -/
structure OpenClauses where
  done : Array SignedClause
  pending : Array SignedLiteral

/-- The clauses after one more literal, which ends the last one if it is `0`. -/
def OpenClauses.push (o : OpenClauses) (l : SignedLiteral) : OpenClauses :=
  if l = 0 then ⟨o.done.push o.pending.toList, #[]⟩ else ⟨o.done, o.pending.push l⟩

/-- All clauses, the one without an end included. -/
def OpenClauses.close (o : OpenClauses) : Array SignedClause :=
  if o.pending.isEmpty then o.done else o.done.push o.pending.toList

/-- The clauses after the tokens of line `n`. -/
def OpenClauses.readLine (n : Nat) (o : OpenClauses) (ts : List (List Char)) :
    Except Error OpenClauses :=
  ts.foldlM (fun o t => return o.push (← readLiteral n t)) o

/-- The clauses of a DIMACS text from line `n` on. -/
def dimacsOnto (o : OpenClauses) (n : Nat) : Source → Except Error (Array SignedClause)
  | [] => .ok o.close
  | none :: _ => .error (.file .notText)
  | some line :: rest =>
    match tokens line with
    | [] | ['c'] :: _ | ['p'] :: _ => dimacsOnto o (n + 1) rest
    | ['%'] :: _ => .ok o.close
    | ts => do
      let o ← o.readLine n ts
      dimacsOnto o (n + 1) rest

/-- **The clauses of a source** in a dialect. -/
def readClauses (dialect : Dialect) (source : Source) : Except Error (List SignedClause) :=
  Array.toList <$> match dialect with
    | .plain => plainOnto #[] 1 source
    | .dimacs => dimacsOnto ⟨#[], #[]⟩ 1 source

/-! ### Detection -/

/-- The dialect of a text with the given lines. -/
def detectLines : List (List Char) → Dialect
  | [] => .plain
  | line :: rest =>
    match tokens line with
    | [] | ['c'] :: _ => detectLines rest
    | ['p'] :: ['c', 'n', 'f'] :: _ => .dimacs
    | _ => .plain

/-- **The dialect of a text.** -/
def Dialect.detect (text : String) : Dialect := detectLines (lines text.toList)

/-! ### Instances -/

def readInstance (dialect : Dialect) (source : Source) : Logged (Except Error Instance) :=
  match readClauses dialect source with
  | .ok cs => Instance.buildLogged cs
  | .error e => ⟨.error e, []⟩

/-- The instance of a text, in the given dialect or in the one that is detected. -/
def instanceOfText (dialect? : Option Dialect) (text : String) :
    Logged (Except Error Instance) :=
  readInstance (dialect?.getD (.detect text)) (.ofText text)

/-- The instance of the content of a file, which must be text. -/
def instanceOfBytes (dialect? : Option Dialect) (bytes : ByteArray) :
    Logged (Except Error Instance) :=
  match String.fromUTF8? bytes with
  | some text => instanceOfText dialect? text
  | none => ⟨.error (.file .notText), []⟩

end StochasticSat
