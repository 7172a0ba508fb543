/-!
# Decimal digits

Natural numbers as rows of decimal digits, most significant digit first.  `digits` writes the
shortest row (`0` is one digit), `ofDigits` reads any row.
-/

namespace StochasticSat.Decimal

/-- The character of a digit below ten. -/
def digitChar (d : Nat) : Char := Char.ofNat ('0'.toNat + d)

/-- Whether a character is one of the ten digits. -/
def isDigit (c : Char) : Bool := '0'.toNat ≤ c.toNat && c.toNat ≤ '9'.toNat

def digitValue (c : Char) : Nat := c.toNat - '0'.toNat

/-- The digits of `n`, put in front of `tail`. -/
def digitsOnto (tail : List Char) (n : Nat) : List Char :=
  if n < 10 then digitChar n :: tail
  else digitsOnto (digitChar (n % 10) :: tail) (n / 10)
termination_by n
decreasing_by omega

/-- The decimal digits of `n`. -/
def digits (n : Nat) : List Char := digitsOnto [] n

/-- The number that a row of digits writes. -/
def ofDigits (cs : List Char) : Nat := cs.foldl (fun n c => 10 * n + digitValue c) 0

/-- The text of a natural number. -/
def natText (n : Nat) : String := String.ofList (digits n)

/-- The digits of an integer, after a minus sign if it is negative. -/
def intDigits (z : Int) : List Char :=
  if z < 0 then '-' :: digits z.natAbs else digits z.natAbs

/-- The text of an integer. -/
def intText (z : Int) : String := String.ofList (intDigits z)

end StochasticSat.Decimal
