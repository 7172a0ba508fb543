/-!
# Binary fractions of 64 bits

A floating point number is, up to its sign, either not a number, infinite, or `mantissa * 2 ^
exponent` with natural `mantissa` (`BinaryFraction`, `Float.toFraction`).  In the other direction
`nearestFloat` rounds a nonnegative quotient to the nearest number, ties to the even mantissa.  All
arithmetic here is exact arithmetic on natural numbers; `roundDiv` is the one rounding step.
-/

namespace StochasticSat

/-- The quotient of two natural numbers, rounded to the nearest one, ties to the even one. -/
def roundDiv (num den : Nat) : Nat :=
  let q := num / den
  let r := num % den
  if 2 * r < den then q
  else if den < 2 * r then q + 1
  else q + q % 2

/-- The value of a floating point number. -/
inductive BinaryFraction where
  | notANumber
  | infinite (negative : Bool)
  | finite (negative : Bool) (mantissa : Nat) (exponent : Int)
deriving DecidableEq

namespace BinaryFraction

/-- The exponent of the numbers next to zero, the least one. -/
def minExponent : Int := -1074

/-- The least mantissa that is written with a leading bit of its own. -/
def leadingBit : Nat := Nat.pow 2 52

/-- The numerator and the denominator of `mantissa * 2 ^ exponent`. -/
def quotient (mantissa : Nat) (exponent : Int) : Nat × Nat :=
  (mantissa * Nat.pow 2 exponent.toNat, Nat.pow 2 (-exponent).toNat)

end BinaryFraction

open BinaryFraction

/-- The value of a 64-bit pattern of sign, biased exponent and mantissa. -/
def fractionOfBits (bits : Nat) : BinaryFraction :=
  let negative := bits / Nat.pow 2 63 % 2 == 1
  let biased := bits / leadingBit % Nat.pow 2 11
  let mantissa := bits % leadingBit
  if biased = 2047 then
    if mantissa = 0 then .infinite negative else .notANumber
  else if biased = 0 then .finite negative mantissa minExponent
  else .finite negative (leadingBit + mantissa) (minExponent + (biased - 1 : Nat))

/-- The value of a floating point number. -/
def toFraction (x : Float) : BinaryFraction := fractionOfBits x.toBits.toNat

def infinityBits : Nat := 2047 * leadingBit

/-- The pattern nearest to `num / den`, ties to the even mantissa; too large quotients give the
pattern of infinity. -/
def nearestBits (num den : Nat) : Nat :=
  if num = 0 then 0
  else
    let guess : Int := (num.log2 : Int) - den.log2 - 53
    let scaled (q : Int) : Nat × Nat := (num * Nat.pow 2 (-q).toNat, den * Nat.pow 2 q.toNat)
    let tooLow := 2 * leadingBit ≤ (scaled guess).1 / (scaled guess).2
    let exponent := max (if tooLow then guess + 1 else guess) minExponent
    let mantissa := roundDiv (scaled exponent).1 (scaled exponent).2
    min ((exponent - minExponent).toNat * leadingBit + mantissa) infinityBits

/-- The floating point number nearest to `num / den`, with the given sign. -/
def nearestFloat (negative : Bool) (num den : Nat) : Float :=
  let x := Float.ofBits (UInt64.ofNat (nearestBits num den))
  if negative then -x else x

end StochasticSat
