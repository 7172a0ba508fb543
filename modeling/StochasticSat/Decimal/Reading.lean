import StochasticSat.Decimal.Binary64
import StochasticSat.Decimal.Digits

/-!
# Reading numbers

Words of 64 bits are written as digits after an optional plus sign.  Floating point numbers are
written as `inf`, `infinity` or `nan` in any case, or as digits with an optional point and an
optional exponent, all after an optional sign; there must be a digit before the exponent.  A decimal
is read as the floating point number nearest to it.
-/

namespace StochasticSat.Decimal

/-- The word of 64 bits that a text writes. -/
def readWord? (text : String) : Option Nat :=
  let ds := match text.toList with
    | '+' :: ds => ds
    | ds => ds
  if ds.isEmpty || !ds.all isDigit then none
  else if ofDigits ds < Nat.pow 2 64 then some (ofDigits ds) else none

/-- The digits at the beginning of a row, and what comes after them. -/
def spanDigits (cs : List Char) : List Char × List Char :=
  (cs.takeWhile isDigit, cs.dropWhile isDigit)

/-- The exponent that ends a number; a missing one is 0. -/
def readExponent? : List Char → Option Int
  | [] => some 0
  | e :: cs =>
    if e = 'e' ∨ e = 'E' then
      let (negative, ds) := match cs with
        | '-' :: ds => (true, ds)
        | '+' :: ds => (false, ds)
        | ds => (false, ds)
      if ds.isEmpty || !ds.all isDigit then none
      else some (if negative then -(ofDigits ds : Int) else ofDigits ds)
    else none

/-- A decimal with the fraction it has after the point, if there is a point. -/
def readFraction (cs : List Char) : List Char × List Char :=
  match cs with
  | '.' :: cs => spanDigits cs
  | cs => ([], cs)

/-- Infinity with a sign. -/
def infinity (negative : Bool) : Float :=
  let x := Float.ofBits (UInt64.ofNat infinityBits)
  if negative then -x else x

/-- Every positive floating point number is between `10 ^ -decimalRange` and `10 ^ decimalRange`. -/
def decimalRange : Int := 400

/-- The floating point number nearest to `significand * 10 ^ exponent`. -/
def nearestDecimal (negative : Bool) (significand : Nat) (exponent : Int) : Float :=
  let leading : Int := exponent + (digits significand).length
  if significand = 0 || leading < -decimalRange then nearestFloat negative 0 1
  else if decimalRange < leading then infinity negative
  else nearestFloat negative (significand * Nat.pow 10 exponent.toNat)
    (Nat.pow 10 (-exponent).toNat)

/-- The decimal that a row of characters writes. -/
def readDecimal? (negative : Bool) (cs : List Char) : Option Float :=
  let (whole, rest) := spanDigits cs
  let (fraction, rest) := readFraction rest
  if whole.isEmpty && fraction.isEmpty then none
  else (readExponent? rest).map fun e =>
    nearestDecimal negative (ofDigits (whole ++ fraction)) (e - fraction.length)

/-- The floating point number that is none. -/
def notANumber : Float := Float.ofBits 0x7ff8000000000000

/-- **The floating point number that a text writes.** -/
def readFloat? (text : String) : Option Float :=
  let (negative, cs) := match text.toList with
    | '-' :: cs => (true, cs)
    | '+' :: cs => (false, cs)
    | cs => (false, cs)
  let word := String.ofList (cs.map Char.toLower)
  if word = "inf" ∨ word = "infinity" then some (infinity negative)
  else if word = "nan" then some notANumber
  else readDecimal? negative cs

end StochasticSat.Decimal
