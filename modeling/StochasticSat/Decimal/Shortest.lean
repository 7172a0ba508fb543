import StochasticSat.Decimal.Binary64
import StochasticSat.Decimal.Digits

/-!
# The shortest decimal of a floating point number

Every positive floating point number is the nearest one to all reals of an interval around it, ends
included if its mantissa is even.  Its shortest decimal is the point of the coarsest decimal grid
that meets this interval, the one nearest to the number if there are two, the upper one on a tie.
Only the two neighbours of the number on a grid matter: if any point of the grid lies in the
interval, one of them does.

`floatText` writes that decimal positionally, without an exponent and without a fraction where there
is none; `fixedText` writes a given number of places, rounding the exact value half to even.
-/

namespace StochasticSat.Decimal

/-! ### Points of decimal grids -/

/-- A nonnegative quotient. -/
structure Ratio where
  num : Nat
  den : Nat

def Ratio.le (x y : Ratio) : Bool := x.num * y.den ≤ y.num * x.den

/-- The strict order of quotients with positive denominators. -/
def Ratio.lt (x y : Ratio) : Bool := x.num * y.den < y.num * x.den

/-- The decimal `significand * 10 ^ exponent`. -/
structure Point where
  significand : Nat
  exponent : Int
deriving DecidableEq

/-- The value of a decimal. -/
def Point.ratio (p : Point) : Ratio :=
  ⟨p.significand * Nat.pow 10 p.exponent.toNat, Nat.pow 10 (-p.exponent).toNat⟩

/-- The largest multiple of `10 ^ e` that is not above `v`. -/
def gridFloor (v : Ratio) (e : Int) : Point :=
  ⟨v.num * Nat.pow 10 (-e).toNat / (v.den * Nat.pow 10 e.toNat), e⟩

/-- The upper neighbour of a decimal on its grid. -/
def Point.next (p : Point) : Point := ⟨p.significand + 1, p.exponent⟩

/-! ### The interval of a number -/

/-- The reals that round to a number: from `low` to `high`, the ends included iff `closed`. -/
structure Interval where
  low : Ratio
  high : Ratio
  closed : Bool

/-- The interval of `mantissa * 2 ^ exponent`.  It reaches half way to the neighbours; the lower
neighbour of a power of two is only half as far away as the upper one. -/
def Interval.around (mantissa : Nat) (exponent : Int) : Interval :=
  let scale (n : Nat) : Ratio := 
    ⟨n * Nat.pow 2 exponent.toNat, 4 * Nat.pow 2 (-exponent).toNat⟩
  let atBoundary :=
    mantissa == BinaryFraction.leadingBit && exponent != BinaryFraction.minExponent
  { low := scale (4 * mantissa - (if atBoundary then 1 else 2))
    high := scale (4 * mantissa + 2)
    closed := mantissa % 2 == 0 }

/-- Whether a quotient lies in the interval. -/
def Interval.contains (i : Interval) (x : Ratio) : Bool :=
  if i.closed then i.low.le x && x.le i.high else i.low.lt x && x.lt i.high

/-- Whether `v` is nearer to `p` than to its upper neighbour `p.next`. -/
def nearerBelow (v : Ratio) (p : Point) : Bool :=
  let middle : Point := ⟨10 * p.significand + 5, p.exponent - 1⟩
  v.lt middle.ratio

/-- The point of a grid that stands for `v`, if one of its two neighbours lies in the interval. -/
def gridHit? (v : Ratio) (i : Interval) (e : Int) : Option Point :=
  let below := gridFloor v e
  let above := below.next
  match i.contains below.ratio && below.significand != 0, i.contains above.ratio with
  | true, true => some (if nearerBelow v below then below else above)
  | true, false => some below
  | false, true => some above
  | false, false => none

/-- The first hit on grids that get finer by a factor of ten. -/
def firstHit (v : Ratio) (i : Interval) : Nat → Int → Point
  | 0, e => gridFloor v e
  | tries + 1, e => (gridHit? v i e).getD (firstHit v i tries (e - 1))

/-- The number of decimal zeros between the point and the first digit of a quotient below one,
counted with the given number of attempts. -/
def leadingZeros (v : Ratio) : Nat → Nat
  | 0 => 0
  | tries + 1 =>
    if v.den ≤ v.num * 10 then 0 else leadingZeros ⟨v.num * 10, v.den⟩ tries + 1

/-- The exponent of the first digit of a positive quotient. -/
def leadingExponent (v : Ratio) : Int :=
  if v.den ≤ v.num then ((digits (v.num / v.den)).length : Int) - 1
  else -1 - (leadingZeros v 400 : Int)

/-- The number of digits that tell all floating point numbers apart. -/
def maxDigits : Nat := 17

/-- The shortest decimal of `mantissa * 2 ^ exponent`, for a positive mantissa. -/
def shortest (mantissa : Nat) (exponent : Int) : Point :=
  let (num, den) := BinaryFraction.quotient mantissa exponent
  firstHit ⟨num, den⟩ (.around mantissa exponent) maxDigits (leadingExponent ⟨num, den⟩)

/-! ### Texts -/

/-- A row of digits without its trailing zeros. -/
def dropTrailingZeros (cs : List Char) : List Char := (cs.reverse.dropWhile (· == '0')).reverse

/-- A row of digits with a point before its last `places` digits, at least one digit before it. -/
def withPoint (cs : List Char) (places : Nat) : List Char × List Char :=
  let padded := List.replicate (places + 1 - cs.length) '0' ++ cs
  padded.splitAt (padded.length - places)

/-- A decimal written out, without trailing zeros after the point. -/
def Point.text (p : Point) : List Char :=
  if 0 ≤ p.exponent then digits p.significand ++ List.replicate p.exponent.toNat '0'
  else
    let (whole, fraction) := withPoint (digits p.significand) (-p.exponent).toNat
    match dropTrailingZeros fraction with
    | [] => whole
    | cs => whole ++ '.' :: cs

/-- A text after the sign of a number. -/
def signed (negative : Bool) (cs : List Char) : String :=
  String.ofList (if negative then '-' :: cs else cs)

/-- The text of a floating point number: its shortest decimal, never with an exponent. -/
def floatText (x : Float) : String :=
  match toFraction x with
  | .notANumber => "NaN"
  | .infinite negative => signed negative "inf".toList
  | .finite negative m q => signed negative (if m = 0 then ['0'] else (shortest m q).text)

/-- The text of a floating point number with a fixed number of places. -/
def fixedText (places : Nat) (x : Float) : String :=
  match toFraction x with
  | .notANumber => "NaN"
  | .infinite negative => signed negative "inf".toList
  | .finite negative m q =>
    let (num, den) := BinaryFraction.quotient m q
    let (whole, fraction) := withPoint (digits (roundDiv (num * Nat.pow 10 places) den)) places
    signed negative (if places = 0 then whole else whole ++ '.' :: fraction)

end StochasticSat.Decimal
