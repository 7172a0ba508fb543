import StochasticSat.Decimal.Shortest

/-!
# Durations

Elapsed time in whole seconds and nanoseconds.  `Duration.ofSeconds` rounds a number of seconds to
the nearest nanosecond, ties to the even one; it refuses negative numbers and those whose seconds
do not fit 64 bits, and says which.  `Duration.text` is the duration in its largest unit that leaves
something before the point.
-/

namespace StochasticSat

open Decimal

/-- A duration; the nanoseconds are fewer than a second. -/
structure Duration where
  seconds : Nat
  nanoseconds : Nat
deriving DecidableEq, Inhabited

/-- Why a number of seconds is no duration. -/
inductive DurationFault where
  | negative
  | tooBigOrNotANumber
deriving DecidableEq

namespace Duration

def perSecond : Nat := 1000000000

def ofNanoseconds (n : Nat) : Duration := ⟨n / perSecond, n % perSecond⟩

/-- The duration of a number of milliseconds. -/
def ofMilliseconds (n : Nat) : Duration := ofNanoseconds (n * 1000000)

def zero : Duration := ⟨0, 0⟩

/-- The number of nanoseconds of a duration. -/
def total (d : Duration) : Nat := d.seconds * perSecond + d.nanoseconds

/-- Whether `d` is at most `e`. -/
def le (d e : Duration) : Bool := d.total ≤ e.total

/-- The duration of a number of seconds, rounded to the nearest nanosecond. -/
def ofSeconds (x : Float) : Except DurationFault Duration :=
  match toFraction x with
  | .notANumber => .error .tooBigOrNotANumber
  | .infinite negative => .error (if negative then .negative else .tooBigOrNotANumber)
  | .finite negative m q =>
    let (num, den) := BinaryFraction.quotient m q
    if negative && m != 0 then .error .negative
    else if Nat.pow 2 64 ≤ num / den then .error .tooBigOrNotANumber
    else .ok (ofNanoseconds (roundDiv (num * perSecond) den))

/-- The duration in seconds, as a floating point number. -/
def toSeconds (d : Duration) : Float :=
  d.seconds.toUInt64.toFloat + d.nanoseconds.toUInt64.toFloat / perSecond.toUInt64.toFloat

/-- A duration in its largest unit that leaves something before the point. -/
def text (d : Duration) : String :=
  let write (n : Nat) (places : Nat) (unit : String) : String :=
    String.ofList (Point.text ⟨n, -(places : Int)⟩) ++ unit
  if d.seconds != 0 then write d.total 9 "s"
  else if 1000000 ≤ d.nanoseconds then write d.nanoseconds 6 "ms"
  else if 1000 ≤ d.nanoseconds then write d.nanoseconds 3 "µs"
  else write d.nanoseconds 0 "ns"

end Duration

/-- What is wrong with a number of seconds, in words. -/
def DurationFault.message : DurationFault → String
  | .negative => "cannot convert float seconds to Duration: value is negative"
  | .tooBigOrNotANumber =>
    "cannot convert float seconds to Duration: value is either too big or NaN"

end StochasticSat
