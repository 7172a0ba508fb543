/-!
# Restarts

A search is a sequence of tries.  Each try lasts a number of flips, and the next one begins with a
fresh random assignment.  `Schedule.tryLength` gives the length of every try: without end, always
the same, or the terms of the Luby sequence

  `1, 1, 2, 1, 1, 2, 4, 1, 1, 2, 1, 1, 2, 4, 8, …`

times a unit.  A `Restarter` counts the flips left in the current try.  It is asked once before
every flip (`Restarter.due`): if none are left it starts the next try and says so, otherwise it
counts the coming flip.

Lengths are words of 64 bits and saturate.
-/

namespace StochasticSat

/-! ### The Luby sequence -/

/-- The least `n ≥ k` such that the first `2 ^ n - 1` terms of the sequence reach term `i`. -/
def blockOrder (i k : Nat) : Nat := if Nat.pow 2 k - 1 < i then blockOrder i (k + 1) else k
termination_by i - k
decreasing_by
  have : k < Nat.pow 2 k := Nat.lt_two_pow_self
  omega

theorem le_two_pow_blockOrder (i k : Nat) : i ≤ Nat.pow 2 (blockOrder i k) - 1 := by
  fun_induction blockOrder i k with
  | case1 k h ih => exact ih
  | case2 k h => omega

theorem blockOrder_minimal {i k n : Nat} (hk : k ≤ n) (h : i ≤ Nat.pow 2 n - 1) :
    blockOrder i k ≤ n := by
  fun_induction blockOrder i k with
  | case1 k hlt ih =>
    have : k ≠ n := by rintro rfl; omega
    exact ih (by omega)
  | case2 k _ => exact hk

/-- **The terms of the Luby sequence**, counted from 1.  The last term of the first `2 ^ n - 1` is
`2 ^ (n - 1)`; the ones before it repeat the first `2 ^ (n - 1) - 1` terms. -/
def luby (i : Nat) : Nat :=
  let n := blockOrder i 1
  if Nat.pow 2 n - 1 = i then Nat.pow 2 (n - 1)
  else if h : 0 < i ∧ 1 < n then luby (i - (Nat.pow 2 (n - 1) - 1))
  else 0
termination_by i
decreasing_by
  have h1 : 2 ≤ Nat.pow 2 (blockOrder i 1 - 1) :=
    Nat.le_self_pow (by omega) 2
  omega

/-! ### Schedules -/

/-- The largest word. -/
def maxWord : Nat := Nat.pow 2 64 - 1

/-- How long the tries of a search are. -/
inductive Schedule where
  /-- One try without end. -/
  | never
  /-- Tries of one length. -/
  | fixed (interval : Nat)
  /-- Tries whose lengths are the terms of the Luby sequence times a unit. -/
  | luby (unit : Nat)
deriving DecidableEq

namespace Schedule

/-- The length of try `k`, counted from 1; intervals and units are at least 1. -/
def tryLength : Schedule → Nat → Nat
  | never, _ => maxWord
  | fixed interval, _ => max interval 1
  | luby unit, k => min (StochasticSat.luby k * max unit 1) maxWord

/-- Whether the first try has an end. -/
def ends : Schedule → Bool
  | never => false
  | _ => true

end Schedule

/-- The kinds of schedules, without their lengths. -/
inductive RestartPolicy where
  | never
  | fixed
  | luby
deriving DecidableEq, Inhabited

def RestartPolicy.name : RestartPolicy → String
  | .never => "Never"
  | .fixed => "Fixed"
  | .luby => "Luby"

def RestartPolicy.schedule (interval : Nat) : RestartPolicy → Schedule
  | .never => .never
  | .fixed => .fixed interval
  | .luby => .luby interval

/-! ### Counting down -/

/-- The state of a schedule: the tries begun after the first one, and the flips left in the current
one. -/
structure Restarter where
  schedule : Schedule
  restarts : Nat
  remaining : Nat
deriving DecidableEq

namespace Restarter

/-- The beginning of the first try. -/
def start (schedule : Schedule) : Restarter := ⟨schedule, 0, schedule.tryLength 1⟩

/-- Counts one flip against the current try. -/
def count (r : Restarter) : Restarter :=
  if r.schedule.ends then { r with remaining := r.remaining - 1 } else r

/-- Begins the next try. -/
def restart (r : Restarter) : Restarter :=
  if r.schedule.ends then
    { r with restarts := r.restarts + 1, remaining := r.schedule.tryLength (r.restarts + 2) }
  else r

/-- Whether a new try begins; otherwise the coming flip is counted. -/
def due (r : Restarter) : Bool × Restarter :=
  if r.remaining = 0 then (true, r.restart) else (false, r.count)

end Restarter

end StochasticSat
