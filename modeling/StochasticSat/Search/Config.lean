import StochasticSat.Random.Seeded
import StochasticSat.Search.Restart
import StochasticSat.Search.Selection

/-!
# Configurations

What a search is told apart from its instance and its stream: strategy, noise threshold, budget,
restart schedule and seed.  `Config.validate` is the one check a configuration has to pass.
-/

namespace StochasticSat

/-- The limits of a search; a limit that is missing is never reached. -/
structure Budget where
  maxFlips : Option Nat
  timeLimit : Option Duration
deriving DecidableEq

namespace Budget

/-- A limit on the number of flips alone. -/
def flips (n : Nat) : Budget := ⟨some n, none⟩

/-- No limit at all. -/
def unbounded : Budget := ⟨none, none⟩

/-- Whether a number of flips uses the budget up. -/
def flipsUsedUp (b : Budget) (n : Nat) : Bool := b.maxFlips.any (· ≤ n)

def timeUsedUp (b : Budget) (elapsed : Duration) : Bool := b.timeLimit.any (·.le elapsed)

/-- A number of passes through the search loop that is enough to use up a limit on flips: one for
every flip, one for a restart before it, and the last.  Without such a limit it is a number that no
search performs. -/
def passes (b : Budget) : Nat :=
  match b.maxFlips with
  | some n => 2 * n + 1
  | none => Nat.pow 2 64

end Budget

/-- The choices that make a search. -/
structure Config where
  strategy : Strategy
  noise : Float
  budget : Budget
  policy : RestartPolicy
  /-- The flips of a try, or the unit of the Luby sequence. -/
  interval : Nat
  seed : Option UInt64

namespace Config

def defaultMaxFlips : Nat := 100000

def defaultInterval : Nat := 1000

/-- The configuration in the absence of choices. -/
def default : Config :=
  { strategy := .walksat
    noise := Noise.defaultThreshold
    budget := .flips defaultMaxFlips
    policy := .never
    interval := defaultInterval
    seed := none }

instance : Inhabited Config := ⟨default⟩

/-- The noise of a configuration, whose threshold must be within bounds. -/
def validate (c : Config) : Except Error Noise := Noise.ofThreshold c.noise

/-- The restart schedule of a configuration. -/
def schedule (c : Config) : Schedule := c.policy.schedule c.interval

/-- The stream of a configuration; `entropy` is the word of a stream without a seed. -/
def stream (c : Config) (entropy : UInt64) : Seeded := ⟨c.seed.getD entropy⟩

end Config

end StochasticSat
