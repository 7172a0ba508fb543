import StochasticSat.Search.Config
import StochasticSat.Text.Dialect
import StochasticSat.Tree.Path

/-!
# Options

What the command line can choose, and the configuration that it makes of a search
(`Options.toConfig`).  A limit of no flips stands for no limit; a limit on time must be a duration,
and it is checked before the noise threshold.
-/

namespace StochasticSat

/-- The choices of a command line. -/
structure Options where
  debug : Bool
  verify : Bool
  stats : Bool
  printSolution : Bool
  strategy : Strategy
  noise : Float
  maxFlips : Nat
  /-- In seconds. -/
  timeLimit : Option Float
  policy : RestartPolicy
  interval : Nat
  seed : Option UInt64
  threads : Nat
  output : Option Path
  dialect : Option Dialect

namespace Options

/-- The options of a command line without choices. -/
def default : Options :=
  { debug := false
    verify := false
    stats := false
    printSolution := false
    strategy := .walksat
    noise := Noise.defaultThreshold
    maxFlips := Config.defaultMaxFlips
    timeLimit := none
    policy := .never
    interval := Config.defaultInterval
    seed := none
    threads := 1
    output := none
    dialect := none }

/-- The limit on time that a number of seconds makes. -/
def durationOf (seconds : Float) : Except Error Duration :=
  match Duration.ofSeconds seconds with
  | .ok d => .ok d
  | .error fault => .error (.invalidConfig (.timeLimit seconds fault))

/-- **The configuration of a search** with the given options, which must be valid. -/
def toConfig (o : Options) : Except Error Config := do
  let timeLimit ← o.timeLimit.mapM durationOf
  let config : Config :=
    { strategy := o.strategy
      noise := o.noise
      budget := ⟨if 0 < o.maxFlips then some o.maxFlips else none, timeLimit⟩
      policy := o.policy
      interval := o.interval
      seed := o.seed }
  let _ ← config.validate
  return config

/-- The least severe level that is logged. -/
def logLevel (o : Options) : Level := if o.debug then .debug else .info

end Options

end StochasticSat
