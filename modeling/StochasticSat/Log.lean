/-!
# Log records

A record is a message with a level.  Levels run from `error` to `trace`; a threshold admits the
records that are at least as severe as itself.
-/

namespace StochasticSat

/-- How severe a record is, the most severe first. -/
inductive Level where
  | error
  | warn
  | info
  | debug
  | trace
deriving DecidableEq

/-- The place of a level, counted from the most severe one. -/
def Level.rank : Level → Nat
  | .error => 0
  | .warn => 1
  | .info => 2
  | .debug => 3
  | .trace => 4

/-- Whether the threshold `t` lets records of level `l` through. -/
def Level.admits (t l : Level) : Bool := l.rank ≤ t.rank

def Level.name : Level → String
  | .error => "ERROR"
  | .warn => "WARN"
  | .info => "INFO"
  | .debug => "DEBUG"
  | .trace => "TRACE"

/-- A log record. -/
structure Record where
  level : Level
  message : String
deriving DecidableEq

/-- Records in the order in which they were written. -/
abbrev Log := List Record

/-- The records of a log that a threshold lets through. -/
def Log.upTo (t : Level) (log : Log) : Log := log.filter fun r => t.admits r.level

end StochasticSat
