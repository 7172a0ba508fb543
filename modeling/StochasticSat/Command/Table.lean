import StochasticSat.Search.Observer

/-!
# The table of statistics

Rows of a label and a value, both in columns of fixed width; what is too long pushes the rest to
the right.  Widths count characters.  `statsTable` is the table that is printed after a search.
-/

namespace StochasticSat.Command

open Decimal

/-- The widths of the columns of the table. -/
structure TableLayout where
  label : Nat
  value : Nat
  rateLabel : Nat
  rateValue : Nat
  rate : Nat

/-- A label has 28 columns and a value 18; in rows with a rate they have 20 and 12, and the rate
9. -/
def layout : TableLayout := ⟨28, 18, 20, 12, 9⟩

/-- A text at the left of a column. -/
def padRight (width : Nat) (text : String) : String :=
  text ++ String.ofList (List.replicate (width - text.length) ' ')

/-- A text at the right of a column. -/
def padLeft (width : Nat) (text : String) : String :=
  String.ofList (List.replicate (width - text.length) ' ') ++ text

/-- A row of a label and a text in the column of values. -/
def plainRow (label value : String) : String :=
  "|  " ++ padRight layout.label label ++ " " ++ value ++ "  |"

def statRow (label value : String) : String := plainRow label (padLeft layout.value value)

/-- A count for every second; no time makes no rate. -/
def ratePerSecond (count : Nat) (seconds : Float) : Float :=
  if 0 < seconds then count.toUInt64.toFloat / seconds else 0

/-- A row of a label, a count and its rate. -/
def rateRow (label : String) (count : Nat) (seconds : Float) : String :=
  "|  " ++ padRight layout.rateLabel label ++ " " ++ padLeft layout.rateValue (natText count) ++
    " (" ++ padLeft layout.rate (fixedText 0 (ratePerSecond count seconds)) ++ "/sec)  |"

/-- **The statistics of an instance and a search of it.**  Memory is in MiB. -/
def statsTable (parseTime : Duration) (inst : Instance) (config : Config) (stats : Stats)
    (elapsed : Duration) (allocated resident : Float) : List String :=
  let seconds := elapsed.toSeconds
  [ "\n=======================[ Problem Statistics ]=========================",
    statRow "Parse time (s)" (fixedText 3 parseTime.toSeconds),
    statRow "Variables" (natText inst.numVars),
    statRow "Clauses" (natText inst.numClauses),
    statRow "Literals" (natText inst.numLiterals),
    "========================[ Search Statistics ]========================",
    plainRow "Strategy" config.strategy.name,
    statRow "Noise threshold" (floatText config.noise),
    plainRow "Restart strategy" config.policy.name,
    rateRow "Flips" stats.flips seconds,
    rateRow "Greedy flips" stats.greedyFlips seconds,
    rateRow "Noise flips" stats.noiseFlips seconds,
    rateRow "Restarts" stats.restarts seconds,
    statRow "Memory usage (MiB)" (fixedText 2 allocated),
    statRow "Resident memory (MiB)" (fixedText 2 resident),
    statRow "Search time (s)" (fixedText 3 seconds),
    "=====================================================================" ]

end StochasticSat.Command
