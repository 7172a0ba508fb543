import StochasticSat.Search.Run

/-!
# Races

Several searches of one instance, each with a stream forked from the first, run side by side; the
first to find a model stops the others.  The workers share nothing but a flag and a channel: after
every flip a worker reads the flag and is cancelled if it is up, and a worker that has found a model
exchanges the flag for a raised one and, if it was down, sends its number into the channel.

A `Race` is the state of all this, and an `Action` what one worker does next.  `Race.act` is the
effect of an action, `none` if the worker cannot do it.  The flag is read loosely: a worker may miss
that it is up, but it never sees it up before it is.  Any sequence of actions is one interleaving of
the workers; `Race.advance` plays a fair one, in which every worker acts once a round.

`Race.verdict?` is the result once all workers are done: the report of the worker in the channel,
or, if there is none, the largest number of flips and the first reason other than a cancellation.

A `Contest` is a search by any number of workers: a run if there is one, a race if there are more.
-/

namespace StochasticSat

open Decimal

variable {σ ω : Type} [RandomStream σ]

/-- What a worker has to do before it is done. -/
inductive Stage where
  /-- It searches. -/
  | running
  /-- It has found a model and has to exchange the flag. -/
  | claiming
  /-- It has raised the flag and has to send its number. -/
  | announcing
  | done
deriving DecidableEq

structure Worker (σ ω : Type) where
  run : Run σ ω
  stage : Stage

/-- The stage after a pass that leads to the given report. -/
def Stage.ofReport : Option Report → Stage
  | none => running
  | some r => if r.outcome.isSatisfied then claiming else done

/-- What one worker does next. -/
inductive Action where
  /-- One pass through its loop, with what it sees of the flag and with the elapsed time. -/
  | pass (worker : Nat) (seesFlag : Bool) (elapsed : Duration)
  /-- The exchange of the flag for a raised one. -/
  | exchange (worker : Nat)
  /-- The sending of its number. -/
  | send (worker : Nat)
deriving DecidableEq

/-- The state of a race. -/
structure Race (σ ω : Type) where
  workers : Array (Worker σ ω)
  /-- Whether the flag is up. -/
  flag : Bool
  /-- The numbers that were sent, in order. -/
  channel : List Nat

namespace Race

/-- The beginning of a race of the given streams. -/
def start (o : Observer ω) (e : Engine) (streams : List σ) (w : ω) : Race σ ω :=
  { workers := (streams.map fun s => ⟨Run.start o e s w, .running⟩).toArray
    flag := false
    channel := [] }

/-- The race with another state of worker `k`. -/
def setWorker (race : Race σ ω) (k : Nat) (worker : Worker σ ω) : Race σ ω :=
  { race with workers := race.workers.setIfInBounds k worker }

/-- **The effect of an action**, if the worker can do it. -/
def act (o : Observer ω) (budget : Budget) (race : Race σ ω) : Action → Option (Race σ ω)
  | .pass k sees elapsed => do
    let worker ← race.workers[k]?
    if worker.stage = .running ∧ (sees → race.flag) then
      let run := worker.run.pass (o.stoppedIf sees) budget elapsed
      return race.setWorker k ⟨run, .ofReport run.report⟩
    else none
  | .exchange k => do
    let worker ← race.workers[k]?
    if worker.stage = .claiming then
      let next := if race.flag then .done else .announcing
      return { race.setWorker k { worker with stage := next } with flag := true }
    else none
  | .send k => do
    let worker ← race.workers[k]?
    if worker.stage = .announcing then
      let race := race.setWorker k { worker with stage := .done }
      return { race with channel := race.channel ++ [k] }
    else none

/-- The next action of worker `k`, if it is not done. -/
def nextAction? (race : Race σ ω) (elapsed : Duration) (k : Nat) : Option Action := do
  let worker ← race.workers[k]?
  match worker.stage with
  | .running => return .pass k race.flag elapsed
  | .claiming => return .exchange k
  | .announcing => return .send k
  | .done => none

/-- The race after worker `k` has acted, if it is not done. -/
def turn (o : Observer ω) (budget : Budget) (elapsed : Duration) (race : Race σ ω) (k : Nat) :
    Race σ ω :=
  ((race.nextAction? elapsed k).bind (race.act o budget)).getD race

/-- One action of every worker, in the order of their numbers. -/
def round (o : Observer ω) (budget : Budget) (elapsed : Duration) (race : Race σ ω) : Race σ ω :=
  (List.range race.workers.size).foldl (turn o budget elapsed) race

def isOver (race : Race σ ω) : Bool := race.workers.all (·.stage = .done)

/-- At most `n` rounds, fewer if the race is over before; `clock k` is the elapsed time at round
`k`. -/
def advance (o : Observer ω) (budget : Budget) (clock : Nat → Duration) :
    Nat → Race σ ω → Race σ ω
  | 0, race => race
  | n + 1, race =>
    if race.isOver then race
    else advance o budget (fun k => clock (k + 1)) n (race.round o budget (clock 0))

/-! ### The result -/

/-- The reports of the workers, once all runs have ended. -/
def reports? (race : Race σ ω) : Option (List Report) :=
  race.workers.toList.mapM (·.run.report)

/-- The sums of the counters of all workers. -/
def totals (reports : List Report) : Stats :=
  reports.foldl (fun t r => t.add r.stats) .zero

/-- The outcome if no worker has found a model. -/
def exhaustion (reports : List Report) : Outcome :=
  let iterations := reports.foldl (fun n r => max n r.outcome.iterations) 0
  let reason? := reports.findSome? fun r =>
    match r.outcome with
    | .exhausted _ .cancelled => none
    | .exhausted _ reason => some reason
    | .satisfied .. => none
  .exhausted iterations (reason?.getD .cancelled)

/-- The outcome of a race, by the number of the winner if there is one. -/
def outcomeOf (reports : List Report) (winner? : Option Nat) : Outcome :=
  match winner?.bind (reports[·]?) with
  | some r => r.outcome
  | none => exhaustion reports

/-- **The result of a race** that is over. -/
def verdict? (race : Race σ ω) (elapsed : Duration) : Option Report := do
  let reports ← race.reports?
  return ⟨outcomeOf reports race.channel.head?, totals reports, elapsed⟩

end Race

/-! ### Searching with several workers -/

/-- The result of a search with one or several workers: its report, the states of the observers, and
what the race itself has to say. -/
structure RaceReport (ω : Type) where
  report : Report
  watchers : List ω
  notes : Log

/-- What a race has to say about its winner. -/
def Race.winnerNotes (threads : Nat) : Option Nat → Log
  | none => []
  | some k =>
    [⟨.debug, "worker " ++ natText k ++ " found a model"⟩,
      ⟨.info, "model found by worker " ++ natText k ++ " of " ++ natText threads⟩]

/-- The result of a race that is over. -/
def Race.raceReport? (race : Race σ ω) (elapsed : Duration) : Option (RaceReport ω) := do
  let report ← race.verdict? elapsed
  return ⟨report, race.workers.toList.map (·.run.watcher),
    winnerNotes race.workers.size race.channel.head?⟩

/-- The result of a single run that has ended. -/
def Run.raceReport? (r : Run σ ω) : Option (RaceReport ω) :=
  r.report.map fun report => ⟨report, [r.watcher], []⟩

/-- The rounds in which every worker uses up the budget and has its say. -/
def Budget.rounds (b : Budget) : Nat := b.passes + 2

/-- A search by one worker alone, or a race of several. -/
inductive Contest (σ ω : Type) where
  | alone (run : Run σ ω)
  | several (race : Race σ ω)

namespace Contest

/-- The beginning of a contest of a number of workers.  One worker alone searches with the given
stream; several race, each with a fork of it. -/
def start (inst : Instance) (config : Config) (threads : Nat) (o : Observer ω) (s : σ) (w : ω) :
    Except Error (Contest σ ω) := do
  if threads = 0 then throw (.invalidConfig .noThreads)
  let engine ← Engine.ofConfig inst config
  if threads = 1 then return alone (.start o engine s w)
  else return several (.start o engine (RandomStream.forks threads s).1 w)

/-- One pass of the worker, or one round of the race. -/
def pass (o : Observer ω) (budget : Budget) (elapsed : Duration) : Contest σ ω → Contest σ ω
  | alone run => alone (run.pass o budget elapsed)
  | several race => several (race.round o budget elapsed)

/-- Whether all workers are done. -/
def isOver : Contest σ ω → Bool
  | alone run => run.report.isSome
  | several race => race.isOver

/-- As many passes as use up the budget; `clock k` is the elapsed time at pass `k`. -/
def advance (o : Observer ω) (budget : Budget) (clock : Nat → Duration) :
    Contest σ ω → Contest σ ω
  | alone run => alone (run.advance o budget clock budget.passes)
  | several race => several (race.advance o budget clock budget.rounds)

/-- The result of a contest that is over. -/
def report? (elapsed : Duration) : Contest σ ω → Option (RaceReport ω)
  | alone run => run.raceReport?
  | several race => race.raceReport? elapsed

end Contest

/-- **A search with a number of workers.** -/
def searchWith (inst : Instance) (config : Config) (threads : Nat) (o : Observer ω)
    (clock : Nat → Duration) (s : σ) (w : ω) : Except Error (Option (RaceReport ω)) := do
  let contest ← Contest.start inst config threads o s w
  return (contest.advance o config.budget clock).report? (clock config.budget.rounds)

end StochasticSat
