import StochasticSat.Search.Observer

/-!
# Runs

A run drives an engine until every clause is satisfied or its budget is used up.  `Run.pass` is one
pass through its loop.  A pass tests, in this order, whether the engine is satisfied, whether the
limit on flips is reached, and whether the limit on time is; then it either begins a new try or
performs one flip, after which the observer may cancel the run.

The clock of a run is a function: `clock k` is the time that has elapsed at pass `k`, counted from
0.  A run that has ended stays as it is, so `Run.advance` may be given any number of passes that is
large enough; `Budget.passes` is.  Since a run without a limit may go on for ever, the report of a
run is optional.
-/

namespace StochasticSat

variable {σ ω : Type} [RandomStream σ]

/-- A run of an engine, with the stream it draws from and the state of its observer. -/
structure Run (σ ω : Type) where
  engine : Engine
  stream : σ
  watcher : ω
  /-- The passes made so far. -/
  passes : Nat
  report : Option Report

namespace Run

/-- The beginning of a run: an engine without an assignment draws one. -/
def start (o : Observer ω) (e : Engine) (s : σ) (w : ω) : Run σ ω :=
  let (e, s) := e.ensureBegun s
  { engine := e
    stream := s
    watcher := o.onStart e.inst e.assignment w
    passes := 0
    report := none }

/-- Ends a run. -/
def finish (o : Observer ω) (elapsed : Duration) (outcome : Outcome) (r : Run σ ω) : Run σ ω :=
  let report : Report := ⟨outcome, r.engine.stats, elapsed⟩
  { r with watcher := o.onFinish report r.watcher, report := some report }

/-- Ends a run without a model. -/
def giveUp (o : Observer ω) (elapsed : Duration) (reason : StopReason) (r : Run σ ω) : Run σ ω :=
  r.finish o elapsed (.exhausted r.engine.iterations reason)

/-- Begins a new try. -/
def newTry (o : Observer ω) (r : Run σ ω) : Run σ ω :=
  let (e, s) := r.engine.restart r.stream
  { r with
    engine := e
    stream := s
    watcher := o.onRestart e.stats.restarts e.assignment r.watcher }

/-- Performs one flip. -/
def flipOnce (o : Observer ω) (elapsed : Duration) (r : Run σ ω) : Run σ ω :=
  match r.engine.step r.stream with
  | (none, e, s) => giveUp o elapsed .flipLimit { r with engine := e, stream := s }
  | (some f, e, s) =>
    match o.onFlip ⟨e.iterations, f, e.inst, e.assignment⟩ r.watcher with
    | (.proceed, w) => { r with engine := e, stream := s, watcher := w }
    | (.stop, w) =>
      giveUp o elapsed .cancelled { r with engine := e, stream := s, watcher := w }

/-- Begins a new try if one is due, and performs one flip otherwise. -/
def tryOrFlip (o : Observer ω) (elapsed : Duration) (r : Run σ ω) : Run σ ω :=
  match r.engine.restarter.due with
  | (true, c) => newTry o { r with engine := { r.engine with restarter := c } }
  | (false, c) => flipOnce o elapsed { r with engine := { r.engine with restarter := c } }

/-- The loop of a run, once through. -/
def loopBody (o : Observer ω) (budget : Budget) (elapsed : Duration) (r : Run σ ω) : Run σ ω :=
  if r.engine.phase = .satisfied then
    r.finish o elapsed (.satisfied r.engine.assignment r.engine.iterations)
  else if budget.flipsUsedUp r.engine.iterations then r.giveUp o elapsed .flipLimit
  else if budget.timeUsedUp elapsed then r.giveUp o elapsed .timeLimit
  else r.tryOrFlip o elapsed

/-- **One pass through the loop** of a run that has not ended. -/
def pass (o : Observer ω) (budget : Budget) (elapsed : Duration) (r : Run σ ω) : Run σ ω :=
  match r.report with
  | some _ => r
  | none => loopBody o budget elapsed { r with passes := r.passes + 1 }

/-- At most `n` passes, fewer if the run ends before. -/
def advance (o : Observer ω) (budget : Budget) (clock : Nat → Duration) :
    Nat → Run σ ω → Run σ ω
  | 0, r => r
  | n + 1, r =>
    if r.report.isSome then r
    else advance o budget clock n (r.pass o budget (clock r.passes))

end Run

/-- A run of an engine within a budget. -/
def Engine.run (e : Engine) (o : Observer ω) (budget : Budget) (clock : Nat → Duration) (s : σ)
    (w : ω) : Run σ ω :=
  (Run.start o e s w).advance o budget clock budget.passes

/-- **A search**: the run of the engine of a valid configuration. -/
def search (inst : Instance) (config : Config) (o : Observer ω) (clock : Nat → Duration) (s : σ)
    (w : ω) : Except Error (Run σ ω) := do
  let engine ← Engine.ofConfig inst config
  return engine.run o config.budget clock s w

end StochasticSat
