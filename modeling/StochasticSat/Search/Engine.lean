import StochasticSat.Search.Config

/-!
# The engine

The state of one search: an assignment, the phase, the counters and the restarter.  An engine begins
in the phase `initializing`, without an assignment.  `Engine.begin` draws a random assignment
and clears the counters, `Engine.restart` draws one and keeps them, and `Engine.step` performs one
flip, by noise or as the strategy proposes.  The phase is `satisfied` as soon as the assignment
satisfies every clause; a step then does nothing.

The engine draws its assignments itself, with a slot for every index of its instance, so it reads
them as valuations.
-/

namespace StochasticSat

variable {σ : Type} [RandomStream σ]

/-- Where a search stands. -/
inductive Phase where
  | initializing
  | searching
  | satisfied
deriving DecidableEq

/-- Why an index was flipped. -/
inductive FlipKind where
  /-- Drawn among all indices. -/
  | noise
  /-- Proposed by the strategy. -/
  | greedy
deriving DecidableEq

structure Flip where
  index : Nat
  kind : FlipKind
deriving DecidableEq

/-- What a search counts. -/
structure Stats where
  flips : Nat
  noiseFlips : Nat
  greedyFlips : Nat
  restarts : Nat
deriving DecidableEq, Inhabited

namespace Stats

def zero : Stats := ⟨0, 0, 0, 0⟩

/-- The counters after one more flip. -/
def afterFlip (t : Stats) : FlipKind → Stats
  | .noise => { t with flips := t.flips + 1, noiseFlips := t.noiseFlips + 1 }
  | .greedy => { t with flips := t.flips + 1, greedyFlips := t.greedyFlips + 1 }

/-- The counters after one more restart. -/
def afterRestart (t : Stats) : Stats := { t with restarts := t.restarts + 1 }

/-- The sums of the counters of two searches. -/
def add (t u : Stats) : Stats :=
  ⟨t.flips + u.flips, t.noiseFlips + u.noiseFlips, t.greedyFlips + u.greedyFlips,
    t.restarts + u.restarts⟩

end Stats

/-- One search over an instance. -/
structure Engine where
  inst : Instance
  strategy : Strategy
  noise : Noise
  restarter : Restarter
  assignment : Assignment
  phase : Phase
  iterations : Nat
  stats : Stats

namespace Engine

/-- An engine that has not drawn anything yet. -/
def new (inst : Instance) (strategy : Strategy) (schedule : Schedule) (noise : Noise) : Engine :=
  { inst := inst
    strategy := strategy
    noise := noise
    restarter := .start schedule
    assignment := .empty
    phase := .initializing
    iterations := 0
    stats := .zero }

def ofConfig (inst : Instance) (config : Config) : Except Error Engine := do
  let noise ← config.validate
  return new inst config.strategy config.schedule noise

def phaseOf (inst : Instance) (a : Assignment) : Phase :=
  if inst.allSatisfied a.value then .satisfied else .searching

/-- The engine with a fresh random assignment. -/
def draw (e : Engine) (s : σ) : Engine × σ :=
  let (a, s) := Assignment.random e.inst.numVars s
  ({ e with assignment := a, phase := phaseOf e.inst a }, s)

/-- A fresh random assignment and cleared counters. -/
def begin (e : Engine) (s : σ) : Engine × σ :=
  draw { e with iterations := 0, stats := .zero } s

/-- A fresh random assignment; the counters go on. -/
def restart (e : Engine) (s : σ) : Engine × σ := draw { e with stats := e.stats.afterRestart } s

/-- Begins with an engine that has no assignment yet. -/
def ensureBegun (e : Engine) (s : σ) : Engine × σ :=
  if e.phase = .initializing then e.begin s else (e, s)

/-- The index to flip next and the reason for it. -/
def propose (e : Engine) (s : σ) : Option Flip × σ :=
  match e.noise.isWalk s with
  | (true, s) =>
    let (i, s) := Noise.randomIndex e.inst s
    (i.map (⟨·, .noise⟩), s)
  | (false, s) =>
    let (i, s) := e.strategy.pick e.inst e.assignment.value s
    (i.map (⟨·, .greedy⟩), s)

def apply (e : Engine) (f : Flip) : Engine :=
  let a := e.assignment.flip f.index
  { e with
    assignment := a
    iterations := e.iterations + 1
    stats := e.stats.afterFlip f.kind
    phase := if e.inst.allSatisfied a.value then .satisfied else e.phase }

/-- One flip of an engine that has an assignment; none once every clause is satisfied. -/
def stepBegun (e : Engine) (s : σ) : Option Flip × Engine × σ :=
  if e.phase = .satisfied then (none, e, s)
  else
    match e.propose s with
    | (none, s) => (none, e, s)
    | (some f, s) => (some f, e.apply f, s)

/-- **One flip**, after a beginning if need be; none once every clause is satisfied. -/
def step (e : Engine) (s : σ) : Option Flip × Engine × σ :=
  let (e, s) := e.ensureBegun s
  e.stepBegun s

end Engine

end StochasticSat
