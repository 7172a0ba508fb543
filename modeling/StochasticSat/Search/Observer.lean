import StochasticSat.Search.Engine

/-!
# Observers

A search says nothing by itself; it tells an `Observer` when it starts, after every flip, after
every restart and when it ends.  An observer keeps a state of its own, and may stop the search after
a flip.

There are three observers: `Observer.silent`, `Observer.logging`, which writes the progress to a
log, and `Observer.recording`, which lets another observer decide and keeps all that it is told as a
list of `Event`s.
-/

namespace StochasticSat

open Decimal

/-- Why a search ended without a model. -/
inductive StopReason where
  | flipLimit
  | timeLimit
  | cancelled
deriving DecidableEq

/-- Why a search ended without a model, in words. -/
def StopReason.text : StopReason → String
  | .flipLimit => "flip limit reached"
  | .timeLimit => "time limit reached"
  | .cancelled => "cancelled"

/-- How a search ended. -/
inductive Outcome where
  /-- The assignment satisfies every clause. -/
  | satisfied (model : Assignment) (iterations : Nat)
  | exhausted (iterations : Nat) (reason : StopReason)
deriving DecidableEq

namespace Outcome

/-- Whether a model was found. -/
def isSatisfied : Outcome → Bool
  | satisfied .. => true
  | exhausted .. => false

/-- The number of flips of the search. -/
def iterations : Outcome → Nat
  | satisfied _ n => n
  | exhausted n _ => n

/-- The model, if one was found. -/
def model? : Outcome → Option Assignment
  | satisfied a _ => some a
  | exhausted .. => none

end Outcome

/-- The end of a search: how, after what, and when. -/
structure Report where
  outcome : Outcome
  stats : Stats
  elapsed : Duration
deriving DecidableEq

/-- What an observer is told about a flip: its number, counted from 1, and the assignment after
it. -/
structure FlipEvent where
  iteration : Nat
  flip : Flip
  inst : Instance
  assignment : Assignment

/-- The number of clauses that are not satisfied after a flip. -/
def FlipEvent.unsatisfied (e : FlipEvent) : Nat := e.inst.unsatisfiedCount e.assignment.value

/-- What a search is to do after a flip. -/
inductive Verdict where
  | proceed
  | stop
deriving DecidableEq

/-- A watcher of a search, with states in `ω`. -/
structure Observer (ω : Type) where
  onStart : Instance → Assignment → ω → ω
  onFlip : FlipEvent → ω → Verdict × ω
  onRestart : Nat → Assignment → ω → ω
  onFinish : Report → ω → ω

namespace Observer

variable {ω : Type}

/-- The observer that does nothing. -/
def silent : Observer Unit where
  onStart _ _ w := w
  onFlip _ w := (.proceed, w)
  onRestart _ _ w := w
  onFinish _ w := w

/-- The observer that does nothing but stop the search at a number of flips. -/
def stoppingAt (n : Nat) : Observer Unit :=
  { silent with onFlip := fun e w => (if n ≤ e.iteration then .stop else .proceed, w) }

/-- An observer that is asked nothing after flips while `stopped`; the search is then stopped. -/
def stoppedIf (stopped : Bool) (o : Observer ω) : Observer ω :=
  { o with onFlip := fun e w => if stopped then (.stop, w) else o.onFlip e w }

/-! ### Recording -/

end Observer

/-- What an observer is told. -/
inductive Event where
  | start (inst : Instance) (assignment : Assignment)
  | flip (event : FlipEvent)
  | restart (restarts : Nat) (assignment : Assignment)
  | finish (report : Report)

namespace Observer

variable {ω : Type}

/-- Another observer, with all that it is told in front of its state, in order. -/
def recording (o : Observer ω) : Observer (Array Event × ω) where
  onStart inst a w := (w.1.push (.start inst a), o.onStart inst a w.2)
  onFlip e w :=
    let (d, w') := o.onFlip e w.2
    (d, w.1.push (.flip e), w')
  onRestart n a w := (w.1.push (.restart n a), o.onRestart n a w.2)
  onFinish r w := (w.1.push (.finish r), o.onFinish r w.2)

/-! ### Logging -/

/-- What the log says at the start of a search. -/
def startRecord (inst : Instance) (a : Assignment) : Record :=
  ⟨.debug, "search started: " ++ natText (inst.unsatisfiedCount a.value) ++ " unsatisfied of " ++
    natText inst.numClauses ++ " clauses"⟩

/-- The name of a reason for a flip. -/
def kindName : FlipKind → String
  | .noise => "Noise"
  | .greedy => "Greedy"

/-- What the log says about a flip. -/
def flipRecord (e : FlipEvent) : Record :=
  ⟨.trace, "flip " ++ natText e.iteration ++ " (" ++ kindName e.flip.kind ++ " on " ++
    natText e.flip.index ++ "): " ++ natText e.unsatisfied ++ " unsatisfied clauses"⟩

/-- What the log says about a restart. -/
def restartRecord (n : Nat) : Record := ⟨.debug, "restart #" ++ natText n⟩

/-- What the log says at the end of a search. -/
def finishRecord (r : Report) : Record :=
  match r.outcome with
  | .satisfied _ n =>
    ⟨.debug, "satisfied after " ++ natText n ++ " iterations (" ++ r.elapsed.text ++ ")"⟩
  | .exhausted n reason =>
    ⟨.debug, "gave up after " ++ natText n ++ " iterations: " ++ reason.text⟩

/-- The observer that writes the records a threshold lets through; the texts of others are not
computed. -/
def logging (threshold : Option Level) : Observer (Array Record) where
  onStart inst a w := if admits .debug then w.push (startRecord inst a) else w
  onFlip e w := (.proceed, if admits .trace then w.push (flipRecord e) else w)
  onRestart n _ w := if admits .debug then w.push (restartRecord n) else w
  onFinish r w := if admits .debug then w.push (finishRecord r) else w
where
  /-- Whether the threshold lets records of a level through. -/
  admits (l : Level) : Bool := threshold.any (·.admits l)

end Observer

end StochasticSat
