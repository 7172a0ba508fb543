import StochasticSat.Proofs.Search.States
import StochasticSat.Search.Run

/-!
# What a pass can do

`Passed` says once what one pass through the loop of a run can do, together with what the observer
is told: the run ends (`Ends`), a new try begins, or a flip is performed, after which the observer
may cancel.  Every pass is of this kind (`pass_passed`), and a recording observer notes just these
events without changing anything else.

`Course` strings passes together.  What holds of a run however long it gets is shown by induction on
its course; `Course.advance` says that the loop follows one, and `Engine.told` is the row of events
that belongs to it.
-/

namespace StochasticSat

variable {σ ω : Type} [RandomStream σ]

/-! ### Recorded runs -/

/-- A run whose observer also keeps a row of events. -/
def Run.withLog (r : Run σ ω) (log : List Event) : Run σ (Array Event × ω) :=
  ⟨r.engine, r.stream, (log.toArray, r.watcher), r.passes, r.report⟩

theorem Run.start_recording (o : Observer ω) (e : Engine) (s : σ) (w : ω) :
    Run.start o.recording e s (#[], w) =
      (Run.start o e s w).withLog
        [.start (e.ensureBegun s).1.inst (e.ensureBegun s).1.assignment] := rfl

/-! ### One pass -/

/-- The engine that has counted a flip against the current try. -/
def Engine.counted (e : Engine) : Engine := { e with restarter := e.restarter.count }

/-- The engine that has begun to count down the next try. -/
def Engine.rearmed (e : Engine) : Engine := { e with restarter := e.restarter.restart }

section Frame
variable (e : Engine)

@[simp] theorem Engine.counted_restarter : e.counted.restarter = e.restarter.count := rfl
@[simp] theorem Engine.counted_iterations : e.counted.iterations = e.iterations := rfl
@[simp] theorem Engine.counted_stats : e.counted.stats = e.stats := rfl

@[simp] theorem Engine.rearmed_restarter : e.rearmed.restarter = e.restarter.restart := rfl
@[simp] theorem Engine.rearmed_iterations : e.rearmed.iterations = e.iterations := rfl
@[simp] theorem Engine.rearmed_stats : e.rearmed.stats = e.stats := rfl

end Frame

/-- What the observer is told about a flip. -/
def Engine.flipEvent (e : Engine) (f : Flip) : FlipEvent :=
  ⟨e.iterations + 1, f, e.inst, (e.apply f).assignment⟩

/-- The outcome of a run that ends before it does anything else. -/
inductive Ends (budget : Budget) (elapsed : Duration) (e : Engine) : Outcome → Prop
  | satisfied (h : e.phase = .satisfied) :
    Ends budget elapsed e (.satisfied e.assignment e.iterations)
  | flipLimit (h : e.phase ≠ .satisfied) (hf : budget.flipsUsedUp e.iterations = true) :
    Ends budget elapsed e (.exhausted e.iterations .flipLimit)
  | timeLimit (h : e.phase ≠ .satisfied) (hf : budget.flipsUsedUp e.iterations = false)
    (ht : budget.timeUsedUp elapsed = true) :
    Ends budget elapsed e (.exhausted e.iterations .timeLimit)

/-- A run does not end before it does something else. -/
structure GoesOn (budget : Budget) (elapsed : Duration) (e : Engine) : Prop where
  unsatisfied : e.phase ≠ .satisfied
  flipsLeft : budget.flipsUsedUp e.iterations = false
  timeLeft : budget.timeUsedUp elapsed = false

theorem ends_or_goesOn (budget : Budget) (elapsed : Duration) (e : Engine) :
    (∃ outcome, Ends budget elapsed e outcome) ∨ GoesOn budget elapsed e := by
  by_cases h1 : e.phase = .satisfied
  · exact Or.inl ⟨_, .satisfied h1⟩
  by_cases h2 : budget.flipsUsedUp e.iterations = true
  · exact Or.inl ⟨_, .flipLimit h1 h2⟩
  rw [Bool.not_eq_true] at h2
  by_cases h3 : budget.timeUsedUp elapsed = true
  · exact Or.inl ⟨_, .timeLimit h1 h2 h3⟩
  · exact Or.inr ⟨h1, h2, by simpa using h3⟩

section Ending
variable {budget : Budget} {elapsed : Duration} {e : Engine} {outcome : Outcome}
  (h : Ends budget elapsed e outcome)
include h

theorem Ends.isSatisfied_iff : outcome.isSatisfied = true ↔ e.phase = .satisfied := by
  cases h with
  | satisfied h => exact iff_of_true rfl h
  | flipLimit h hf => exact iff_of_false (by simp [Outcome.isSatisfied]) h
  | timeLimit h hf ht => exact iff_of_false (by simp [Outcome.isSatisfied]) h

theorem Ends.iterations : outcome.iterations = e.iterations := by
  cases h with
  | satisfied h => rfl
  | flipLimit h hf => rfl
  | timeLimit h hf ht => rfl

/-- Only the observer cancels a run. -/
theorem Ends.ne_cancelled (i : Nat) : outcome ≠ .exhausted i .cancelled := by
  rintro rfl
  cases h

end Ending

namespace Run

/-- A run that has entered its next pass. -/
def entered (r : Run σ ω) : Run σ ω := { r with passes := r.passes + 1 }

/-- A run that has counted a flip against the current try. -/
def counted (r : Run σ ω) : Run σ ω := { r with engine := r.engine.counted }

/-- A run that has begun to count down the next try. -/
def rearmed (r : Run σ ω) : Run σ ω := { r with engine := r.engine.rearmed }

/-- A run after a flip, with the stream and the state of the observer to go on with. -/
def flipped (r : Run σ ω) (f : Flip) (s : σ) (w : ω) : Run σ ω :=
  { r.entered.counted with engine := r.engine.counted.apply f, stream := s, watcher := w }

/-- A run after the beginning of a new try. -/
def retried (o : Observer ω) (r : Run σ ω) : Run σ ω :=
  newTry o r.entered.rearmed

/-- A run in which nothing is left to flip. -/
def stalled (r : Run σ ω) (s : σ) : Run σ ω :=
  { r.entered.counted with stream := s }

end Run

/-- **What one pass makes of a run that has not ended**, and what the observer is told. -/
inductive Passed (o : Observer ω) (budget : Budget) (elapsed : Duration) (r : Run σ ω) :
    List Event → Run σ ω → Prop
  | ended {outcome : Outcome} (h : Ends budget elapsed r.engine outcome) :
    Passed o budget elapsed r [.finish ⟨outcome, r.engine.stats, elapsed⟩]
      (r.entered.finish o elapsed outcome)
  | retried (h : GoesOn budget elapsed r.engine) (hd : r.engine.restarter.remaining = 0) :
    Passed o budget elapsed r
      [.restart (r.engine.stats.restarts + 1) (r.engine.rearmed.restart r.stream).1.assignment]
      (r.retried o)
  | stalled {s : σ} (h : GoesOn budget elapsed r.engine) (hd : r.engine.restarter.remaining ≠ 0)
    (hp : r.engine.propose r.stream = (none, s)) :
    Passed o budget elapsed r
      [.finish ⟨.exhausted r.engine.iterations .flipLimit, r.engine.stats, elapsed⟩]
      ((r.stalled s).giveUp o elapsed .flipLimit)
  | flipped {f : Flip} {s : σ} {w : ω} (h : GoesOn budget elapsed r.engine)
    (hd : r.engine.restarter.remaining ≠ 0) (hp : r.engine.propose r.stream = (some f, s))
    (hw : o.onFlip (r.engine.flipEvent f) r.watcher = (.proceed, w)) :
    Passed o budget elapsed r [.flip (r.engine.flipEvent f)] (r.flipped f s w)
  | cancelled {f : Flip} {s : σ} {w : ω} (h : GoesOn budget elapsed r.engine)
    (hd : r.engine.restarter.remaining ≠ 0) (hp : r.engine.propose r.stream = (some f, s))
    (hw : o.onFlip (r.engine.flipEvent f) r.watcher = (.stop, w)) :
    Passed o budget elapsed r
      [.flip (r.engine.flipEvent f),
        .finish ⟨.exhausted (r.engine.iterations + 1) .cancelled, r.engine.stats.afterFlip f.kind,
          elapsed⟩]
      ((r.flipped f s w).giveUp o elapsed .cancelled)

variable {o : Observer ω} {budget : Budget} {elapsed : Duration} {r : Run σ ω}

theorem Run.pass_of_running (hr : r.report = none) :
    r.pass o budget elapsed = r.entered.loopBody o budget elapsed := by
  unfold pass
  split
  · next h => rw [hr] at h; simp at h
  · rfl

theorem Ends.loopBody_eq {outcome : Outcome} (h : Ends budget elapsed r.engine outcome) :
    r.loopBody o budget elapsed = r.finish o elapsed outcome := by
  unfold Run.loopBody
  cases h with
  | satisfied h => rw [if_pos h]
  | flipLimit h hf => rw [if_neg h, if_pos hf]; rfl
  | timeLimit h hf ht => rw [if_neg h, if_neg (by simp [hf]), if_pos ht]; rfl

theorem GoesOn.loopBody_eq (h : GoesOn budget elapsed r.engine) :
    r.loopBody o budget elapsed = r.tryOrFlip o elapsed := by
  unfold Run.loopBody
  rw [if_neg h.unsatisfied, if_neg (by simp [h.flipsLeft]), if_neg (by simp [h.timeLeft])]

theorem Run.tryOrFlip_of_due (hd : r.engine.restarter.remaining = 0) :
    r.tryOrFlip o elapsed = newTry o r.rearmed := by
  unfold tryOrFlip Restarter.due
  rw [if_pos hd]
  rfl

theorem Run.tryOrFlip_of_not_due (hd : r.engine.restarter.remaining ≠ 0) :
    r.tryOrFlip o elapsed = flipOnce o elapsed r.counted := by
  unfold tryOrFlip Restarter.due
  rw [if_neg hd]
  rfl

section Flips
variable {e : Engine} {f : Flip} {s : σ} {w : ω}

theorem Run.flipOnce_of_no_flip (hstep : r.engine.step r.stream = (none, e, s)) :
    r.flipOnce o elapsed = giveUp o elapsed .flipLimit { r with engine := e, stream := s } := by
  unfold flipOnce
  rw [hstep]

theorem Run.flipOnce_of_flip_kept (hstep : r.engine.step r.stream = (some f, e, s))
    (hw : o.onFlip ⟨e.iterations, f, e.inst, e.assignment⟩ r.watcher = (.proceed, w)) :
    r.flipOnce o elapsed = { r with engine := e, stream := s, watcher := w } := by
  unfold flipOnce
  rw [hstep]
  simp only [hw]

theorem Run.flipOnce_of_flip_last (hstep : r.engine.step r.stream = (some f, e, s))
    (hw : o.onFlip ⟨e.iterations, f, e.inst, e.assignment⟩ r.watcher = (.stop, w)) :
    r.flipOnce o elapsed =
      giveUp o elapsed .cancelled { r with engine := e, stream := s, watcher := w } := by
  unfold flipOnce
  rw [hstep]
  simp only [hw]

variable (hb : r.engine.phase ≠ .initializing) (hs : r.engine.phase ≠ .satisfied)
include hb hs

theorem Run.flipOnce_of_none (hp : r.engine.propose r.stream = (none, s)) :
    r.flipOnce o elapsed = giveUp o elapsed .flipLimit { r with stream := s } :=
  flipOnce_of_no_flip (Engine.step_of_propose_none hb hs hp)

theorem Run.flipOnce_of_proceed (hp : r.engine.propose r.stream = (some f, s))
    (hw : o.onFlip (r.engine.flipEvent f) r.watcher = (.proceed, w)) :
    r.flipOnce o elapsed = { r with engine := r.engine.apply f, stream := s, watcher := w } :=
  flipOnce_of_flip_kept (Engine.step_of_propose_some hb hs hp) hw

theorem Run.flipOnce_of_stop (hp : r.engine.propose r.stream = (some f, s))
    (hw : o.onFlip (r.engine.flipEvent f) r.watcher = (.stop, w)) :
    r.flipOnce o elapsed = giveUp o elapsed .cancelled
      { r with engine := r.engine.apply f, stream := s, watcher := w } :=
  flipOnce_of_flip_last (Engine.step_of_propose_some hb hs hp) hw

end Flips

/-! ### Recording a pass -/

omit [RandomStream σ] in
theorem Run.finish_withLog (r : Run σ ω) (log : List Event) (outcome : Outcome) :
    (r.withLog log).finish o.recording elapsed outcome =
      (r.finish o elapsed outcome).withLog
        (log ++ [.finish ⟨outcome, r.engine.stats, elapsed⟩]) := by
  simp [withLog, finish, Observer.recording]

theorem Run.newTry_withLog (r : Run σ ω) (log : List Event) :
    newTry o.recording (r.withLog log) = (newTry o r).withLog
      (log ++ [.restart (newTry o r).engine.stats.restarts (newTry o r).engine.assignment]) := by
  simp [withLog, newTry, Observer.recording]

omit [RandomStream σ] in
theorem Observer.recording_onFlip {e : FlipEvent} {w w' : ω} {d : Verdict}
    (h : o.onFlip e w = (d, w')) (log : List Event) :
    o.recording.onFlip e (log.toArray, w) = (d, (log ++ [Event.flip e]).toArray, w') := by
  simp [recording, h]

/-- **Every pass is one of these**, and recording it adds the events and changes nothing else. -/
theorem pass_passed (hb : r.engine.phase ≠ .initializing) (hr : r.report = none) :
    ∃ new, Passed o budget elapsed r new (r.pass o budget elapsed) ∧
      ∀ log, (r.withLog log).pass o.recording budget elapsed =
        (r.pass o budget elapsed).withLog (log ++ new) := by
  have hrecord : ∀ log, (r.withLog log).pass o.recording budget elapsed =
      (r.entered.withLog log).loopBody o.recording budget elapsed := fun log =>
    Run.pass_of_running (r := r.withLog log) hr
  simp only [Run.pass_of_running hr, hrecord]
  rcases ends_or_goesOn budget elapsed r.engine with ⟨outcome, h⟩ | h
  · rw [Ends.loopBody_eq (r := r.entered) h]
    refine ⟨_, .ended h, fun log => ?_⟩
    rw [Ends.loopBody_eq (r := r.entered.withLog log) h]
    exact Run.finish_withLog r.entered log outcome
  rw [GoesOn.loopBody_eq (r := r.entered) h]
  have hloop : ∀ log, (r.entered.withLog log).loopBody o.recording budget elapsed =
      (r.entered.withLog log).tryOrFlip o.recording elapsed := fun log =>
    GoesOn.loopBody_eq (r := r.entered.withLog log) h
  simp only [hloop]
  by_cases hd : r.engine.restarter.remaining = 0
  · rw [Run.tryOrFlip_of_due (r := r.entered) hd]
    refine ⟨_, .retried h hd, fun log => ?_⟩
    rw [Run.tryOrFlip_of_due (r := r.entered.withLog log) hd]
    exact Run.newTry_withLog r.entered.rearmed log
  rw [Run.tryOrFlip_of_not_due (r := r.entered) hd]
  have htry : ∀ log, (r.entered.withLog log).tryOrFlip o.recording elapsed =
      Run.flipOnce o.recording elapsed (r.entered.counted.withLog log) :=
    fun log => Run.tryOrFlip_of_not_due (r := r.entered.withLog log) hd
  simp only [htry]
  rcases hp : r.engine.propose r.stream with ⟨_ | f, s⟩
  · rw [Run.flipOnce_of_none (r := r.entered.counted) hb h.unsatisfied hp]
    refine ⟨_, .stalled h hd hp, fun log => ?_⟩
    rw [Run.flipOnce_of_none (r := r.entered.counted.withLog log) hb h.unsatisfied hp]
    exact Run.finish_withLog (r.stalled s) log _
  rcases hw : o.onFlip (r.engine.flipEvent f) r.watcher with ⟨_ | _, w⟩
  · rw [Run.flipOnce_of_proceed (r := r.entered.counted) hb h.unsatisfied hp hw]
    refine ⟨_, .flipped h hd hp hw, fun log => ?_⟩
    rw [Run.flipOnce_of_proceed (r := r.entered.counted.withLog log) hb h.unsatisfied hp
      (Observer.recording_onFlip hw log)]
    rfl
  · rw [Run.flipOnce_of_stop (r := r.entered.counted) hb h.unsatisfied hp hw]
    refine ⟨_, .cancelled h hd hp hw, fun log => ?_⟩
    rw [Run.flipOnce_of_stop (r := r.entered.counted.withLog log) hb h.unsatisfied hp
      (Observer.recording_onFlip hw log)]
    refine (Run.finish_withLog (r.flipped f s w) (log ++ [.flip (r.engine.flipEvent f)]) _).trans ?_
    rw [List.append_assoc]
    rfl

/-! ### The course of a run -/

theorem Engine.Steady.counted {e : Engine} (h : e.Steady) : e.counted.Steady :=
  ⟨h.begun, h.size_slots, h.satisfied_iff⟩

theorem Passed.steady {new : List Event} {r' : Run σ ω} (h : Passed o budget elapsed r new r')
    (hs : r.engine.Steady) : r'.engine.Steady ∧ r'.engine.inst = r.engine.inst := by
  cases h with
  | ended h => exact ⟨hs, rfl⟩
  | retried h hd => exact ⟨.restart _ _, rfl⟩
  | stalled h hd hp => exact ⟨hs.counted, rfl⟩
  | flipped h hd hp hw => exact ⟨hs.counted.apply h.unsatisfied _, rfl⟩
  | cancelled h hd hp hw => exact ⟨hs.counted.apply h.unsatisfied _, rfl⟩

/-- The runs that a number of passes can lead to, each at any time, with the events on the way. -/
inductive Course (o : Observer ω) (budget : Budget) (r : Run σ ω) : List Event → Run σ ω → Prop
  | start : Course o budget r [] r
  | pass {past new : List Event} {r₁ r₂ : Run σ ω} {elapsed : Duration}
    (h : Course o budget r past r₁) (hr : r₁.report = none)
    (hp : Passed o budget elapsed r₁ new r₂) : Course o budget r (past ++ new) r₂

variable {past : List Event} {r₁ : Run σ ω}

theorem Course.steady (h : Course o budget r past r₁) (hs : r.engine.Steady) :
    r₁.engine.Steady ∧ r₁.engine.inst = r.engine.inst := by
  induction h with
  | start => exact ⟨hs, rfl⟩
  | pass _ _ hp ih =>
    obtain ⟨h1, h2⟩ := hp.steady ih.1
    exact ⟨h1, h2.trans ih.2⟩

/-- **The loop follows a course**, and a recording observer notes its events. -/
theorem Course.advance (h : Course o budget r past r₁) (hs : r.engine.Steady)
    (clock : Nat → Duration) (n : Nat) :
    ∃ new, Course o budget r (past ++ new) (r₁.advance o budget clock n) ∧
      ∀ log, (r₁.withLog log).advance o.recording budget clock n =
        (r₁.advance o budget clock n).withLog (log ++ new) := by
  induction n generalizing past r₁ with
  | zero => exact ⟨[], by simpa [Run.advance] using h, fun log => by simp [Run.advance]⟩
  | succ n ih =>
    unfold Run.advance
    cases hr : r₁.report with
    | some report =>
      refine ⟨[], by simpa using h, fun log => ?_⟩
      simp [Run.withLog, hr]
    | none =>
      obtain ⟨new, hp, hlog⟩ :=
        @pass_passed σ ω _ o budget (clock r₁.passes) r₁ (h.steady hs).1.begun hr
      obtain ⟨later, hc, hlater⟩ := ih (h.pass hr hp)
      refine ⟨new ++ later, by simpa using hc, fun log => ?_⟩
      rw [if_neg (by simp [Run.withLog, hr])]
      refine (congrArg _ (hlog log)).trans ?_
      rw [hlater, List.append_assoc]
      rfl

/-- What the observer of a run is told in the first `n` passes of an engine. -/
def Engine.told (e : Engine) (o : Observer ω) (budget : Budget) (clock : Nat → Duration) (n : Nat)
    (s : σ) (w : ω) : List Event :=
  ((Run.start o.recording e s (#[], w)).advance o.recording budget clock n).watcher.1.toList

/-- What is told begins with the start and goes on with the events of a course. -/
theorem Engine.told_eq {e : Engine} (h : e.phase = .initializing ∨ e.Steady) (o : Observer ω)
    (budget : Budget) (clock : Nat → Duration) (n : Nat) (s : σ) (w : ω) :
    ∃ past, Course o budget (Run.start o e s w) past
        ((Run.start o e s w).advance o budget clock n) ∧
      e.told o budget clock n s w =
        .start e.inst (e.ensureBegun s).1.assignment :: past := by
  obtain ⟨hs, hi⟩ := steady_ensureBegun h s
  obtain ⟨past, hc, hlog⟩ :=
    Course.advance (@Course.start σ ω _ o budget (Run.start o e s w)) hs clock n
  refine ⟨past, by simpa using hc, ?_⟩
  unfold told
  rw [Run.start_recording, hlog, hi]
  simp [Run.withLog]

end StochasticSat
