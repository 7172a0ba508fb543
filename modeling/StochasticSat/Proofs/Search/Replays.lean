import StochasticSat.Proofs.Search.Trails

/-!
# What an observer goes through

The state of an observer in a run is a replay of what it was told (`Engine.watcher_runFor`).  So it
can be said of the events of a run whether the observer asks to stop at one of the flips
(`Observer.Breaks`).  It does so exactly if the run is cancelled (`Engine.breaks_told_iff`), and
that flip is then the last event but one (`Engine.finish_of_stopsAt`).
-/

namespace StochasticSat

variable {σ ω : Type} [RandomStream σ]

/-- An element of two rows is in the first or in the second. -/
theorem split_append {α : Type} {xs ys pre post : List α} {x : α}
    (h : xs ++ ys = pre ++ x :: post) :
    (∃ mid, xs = pre ++ x :: mid ∧ post = mid ++ ys) ∨
      ∃ mid, pre = xs ++ mid ∧ ys = mid ++ x :: post := by
  rcases List.append_eq_append_iff.mp h with ⟨mid, hpre, hys⟩ | ⟨mid, hxs, hpost⟩
  · exact Or.inr ⟨mid, hpre, hys⟩
  · cases mid with
    | nil => exact Or.inr ⟨[], by simpa using hxs.symm, hpost.symm⟩
    | cons y mid =>
      rw [List.cons_append] at hpost
      obtain ⟨rfl, rfl⟩ := List.cons_eq_cons.mp hpost
      exact Or.inl ⟨mid, hxs, rfl⟩

/-! ### Replays -/

namespace Observer

variable (o : Observer ω)

/-- The state of an observer after it is told an event. -/
def hear (w : ω) : Event → ω
  | .start inst a => o.onStart inst a w
  | .flip f => (o.onFlip f w).2
  | .restart k a => o.onRestart k a w
  | .finish report => o.onFinish report w

/-- The state of an observer after it is told a row of events. -/
def replay (w : ω) (events : List Event) : ω := events.foldl o.hear w

/-- The observer asks to stop at a flip after the given events. -/
def StopsAt (w : ω) (past : List Event) (f : FlipEvent) : Prop :=
  (o.onFlip f (o.replay w past)).1 = .stop

/-- **The observer asks to stop** at one of the flips among the events. -/
def Breaks (w : ω) (events : List Event) : Prop :=
  ∃ pre f post, events = pre ++ .flip f :: post ∧ o.StopsAt w pre f

variable {o} {w : ω}

theorem replay_append (xs ys : List Event) :
    o.replay w (xs ++ ys) = o.replay (o.replay w xs) ys := List.foldl_append

theorem breaks_append {xs ys : List Event} :
    o.Breaks w (xs ++ ys) ↔ o.Breaks w xs ∨ o.Breaks (o.replay w xs) ys := by
  constructor
  · rintro ⟨pre, f, post, hsplit, hs⟩
    rcases split_append hsplit with ⟨mid, rfl, -⟩ | ⟨mid, rfl, rfl⟩
    · exact Or.inl ⟨pre, f, mid, rfl, hs⟩
    · rw [StopsAt, replay_append] at hs
      exact Or.inr ⟨mid, f, post, rfl, hs⟩
  · rintro (⟨pre, f, post, rfl, hs⟩ | ⟨pre, f, post, rfl, hs⟩)
    · exact ⟨pre, f, post ++ ys, by simp, hs⟩
    · refine ⟨xs ++ pre, f, post, by simp, ?_⟩
      rw [StopsAt, replay_append]
      exact hs

theorem breaks_flip {f : FlipEvent} {events : List Event} :
    o.Breaks w (.flip f :: events) ↔
      (o.onFlip f w).1 = .stop ∨ o.Breaks (o.onFlip f w).2 events := by
  rw [← List.singleton_append, breaks_append]
  refine or_congr ⟨?_, fun hs => ⟨[], f, [], rfl, hs⟩⟩ Iff.rfl
  rintro ⟨pre, f', post, hsplit, hs⟩
  cases pre with
  | nil =>
    cases hsplit
    exact hs
  | cons event pre => simp at hsplit

/-- Nothing but a flip is a reason to stop. -/
theorem not_breaks_singleton {event : Event} (h : event.isFlip = false) : ¬ o.Breaks w [event] := by
  rintro ⟨pre, f, post, hsplit, -⟩
  have hmem : Event.flip f ∈ [event] := by
    rw [hsplit]
    exact List.mem_append_right _ List.mem_cons_self
  rw [← List.mem_singleton.mp hmem] at h
  cases h

theorem not_breaks_silent (events : List Event) : ¬ silent.Breaks () events := by
  rintro ⟨pre, f, post, -, hs⟩
  cases hs

end Observer

/-! ### Passes -/

/-- The observer has cancelled the run. -/
def Run.Cancelled (r : Run σ ω) : Prop :=
  ∃ report i, r.report = some report ∧ report.outcome = .exhausted i .cancelled

omit [RandomStream σ] in
theorem Run.not_cancelled_of_running {r : Run σ ω} (hr : r.report = none) : ¬ r.Cancelled := by
  rintro ⟨report, i, hreport, -⟩
  rw [hr] at hreport
  cases hreport

section Passes
variable {o : Observer ω} {budget : Budget} {elapsed : Duration} {new : List Event}
  {r r₁ : Run σ ω}

theorem Passed.watcher (hp : Passed o budget elapsed r new r₁) :
    r₁.watcher = o.replay r.watcher new := by
  have hflip {f : Flip} {d : Verdict} {w : ω}
      (hw : o.onFlip (r.engine.flipEvent f) r.watcher = (d, w)) :
      w = o.replay r.watcher [.flip (r.engine.flipEvent f)] := (congrArg Prod.snd hw).symm
  cases hp with
  | ended h => rfl
  | retried h hd => rfl
  | stalled h hd hp => rfl
  | flipped h hd hp hw => exact hflip hw
  | cancelled h hd hp hw => exact congrArg (o.onFinish _) (hflip hw)

/-- A pass cancels the run exactly if the observer asks to stop at what it is told. -/
theorem Passed.breaks_iff (hp : Passed o budget elapsed r new r₁) (hr : r.report = none) :
    o.Breaks r.watcher new ↔ r₁.Cancelled := by
  have hsilent {event : Event} (he : event.isFlip = false) (hc : ¬ r₁.Cancelled) :
      o.Breaks r.watcher [event] ↔ r₁.Cancelled :=
    iff_of_false (Observer.not_breaks_singleton he) hc
  cases hp with
  | ended h =>
    refine hsilent rfl ?_
    rintro ⟨report, i, hreport, ho⟩
    cases hreport
    exact h.ne_cancelled i ho
  | retried h hd =>
    exact hsilent rfl (Run.not_cancelled_of_running hr)
  | stalled h hd hp =>
    refine hsilent rfl ?_
    rintro ⟨report, i, hreport, ho⟩
    cases hreport
    cases ho
  | flipped h hd hp hw =>
    refine iff_of_false ?_ (Run.not_cancelled_of_running hr)
    rw [Observer.breaks_flip, hw]
    rintro (hs | ⟨pre, f', post, hsplit, -⟩)
    · cases hs
    · simp at hsplit
  | cancelled h hd hp hw =>
    refine iff_of_true ?_ ⟨_, _, rfl, rfl⟩
    rw [Observer.breaks_flip, hw]
    exact Or.inl rfl

end Passes

/-! ### Runs -/

namespace Engine

variable {e : Engine} (h : e.phase = .initializing ∨ e.Steady) (o : Observer ω) (budget : Budget)
  (clock : Nat → Duration) (s : σ) (w : ω)
include h

/-- **The state of the observer is a replay** of what it was told. -/
theorem watcher_runFor (n : Nat) :
    (e.runFor o budget clock n s w).watcher = o.replay w (e.told o budget clock n s w) := by
  induction n with
  | zero =>
    rw [told_zero h, ← (steady_ensureBegun h s).2]
    rfl
  | succ n ih =>
    cases hr : (e.runFor o budget clock n s w).report with
    | none =>
      obtain ⟨new, elapsed, hp, -, htold⟩ := exists_passed h o budget clock s w hr
      rw [hp.watcher, ih, htold, Observer.replay_append]
    | some report =>
      rw [runFor_of_ended (Nat.le_succ n) hr, told_of_ended h o budget clock s w (Nat.le_succ n) hr,
        ih]

/-- **A run is cancelled exactly if the observer asks to stop** at one of its flips. -/
theorem breaks_told_iff (n : Nat) :
    o.Breaks w (e.told o budget clock n s w) ↔ (e.runFor o budget clock n s w).Cancelled := by
  induction n with
  | zero =>
    rw [told_zero h]
    exact iff_of_false (Observer.not_breaks_singleton rfl) (Run.not_cancelled_of_running rfl)
  | succ n ih =>
    cases hr : (e.runFor o budget clock n s w).report with
    | none =>
      obtain ⟨new, elapsed, hp, -, htold⟩ := exists_passed h o budget clock s w hr
      have hnot : ¬ o.Breaks w (e.told o budget clock n s w) := by
        rw [ih]
        exact Run.not_cancelled_of_running hr
      rw [htold, Observer.breaks_append, or_iff_right hnot, ← watcher_runFor h]
      exact hp.breaks_iff hr
    | some report =>
      rw [runFor_of_ended (Nat.le_succ n) hr, told_of_ended h o budget clock s w (Nat.le_succ n) hr]
      exact ih

/-- The flip at which the observer asks to stop is the last one. -/
theorem finish_of_stopsAt {n : Nat} {pre post : List Event} {f : FlipEvent}
    (hsplit : e.told o budget clock n s w = pre ++ .flip f :: post) (hs : o.StopsAt w pre f) :
    ∃ report, post = [.finish report] := by
  have hb : o.Breaks w (e.told o budget clock n s w) := ⟨pre, f, post, hsplit, hs⟩
  obtain ⟨report, i, hr, ho⟩ := (breaks_told_iff h o budget clock s w n).mp hb
  obtain ⟨j, new, elapsed, hj, -, -, -, hp, htold⟩ := exists_end h o budget clock s w hr
  -- The observer has not asked to stop before the last pass, so the flip is one of that pass.
  have hnot : ¬ o.Breaks w (e.trail s j).events := by
    rw [← (onTrail_of_running h o budget clock s w hj).told, breaks_told_iff h]
    exact Run.not_cancelled_of_running hj
  obtain ⟨mid, hmid⟩ : ∃ mid, new = mid ++ .flip f :: post := by
    rw [htold] at hsplit
    rcases split_append hsplit with ⟨mid, hmid, -⟩ | ⟨mid, -, hmid⟩
    · exact absurd ⟨pre, f, mid, hmid, hs⟩ hnot
    · exact ⟨mid, hmid⟩
  exact ⟨report, ((hp.stopped hj hr).cancelled_of_split hmid rfl).2.1⟩

end Engine

end StochasticSat
