import StochasticSat.Proofs.Search.FirstModels
import StochasticSat.Proofs.Search.Limits

/-!
# Where the events of a run belong

Whatever a run tells before its finish lies on the trail of its engine (`Engine.exists_trail_told`),
and its report has what the engine has come to there (`Engine.exists_trail_report`).  So every event
but the start and the finish is the move that the engine makes from where the events before it have
led, and the event right before it shows the assignment that it moves from (`Engine.told_cases`).
-/

namespace StochasticSat

variable {σ ω : Type} [RandomStream σ]

/-- A pass that ends the run tells so last, with the counters of the engine that it has come to. -/
theorem Passed.exists_report {o : Observer ω} {budget : Budget} {elapsed : Duration}
    {new : List Event} {r r₁ : Run σ ω} (hp : Passed o budget elapsed r new r₁)
    (hr : r.report = none) {report : Report} (h : r₁.report = some report) :
    (new = [.finish report] ∧ report.stats = r.engine.stats ∧
        ∀ a i, report.outcome = .satisfied a i → a = r.engine.assignment) ∨
      ∃ event e s, r.engine.Moved r.stream event e s ∧ new = [event, .finish report] ∧
        report.stats = e.stats ∧ report.outcome.isSatisfied = false := by
  cases hp with
  | ended hends =>
    cases h
    refine Or.inl ⟨rfl, rfl, fun a i ho => ?_⟩
    cases hends with
    | satisfied _ => exact (Outcome.satisfied.inj ho).1.symm
    | flipLimit _ _ => cases ho
    | timeLimit _ _ _ => cases ho
  | retried _ _ => exact absurd (hr.symm.trans h) (by simp)
  | stalled _ _ _ =>
    cases h
    exact Or.inl ⟨rfl, rfl, fun a i ho => by cases ho⟩
  | flipped _ _ _ _ => exact absurd (hr.symm.trans h) (by simp)
  | cancelled hg hd hpropose _ =>
    cases h
    exact Or.inr ⟨_, _, _, .flipped hg.unsatisfied hd hpropose, rfl, rfl, rfl⟩

namespace Engine

/-- No move changes the strategy. -/
theorem Moved.strategy {e e' : Engine} {s s' : σ} {event : Event} (h : e.Moved s event e' s') :
    e'.strategy = e.strategy := by
  cases h with
  | restarted h hd => rfl
  | flipped h hd hp => rfl

theorem strategy_ensureBegun (e : Engine) (s : σ) :
    (e.ensureBegun s).1.strategy = e.strategy := by
  unfold ensureBegun
  split_ifs <;> rfl

theorem strategy_trail (e : Engine) (s : σ) (n : Nat) :
    (e.trail s n).engine.strategy = e.strategy :=
  trail_induction (P := fun t => t.engine.strategy = e.strategy) (strategy_ensureBegun e s)
    (fun _ _ _ _ ht hm => hm.strategy.trans ht) n

/-- **Every event of a trail but the start is a move from where the events before it have led.** -/
theorem trail_cases {e : Engine} {s : σ} {event : Event} : ∀ {n : Nat} {pre post : List Event},
    (e.trail s n).events = pre ++ event :: post →
      (pre = [] ∧ event = .start e.inst (e.ensureBegun s).1.assignment) ∨
        ∃ k e' s', (e.trail s k).events = pre ∧
          (e.trail s k).engine.Moved (e.trail s k).stream event e' s'
  | 0, pre, post, h => by
    cases pre with
    | nil =>
      obtain ⟨rfl, -⟩ := List.cons_eq_cons.mp h
      exact Or.inl ⟨rfl, rfl⟩
    | cons first pre => simp [trail] at h
  | n + 1, pre, post, h => by
    rw [trail] at h
    rcases (e.trail s n).extend_cases with he | ⟨last, e', s', hm, he⟩
    · rw [he] at h
      exact trail_cases h
    rw [he] at h
    rcases split_append h with ⟨mid, hmid, -⟩ | ⟨mid, rfl, hmid⟩
    · exact trail_cases hmid
    · -- The event is the last one of the trail.
      cases mid with
      | nil =>
        obtain ⟨rfl, -⟩ := List.cons_eq_cons.mp hmid
        exact Or.inr ⟨n, e', s', by rw [List.append_nil], hm⟩
      | cons other mid => simp at hmid

section Along
variable {e : Engine} (h : e.phase = .initializing ∨ e.Steady) (o : Observer ω) (budget : Budget)
  (clock : Nat → Duration) (s : σ) (w : ω)
include h

/-- A run that has ended tells a trail and its report, which has the counters of that trail and, if
it has found a model, the assignment at its end. -/
theorem exists_trail_report {n : Nat} {report : Report}
    (hr : (e.runFor o budget clock n s w).report = some report) :
    ∃ j, e.told o budget clock n s w = (e.trail s j).events ++ [.finish report] ∧
      report.stats = (e.trail s j).engine.stats ∧
      ∀ a i, report.outcome = .satisfied a i → a = (e.trail s j).engine.assignment := by
  obtain ⟨j, new, elapsed, hj, -, -, -, hp, htold⟩ := exists_end h o budget clock s w hr
  have ht := onTrail_of_running h o budget clock s w hj
  rcases hp.exists_report hj hr with ⟨rfl, hstats, hmodel⟩ | ⟨event, e', s', hm, rfl, hstats, hnot⟩
  · rw [ht.engine] at hstats hmodel
    exact ⟨j, htold, hstats, hmodel⟩
  · rw [ht.engine, ht.stream] at hm
    have hnext := Trail.extend_of_moved hm
    refine ⟨j + 1, ?_, ?_, fun a i ho => ?_⟩
    · rw [htold, trail, hnext]
      simp
    · rw [trail, hnext]
      exact hstats
    · rw [ho] at hnot
      cases hnot

/-- What a run has told is what its trail shows, and maybe a finish. -/
theorem exists_trail_told (n : Nat) : ∃ j, e.told o budget clock n s w = (e.trail s j).events ∨
    ∃ report, e.told o budget clock n s w = (e.trail s j).events ++ [.finish report] := by
  cases hr : (e.runFor o budget clock n s w).report with
  | none => exact ⟨n, Or.inl (onTrail_of_running h o budget clock s w hr).told⟩
  | some report =>
    obtain ⟨j, htold, -⟩ := exists_trail_report h o budget clock s w hr
    exact ⟨j, Or.inr ⟨report, htold⟩⟩

/-- **Every event of a run but the start and the finish is a move**, from the assignment that the
event right before it shows. -/
theorem told_cases {n : Nat} {pre post : List Event} {event : Event}
    (hsplit : e.told o budget clock n s w = pre ++ event :: post) (he : event.isFinish = false) :
    (pre = [] ∧ event = .start e.inst (e.ensureBegun s).1.assignment) ∨
      ∃ k past last e' s', pre = past ++ [last] ∧ (e.trail s k).Shows e.inst past last ∧
        (e.trail s k).engine.Moved (e.trail s k).stream event e' s' := by
  obtain ⟨j, post', htrail⟩ : ∃ j post', (e.trail s j).events = pre ++ event :: post' := by
    obtain ⟨j, htold | ⟨report, htold⟩⟩ := exists_trail_told h o budget clock s w n
    · exact ⟨j, post, htold.symm.trans hsplit⟩
    · rcases split_append (htold.symm.trans hsplit) with ⟨mid, hmid, -⟩ | ⟨mid, -, hmid⟩
      · exact ⟨j, mid, hmid⟩
      · have hmem : event ∈ [Event.finish report] := by simp [hmid]
        rw [List.mem_singleton.mp hmem] at he
        cases he
  rcases trail_cases htrail with hstart | ⟨k, e', s', hpre, hm⟩
  · exact Or.inl hstart
  · obtain ⟨past, last, hshows⟩ := trail_shows h s k
    exact Or.inr ⟨k, past, last, e', s', hpre.symm.trans hshows.events, hshows, hm⟩

end Along

end Engine

end StochasticSat
