import StochasticSat.Proofs.Search.Proposals
import StochasticSat.Proofs.Search.Replays

/-!
# The first model ends the run

Every event but the finish shows the assignment that the engine has come to
(`Event.assignment?`).  Along a trail only the last of these can be a model, since an engine whose
clauses are all satisfied does not move (`Trail.Shows.moved`).  So a run that shows a model makes no
further move: it finishes at most one pass later (`Engine.exists_report_of_model`).

It reports the model, with one exception.  An observer is asked after every flip, before the loop
looks at the phase again, so an observer that asks to stop at the very flip that leads to a model
makes the run a cancelled one (`models_end_runs`).
-/

namespace StochasticSat

variable {σ ω : Type} [RandomStream σ]

/-- The assignment that an event shows. -/
def Event.assignment? : Event → Option Assignment
  | start _ a => some a
  | flip f => some f.assignment
  | restart _ a => some a
  | finish _ => none

theorem Event.isFinish_of_assignment? {event : Event} {a : Assignment}
    (h : event.assignment? = some a) : event.isFinish = false := by
  cases event with
  | finish report => cases h
  | _ => rfl

theorem Engine.Moved.assignment? {e e' : Engine} {s s' : σ} {event : Event}
    (h : e.Moved s event e' s') : event.assignment? = some e'.assignment := by
  cases h with
  | restarted h hd => rfl
  | flipped h hd hp => rfl

/-- **The last event of a trail shows where the engine has come to**, and none before shows a
model. -/
structure Trail.Shows (inst : Instance) (t : Trail σ) (past : List Event) (last : Event) :
    Prop where
  steady : t.engine.Steady
  inst_eq : t.engine.inst = inst
  events : t.events = past ++ [last]
  last : last.assignment? = some t.engine.assignment
  past : ∀ event ∈ past, ∀ a, event.assignment? = some a → inst.allSatisfied a.value = false

/-- An engine that moves leaves an assignment behind that is no model. -/
theorem Trail.Shows.moved {inst : Instance} {t : Trail σ} {past : List Event} {last event : Event}
    {e : Engine} {s : σ} (h : t.Shows inst past last) (hm : t.engine.Moved t.stream event e s) :
    Trail.Shows inst ⟨e, s, t.events ++ [event]⟩ t.events event := by
  obtain ⟨hs, hi⟩ := hm.steady h.steady
  refine ⟨hs, hi.trans h.inst_eq, rfl, hm.assignment?, fun event' hmem a ha => ?_⟩
  rw [h.events] at hmem
  rcases List.mem_append.mp hmem with hmem | hmem
  · exact h.past event' hmem a ha
  · rw [List.mem_singleton.mp hmem, h.last] at ha
    rw [← Option.some.inj ha, ← h.inst_eq]
    exact h.steady.unsatisfied hm.unsatisfied

theorem Engine.trail_shows {e : Engine} (h : e.phase = .initializing ∨ e.Steady) (s : σ) (n : Nat) :
    ∃ past last, (e.trail s n).Shows e.inst past last := by
  refine trail_induction (P := fun t => ∃ past last, t.Shows e.inst past last)
    ⟨[], .start e.inst (e.ensureBegun s).1.assignment, ?_⟩
    (fun t event e' s' ⟨past, last, ht⟩ hm => ⟨t.events, event, ht.moved hm⟩) n
  obtain ⟨hs, hi⟩ := steady_ensureBegun h s
  exact ⟨hs, hi, rfl, rfl, fun event hmem => absurd hmem List.not_mem_nil⟩

namespace Engine

section Along
variable {e : Engine} (h : e.phase = .initializing ∨ e.Steady) (o : Observer ω) (budget : Budget)
  (clock : Nat → Duration) (s : σ) (w : ω)
include h

/-- A run that shows a model and has not ended reports that model after its next pass. -/
theorem satisfied_of_running {n : Nat} {pre post : List Event} {event : Event} {a : Assignment}
    (hr : (e.runFor o budget clock n s w).report = none)
    (hsplit : e.told o budget clock n s w = pre ++ event :: post)
    (ha : event.assignment? = some a) (hsat : e.inst.allSatisfied a.value = true) :
    ∃ report, (e.runFor o budget clock (n + 1) s w).report = some report ∧
      e.told o budget clock (n + 1) s w = pre ++ [event, .finish report] ∧
      report.outcome =
        .satisfied a ((e.ensureBegun s).1.iterations + flipsIn (pre ++ [event])) := by
  have ht := onTrail_of_running h o budget clock s w hr
  obtain ⟨past, last, hshows⟩ := trail_shows h s n
  -- No event before the last shows a model, so the event is the last.
  obtain ⟨rfl, rfl, rfl⟩ : pre = past ∧ event = last ∧ post = [] := by
    rw [ht.told, hshows.events] at hsplit
    rcases split_append hsplit with ⟨mid, rfl, -⟩ | ⟨mid, hpre, hmid⟩
    · have hmem : event ∈ pre ++ event :: mid := List.mem_append_right _ List.mem_cons_self
      rw [hshows.past event hmem a ha] at hsat
      cases hsat
    · cases mid with
      | nil =>
        obtain ⟨rfl, rfl⟩ := List.cons_eq_cons.mp hmid
        exact ⟨by simpa using hpre, rfl, rfl⟩
      | cons other mid => simp at hmid
  obtain rfl : (e.trail s n).engine.assignment = a :=
    Option.some.inj (hshows.last.symm.trans ha)
  have hphase : (e.runFor o budget clock n s w).engine.phase = .satisfied := by
    rw [ht.engine, hshows.steady.satisfied_iff, hshows.inst_eq]
    exact hsat
  obtain ⟨new, elapsed, hp, -, htold⟩ := exists_passed h o budget clock s w hr
  obtain ⟨hnew, hlast⟩ := hp.of_satisfied hphase
  refine ⟨_, by rw [hlast]; rfl, ?_, ?_⟩
  · rw [htold, hnew, hsplit, List.append_assoc]
    rfl
  · rw [ht.engine, iterations_trail, hshows.events]

/-- **A run that shows a model makes no further move.**  It reports the model or is cancelled. -/
theorem exists_report_of_model {n : Nat} {pre post : List Event} {event : Event} {a : Assignment}
    (hsplit : e.told o budget clock n s w = pre ++ event :: post)
    (ha : event.assignment? = some a) (hsat : e.inst.allSatisfied a.value = true) :
    ∃ report, (e.runFor o budget clock (n + 1) s w).report = some report ∧
      e.told o budget clock (n + 1) s w = pre ++ [event, .finish report] ∧
      (report.outcome =
          .satisfied a ((e.ensureBegun s).1.iterations + flipsIn (pre ++ [event])) ∨
        report.outcome =
          .exhausted ((e.ensureBegun s).1.iterations + flipsIn (pre ++ [event])) .cancelled) := by
  cases hr : (e.runFor o budget clock n s w).report with
  | none =>
    obtain ⟨report, hreport, htold, ho⟩ :=
      satisfied_of_running h o budget clock s w hr hsplit ha hsat
    exact ⟨report, hreport, htold, Or.inl ho⟩
  | some report =>
    rw [runFor_of_ended (Nat.le_succ n) hr, told_of_ended h o budget clock s w (Nat.le_succ n) hr]
    obtain ⟨j, new, elapsed, hj, hjn, hj₁, -, hp, htold⟩ := exists_end h o budget clock s w hr
    have ht := onTrail_of_running h o budget clock s w hj
    have hsplit' := htold.symm.trans hsplit
    rcases split_append hsplit' with ⟨mid, hmid, -⟩ | ⟨mid, rfl, hmid⟩
    · -- The event belongs to the trail, and the last pass has reported its assignment.
      obtain ⟨report', hreport, hlast, ho⟩ :=
        satisfied_of_running h o budget clock s w hj (ht.told.trans hmid) ha hsat
      rw [runFor_of_ended hjn hj₁, told_of_ended h o budget clock s w hjn hj₁]
      exact ⟨report', hreport, hlast, Or.inl ho⟩
    · -- The event belongs to the last pass, which was cancelled.
      obtain ⟨rfl, rfl, ho⟩ :=
        (hp.stopped hj hr).cancelled_of_split hmid (Event.isFinish_of_assignment? ha)
      rw [ht.engine, iterations_trail, Nat.add_assoc, ← flipsIn_append] at ho
      rw [List.append_nil] at hsplit ⊢
      exact ⟨report, hr, hsplit, Or.inr ho⟩

end Along

end Engine

/-- **The first model ends the run.**  If a run of a reachable engine shows an assignment that
satisfies all clauses, at its start or after a flip or a restart, it has ended after one more pass
and has made no further move.  It reports that assignment with the number of flips up to there,
unless the observer has asked to stop at that very flip: then the run is cancelled. -/
theorem models_end_runs {inst : Instance} {e : Engine} (he : Engine.Reachable σ inst e)
    (c : Restarter) (o : Observer ω) (budget : Budget) (clock : Nat → Duration) (s : σ) (w : ω)
    {n : Nat} {pre post : List Event} {event : Event} {a : Assignment}
    (hsplit : (e.withRestarter c).told o budget clock n s w = pre ++ event :: post)
    (ha : event.assignment? = some a) (hsat : ∀ d ∈ inst.clauses, d.eval a.value = true) :
    ∃ report, ((e.withRestarter c).runFor o budget clock (n + 1) s w).report = some report ∧
      (e.withRestarter c).told o budget clock (n + 1) s w = pre ++ [event, .finish report] ∧
      (¬ o.Breaks w (pre ++ [event]) →
        report.outcome = .satisfied a (e.iterations + flipsIn (pre ++ [event]))) ∧
      (o.Breaks w (pre ++ [event]) →
        report.outcome = .exhausted (e.iterations + flipsIn (pre ++ [event])) .cancelled) := by
  have h := he.withRestarter c
  have hall : (e.withRestarter c).inst.allSatisfied a.value = true := by
    rw [show (e.withRestarter c).inst = inst from he.steady.1, Instance.allSatisfied_iff]
    exact hsat
  obtain ⟨report, hr, htold, ho⟩ :=
    Engine.exists_report_of_model h o budget clock s w hsplit ha hall
  rw [he.iterations_ensureBegun] at ho
  refine ⟨report, hr, htold, ?_⟩
  -- The finish is no reason to stop, so the run is cancelled by what came before or not at all.
  have hcancelled : o.Breaks w (pre ++ [event]) ↔
      ((e.withRestarter c).runFor o budget clock (n + 1) s w).Cancelled := by
    rw [← Engine.breaks_told_iff h, htold, List.append_cons pre event [_]]
    exact (Observer.breaks_append.trans (or_iff_left (Observer.not_breaks_singleton rfl))).symm
  rw [hcancelled]
  rcases ho with ho | ho
  · refine ⟨fun _ => ho, ?_⟩
    rintro ⟨report', i, hr', ho'⟩
    obtain rfl := Option.some.inj (hr.symm.trans hr')
    rw [ho] at ho'
    cases ho'
  · exact ⟨fun hnot => absurd ⟨report, _, hr, ho⟩ hnot, fun _ => ho⟩

/-- An engine whose first assignment is a model. -/
theorem model_at_start :
    let inst := Instance.ofClauses [[1]]
    let e := (Engine.new inst .walksat .never ⟨Noise.defaultThreshold⟩).withRestarter
      (.start .never)
    ∃ report, (e.runFor .silent .unbounded (fun _ => .zero) 1 (⟨3⟩ : Seeded) ()).report =
      some report ∧ report.outcome = .satisfied ⟨#[false, true]⟩ 0 := by
  have hinst : Instance.ofClauses [[1]] = ⟨#[⟨[⟨1, true⟩]⟩], #[0, 1], #[#[], #[0]]⟩ := by
    decide +kernel
  rw [hinst]
  intro inst
  have he : Engine.Reachable Seeded inst (.new inst .walksat .never ⟨Noise.defaultThreshold⟩) :=
    .new _ _ _
  have hstart : ((Engine.new inst .walksat .never ⟨Noise.defaultThreshold⟩).withRestarter
      (.start .never)).told .silent .unbounded (fun _ => .zero) 0 (⟨3⟩ : Seeded) () =
        [] ++ [.start inst ⟨#[false, true]⟩] := by
    simp only [inst]
    with_unfolding_all rfl
  obtain ⟨report, hr, -, ho, -⟩ := models_end_runs he (.start .never) .silent .unbounded
    (fun _ => .zero) (⟨3⟩ : Seeded) () hstart rfl (by decide)
  exact ⟨report, hr, ho (Observer.not_breaks_singleton rfl)⟩

/-- **A model may be lost** to an observer that asks to stop at the flip that leads to it. -/
theorem model_lost_to_cancellation :
    let inst := Instance.ofClauses [[1]]
    let e := Engine.new inst .walksat .never ⟨Noise.defaultThreshold⟩
    let o := Observer.stoppingAt 1
    let budget := Budget.flips Config.defaultMaxFlips
    ∃ f report, e.told o budget (fun _ => .zero) 1 (⟨7⟩ : Seeded) () =
        [.start inst ⟨#[false, false]⟩, .flip f, .finish report] ∧
      (∀ d ∈ inst.clauses, d.eval f.assignment.value = true) ∧
      report.outcome = .exhausted 1 .cancelled := by
  have hi : (Instance.ofClauses [[1]]).Proper :=
    (Instance.obtainable_ofClauses (by decide)).proper
  have hinst : Instance.ofClauses [[1]] = ⟨#[⟨[⟨1, true⟩]⟩], #[0, 1], #[#[], #[0]]⟩ := by
    decide +kernel
  rw [hinst] at hi ⊢
  intro inst e o budget
  have h : e.phase = .initializing ∨ e.Steady := Or.inl rfl
  obtain ⟨new, elapsed, hp, ⟨k, rfl⟩, htold⟩ :=
    Engine.exists_passed h o budget (fun _ => .zero) (⟨7⟩ : Seeded) () (n := 0) rfl
  have hs := (Engine.steady_runFor h o budget (fun _ => .zero) (⟨7⟩ : Seeded) () 0).1
  have hengine : (e.runFor o budget (fun _ => .zero) 0 (⟨7⟩ : Seeded) ()).engine =
      { e with assignment := ⟨#[false, false]⟩, phase := .searching } := by
    simp only [e, inst]
    with_unfolding_all rfl
  rw [htold, Engine.told_zero h]
  generalize e.runFor o budget (fun _ => .zero) 0 (⟨7⟩ : Seeded) () = r at hp hs hengine
  generalize e.runFor o budget (fun _ => .zero) (0 + 1) (⟨7⟩ : Seeded) () = r₁ at hp
  have hunsat : r.engine.phase ≠ .satisfied := by
    rw [hengine]
    decide
  cases hp with
  | ended hends =>
    cases hends with
    | satisfied hsat => exact absurd hsat hunsat
    | flipLimit _ hf => rw [hengine] at hf; cases hf
    | timeLimit _ _ ht => cases ht
  | retried _ hd =>
    rw [hengine] at hd
    cases hd
  | stalled _ _ hnone =>
    obtain ⟨f, s', hsome⟩ := hs.exists_propose (by rw [hengine]; exact hi) hunsat r.stream
    rw [hnone] at hsome
    cases hsome
  | flipped _ _ _ hw =>
    rw [hengine] at hw
    cases hw
  | @cancelled f s w _ _ hpropose _ =>
    -- Whether the flip is a noisy one or not, there is but one index to flip.
    have hmem : f.index ∈ r.engine.inst.indices :=
      Engine.mem_of_propose (by rw [hengine]; exact hi) hpropose
    have hindex : f.index = 1 := by
      rw [hengine] at hmem
      exact List.mem_singleton.mp hmem
    have hmodel : (r.engine.flipEvent f).assignment = ⟨#[false, true]⟩ := by
      show r.engine.assignment.flip f.index = _
      rw [hindex, hengine]
      rfl
    refine ⟨_, _, rfl, ?_, ?_⟩
    · rw [hmodel]
      decide
    · rw [hengine]
      rfl

end StochasticSat
