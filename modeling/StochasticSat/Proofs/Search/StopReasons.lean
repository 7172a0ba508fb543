import StochasticSat.Proofs.Search.FirstModels

/-!
# The reason a run gives for stopping

Over a proper instance a pass that does not find the budget used up has something to flip, so a run
ends in one of two ways: with an outcome that belongs to the state it is in (`Ends`), or with a flip
at which the observer asks to stop (`Stopped.reason`).  As a flip is made only below the limit, the
engine never counts more flips than the limit allows, unless it has done so before
(`Engine.iterations_le_of_running`).

`stop_reasons_are_true` collects what a report says about the run: the limit on flips is reached
exactly, the time is up, or the observer has asked to stop; and a run that is out of flips or of
time has shown no model.
-/

namespace StochasticSat

variable {σ ω : Type} [RandomStream σ]

/-- **Why a pass ends a run**: there is always something to flip. -/
theorem Stopped.reason {o : Observer ω} {budget : Budget} {elapsed : Duration} {r : Run σ ω}
    {report : Report} {new : List Event} (h : Stopped o budget elapsed r report new)
    (hs : r.engine.Steady) (hi : r.engine.inst.Proper) :
    Ends budget elapsed r.engine report.outcome ∨
      GoesOn budget elapsed r.engine ∧
        report.outcome = .exhausted (r.engine.iterations + 1) .cancelled := by
  cases h with
  | ended hends => exact Or.inl hends
  | stalled hg _ hnone _ =>
    obtain ⟨f, s, hsome⟩ := hs.exists_propose hi hg.unsatisfied r.stream
    rw [hnone] at hsome
    cases hsome
  | cancelled hg _ _ _ ho => exact Or.inr ⟨hg, ho⟩

namespace Engine

section Along
variable {e : Engine} (h : e.phase = .initializing ∨ e.Steady) (o : Observer ω) (budget : Budget)
  (clock : Nat → Duration) (s : σ) (w : ω)
include h

/-- A run counts no more flips than its limit allows, unless it has done so before. -/
theorem iterations_le_of_running {m n : Nat} (hm : budget.maxFlips = some m)
    (hr : (e.runFor o budget clock n s w).report = none) :
    (e.trail s n).engine.iterations ≤ max (e.ensureBegun s).1.iterations m := by
  cases n with
  | zero => exact Nat.le_max_left _ _
  | succ n =>
    obtain ⟨⟨_, hg⟩, event, hmove, -⟩ := goesOn_trail h o budget clock s w hr
    have hlt := Schedule.lt_of_flipsLeft hg.flipsLeft hm
    have hone : flipsIn [event] ≤ 1 := by cases event <;> simp
    rw [hmove.iterations]
    omega

/-- A run that has not ended and has found no model flips something in its next step. -/
theorem exists_step (hi : e.inst.Proper) {n : Nat}
    (hp : (e.runFor o budget clock n s w).engine.phase ≠ .satisfied) :
    ∃ f, ((e.runFor o budget clock n s w).engine.step
      (e.runFor o budget clock n s w).stream).1 = some f := by
  obtain ⟨hs, hinst⟩ := steady_runFor h o budget clock s w n
  obtain ⟨f, s', hf⟩ :=
    hs.exists_propose (hinst.symm ▸ hi) hp (e.runFor o budget clock n s w).stream
  exact ⟨f, congrArg Prod.fst (step_of_propose_some hs.begun hp hf)⟩

section Ended
variable {o budget clock s w} (hi : e.inst.Proper) {n : Nat} {report : Report}
  (hr : (e.runFor o budget clock n s w).report = some report)
include hi hr

/-- **Why a run has ended**, in terms of the place on the trail where it did. -/
theorem exists_reason : ∃ j k, (e.runFor o budget clock j s w).report = none ∧
    (Ends budget (clock k) (e.trail s j).engine report.outcome ∨
      GoesOn budget (clock k) (e.trail s j).engine ∧
        report.outcome = .exhausted ((e.trail s j).engine.iterations + 1) .cancelled) := by
  obtain ⟨j, new, elapsed, hj, -, -, ⟨k, rfl⟩, hp, -⟩ := exists_end h o budget clock s w hr
  obtain ⟨hs, hinst⟩ := steady_runFor h o budget clock s w j
  have hreason := (hp.stopped hj hr).reason hs (hinst.symm ▸ hi)
  rw [(onTrail_of_running h o budget clock s w hj).engine] at hreason
  exact ⟨j, k, hj, hreason⟩

/-- The limit on flips is kept. -/
theorem iterations_le_of_report {m : Nat} (hm : budget.maxFlips = some m) :
    report.outcome.iterations ≤ max (e.ensureBegun s).1.iterations m := by
  obtain ⟨j, k, hj, hends | ⟨hg, ho⟩⟩ := exists_reason h hi hr
  · rw [hends.iterations]
    exact iterations_le_of_running h o budget clock s w hm hj
  · have hlt := Schedule.lt_of_flipsLeft hg.flipsLeft hm
    rw [ho]
    exact Nat.le_trans hlt (Nat.le_max_right _ _)

/-- A run that is out of flips has reached the limit, and has not gone beyond it. -/
theorem eq_limit_of_flipLimit {i : Nat} (ho : report.outcome = .exhausted i .flipLimit) :
    ∃ m, budget.maxFlips = some m ∧ i = max (e.ensureBegun s).1.iterations m := by
  obtain ⟨j, k, hj, hends | ⟨hg, ho'⟩⟩ := exists_reason h hi hr
  · rw [ho] at hends
    cases hends with
    | flipLimit hp hf =>
      obtain ⟨m, hm, hle⟩ : ∃ m, budget.maxFlips = some m ∧
          m ≤ (e.trail s j).engine.iterations := by
        simpa [Budget.flipsUsedUp, Option.any_eq_true] using hf
      have hmax := iterations_le_of_running h o budget clock s w hm hj
      have hcount := iterations_trail (e := e) (s := s) j
      exact ⟨m, hm, by omega⟩
  · rw [ho] at ho'
    cases ho'

/-- A run that is out of time had a limit on time, which was reached, and flips left. -/
theorem timeUp_of_timeLimit {i : Nat} (ho : report.outcome = .exhausted i .timeLimit) :
    (∃ limit k, budget.timeLimit = some limit ∧ limit.le (clock k) = true) ∧
      ∀ m, budget.maxFlips = some m → i < m := by
  obtain ⟨j, k, hj, hends | ⟨hg, ho'⟩⟩ := exists_reason h hi hr
  · rw [ho] at hends
    cases hends with
    | timeLimit hp hf ht =>
      obtain ⟨limit, hlimit, hle⟩ := (Option.any_eq_true _ _).mp ht
      exact ⟨⟨limit, k, hlimit, hle⟩, fun m hm => Schedule.lt_of_flipsLeft hf hm⟩
  · rw [ho] at ho'
    cases ho'

end Ended

/-- A run that is out of flips or of time has shown no model. -/
theorem unsatisfied_of_exhausted {n : Nat} {report : Report}
    (hr : (e.runFor o budget clock n s w).report = some report) {i : Nat} {reason : StopReason}
    (ho : report.outcome = .exhausted i reason) (hreason : reason ≠ .cancelled) :
    ∀ event ∈ e.told o budget clock n s w, ∀ a, event.assignment? = some a →
      e.inst.allSatisfied a.value = false := by
  intro event hmem a ha
  by_contra hsat
  rw [Bool.not_eq_false] at hsat
  obtain ⟨pre, post, hsplit⟩ := List.append_of_mem hmem
  obtain ⟨report', hr', -, houtcome⟩ :=
    exists_report_of_model h o budget clock s w hsplit ha hsat
  obtain rfl : report = report' := Run.report_unique hr hr'
  rw [ho] at houtcome
  rcases houtcome with houtcome | houtcome
  · cases houtcome
  · cases houtcome
    exact hreason rfl

end Along

end Engine

/-- **The reason given for stopping is true**, and the limit on flips is exact, for every run of a
reachable engine over an instance that can be built.  As long as no model is found there is
something to flip.  A run is cancelled exactly if its observer has asked to stop at a flip, and that
flip is the last one.  The flips counted never exceed the limit, unless they did so before; a run
that is out of flips has counted just as many, and one that is out of time has counted fewer and its
limit on time is reached.  In both cases every assignment that the run has shown falsifies a clause.
-/
theorem stop_reasons_are_true {inst : Instance} (hi : inst.Obtainable) {e : Engine}
    (he : Engine.Reachable σ inst e) (c : Restarter) (o : Observer ω) (budget : Budget)
    (clock : Nat → Duration) (n : Nat) (s : σ) (w : ω) :
    let run := (e.withRestarter c).runFor o budget clock n s w
    let told := (e.withRestarter c).told o budget clock n s w
    (run.engine.phase ≠ .satisfied → ∃ f, (run.engine.step run.stream).1 = some f) ∧
    (run.Cancelled ↔ o.Breaks w told) ∧
    (∀ pre f post, told = pre ++ .flip f :: post → o.StopsAt w pre f →
      ∃ report, post = [.finish report]) ∧
    ∀ report, run.report = some report →
      (∀ m, budget.maxFlips = some m → report.outcome.iterations ≤ max e.iterations m) ∧
      (∀ i, report.outcome = .exhausted i .flipLimit →
        ∃ m, budget.maxFlips = some m ∧ i = max e.iterations m) ∧
      (∀ i, report.outcome = .exhausted i .timeLimit →
        (∃ limit k, budget.timeLimit = some limit ∧ limit.le (clock k) = true) ∧
          ∀ m, budget.maxFlips = some m → i < m) ∧
      ∀ i reason, report.outcome = .exhausted i reason → reason ≠ .cancelled →
        ∀ event ∈ told, ∀ a, event.assignment? = some a →
          ∃ d ∈ inst.clauses, d.eval a.value = false := by
  intro run told
  have h := he.withRestarter c
  have hinst : (e.withRestarter c).inst = inst := he.steady.1
  have hproper : (e.withRestarter c).inst.Proper := hinst ▸ hi.proper
  have hbegun := he.iterations_ensureBegun c s
  refine ⟨Engine.exists_step h o budget clock s w hproper,
    (Engine.breaks_told_iff h o budget clock s w n).symm,
    fun pre f post hsplit hs => Engine.finish_of_stopsAt h o budget clock s w hsplit hs,
    fun report hr =>
      ⟨fun m hm => ?_, fun i ho => ?_, fun i ho => ?_, fun i reason ho hreason => ?_⟩⟩
  · rw [← hbegun]
    exact Engine.iterations_le_of_report h hproper hr hm
  · rw [← hbegun]
    exact Engine.eq_limit_of_flipLimit h hproper hr ho
  · exact Engine.timeUp_of_timeLimit h hproper hr ho
  · intro event hmem a ha
    rw [← Instance.allSatisfied_eq_false_iff, ← hinst]
    exact Engine.unsatisfied_of_exhausted h o budget clock s w hr ho hreason event hmem a ha

/-- A run with a limit of five flips that finds no model has made five flips. -/
theorem reason_after_five_flips :
    let inst := Instance.ofClauses [[1], [-1]]
    let e := Engine.new inst .walksat (.fixed 2) ⟨Noise.defaultThreshold⟩
    ∃ report, (e.runFor .silent (.flips 5) (fun _ => .zero) 11 (⟨0⟩ : Seeded) ()).report =
        some report ∧
      report.outcome.iterations ≤ 5 ∧
      (report.outcome.isSatisfied = false → report.outcome = .exhausted 5 .flipLimit) := by
  intro inst e
  have hi : inst.Obtainable := Instance.obtainable_ofClauses (by decide)
  have he : Engine.Reachable Seeded inst e := .new _ _ _
  have hfresh : e.Fresh inst (.fixed 2) := .new _ _
  have hm : (Budget.flips 5).maxFlips = some 5 := rfl
  obtain ⟨report, hr⟩ := hfresh.run_ends hm .silent (fun _ => .zero) (⟨0⟩ : Seeded) ()
  obtain ⟨-, hcancelled, -, hreport⟩ := stop_reasons_are_true hi he (.start (.fixed 2)) .silent
    (.flips 5) (fun _ => .zero) 11 (⟨0⟩ : Seeded) ()
  obtain ⟨hle, hflips, htime, -⟩ := hreport report hr
  refine ⟨report, hr, hle 5 hm, fun hunsat => ?_⟩
  cases ho : report.outcome with
  | satisfied a i =>
    rw [ho] at hunsat
    cases hunsat
  | exhausted i reason =>
    cases reason with
    | flipLimit =>
      obtain ⟨m, hm', rfl⟩ := hflips i ho
      obtain rfl := Option.some.inj (hm.symm.trans hm')
      rfl
    | timeLimit =>
      obtain ⟨⟨limit, k, hlimit, -⟩, -⟩ := htime i ho
      cases hlimit
    | cancelled =>
      obtain ⟨pre, f, post, -, hs⟩ := hcancelled.mp ⟨report, i, hr, ho⟩
      cases hs

end StochasticSat
