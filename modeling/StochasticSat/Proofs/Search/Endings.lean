import StochasticSat.Proofs.Search.Schedules

/-!
# How runs end

A run with a limit on flips ends.  Every flip brings it nearer to the limit, and a restart is
followed by at least one flip, since no try is empty: `Engine.passesLeft` counts the passes that
this leaves room for, and every pass that does not end the run uses up one of them
(`Passed.passesLeft_lt`).  So `Budget.passes` are enough (`Run.Ready.exists_report`).

Without a limit on time the clock decides nothing but the time in the report, and an observer that
is cut short by a flag can only cancel the run earlier (`Run.pass_stoppedIf`).
-/

namespace StochasticSat

variable {σ ω : Type} [RandomStream σ]

/-! ### The loop -/

section Loop
variable {o : Observer ω} {budget : Budget} {elapsed : Duration} {clock : Nat → Duration}
  {r : Run σ ω} {report : Report}

theorem Run.pass_of_ended (h : r.report = some report) : r.pass o budget elapsed = r := by
  unfold pass
  rw [h]

theorem Run.advance_of_ended (h : r.report = some report) :
    ∀ n, r.advance o budget clock n = r
  | 0 => rfl
  | n + 1 => by
    unfold advance
    rw [if_pos (by rw [h]; rfl)]

theorem Run.advance_succ (n : Nat) (r : Run σ ω) :
    r.advance o budget clock (n + 1) = (r.advance o budget clock n).pass o budget
      (clock (r.advance o budget clock n).passes) := by
  induction n generalizing r with
  | zero =>
    cases h : r.report with
    | none => simp [advance, h]
    | some report => rw [advance_of_ended h, advance_of_ended h, pass_of_ended h]
  | succ n ih =>
    cases h : r.report with
    | none =>
      have hstep : ∀ k, r.advance o budget clock (k + 1) =
          (r.pass o budget (clock r.passes)).advance o budget clock k := fun k => by
        rw [advance, if_neg (by simp [h])]
      rw [hstep, ih, hstep]
    | some report => rw [advance_of_ended h, advance_of_ended h, pass_of_ended h]

/-- A run that has ended stays as it is. -/
theorem Run.advance_of_le {m n : Nat} (hmn : m ≤ n)
    (h : (r.advance o budget clock m).report = some report) :
    r.advance o budget clock n = r.advance o budget clock m := by
  induction n, hmn using Nat.le_induction with
  | base => rfl
  | succ n _ ih => rw [advance_succ, ih, pass_of_ended h]

/-- A run has one report, however many passes it is given. -/
theorem Run.report_unique {m n : Nat} {report' : Report}
    (h : (r.advance o budget clock m).report = some report)
    (h' : (r.advance o budget clock n).report = some report') : report = report' := by
  rcases Nat.le_total m n with hmn | hmn
  · rw [advance_of_le hmn h, h] at h'
    exact Option.some.inj h'
  · rw [advance_of_le hmn h', h'] at h
    exact (Option.some.inj h).symm

end Loop

/-! ### Passes that are left -/

namespace Engine

/-- A try without end has flips left. -/
def Armed (e : Engine) : Prop := e.restarter.schedule.ends = false → e.restarter.remaining ≠ 0

/-- The passes that are left before the limit `m` on flips is reached: two for every flip, and one
if a restart is due. -/
def passesLeft (m : Nat) (e : Engine) : Nat :=
  2 * (m - e.iterations) + if e.restarter.remaining = 0 then 1 else 0

theorem passesLeft_le {e : Engine} (hd : e.restarter.remaining ≠ 0) (m : Nat) :
    e.passesLeft m ≤ 2 * m := by
  rw [passesLeft, if_neg hd]
  omega

theorem Armed.counted {e : Engine} (h : e.Armed) : e.counted.Armed := by
  intro hends
  rw [counted_restarter, Restarter.count] at hends ⊢
  split_ifs at hends ⊢ with h'
  · exact absurd h' (by simpa using hends)
  · exact h hends

theorem Armed.remaining_restart {e : Engine} (h : e.Armed) (hd : e.restarter.remaining = 0) :
    e.restarter.restart.remaining ≠ 0 := by
  rw [Restarter.restart]
  split_ifs with hends
  · exact Nat.ne_of_gt (Schedule.tryLength_pos _ (by omega))
  · exact absurd hd (h (by simpa using hends))

end Engine

/-- A run whose engine is steady and armed. -/
structure Run.Ready (r : Run σ ω) : Prop where
  steady : r.engine.Steady
  armed : r.engine.Armed

section Ending
variable {o : Observer ω} {budget : Budget} {elapsed : Duration} {past new : List Event}
  {r r₁ : Run σ ω} {m : Nat}

/-- **A pass that does not end the run** uses up one of the passes that are left. -/
theorem Passed.passesLeft_lt (hp : Passed o budget elapsed r new r₁) (hm : budget.maxFlips = some m)
    (ha : r.engine.Armed) (hr : r₁.report = none) :
    r₁.engine.Armed ∧ r₁.engine.passesLeft m < r.engine.passesLeft m := by
  cases hp with
  | ended h => exact absurd hr (by simp [Run.finish])
  | retried h hd =>
    have hrest := ha.remaining_restart hd
    refine ⟨fun _ => hrest, ?_⟩
    have hrem : (r.engine.rearmed.restart r.stream).1.restarter.remaining ≠ 0 := hrest
    show Engine.passesLeft m (r.engine.rearmed.restart r.stream).1 < _
    simp only [Engine.passesLeft, if_neg hrem, if_pos hd, Engine.restart_iterations,
      Engine.rearmed_iterations]
    omega
  | stalled h hd hp => exact absurd hr (by simp [Run.giveUp, Run.finish])
  | @flipped f s w h hd hp hw =>
    refine ⟨ha.counted, ?_⟩
    have hlt := Schedule.lt_of_flipsLeft h.flipsLeft hm
    show Engine.passesLeft m (r.engine.counted.apply f) < _
    simp only [Engine.passesLeft, Engine.apply_iterations, Engine.counted_iterations]
    split_ifs <;> omega
  | cancelled h hd hp hw => exact absurd hr (by simp [Run.giveUp, Run.finish])

theorem Run.report_of_advance {clock : Nat → Duration} {n : Nat}
    (hr : (r.advance o budget clock (n + 1)).report = none) :
    (r.advance o budget clock n).report = none := by
  cases h : (r.advance o budget clock n).report with
  | none => rfl
  | some report => rw [advance_succ, pass_of_ended h, h] at hr; cases hr

theorem Run.steady_advance (hs : r.engine.Steady) (clock : Nat → Duration) (n : Nat) :
    (r.advance o budget clock n).engine.Steady ∧
      (r.advance o budget clock n).engine.inst = r.engine.inst := by
  obtain ⟨past, hc, -⟩ := Course.start.advance hs clock n
  exact hc.steady hs

theorem Run.passesLeft_advance (hr : r.Ready) (hm : budget.maxFlips = some m)
    (clock : Nat → Duration) (n : Nat) (h : (r.advance o budget clock n).report = none) :
    (r.advance o budget clock n).Ready ∧
      (r.advance o budget clock n).engine.passesLeft m + n ≤ r.engine.passesLeft m := by
  induction n with
  | zero => exact ⟨hr, Nat.le_refl _⟩
  | succ n ih =>
    have h₀ := report_of_advance h
    obtain ⟨hr₀, hle⟩ := ih h₀
    rw [advance_succ] at h ⊢
    obtain ⟨new, hp, -⟩ := pass_passed hr₀.steady.begun h₀
    obtain ⟨ha, hlt⟩ := hp.passesLeft_lt hm hr₀.armed h
    exact ⟨⟨(hp.steady hr₀.steady).1, ha⟩, by omega⟩

/-- **A run with a limit on flips ends** within the passes of its budget. -/
theorem Run.Ready.exists_report (hr : r.Ready) (hm : budget.maxFlips = some m)
    (hd : r.engine.restarter.remaining ≠ 0) (clock : Nat → Duration) :
    ∃ report, (r.advance o budget clock budget.passes).report = some report := by
  rw [← Option.ne_none_iff_exists']
  intro hnone
  obtain ⟨-, hle⟩ := Run.passesLeft_advance hr hm clock _ hnone
  have hstart := Engine.passesLeft_le hd m
  rw [Budget.passes, hm] at hle
  have hle' : _ + (2 * m + 1) ≤ _ := hle
  omega

end Ending

/-! ### Fresh engines -/

namespace Engine.Fresh

variable {inst : Instance} {t : Schedule} {e : Engine} (h : e.Fresh inst t)
include h

theorem initializing : e.phase = .initializing := by
  obtain ⟨strategy, noise, rfl⟩ := h.exists_new
  rfl

theorem remaining : e.Armed ∧ e.restarter.remaining ≠ 0 := by
  obtain ⟨strategy, noise, rfl⟩ := h.exists_new
  have hpos : t.tryLength 1 ≠ 0 := Nat.ne_of_gt (t.tryLength_pos (Nat.le_refl 1))
  exact ⟨fun _ => hpos, hpos⟩

theorem start_engine (o : Observer ω) (s : σ) (w : ω) :
    (Run.start o e s w).engine = (e.begin s).1 :=
  congrArg Prod.fst (ensureBegun_of_initializing h.initializing s)

theorem ready (o : Observer ω) (s : σ) (w : ω) : (Run.start o e s w).Ready := by
  constructor <;> rw [h.start_engine]
  · exact .begin e s
  · exact h.remaining.1

theorem passesLeft_le (o : Observer ω) (m : Nat) (s : σ) (w : ω) :
    (Run.start o e s w).engine.passesLeft m ≤ 2 * m := by
  rw [h.start_engine]
  refine Engine.passesLeft_le ?_ m
  exact h.remaining.2

theorem run_ends {budget : Budget} {m : Nat} (hm : budget.maxFlips = some m) (o : Observer ω)
    (clock : Nat → Duration) (s : σ) (w : ω) :
    ∃ report, (e.run o budget clock s w).report = some report := by
  refine (h.ready o s w).exists_report hm ?_ clock
  rw [h.start_engine]
  exact h.remaining.2

end Engine.Fresh

/-! ### The clock and the flag -/

/-- Two reports of one outcome with the same counters. -/
structure Report.Agrees (r r' : Report) : Prop where
  outcome : r.outcome = r'.outcome
  stats : r.stats = r'.stats

/-- Two runs that have ended in agreement, or are the same and have not ended. -/
inductive Run.Agrees : Run σ ω → Run σ ω → Prop
  | running {r : Run σ ω} (h : r.report = none) : Agrees r r
  | ended {r r' : Run σ ω} {report report' : Report} (h : r.report = some report)
    (h' : r'.report = some report') (ha : report.Agrees report') : Agrees r r'

omit [RandomStream σ] in
theorem Run.Agrees.reports {r r' : Run σ ω} (h : Run.Agrees r r') {report report' : Report}
    (hr : r.report = some report) (hr' : r'.report = some report') : report.Agrees report' := by
  cases h with
  | running h => rw [h] at hr; cases hr
  | ended h h' ha =>
    obtain rfl := Option.some.inj (hr.symm.trans h)
    obtain rfl := Option.some.inj (hr'.symm.trans h')
    exact ha

section Flag
variable {o : Observer ω} {budget : Budget} {r : Run σ ω}

theorem Ends.anyTime {elapsed elapsed' : Duration} {e : Engine} {outcome : Outcome}
    (ht : budget.timeLimit = none) (h : Ends budget elapsed e outcome) :
    Ends budget elapsed' e outcome := by
  cases h with
  | satisfied h => exact .satisfied h
  | flipLimit h hf => exact .flipLimit h hf
  | timeLimit h hf h' => simp [Budget.timeUsedUp, ht] at h'

theorem GoesOn.anyTime {elapsed elapsed' : Duration} {e : Engine} (ht : budget.timeLimit = none)
    (h : GoesOn budget elapsed e) : GoesOn budget elapsed' e :=
  ⟨h.unsatisfied, h.flipsLeft, by simp [Budget.timeUsedUp, ht]⟩

/-- **A pass without a limit on time** does the same at any time, and a flag can only cancel it. -/
theorem Run.pass_stoppedIf (ht : budget.timeLimit = none) (hb : r.engine.phase ≠ .initializing)
    (hr : r.report = none) (sees : Bool) (elapsed elapsed' : Duration) :
    Run.Agrees (r.pass (o.stoppedIf sees) budget elapsed) (r.pass o budget elapsed') ∨
      sees = true ∧ ∃ n stats, (r.pass (o.stoppedIf sees) budget elapsed).report =
        some ⟨.exhausted n .cancelled, stats, elapsed⟩ := by
  rw [pass_of_running hr, pass_of_running hr]
  rcases ends_or_goesOn budget elapsed r.engine with ⟨outcome, h⟩ | h
  · rw [Ends.loopBody_eq (r := r.entered) h, Ends.loopBody_eq (r := r.entered) (h.anyTime ht)]
    exact Or.inl (.ended rfl rfl ⟨rfl, rfl⟩)
  rw [GoesOn.loopBody_eq (r := r.entered) h, GoesOn.loopBody_eq (r := r.entered) (h.anyTime ht)]
  by_cases hd : r.engine.restarter.remaining = 0
  · rw [tryOrFlip_of_due (r := r.entered) hd, tryOrFlip_of_due (r := r.entered) hd]
    exact Or.inl (.running hr)
  rw [tryOrFlip_of_not_due (r := r.entered) hd, tryOrFlip_of_not_due (r := r.entered) hd]
  rcases hp : r.engine.propose r.stream with ⟨_ | f, s⟩
  · rw [flipOnce_of_none (r := r.entered.counted) hb h.unsatisfied hp,
      flipOnce_of_none (r := r.entered.counted) hb h.unsatisfied hp]
    exact Or.inl (.ended rfl rfl ⟨rfl, rfl⟩)
  cases sees with
  | true =>
    have hstop : (o.stoppedIf true).onFlip (r.engine.flipEvent f) r.watcher = (.stop, r.watcher) :=
      rfl
    rw [flipOnce_of_stop (r := r.entered.counted) hb h.unsatisfied hp hstop]
    exact Or.inr ⟨rfl, _, _, rfl⟩
  | false =>
    have hsame : o.stoppedIf false = o := rfl
    rw [hsame]
    rcases hw : o.onFlip (r.engine.flipEvent f) r.watcher with ⟨_ | _, w⟩
    · rw [flipOnce_of_proceed (r := r.entered.counted) hb h.unsatisfied hp hw,
        flipOnce_of_proceed (r := r.entered.counted) hb h.unsatisfied hp hw]
      exact Or.inl (.running hr)
    · rw [flipOnce_of_stop (r := r.entered.counted) hb h.unsatisfied hp hw,
        flipOnce_of_stop (r := r.entered.counted) hb h.unsatisfied hp hw]
      exact Or.inl (.ended rfl rfl ⟨rfl, rfl⟩)

theorem Run.Agrees.pass {r r' : Run σ ω} (h : Run.Agrees r r') (ht : budget.timeLimit = none)
    (hb : r.engine.phase ≠ .initializing) (elapsed elapsed' : Duration) :
    Run.Agrees (r.pass o budget elapsed) (r'.pass o budget elapsed') := by
  cases h with
  | running hr =>
    rcases Run.pass_stoppedIf ht hb hr false elapsed elapsed' with h | ⟨h, -⟩
    · exact h
    · cases h
  | ended h h' ha =>
    rw [Run.pass_of_ended h, Run.pass_of_ended h']
    exact .ended h h' ha

/-- A run without a limit on time does the same by any clock. -/
theorem Run.advance_agrees (ht : budget.timeLimit = none) (hs : r.engine.Steady)
    (hr : r.report = none) (clock clock' : Nat → Duration) (n : Nat) :
    Run.Agrees (r.advance o budget clock n) (r.advance o budget clock' n) := by
  induction n with
  | zero => exact .running hr
  | succ n ih =>
    rw [advance_succ, advance_succ]
    exact ih.pass ht (steady_advance hs clock n).1.begun _ _

end Flag

end StochasticSat
