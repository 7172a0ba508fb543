import StochasticSat.Proofs.Search.Replays

/-!
# Limits only cut a run short

Two runs of one engine with one stream may have different budgets, clocks and observers.  Both
follow the trail of the engine until they stop (`Engine.movesIn_told`), so what one does is the
beginning of what the other does.

If the first run finds a model, so does the second, provided it is allowed as many flips, its time
is never up and its observer never asks to stop: it keeps pace with the first (`Engine.keepsPace`)
up to the place where all clauses are satisfied.  A limit on flips that is merely as large as the
number of flips that the first run has made is not enough: the limit is tested before a restart, and
the model may come from a restart (`Engine.not_satisfied_of_restart`).
-/

namespace StochasticSat

variable {σ ω ω₁ ω₂ : Type} [RandomStream σ]

/-- The events of a row other than its finish. -/
def movesIn (events : List Event) : List Event := events.filter (!·.isFinish)

/-- A budget sets no limit on flips below that of another. -/
def Budget.Within (b₁ b₂ : Budget) : Prop :=
  ∀ m₂, b₂.maxFlips = some m₂ → ∃ m₁, b₁.maxFlips = some m₁ ∧ m₁ ≤ m₂

theorem Budget.Within.flipsLeft {b₁ b₂ : Budget} (h : b₁.Within b₂) {n : Nat}
    (hn : b₁.flipsUsedUp n = false) : b₂.flipsUsedUp n = false := by
  cases hm : b₂.maxFlips with
  | none => simp [flipsUsedUp, hm]
  | some m₂ =>
    obtain ⟨m₁, hm₁, hle⟩ := h m₂ hm
    have hlt := Schedule.lt_of_flipsLeft hn hm₁
    simpa [flipsUsedUp, hm] using Nat.lt_of_lt_of_le hlt hle

/-! ### What a run tells of its trail -/

theorem movesIn_append_finish {events : List Event} (h : ∀ event ∈ events, event.isFinish = false)
    (report : Report) : movesIn (events ++ [.finish report]) = events := by
  rw [movesIn, List.filter_append, List.filter_eq_self.mpr fun event hmem => by simp [h event hmem]]
  exact List.append_nil events

theorem Engine.isFinish_trail (e : Engine) (s : σ) (n : Nat) :
    ∀ event ∈ (e.trail s n).events, event.isFinish = false := by
  refine trail_induction (P := fun t => ∀ event ∈ t.events, event.isFinish = false)
    (fun event hmem => ?_) (fun t event e' s' ht hm event' hmem => ?_) n
  · rw [List.mem_singleton.mp hmem]
    rfl
  · rcases List.mem_append.mp hmem with hmem | hmem
    · exact ht event' hmem
    · rw [List.mem_singleton.mp hmem]
      exact hm.isFinish

theorem Engine.movesIn_trail (e : Engine) (s : σ) (n : Nat) :
    movesIn (e.trail s n).events = (e.trail s n).events :=
  List.filter_eq_self.mpr fun event hmem => by simp [e.isFinish_trail s n event hmem]

section Passes
variable {o : Observer ω} {budget : Budget} {elapsed : Duration} {new : List Event}
  {r : Run σ ω} {report : Report}

/-- A pass that ends the run tells of nothing or of one move before the finish. -/
theorem Stopped.moves (h : Stopped o budget elapsed r report new) :
    new = [.finish report] ∨
      ∃ event e s, r.engine.Moved r.stream event e s ∧ new = [event, .finish report] := by
  cases h with
  | ended _ => exact Or.inl rfl
  | stalled _ _ _ _ => exact Or.inl rfl
  | cancelled hg hd hp _ _ => exact Or.inr ⟨_, _, _, .flipped hg.unsatisfied hd hp, rfl⟩

/-- A run that has found a model has its clauses all satisfied. -/
theorem Stopped.satisfied (h : Stopped o budget elapsed r report new)
    (ho : report.outcome.isSatisfied = true) : r.engine.phase = .satisfied := by
  cases h with
  | ended hends => exact hends.isSatisfied_iff.mp ho
  | stalled _ _ _ ho' =>
    rw [ho'] at ho
    cases ho
  | cancelled _ _ _ _ ho' =>
    rw [ho'] at ho
    cases ho

end Passes

namespace Engine

section OneRun
variable {e : Engine} (h : e.phase = .initializing ∨ e.Steady) (o : Observer ω) (budget : Budget)
  (clock : Nat → Duration) (s : σ) (w : ω)
include h

theorem movesIn_of_running {n : Nat} (hr : (e.runFor o budget clock n s w).report = none) :
    movesIn (e.told o budget clock n s w) = (e.trail s n).events := by
  rw [(onTrail_of_running h o budget clock s w hr).told, movesIn_trail]

/-- **A run tells of the trail up to where it stops**, if it stops. -/
theorem movesIn_told :
    (∀ n, movesIn (e.told o budget clock n s w) = (e.trail s n).events) ∨
      ∃ stop, ∀ n, movesIn (e.told o budget clock n s w) = (e.trail s (min n stop)).events := by
  by_cases hend : ∃ n report, (e.runFor o budget clock n s w).report = some report
  · obtain ⟨n, report, hr⟩ := hend
    obtain ⟨j, new, elapsed, hj, hjn, hj₁, -, hp, htold⟩ := exists_end h o budget clock s w hr
    have hlast : ∀ m, j + 1 ≤ m →
        movesIn (e.told o budget clock m s w) = movesIn ((e.trail s j).events ++ new) := by
      intro m hm
      rw [told_of_ended h o budget clock s w hm hj₁, ← told_of_ended h o budget clock s w hjn hj₁,
        htold]
    have hbefore : ∀ m, m ≤ j →
        movesIn (e.told o budget clock m s w) = (e.trail s m).events := fun m hm =>
      movesIn_of_running h o budget clock s w (running_of_le hm hj)
    have ht := onTrail_of_running h o budget clock s w hj
    rcases (hp.stopped hj hr).moves with rfl | ⟨event, e', s', hm, rfl⟩
    · refine Or.inr ⟨j, fun m => ?_⟩
      rcases Nat.lt_or_ge j m with hm | hm
      · rw [hlast m hm, Nat.min_eq_right (Nat.le_of_lt hm)]
        exact movesIn_append_finish (e.isFinish_trail s j) _
      · rw [hbefore m hm, Nat.min_eq_left hm]
    · rw [ht.engine, ht.stream] at hm
      have hnext : (e.trail s (j + 1)).events = (e.trail s j).events ++ [event] := by
        rw [trail, Trail.extend_of_moved hm]
      refine Or.inr ⟨j + 1, fun m => ?_⟩
      rcases Nat.lt_or_ge j m with hm | hm
      · rw [hlast m hm, Nat.min_eq_right hm, List.append_cons, ← hnext]
        exact movesIn_append_finish (e.isFinish_trail s (j + 1)) _
      · rw [hbefore m hm, Nat.min_eq_left (Nat.le_succ_of_le hm)]
  · refine Or.inl fun n => movesIn_of_running h o budget clock s w ?_
    cases hr : (e.runFor o budget clock n s w).report with
    | none => rfl
    | some report => exact absurd ⟨n, report, hr⟩ hend

end OneRun

section TwoRuns
variable {e : Engine} (h : e.phase = .initializing ∨ e.Steady) (o₁ : Observer ω₁) (o₂ : Observer ω₂)
  (b₁ b₂ : Budget) (clock₁ clock₂ : Nat → Duration) (s : σ) (w₁ : ω₁) (w₂ : ω₂)
include h

theorem movesIn_prefix_total :
    (∀ n, movesIn (e.told o₁ b₁ clock₁ n s w₁) <+: movesIn (e.told o₂ b₂ clock₂ n s w₂)) ∨
      ∀ n, movesIn (e.told o₂ b₂ clock₂ n s w₂) <+: movesIn (e.told o₁ b₁ clock₁ n s w₁) := by
  rcases movesIn_told h o₁ b₁ clock₁ s w₁ with h₁ | ⟨stop₁, h₁⟩
  · refine Or.inr fun n => ?_
    rcases movesIn_told h o₂ b₂ clock₂ s w₂ with h₂ | ⟨stop₂, h₂⟩
    · simp only [h₁, h₂, List.prefix_refl]
    · rw [h₁, h₂]
      exact trail_prefix (Nat.min_le_left n stop₂)
  · rcases movesIn_told h o₂ b₂ clock₂ s w₂ with h₂ | ⟨stop₂, h₂⟩
    · refine Or.inl fun n => ?_
      rw [h₁, h₂]
      exact trail_prefix (Nat.min_le_left n stop₁)
    · rcases Nat.le_total stop₁ stop₂ with hle | hle
      · refine Or.inl fun n => ?_
        rw [h₁, h₂]
        exact trail_prefix (by omega)
      · refine Or.inr fun n => ?_
        rw [h₁, h₂]
        exact trail_prefix (by omega)

/-- **A run that nothing else stops keeps pace** with a run that has no more flips. -/
theorem keepsPace (hb : b₁.Within b₂) (ho : ∀ k, ¬ o₂.Breaks w₂ (e.told o₂ b₂ clock₂ k s w₂))
    (ht : ∀ k, b₂.timeUsedUp (clock₂ k) = false) {j : Nat}
    (hj : (e.runFor o₁ b₁ clock₁ j s w₁).report = none) :
    (e.runFor o₂ b₂ clock₂ j s w₂).report = none := by
  induction j with
  | zero => rfl
  | succ j ih =>
    have hj₂ := ih (running_of_le (Nat.le_succ j) hj)
    obtain ⟨⟨k, hg⟩, event, hm, -⟩ := goesOn_trail h o₁ b₁ clock₁ s w₁ hj
    have htrail := onTrail_of_running h o₂ b₂ clock₂ s w₂ hj₂
    rw [← htrail.engine] at hg
    rw [← htrail.engine, ← htrail.stream] at hm
    obtain ⟨new, elapsed, hp, ⟨k', rfl⟩, -⟩ := exists_passed h o₂ b₂ clock₂ s w₂ hj₂
    have hcancel := mt (breaks_told_iff h o₂ b₂ clock₂ s w₂ (j + 1)).mpr (ho (j + 1))
    generalize e.runFor o₂ b₂ clock₂ (j + 1) s w₂ = r₁ at hp hcancel
    cases hp with
    | ended hends =>
      cases hends with
      | satisfied hs => exact absurd hs hg.unsatisfied
      | flipLimit _ hf => rw [hb.flipsLeft hg.flipsLeft] at hf; cases hf
      | timeLimit _ _ htime => rw [ht] at htime; cases htime
    | retried _ _ => exact hj₂
    | stalled _ hd hnone => exact absurd (congrArg Prod.fst hnone) (hm.propose_ne_none hd)
    | flipped _ _ _ _ => exact hj₂
    | cancelled _ _ _ _ => exact absurd ⟨_, _, rfl, rfl⟩ hcancel

/-- A run that keeps pace finds the model that the other finds. -/
theorem satisfied_of_keepsPace {n : Nat} {report : Report}
    (hpace : ∀ j, (e.runFor o₁ b₁ clock₁ j s w₁).report = none →
      (e.runFor o₂ b₂ clock₂ j s w₂).report = none)
    (hr : (e.runFor o₁ b₁ clock₁ n s w₁).report = some report)
    (ho : report.outcome.isSatisfied = true) :
    ∃ report₂, (e.runFor o₂ b₂ clock₂ n s w₂).report = some report₂ ∧ report.Agrees report₂ ∧
      (e.runFor o₁ b₁ clock₁ n s w₁).stream = (e.runFor o₂ b₂ clock₂ n s w₂).stream := by
  obtain ⟨j, new, elapsed, hj, hjn, -, -, hp, -⟩ := exists_end h o₁ b₁ clock₁ s w₁ hr
  have hsat := (hp.stopped hj hr).satisfied ho
  rw [(hp.of_satisfied hsat).2] at hr ⊢
  obtain rfl := Option.some.inj hr
  have ht₁ := onTrail_of_running h o₁ b₁ clock₁ s w₁ hj
  have ht₂ := onTrail_of_running h o₂ b₂ clock₂ s w₂ (hpace j hj)
  have hengine := ht₁.engine.trans ht₂.engine.symm
  obtain ⟨new₂, elapsed₂, hp₂, -, -⟩ := exists_passed h o₂ b₂ clock₂ s w₂ (hpace j hj)
  have hlast := (hp₂.of_satisfied (hengine ▸ hsat)).2
  have hsame : e.runFor o₂ b₂ clock₂ n s w₂ = e.runFor o₂ b₂ clock₂ (j + 1) s w₂ :=
    runFor_of_ended hjn (by rw [hlast]; rfl)
  rw [hsame, hlast]
  refine ⟨_, rfl, ⟨?_, congrArg Engine.stats hengine⟩, ht₁.stream.trans ht₂.stream.symm⟩
  show Outcome.satisfied _ _ = Outcome.satisfied _ _
  rw [hengine]

/-- **A model that comes from a restart** needs a larger limit than the flips made for it. -/
theorem not_satisfied_of_restart {n : Nat} {pre : List Event} {k : Nat} {a : Assignment}
    {report report' : Report} (hr : (e.runFor o₁ b₁ clock₁ n s w₁).report = some report)
    (htold : e.told o₁ b₁ clock₁ n s w₁ = pre ++ [.restart k a, .finish report'])
    (ho : report.outcome.isSatisfied = true) {m : Nat} (hm : b₂.maxFlips = some m)
    (hle : m ≤ report.outcome.iterations) {n₂ : Nat} {report₂ : Report}
    (hr₂ : (e.runFor o₂ b₂ clock₂ n₂ s w₂).report = some report₂) :
    report₂.outcome.isSatisfied = false := by
  obtain ⟨j, new, elapsed, hj, -, -, -, hp, hend⟩ := exists_end h o₁ b₁ clock₁ s w₁ hr
  have ht := onTrail_of_running h o₁ b₁ clock₁ s w₁ hj
  have hsat := (hp.stopped hj hr).satisfied ho
  have hevents : (e.trail s j).events = pre ++ [.restart k a] := by
    rcases (hp.stopped hj hr).moves with rfl | ⟨_, _, _, hm, -⟩
    · rw [hend, List.append_cons pre] at htold
      exact (List.append_inj' htold rfl).1
    · exact absurd hsat hm.unsatisfied
  have hiter : report.outcome.iterations = (e.trail s j).engine.iterations := by
    rw [(hp.of_satisfied hsat).2] at hr
    rw [← Option.some.inj hr, ← ht.engine]
    rfl
  rw [ht.engine] at hsat
  cases j with
  | zero =>
    have hstart : [] ++ [Event.start e.inst (e.ensureBegun s).1.assignment] =
        pre ++ [.restart k a] := hevents
    cases (List.append_inj' hstart rfl).2
  | succ i =>
    obtain ⟨-, event, hmove, hnext⟩ := goesOn_trail h o₁ b₁ clock₁ s w₁ hj
    rw [hnext] at hevents
    obtain rfl : event = .restart k a := by simpa using (List.append_inj' hevents rfl).2
    have hsame : (e.trail s (i + 1)).engine.iterations = (e.trail s i).engine.iterations :=
      hmove.iterations
    by_contra hsat₂
    rw [Bool.not_eq_false] at hsat₂
    obtain ⟨j₂, new₂, elapsed₂, hj₂, -, -, -, hp₂, -⟩ := exists_end h o₂ b₂ clock₂ s w₂ hr₂
    have hphase := (hp₂.stopped hj₂ hr₂).satisfied hsat₂
    rw [(onTrail_of_running h o₂ b₂ clock₂ s w₂ hj₂).engine] at hphase
    rcases Nat.lt_or_ge i j₂ with hlt | hge
    · -- The second run goes on to the restart, although its limit is reached.
      obtain ⟨⟨_, hg⟩, -⟩ := goesOn_trail h o₂ b₂ clock₂ s w₂ (running_of_le hlt hj₂)
      have := Schedule.lt_of_flipsLeft hg.flipsLeft hm
      omega
    · obtain ⟨⟨_, hg⟩, -⟩ :=
        goesOn_trail h o₁ b₁ clock₁ s w₁ (running_of_le (Nat.succ_le_succ hge) hj)
      exact hg.unsatisfied hphase

end TwoRuns

end Engine

/-- **Limits only cut a run short.**  Of two runs of a reachable engine with one stream, whatever
their budgets, clocks and observers, one does what the other does up to some point.

If the first run finds a model, the second finds the same with the same counters and is left with
the same stream, provided its limit on flips is no lower, its observer does not ask to stop and its
time is never up.  If the model came from a restart, a run whose limit is no more than the flips
made before does not find one. -/
theorem limits_only_cut_short {inst : Instance} {e : Engine} (he : Engine.Reachable σ inst e)
    (c : Restarter) (o₁ : Observer ω₁) (o₂ : Observer ω₂) (b₁ b₂ : Budget)
    (clock₁ clock₂ : Nat → Duration) (s : σ) (w₁ : ω₁) (w₂ : ω₂) :
    let run₁ n := (e.withRestarter c).runFor o₁ b₁ clock₁ n s w₁
    let run₂ n := (e.withRestarter c).runFor o₂ b₂ clock₂ n s w₂
    let told₁ n := (e.withRestarter c).told o₁ b₁ clock₁ n s w₁
    let told₂ n := (e.withRestarter c).told o₂ b₂ clock₂ n s w₂
    ((∀ n, movesIn (told₁ n) <+: movesIn (told₂ n)) ∨
      ∀ n, movesIn (told₂ n) <+: movesIn (told₁ n)) ∧
    ∀ n report₁, (run₁ n).report = some report₁ → report₁.outcome.isSatisfied = true →
      (b₁.Within b₂ → (∀ k, ¬ o₂.Breaks w₂ (told₂ k)) → (∀ k, b₂.timeUsedUp (clock₂ k) = false) →
        ∃ report₂, (run₂ n).report = some report₂ ∧ report₁.Agrees report₂ ∧
          (run₁ n).stream = (run₂ n).stream) ∧
      ∀ pre k a report, told₁ n = pre ++ [.restart k a, .finish report] →
        ∀ m, b₂.maxFlips = some m → m ≤ report₁.outcome.iterations →
          ∀ n₂ report₂, (run₂ n₂).report = some report₂ → report₂.outcome.isSatisfied = false := by
  intro run₁ run₂ told₁ told₂
  have h := he.withRestarter c
  refine ⟨Engine.movesIn_prefix_total h o₁ o₂ b₁ b₂ clock₁ clock₂ s w₁ w₂,
    fun n report₁ hr₁ hsat =>
      ⟨fun hb ho ht => ?_, fun pre k a report htold m hm hle n₂ report₂ hr₂ => ?_⟩⟩
  · have hpace := fun j => Engine.keepsPace h o₁ o₂ b₁ b₂ clock₁ clock₂ s w₁ w₂ hb ho ht (j := j)
    exact Engine.satisfied_of_keepsPace h o₁ o₂ b₁ b₂ clock₁ clock₂ s w₁ w₂ hpace hr₁ hsat
  · exact Engine.not_satisfied_of_restart h o₁ o₂ b₁ b₂ clock₁ clock₂ s w₁ w₂ hr₁ htold hsat hm hle
      hr₂

/-- An engine whose try is used up restarts, and finds a model without a flip.  With a limit of no
flips it does not get there. -/
theorem model_from_restart :
    let inst := Instance.ofClauses [[1]]
    let e := (Engine.new inst .walksat .never ⟨Noise.defaultThreshold⟩).withRestarter
      ⟨.fixed 1, 0, 0⟩
    let run (budget : Budget) := e.runFor .silent budget (fun _ => .zero) 2 (⟨7⟩ : Seeded) ()
    ∃ report₁ report₂ report₃,
      (run (.flips 1)).report = some report₁ ∧ report₁.outcome.isSatisfied = true ∧
      report₁.outcome.iterations = 0 ∧
      ((run .unbounded).report = some report₂ ∧ report₁.Agrees report₂) ∧
      (run (.flips 0)).report = some report₃ ∧ report₃.outcome.isSatisfied = false := by
  have hinst : Instance.ofClauses [[1]] = ⟨#[⟨[⟨1, true⟩]⟩], #[0, 1], #[#[], #[0]]⟩ := by
    decide +kernel
  rw [hinst]
  intro inst e run
  have he : Engine.Reachable Seeded inst (.new inst .walksat .never ⟨Noise.defaultThreshold⟩) :=
    .new _ _ _
  have hr₁ : (run (.flips 1)).report =
      some ⟨.satisfied ⟨#[false, true]⟩ 0, ⟨0, 0, 0, 1⟩, .zero⟩ := by
    simp only [run, e, inst]
    with_unfolding_all rfl
  have hr₃ : (run (.flips 0)).report = some ⟨.exhausted 0 .flipLimit, ⟨0, 0, 0, 0⟩, .zero⟩ := by
    simp only [run, e, inst]
    with_unfolding_all rfl
  have htold : e.told .silent (.flips 1) (fun _ => .zero) 2 (⟨7⟩ : Seeded) () =
      [.start inst ⟨#[false, false]⟩] ++ [.restart 1 ⟨#[false, true]⟩,
        .finish ⟨.satisfied ⟨#[false, true]⟩ 0, ⟨0, 0, 0, 1⟩, .zero⟩] := by
    simp only [e, inst]
    with_unfolding_all rfl
  obtain ⟨-, hmore⟩ := limits_only_cut_short he ⟨.fixed 1, 0, 0⟩ .silent .silent (.flips 1)
    .unbounded (fun _ => .zero) (fun _ => .zero) (⟨7⟩ : Seeded) () ()
  obtain ⟨-, hfewer⟩ := limits_only_cut_short he ⟨.fixed 1, 0, 0⟩ .silent .silent (.flips 1)
    (.flips 0) (fun _ => .zero) (fun _ => .zero) (⟨7⟩ : Seeded) () ()
  have hsilent : ∀ events, ¬ Observer.silent.Breaks () events := by
    rintro events ⟨pre, f, post, -, hs⟩
    cases hs
  obtain ⟨report₂, hr₂, ha, -⟩ := (hmore 2 _ hr₁ rfl).1 (fun _ h => by cases h)
    (fun _ => hsilent _) (fun _ => rfl)
  exact ⟨_, report₂, _, hr₁, rfl, rfl, ⟨hr₂, ha⟩, hr₃,
    (hfewer 2 _ hr₁ rfl).2 _ _ _ _ htold 0 rfl (Nat.le_refl 0) 2 _ hr₃⟩
end StochasticSat
