import StochasticSat.Proofs.Search.Trails

/-!
# How many passes a run makes

A pass that does not end a run is a flip or a restart (`Engine.Moved.counts`), so a run that goes on
has made as many passes as it has told of flips and restarts (`Engine.counts_of_running`).  A
restart makes no flip, but it does not follow another: every try is at least one flip long, so the
restarts are fewer than the flips that the limit allows (`Schedule.Fits.restarts_le`).  Both
together bound the passes of a run with a limit on flips (`flip_limit_bounds_passes`).
-/

namespace StochasticSat

variable {σ ω : Type} [RandomStream σ]

/-! ### Flips and restarts -/

namespace Schedule

variable {t : Schedule} {budget : Budget} {events : List Event}

/-- No try is empty. -/
theorem le_flipsThrough (t : Schedule) : ∀ k, k ≤ t.flipsThrough k
  | 0 => Nat.le_refl 0
  | k + 1 => Nat.add_le_add (t.le_flipsThrough k) (t.tryLength_pos (Nat.le_add_left 1 k))

/-- There are fewer restarts than flips that are allowed. -/
theorem Fits.restarts_le {flips restarts m : Nat} (h : t.Fits budget flips restarts)
    (hm : budget.maxFlips = some m) : restarts ≤ m - 1 := by
  have hle := t.le_flipsThrough restarts
  rcases Nat.eq_zero_or_pos m with rfl | hpos
  · exact hle.trans (h.begun.trans (h.flips_le 0 hm))
  · exact Nat.le_sub_one_of_lt (hle.trans_lt (h.begun_lt m hm hpos))

/-- **A restart does not follow another.** -/
theorem Governs.restart_alone (h : t.Governs events) (pre : List Event) (j : Nat) (a : Assignment)
    (k : Nat) (b : Assignment) (post : List Event) :
    events ≠ pre ++ .restart j a :: .restart k b :: post := by
  intro hsplit
  have hflip := (h.between pre j a [] k b post (by simpa using hsplit)).1
  exact absurd hflip (by simp)

end Schedule

/-! ### Counting passes -/

theorem Engine.Moved.counts {e e' : Engine} {s s' : σ} {event : Event}
    (h : e.Moved s event e' s') : flipsIn [event] + restartsIn [event] = 1 := by
  cases h with
  | restarted h hd => rfl
  | flipped h hd hp => rfl

theorem Passed.passes {o : Observer ω} {budget : Budget} {elapsed : Duration} {r r₁ : Run σ ω}
    {new : List Event} (hp : Passed o budget elapsed r new r₁) : r₁.passes = r.passes + 1 := by
  cases hp with
  | ended h => rfl
  | retried h hd => rfl
  | stalled h hd hp => rfl
  | flipped h hd hp hw => rfl
  | cancelled h hd hp hw => rfl

namespace Engine

section Along
variable {e : Engine} (h : e.phase = .initializing ∨ e.Steady) (o : Observer ω) (budget : Budget)
  (clock : Nat → Duration) (s : σ) (w : ω)
include h

/-- **A run that goes on** has told of one flip or restart for every pass. -/
theorem counts_of_running {n : Nat} (hr : (e.runFor o budget clock n s w).report = none) :
    (e.runFor o budget clock n s w).passes = n ∧
      flipsIn (e.told o budget clock n s w) + restartsIn (e.told o budget clock n s w) = n := by
  induction n with
  | zero =>
    rw [told_zero h]
    exact ⟨rfl, rfl⟩
  | succ n ih =>
    have hr₀ := running_of_le (Nat.le_succ n) hr
    obtain ⟨hpasses, hcount⟩ := ih hr₀
    obtain ⟨new, elapsed, hp, -, htold⟩ := exists_passed h o budget clock s w hr₀
    obtain ⟨-, event, rfl, hm⟩ := hp.moved hr
    have hone := hm.counts
    refine ⟨by rw [hp.passes, hpasses], ?_⟩
    rw [htold, flipsIn_append, restartsIn_append]
    omega

/-- A run that has ended has made one more pass than it went on for. -/
theorem counts_of_ended {n : Nat} {report : Report}
    (hr : (e.runFor o budget clock n s w).report = some report) :
    let passes := (e.runFor o budget clock n s w).passes
    (∀ k, (e.runFor o budget clock k s w).report = none ↔ k < passes) ∧
      (∀ k, passes ≤ k → e.runFor o budget clock k s w = e.runFor o budget clock n s w) ∧
      passes ≤ flipsIn (e.told o budget clock n s w) +
        restartsIn (e.told o budget clock n s w) + 1 := by
  obtain ⟨j, new, elapsed, hj, hjn, hlast, -, hp, htold⟩ := exists_end h o budget clock s w hr
  obtain ⟨hpasses, hcount⟩ := counts_of_running h o budget clock s w hj
  have hn : (e.runFor o budget clock n s w).passes = j + 1 := by rw [hp.passes, hpasses]
  have hend : ∀ k, j + 1 ≤ k →
      e.runFor o budget clock k s w = e.runFor o budget clock n s w := fun k hk => by
    rw [runFor_of_ended hk hlast, runFor_of_ended hjn hlast]
  rw [hn]
  refine ⟨fun k => ⟨fun hk => ?_, fun hk => running_of_le (Nat.le_of_lt_succ hk) hj⟩, hend, ?_⟩
  · by_contra hle
    rw [hend k (Nat.le_of_not_lt hle), hr] at hk
    cases hk
  · rw [(onTrail_of_running h o budget clock s w hj).told] at hcount
    rw [htold, flipsIn_append, restartsIn_append]
    omega

end Along

/-- What a run of a fresh engine tells keeps to the schedule. -/
theorem Fresh.keeps {inst : Instance} {t : Schedule} {e : Engine} (h : e.Fresh inst t)
    (o : Observer ω) (budget : Budget) (clock : Nat → Duration) (n : Nat) (s : σ) (w : ω) :
    t.Keeps budget (e.told o budget clock n s w) (e.runFor o budget clock n s w) := by
  obtain ⟨past, hc, htold⟩ := told_eq (Or.inl h.initializing) o budget clock n s w
  obtain ⟨strategy, noise, rfl⟩ := h.exists_new
  rw [htold]
  exact hc.keeps (Schedule.Keeps.start o budget inst strategy noise _ s w)

end Engine

/-- **A run of a fresh engine with a limit on flips ends**, whatever the schedule, the observer and
the stream.  It makes no more flips than the limit `m` allows and at most `m - 1` restarts; all its
passes but the last one are flips or restarts, so there are at most `2 * m` before the one that
leaves the loop.  No restart follows another, whether the run has ended or not. -/
theorem flip_limit_bounds_passes {inst : Instance} {t : Schedule} {e : Engine} (h : e.Fresh inst t)
    {budget : Budget} {m : Nat} (hm : budget.maxFlips = some m) (o : Observer ω)
    (clock : Nat → Duration) (s : σ) (w : ω) :
    let run := e.run o budget clock s w
    let told n := e.told o budget clock n s w
    (∃ report, run.report = some report ∧ report.outcome.iterations ≤ m ∧
      report.stats.restarts ≤ m - 1 ∧
      run.passes ≤ report.outcome.iterations + report.stats.restarts + 1 ∧
      run.passes ≤ 2 * m + 1) ∧
    (∀ n, (e.runFor o budget clock n s w).report = none ↔ n < run.passes) ∧
    (∀ n, run.passes ≤ n → e.runFor o budget clock n s w = run) ∧
    ∀ n, flipsIn (told n) ≤ m ∧ restartsIn (told n) ≤ m - 1 ∧
      ∀ pre j a k b post, told n ≠ pre ++ .restart j a :: .restart k b :: post := by
  intro run told
  have hkeeps := fun n => h.keeps o budget clock n s w
  obtain ⟨report, hr⟩ := h.run_ends hm o clock s w
  obtain ⟨hrunning, hended, hcount⟩ :=
    Engine.counts_of_ended (Or.inl h.initializing) o budget clock s w hr
  have hcloses := (hkeeps budget.passes).ended report hr
  have hflips : report.outcome.iterations ≤ m := by
    rw [hcloses.iterations]
    exact hcloses.fits.flips_le m hm
  have hrestarts : report.stats.restarts ≤ m - 1 := by
    rw [hcloses.restarts]
    exact hcloses.fits.restarts_le hm
  rw [← hcloses.iterations, ← hcloses.restarts] at hcount
  have hcount' : run.passes ≤ report.outcome.iterations + report.stats.restarts + 1 := hcount
  refine ⟨⟨report, hr, hflips, hrestarts, hcount', by omega⟩, hrunning, hended, fun n => ?_⟩
  have hfits := (hkeeps n).fits
  exact ⟨hfits.flips_le m hm, hfits.restarts_le hm,
    (Schedule.governs (hkeeps n).told hfits).restart_alone⟩

/-- A formula without a model, searched for five flips with an interval of zero.  Every flip but the
first comes after a restart, which is as many passes as there can be. -/
theorem passes_of_interval_zero :
    let inst := Instance.ofClauses [[1], [-1]]
    let e := Engine.new inst .walksat (.fixed 0) ⟨Noise.defaultThreshold⟩
    let run := e.run .silent (.flips 5) (fun _ => .zero) (⟨0⟩ : Seeded) ()
    e.Fresh inst (.fixed 0) ∧ (Budget.flips 5).maxFlips = some 5 ∧ run.passes = 5 + 4 + 1 ∧
      ∃ report, run.report = some report ∧ report.outcome.iterations = 5 ∧
        report.stats.restarts = 4 := by
  have hnames : mentionedVariables [[1], [-1]] = [1] := by
    have hsorted : [1, 1].mergeSort = [1, 1] := List.mergeSort_of_pairwise (by decide)
    show dropRepeats [1, 1].mergeSort = [1]
    rw [hsorted]
    rfl
  have hinst : Instance.ofClauses [[1], [-1]] =
      ⟨#[⟨[⟨1, true⟩]⟩, ⟨[⟨1, false⟩]⟩], #[0, 1], #[#[], #[0, 1]]⟩ := by
    rw [Instance.ofClauses, hnames]
    decide +kernel
  rw [hinst]
  intro inst e run
  have hfresh : e.Fresh inst (.fixed 0) := .new _ _
  have hm : (Budget.flips 5).maxFlips = some 5 := rfl
  have hpasses : run.passes = 5 + 4 + 1 := by
    simp only [run, e, inst]
    with_unfolding_all rfl
  obtain ⟨⟨report, hr, hflips, hrestarts, hcount, -⟩, -⟩ :=
    flip_limit_bounds_passes hfresh hm .silent (fun _ => .zero) (⟨0⟩ : Seeded) ()
  have hcount' : run.passes ≤ report.outcome.iterations + report.stats.restarts + 1 := hcount
  exact ⟨hfresh, hm, hpasses, report, hr, by omega, by omega⟩

end StochasticSat
