import StochasticSat.Proofs.Search.PassCounts
import StochasticSat.Proofs.Search.Replays

/-!
# Steps by hand before a run

Whoever drives an engine may make some steps by hand and let a run do the rest.  If the engine never
restarts, its steps are the moves of its trail (`Engine.Fresh.steps_succ`), and a run after `k`
steps goes on along the same trail (`Engine.Fresh.trail_steps`).

A run that nobody cancels comes to rest at the first place of its trail where all clauses are
satisfied or the limit on flips is reached (`Engine.rests_at_firstStop`).  Steps by hand do not
lead past this place if they are no more than the limit, since a trail goes no further once all
clauses are satisfied.  So both runs come to rest at the same place
(`stepping_first_changes_nothing`).
-/

namespace StochasticSat

variable {σ ω ω' : Type} [RandomStream σ]

/-- The engine and the stream after `k` calls of `step`. -/
def Engine.steps (e : Engine) (s : σ) : Nat → Engine × σ
  | 0 => (e, s)
  | k + 1 => ((e.steps s k).1.step (e.steps s k).2).2

/-! ### Places -/

/-- Where a trail has come to. -/
def Trail.place (t : Trail σ) : Engine × σ := (t.engine, t.stream)

/-- Where a run has come to. -/
def Run.place (r : Run σ ω) : Engine × σ := (r.engine, r.stream)

/-- What a trail does next depends on where it has come to. -/
theorem Trail.place_extend_congr {t t' : Trail σ} (h : t.place = t'.place) :
    t.extend.place = t'.extend.place := by
  obtain ⟨he, hs⟩ := Prod.ext_iff.mp h
  have he' : t.engine = t'.engine := he
  have hs' : t.stream = t'.stream := hs
  rw [extend, extend, he', hs']
  cases t'.engine.next t'.stream with
  | none => exact h
  | some move => rfl

namespace Engine

variable {e : Engine} {s : σ}

/-- A trail makes at most one flip with every move. -/
theorem iterations_trail_le (n : Nat) :
    (e.trail s n).engine.iterations ≤ (e.ensureBegun s).1.iterations + n := by
  induction n with
  | zero => exact Nat.le_refl _
  | succ n ih =>
    rw [trail]
    rcases (e.trail s n).extend_cases with he | ⟨event, e', s', hm, he⟩
    · rw [he]
      exact Nat.le_succ_of_le ih
    · have hone := hm.counts
      rw [he, hm.iterations]
      omega

/-! ### Stepping along the trail -/

/-- **Once all clauses are satisfied**, further steps do nothing and draw nothing. -/
theorem steps_of_satisfied {i j : Nat} (hij : i ≤ j) (h : (e.steps s i).1.phase = .satisfied) :
    e.steps s j = e.steps s i ∧ (e.steps s j).1.step (e.steps s j).2 = (none, e.steps s i) := by
  have hstep := step_of_satisfied h (e.steps s i).2
  have hsteps : e.steps s j = e.steps s i := by
    induction j, hij using Nat.le_induction with
    | base => rfl
    | succ j _ ih => rw [steps, ih, hstep]
  rw [hsteps]
  exact ⟨rfl, hstep⟩

/-- A step of an engine that never restarts is the next move of its trail. -/
theorem stepBegun_eq_extend {t : Trail σ} (hs : t.engine.Steady) (hi : t.engine.inst.Proper)
    (hn : t.engine.restarter = .start .never) :
    (t.engine.stepBegun t.stream).2 = t.extend.place := by
  by_cases hsat : t.engine.phase = .satisfied
  · rw [Trail.extend_of_satisfied hsat, stepBegun, if_pos hsat]
    rfl
  · obtain ⟨f, s', hp⟩ := hs.exists_propose hi hsat t.stream
    have hd : t.engine.restarter.remaining ≠ 0 := by
      rw [hn]
      decide
    have hcount : t.engine.counted = t.engine := by
      have hsame : t.engine.restarter.count = t.engine.restarter := by
        rw [hn]
        rfl
      rw [counted, hsame]
    rw [Trail.extend_of_moved (.flipped hsat hd hp), hcount, stepBegun, if_neg hsat, hp]
    rfl

namespace Fresh

variable {inst : Instance} (h : e.Fresh inst .never)
include h

/-- The restarter of an engine that never restarts has nothing to count. -/
theorem restarter_trail (n : Nat) : (e.trail s n).engine.restarter = .start .never := by
  refine trail_induction (P := fun t => t.engine.restarter = .start .never) ?_
    (fun t event e' s' ht hm => ?_) n
  · obtain ⟨strategy, noise, rfl⟩ := h.exists_new
    rfl
  · cases hm with
    | restarted _ hd =>
      rw [ht] at hd
      exact absurd hd (by decide)
    | flipped _ _ _ =>
      rw [apply_restarter, counted_restarter, ht]
      rfl

theorem inst_eq : e.inst = inst := by
  obtain ⟨strategy, noise, rfl⟩ := h.exists_new
  rfl

theorem iterations_ensureBegun : (e.ensureBegun s).1.iterations = 0 := by
  rw [Engine.ensureBegun_of_initializing h.initializing]
  rfl

variable (hi : inst.Proper)
include hi

theorem steps_succ {k : Nat}
    (hb : (e.steps s k).1.ensureBegun (e.steps s k).2 = (e.trail s k).place) :
    e.steps s (k + 1) = (e.trail s (k + 1)).place := by
  obtain ⟨hs, hinst⟩ := steady_trail (s := s) (Or.inl h.initializing) k
  rw [steps, step, hb]
  exact stepBegun_eq_extend hs (hinst.trans h.inst_eq ▸ hi) (h.restarter_trail k)

/-- **Stepping goes along the trail**; the first step begins before it does anything else. -/
theorem ensureBegun_steps : ∀ k,
    (e.steps s k).1.ensureBegun (e.steps s k).2 = (e.trail s k).place
  | 0 => rfl
  | k + 1 => by
    rw [h.steps_succ hi (ensureBegun_steps k)]
    exact ensureBegun_of_begun (steady_trail (Or.inl h.initializing) (k + 1)).1.begun _

/-- **After some steps the trail goes on** as if they belonged to it. -/
theorem trail_steps (k : Nat) : ∀ n,
    ((e.steps s k).1.trail (e.steps s k).2 n).place = (e.trail s (k + n)).place
  | 0 => h.ensureBegun_steps hi k
  | n + 1 => Trail.place_extend_congr (trail_steps k n)

/-- Steps by hand leave an engine that can be run. -/
theorem begun_steps (k : Nat) :
    ((e.steps s k).1.phase = .initializing ∨ (e.steps s k).1.Steady) ∧
      (e.steps s k).1.inst = inst := by
  cases k with
  | zero => exact ⟨Or.inl h.initializing, h.inst_eq⟩
  | succ k =>
    obtain ⟨hs, hinst⟩ := steady_trail (s := s) (Or.inl h.initializing) (k + 1)
    rw [h.steps_succ hi (h.ensureBegun_steps hi k)]
    exact ⟨Or.inr hs, hinst.trans h.inst_eq⟩

end Fresh

end Engine

/-! ### Where a run comes to rest -/

/-- All clauses are satisfied or the limit on flips is reached. -/
def Budget.Stops (budget : Budget) (e : Engine) : Prop :=
  e.phase = .satisfied ∨ budget.flipsUsedUp e.iterations = true

/-- The first place of a trail where all clauses are satisfied or the limit on flips is reached. -/
structure Engine.FirstStop (e : Engine) (s : σ) (budget : Budget) (j : Nat) : Prop where
  stops : budget.Stops (e.trail s j).engine
  before : ∀ i < j, ¬ budget.Stops (e.trail s i).engine

/-- A run has ended where it stands, with the report that belongs there. -/
structure Run.Rests (budget : Budget) (r : Run σ ω) (report : Report) : Prop where
  reported : r.report = some report
  ends : ∃ elapsed, Ends budget elapsed r.engine report.outcome
  stats : report.stats = r.engine.stats

section Timeless
variable {budget : Budget} {elapsed elapsed' : Duration} {e : Engine} {outcome outcome' : Outcome}

theorem GoesOn.not_stops (h : GoesOn budget elapsed e) : ¬ budget.Stops e := by
  rintro (hs | hf)
  · exact h.unsatisfied hs
  · rw [h.flipsLeft] at hf
    cases hf

theorem Ends.stops (ht : budget.timeLimit = none) (h : Ends budget elapsed e outcome) :
    budget.Stops e := by
  cases h with
  | satisfied hs => exact Or.inl hs
  | flipLimit _ hf => exact Or.inr hf
  | timeLimit _ _ h' => simp [Budget.timeUsedUp, ht] at h'

/-- Without a limit on time the state of the engine decides how a run ends. -/
theorem Ends.unique (ht : budget.timeLimit = none) (h : Ends budget elapsed e outcome)
    (h' : Ends budget elapsed' e outcome') : outcome = outcome' := by
  have h'' : Ends budget elapsed e outcome' := h'.anyTime ht
  cases h with
  | satisfied hs =>
    cases h'' with
    | satisfied _ => rfl
    | flipLimit hs' _ => exact absurd hs hs'
    | timeLimit hs' _ _ => exact absurd hs hs'
  | flipLimit hs hf =>
    cases h'' with
    | satisfied hs' => exact absurd hs' hs
    | flipLimit _ _ => rfl
    | timeLimit _ hf' _ => rw [hf] at hf'; cases hf'
  | timeLimit _ _ h' => simp [Budget.timeUsedUp, ht] at h'

omit [RandomStream σ] in
/-- Runs that rest in the same state have reports that agree. -/
theorem Run.Rests.agrees {r : Run σ ω} {r' : Run σ ω'} {report report' : Report}
    (h : r.Rests budget report) (h' : r'.Rests budget report') (ht : budget.timeLimit = none)
    (he : r.engine = r'.engine) : report.Agrees report' := by
  obtain ⟨_, hends⟩ := h.ends
  obtain ⟨_, hends'⟩ := h'.ends
  rw [he] at hends
  exact ⟨hends.unique ht hends', by rw [h.stats, h'.stats, he]⟩

end Timeless

/-- A pass that ends a run without being cancelled leaves it where it stands. -/
theorem Passed.rests {o : Observer ω} {budget : Budget} {elapsed : Duration} {r r₁ : Run σ ω}
    {new : List Event} (hp : Passed o budget elapsed r new r₁) (hr : r.report = none)
    (hs : r.engine.Steady) (hi : r.engine.inst.Proper) (hc : ¬ r₁.Cancelled) {report : Report}
    (h : r₁.report = some report) : r₁.place = r.place ∧ r₁.Rests budget report := by
  cases hp with
  | ended hends =>
    obtain rfl := Option.some.inj h
    exact ⟨rfl, rfl, ⟨elapsed, hends⟩, rfl⟩
  | retried _ _ => exact absurd (hr.symm.trans h) (by simp)
  | stalled hg _ hnone =>
    obtain ⟨f, s', hsome⟩ := hs.exists_propose hi hg.unsatisfied r.stream
    rw [hnone] at hsome
    cases hsome
  | flipped _ _ _ _ => exact absurd (hr.symm.trans h) (by simp)
  | cancelled _ _ _ _ => exact absurd ⟨_, _, rfl, rfl⟩ hc

namespace Engine

section Along
variable {e : Engine} (h : e.phase = .initializing ∨ e.Steady) (o : Observer ω) {budget : Budget}
  (clock : Nat → Duration) (s : σ) (w : ω)
include h

/-- **A run that nobody cancels comes to rest** at the first place of its trail where it has to
stop. -/
theorem rests_at_firstStop (ht : budget.timeLimit = none) (hi : e.inst.Proper) {n : Nat}
    {report : Report} (hr : (e.runFor o budget clock n s w).report = some report)
    (ho : ¬ o.Breaks w (e.told o budget clock n s w)) :
    (e.runFor o budget clock n s w).Rests budget report ∧
      ∃ j, (e.runFor o budget clock n s w).place = (e.trail s j).place ∧
        e.FirstStop s budget j := by
  rw [breaks_told_iff h] at ho
  obtain ⟨j, new, elapsed, hj, -, -, -, hp, -⟩ := exists_end h o budget clock s w hr
  obtain ⟨hs, hinst⟩ := steady_runFor h o budget clock s w j
  obtain ⟨hplace, hrests⟩ := hp.rests hj hs (hinst.symm ▸ hi) ho hr
  have htrail := onTrail_of_running h o budget clock s w hj
  have hstands : (e.runFor o budget clock n s w).place = (e.trail s j).place :=
    hplace.trans (Prod.ext htrail.engine htrail.stream)
  refine ⟨hrests, j, hstands, ?_, fun i hij => ?_⟩
  · obtain ⟨_, hends⟩ := hrests.ends
    have hengine : (e.runFor o budget clock n s w).engine = (e.trail s j).engine :=
      congrArg Prod.fst hstands
    exact hengine ▸ hends.stops ht
  · obtain ⟨⟨_, hg⟩, -⟩ := goesOn_trail h o budget clock s w (running_of_le hij hj)
    exact hg.not_stops

end Along

theorem FirstStop.unique {e : Engine} {s : σ} {budget : Budget} {i j : Nat}
    (hi : e.FirstStop s budget i) (hj : e.FirstStop s budget j) : i = j := by
  rcases Nat.lt_trichotomy i j with hlt | heq | hlt
  · exact absurd hi.stops (hj.before i hlt)
  · exact heq
  · exact absurd hj.stops (hi.before j hlt)

namespace Fresh

variable {inst : Instance} {e : Engine} (h : e.Fresh inst .never) {s : σ} {k m j j' : Nat}
include h

/-- A trail that stops when there are flips left has come to a model. -/
theorem satisfied_of_firstStop (hj : e.FirstStop s (.flips m) j) (hlt : j < m) :
    (e.trail s j).engine.phase = .satisfied := by
  have hle := iterations_trail_le (e := e) (s := s) j
  rw [h.iterations_ensureBegun, Nat.zero_add] at hle
  refine hj.stops.resolve_right fun hf => ?_
  have hm : m ≤ (e.trail s j).engine.iterations := by
    simpa [Budget.flipsUsedUp, Budget.flips] using hf
  omega

variable (hi : inst.Proper)
include hi

/-- The first stop after some steps is the first stop of all, unless the steps lead past that. -/
theorem firstStop_add {budget : Budget} (hk : k ≤ j) (hj : e.FirstStop s budget j)
    (hj' : (e.steps s k).1.FirstStop (e.steps s k).2 budget j') :
    e.FirstStop s budget (k + j') := by
  have hsame (n : Nat) : ((e.steps s k).1.trail (e.steps s k).2 n).engine =
      (e.trail s (k + n)).engine := congrArg Prod.fst (h.trail_steps hi k n)
  refine ⟨hsame j' ▸ hj'.stops, fun n hn => ?_⟩
  rcases Nat.lt_or_ge n k with hlt | hge
  · exact hj.before n (Nat.lt_of_lt_of_le hlt hk)
  · obtain ⟨i, rfl⟩ := Nat.exists_eq_add_of_le hge
    rw [← hsame]
    exact hj'.before i (by omega)

/-- **Steps by hand do not change the first stop**, if they are no more than the limit. -/
theorem place_firstStop_steps (hk : k ≤ m) (hj : e.FirstStop s (.flips m) j)
    (hj' : (e.steps s k).1.FirstStop (e.steps s k).2 (.flips m) j') :
    (e.trail s j).place = ((e.steps s k).1.trail (e.steps s k).2 j').place := by
  rw [h.trail_steps hi]
  rcases Nat.lt_or_ge j k with hlt | hge
  · -- There are flips left, so the trail has come to a model and goes no further.
    have hsat := h.satisfied_of_firstStop hj (by omega)
    have hstays : e.trail s (k + j') = e.trail s j := trail_of_satisfied (by omega) hsat
    rw [hstays]
  · rw [hj.unique (h.firstStop_add hi hge hj hj')]

/-- A run after some steps ends as well. -/
theorem exists_report_steps (o : Observer ω) (clock : Nat → Duration) (w : ω) :
    ∃ report, ((e.steps s k).1.run o (.flips m) clock (e.steps s k).2 w).report = some report := by
  have hengine : (Run.start o (e.steps s k).1 (e.steps s k).2 w).engine = (e.trail s k).engine :=
    congrArg Prod.fst (h.ensureBegun_steps hi k)
  have hd : (Run.start o (e.steps s k).1 (e.steps s k).2 w).engine.restarter.remaining ≠ 0 := by
    rw [hengine, h.restarter_trail]
    decide
  have hready : (Run.start o (e.steps s k).1 (e.steps s k).2 w).Ready :=
    ⟨hengine ▸ (steady_trail (Or.inl h.initializing) k).1, fun _ => hd⟩
  exact hready.exists_report rfl hd clock

end Fresh

end Engine

/-- **Stepping by hand first changes nothing.**  If an engine that never restarts makes `k` steps by
hand and then a run with a limit of `m` flips, no fewer than `k`, the run has the same outcome and
the same counters as one without these steps, and leaves the engine and the stream in the same
state, provided that no observer asks to stop.  If all clauses are satisfied after some of the
steps, the others find nothing to do and draw nothing. -/
theorem stepping_first_changes_nothing {inst : Instance} (hi : inst.Obtainable) {e : Engine}
    (h : e.Fresh inst .never) {k m : Nat} (hk : k ≤ m) (o : Observer ω) (o' : Observer ω')
    (clock clock' : Nat → Duration) (s : σ) (w : ω) (w' : ω') :
    let e' := (e.steps s k).1
    let s' := (e.steps s k).2
    ((∀ n, ¬ o.Breaks w (e.told o (.flips m) clock n s w)) →
      (∀ n, ¬ o'.Breaks w' (e'.told o' (.flips m) clock' n s' w')) →
        ∃ report report', (e.run o (.flips m) clock s w).report = some report ∧
          (e'.run o' (.flips m) clock' s' w').report = some report' ∧ report.Agrees report' ∧
          (e.run o (.flips m) clock s w).place = (e'.run o' (.flips m) clock' s' w').place) ∧
    ∀ i j, i ≤ j → (e.steps s i).1.phase = .satisfied →
      e.steps s j = e.steps s i ∧ (e.steps s j).1.step (e.steps s j).2 = (none, e.steps s i) := by
  intro e' s'
  refine ⟨fun ho ho' => ?_, fun i j hij hsat => Engine.steps_of_satisfied hij hsat⟩
  obtain ⟨hbegun, hinst⟩ := h.begun_steps (s := s) hi.proper k
  have hproper : e.inst.Proper := h.inst_eq ▸ hi.proper
  have hproper' : e'.inst.Proper := hinst ▸ hi.proper
  have hm : (Budget.flips m).maxFlips = some m := rfl
  obtain ⟨report, hr⟩ := h.run_ends hm o clock s w
  obtain ⟨report', hr'⟩ : ∃ report', (e'.run o' (.flips m) clock' s' w').report = some report' :=
    h.exists_report_steps hi.proper o' clock' w'
  obtain ⟨hrests, j, hplace, hj⟩ :=
    Engine.rests_at_firstStop (Or.inl h.initializing) o clock s w rfl hproper hr (ho _)
  obtain ⟨hrests', j', hplace', hj'⟩ :=
    Engine.rests_at_firstStop hbegun o' clock' s' w' rfl hproper' hr' (ho' _)
  have hmeet := hplace.trans ((h.place_firstStop_steps hi.proper hk hj hj').trans hplace'.symm)
  exact ⟨report, report', hr, hr', hrests.agrees hrests' rfl (congrArg Prod.fst hmeet), hmeet⟩

/-- The first of three steps by hand finds the model, so the other two and the run do nothing. -/
theorem model_before_the_run :
    let inst := Instance.ofClauses [[1]]
    let e := Engine.new inst .walksat .never ⟨Noise.defaultThreshold⟩
    let s : Seeded := ⟨7⟩
    let e' := (e.steps s 3).1
    let s' := (e.steps s 3).2
    inst.Obtainable ∧ e.Fresh inst .never ∧ 3 ≤ 5 ∧ (e.step s).1 ≠ none ∧
      (e.steps s 1).1.phase = .satisfied ∧ e.steps s 3 = e.steps s 1 ∧
      ∃ report report', (e.run .silent (.flips 5) (fun _ => .zero) s ()).report = some report ∧
        (e'.run .silent (.flips 5) (fun _ => .zero) s' ()).report = some report' ∧
        report.Agrees report' ∧ report.outcome = .satisfied ⟨#[false, true]⟩ 1 := by
  intro inst e s e' s'
  have hi : inst.Obtainable := Instance.obtainable_ofClauses (by decide)
  have hinst : inst = ⟨#[⟨[⟨1, true⟩]⟩], #[0, 1], #[#[], #[0]]⟩ := by decide +kernel
  have hfresh : e.Fresh inst .never := .new _ _
  obtain ⟨hrun, hlater⟩ := stepping_first_changes_nothing hi hfresh (by decide : 3 ≤ 5) .silent
    .silent (fun _ => .zero) (fun _ => .zero) s () ()
  obtain ⟨report, report', hr, hr', ha, -⟩ := hrun (fun _ => Observer.not_breaks_silent _)
    (fun _ => Observer.not_breaks_silent _)
  have hsat : (e.steps s 1).1.phase = .satisfied := by
    simp only [e, s, hinst]
    with_unfolding_all rfl
  have hflip : (e.step s).1 ≠ none := by
    simp only [e, s, hinst]
    with_unfolding_all nofun
  have hmodel : (e.run .silent (.flips 5) (fun _ => .zero) s ()).report =
      some ⟨.satisfied ⟨#[false, true]⟩ 1, ⟨1, 0, 1, 0⟩, .zero⟩ := by
    simp only [e, s, hinst]
    with_unfolding_all rfl
  obtain rfl := Option.some.inj (hr.symm.trans hmodel)
  exact ⟨hi, hfresh, by decide, hflip, hsat, (hlater 1 3 (by decide) hsat).1, _, report', hr, hr',
    ha, rfl⟩

end StochasticSat
