import Mathlib.Algebra.Order.BigOperators.Group.List
import Mathlib.Algebra.Order.Ring.Nat
import StochasticSat.Proofs.Rows
import StochasticSat.Proofs.Search.Races

/-!
# Interleavings

The result of a race is the same whatever the order in which its workers act
(`races_settle_by_runs_alone`), but for which of several models is reported.

Every action uses up some of what its worker has left to do (`Worker.cost`), so a race whose workers
have a limit on flips is over after a bounded number of actions; and once it is over, every report
is that of a worker on its own, unless there is a winner (`Race.Sound.settled`).
-/

namespace StochasticSat

variable {σ ω : Type} [RandomStream σ]

/-! ### What is left to do -/

/-- The actions that a worker has left to do, at most. -/
def Worker.cost (m : Nat) (worker : Worker σ ω) : Nat :=
  match worker.stage with
  | .running => worker.run.engine.passesLeft m + 3
  | .claiming => 2
  | .announcing => 1
  | .done => 0

/-- The actions that all workers have left to do, at most. -/
def Race.cost (m : Nat) (race : Race σ ω) : Nat := (race.workers.toList.map (Worker.cost m)).sum

theorem sum_map_set_lt {α : Type} {f : α → Nat} {x y : α} (hlt : f y < f x) :
    ∀ {xs : List α} {k : Nat}, xs[k]? = some x → ((xs.set k y).map f).sum < (xs.map f).sum
  | [], _, hk => by simp at hk
  | z :: xs, 0, hk => by
    cases hk
    simpa using hlt
  | z :: xs, k + 1, hk => by
    have ih : ((xs.set k y).map f).sum < (xs.map f).sum := sum_map_set_lt hlt (by simpa using hk)
    simpa using ih

section Cost
variable {o : Observer ω} {budget : Budget} {m : Nat} {base : Run σ ω} {bases : List (Run σ ω)}
  {flag : Bool} {worker : Worker σ ω} {race race' : Race σ ω} {action : Action}

omit [RandomStream σ] in
theorem cost_ofReport_some (m : Nat) (run : Run σ ω) (report : Report) :
    Worker.cost m ⟨run, .ofReport (some report)⟩ < 3 := by
  cases h : report.outcome.isSatisfied <;> simp [Worker.cost, Stage.ofReport, h]

theorem Worker.Follows.cost_pass_lt (h : worker.Follows o budget base flag) (hb : base.Ready)
    (hm : budget.maxFlips = some m) (hs : worker.stage = .running) (o' : Observer ω)
    (elapsed : Duration) :
    Worker.cost m ⟨worker.run.pass o' budget elapsed,
      .ofReport (worker.run.pass o' budget elapsed).report⟩ < worker.cost m := by
  cases h with
  | @running n h =>
    have hready : (base.alone o budget n).Ready := (Run.passesLeft_advance hb hm _ n h).1
    obtain ⟨new, hp, -⟩ := pass_passed (o := o') (r := base.alone o budget n) hready.steady.begun h
    cases hr : ((base.alone o budget n).pass o' budget elapsed).report with
    | none =>
      obtain ⟨-, hlt⟩ := hp.passesLeft_lt hm hready.armed hr
      exact Nat.add_lt_add_right hlt 3
    | some report =>
      refine (cost_ofReport_some m _ report).trans_le ?_
      exact Nat.le_add_left 3 _
  | found h h' ha hsat hs' => exact absurd hs hs'
  | exhausted h h' ha hsat => cases hs
  | cancelled h ho hf => cases hs

/-- **Every action moves one worker**, which then has less to do. -/
theorem Race.Sound.moves (hi : race.Sound o budget bases)
    (h : Race.Acted o budget race action race') (hb : ∀ base ∈ bases, base.Ready)
    (hm : budget.maxFlips = some m) : ∃ worker worker', race.workers[action.worker]? = some worker ∧
      race'.workers = race.workers.setIfInBounds action.worker worker' ∧
      worker'.cost m < worker.cost m := by
  cases h with
  | @passed k sees elapsed worker hw hs hf =>
    obtain ⟨base, hk, hfollows⟩ := hi.exists_base hw
    exact ⟨worker, _, hw, rfl,
      hfollows.cost_pass_lt (hb base (List.mem_of_getElem? hk)) hm hs _ elapsed⟩
  | raised hw hs hf => exact ⟨_, _, hw, rfl, by simp [Worker.cost, hs]⟩
  | late hw hs hf => exact ⟨_, _, hw, rfl, by simp [Worker.cost, hs]⟩
  | sent hw hs => exact ⟨_, _, hw, rfl, by simp [Worker.cost, hs]⟩

theorem Race.Sound.cost_lt (hi : race.Sound o budget bases)
    (h : Race.Acted o budget race action race') (hb : ∀ base ∈ bases, base.Ready)
    (hm : budget.maxFlips = some m) : race'.cost m < race.cost m := by
  obtain ⟨worker, worker', hw, hset, hlt⟩ := hi.moves h hb hm
  rw [cost, hset, Array.toList_setIfInBounds]
  exact sum_map_set_lt hlt (by simpa using hw)

theorem Race.Sound.length_add_cost_le (ht : budget.timeLimit = none)
    (hb : ∀ base ∈ bases, base.Ready) (hm : budget.maxFlips = some m) :
    ∀ {actions : List Action} {race : Race σ ω}, race.Sound o budget bases →
      race.follow o budget actions = some race' → actions.length + race'.cost m ≤ race.cost m
  | [], _, _, h => by cases h; simp
  | action :: rest, race, hi, h => by
    obtain ⟨next, hact, hrest⟩ := Option.bind_eq_some_iff.mp h
    have hacted := Race.acted_of_act hact
    have hlt := hi.cost_lt hacted hb hm
    have hle := Race.Sound.length_add_cost_le ht hb hm
      (hi.acted hacted ht fun base hbase => (hb base hbase).steady) hrest
    simp only [List.length_cons]
    omega

/-- **A race that is not over goes on.** -/
theorem Race.exists_act (h : race.isOver = false) :
    ∃ action race', race.act o budget action = some race' := by
  by_contra hnone
  have hdone : ∀ worker ∈ race.workers.toList, worker.stage = .done := by
    intro worker hmem
    obtain ⟨k, hk⟩ := List.getElem?_of_mem hmem
    rcases turn_cases o budget .zero race k with ⟨-, hd⟩ | ⟨action, -, hact⟩
    · exact hd worker (by simpa using hk)
    · exact absurd ⟨action, _, hact⟩ hnone
  have hover : race.isOver = true := by
    rw [isOver, ← Array.all_toList]
    exact List.all_eq_true.mpr fun worker hmem => by simpa using hdone worker hmem
  rw [h] at hover
  cases hover

end Cost

/-! ### The result of a race -/

/-- The reason that a search gives for its end, unless it found a model or was cancelled. -/
def Outcome.lastingReason? : Outcome → Option StopReason
  | .exhausted _ .cancelled => none
  | .exhausted _ reason => some reason
  | .satisfied .. => none

/-- **What becomes of searches** none of which found a model: sums of counters, the largest number
of flips, and the first reason other than a cancellation. -/
structure IsExhaustion (reports : List Report) (stats : Stats) (iterations : Nat)
    (reason : StopReason) : Prop where
  flips : stats.flips = (reports.map (·.stats.flips)).sum
  noiseFlips : stats.noiseFlips = (reports.map (·.stats.noiseFlips)).sum
  greedyFlips : stats.greedyFlips = (reports.map (·.stats.greedyFlips)).sum
  restarts : stats.restarts = (reports.map (·.stats.restarts)).sum
  le : ∀ r ∈ reports, r.outcome.iterations ≤ iterations
  attained : ∃ r ∈ reports, r.outcome.iterations = iterations
  reason : reason = (reports.findSome? (·.outcome.lastingReason?)).getD .cancelled

/-- **The result of a race** that is over, by the reports of its workers on their own. -/
structure Race.Settles (alone : List Report) (race : Race σ ω) (report : Report) : Prop where
  /-- A number is sent if and only if a worker has ended with a model. -/
  sends : race.channel ≠ [] ↔ ∃ worker ∈ race.workers.toList, ∃ r,
    worker.run.report = some r ∧ r.outcome.isSatisfied = true
  satisfied : report.outcome.isSatisfied = true ↔ ∃ r ∈ alone, r.outcome.isSatisfied = true
  winner : report.outcome.isSatisfied = true → ∃ r ∈ alone, r.outcome = report.outcome
  exhausted : (∀ r ∈ alone, r.outcome.isSatisfied = false) → ∃ iterations reason,
    report.outcome = .exhausted iterations reason ∧
      IsExhaustion alone report.stats iterations reason

theorem foldl_add_stats : ∀ (reports : List Report) (t : Stats),
    reports.foldl (fun t r => t.add r.stats) t =
      t.add ⟨(reports.map (·.stats.flips)).sum, (reports.map (·.stats.noiseFlips)).sum,
        (reports.map (·.stats.greedyFlips)).sum, (reports.map (·.stats.restarts)).sum⟩
  | [], t => rfl
  | r :: reports, t => by
    rw [List.foldl_cons, foldl_add_stats reports]
    simp [Stats.add, Nat.add_assoc]

theorem foldl_max_iterations : ∀ (reports : List Report) (n : Nat),
    n ≤ reports.foldl (fun n r => max n r.outcome.iterations) n ∧
    (∀ r ∈ reports, r.outcome.iterations ≤
      reports.foldl (fun n r => max n r.outcome.iterations) n) ∧
    (reports.foldl (fun n r => max n r.outcome.iterations) n = n ∨
      ∃ r ∈ reports, r.outcome.iterations =
        reports.foldl (fun n r => max n r.outcome.iterations) n)
  | [], n => ⟨Nat.le_refl n, fun r hr => by simp at hr, Or.inl rfl⟩
  | q :: reports, n => by
    obtain ⟨hle, hall, hex⟩ := foldl_max_iterations reports (max n q.outcome.iterations)
    rw [List.foldl_cons]
    refine ⟨(Nat.le_max_left _ _).trans hle, fun r hr => ?_, ?_⟩
    · rcases List.mem_cons.mp hr with rfl | hr
      · exact (Nat.le_max_right _ _).trans hle
      · exact hall r hr
    · rcases hex with h | ⟨r, hr, h⟩
      · rw [h]
        rcases Nat.le_total q.outcome.iterations n with hn | hn
        · exact Or.inl (Nat.max_eq_left hn)
        · exact Or.inr ⟨q, List.mem_cons_self, (Nat.max_eq_right hn).symm⟩
      · exact Or.inr ⟨r, List.mem_cons_of_mem q hr, h⟩

theorem totals_congr {reports reports' : List Report}
    (h : reports.map (·.stats) = reports'.map (·.stats)) :
    Race.totals reports = Race.totals reports' := by
  have key : ∀ rs : List Report, Race.totals rs = (rs.map (·.stats)).foldl Stats.add .zero :=
    fun rs => List.foldl_map.symm
  rw [key, key, h]

theorem exhaustion_congr {reports reports' : List Report}
    (h : reports.map (·.outcome) = reports'.map (·.outcome)) :
    Race.exhaustion reports = Race.exhaustion reports' := by
  have key : ∀ rs : List Report, Race.exhaustion rs =
      .exhausted ((rs.map (·.outcome)).foldl (fun n o => max n o.iterations) 0)
        (((rs.map (·.outcome)).findSome? Outcome.lastingReason?).getD .cancelled) := fun rs => by
    rw [List.foldl_map, List.findSome?_map]
    rfl
  rw [key, key, h]

theorem isExhaustion {reports : List Report} (h : reports ≠ []) : ∃ iterations reason,
    Race.exhaustion reports = .exhausted iterations reason ∧
      IsExhaustion reports (Race.totals reports) iterations reason := by
  obtain ⟨-, hall, hex⟩ := foldl_max_iterations reports 0
  refine ⟨_, _, rfl, ?_⟩
  rw [Race.totals, foldl_add_stats]
  constructor
  case le => exact hall
  case attained =>
    rcases hex with h0 | hex
    · obtain ⟨r, hr⟩ := List.exists_mem_of_ne_nil reports h
      refine ⟨r, hr, ?_⟩
      have := hall r hr
      omega
    · exact hex
  case reason => rfl
  all_goals simp [Stats.add, Stats.zero]

section Settling
variable {o : Observer ω} {budget : Budget} {base : Run σ ω} {bases : List (Run σ ω)} {flag : Bool}
  {worker : Worker σ ω} {race : Race σ ω} {alone : List Report}

/-- A worker that is done has a report: that of its run on its own, or one of a cancellation. -/
theorem Worker.Follows.exists_report (h : worker.Follows o budget base flag)
    (hd : worker.stage = .done) {n : Nat} {report' : Report}
    (h' : (base.alone o budget n).report = some report') :
    ∃ report, worker.run.report = some report ∧ (report.Agrees report' ∨
      flag = true ∧ report.outcome.isSatisfied = false) := by
  cases h with
  | running h => cases hd
  | found h h'' ha hsat hs => exact ⟨_, h, Or.inl (Run.report_unique h'' h' ▸ ha)⟩
  | exhausted h h'' ha hsat => exact ⟨_, h, Or.inl (Run.report_unique h'' h' ▸ ha)⟩
  | cancelled h ho hf => exact ⟨_, h, Or.inr ⟨hf, by rw [ho]; rfl⟩⟩

/-- The reports of the given runs, each on its own. -/
def ReportsAlone (o : Observer ω) (budget : Budget) (bases : List (Run σ ω))
    (alone : List Report) : Prop :=
  ∀ k : Nat, alone[k]? = bases[k]?.bind fun base => (base.alone o budget budget.passes).report

/-- Every worker has a report: that of its run on its own or, once somebody has won, one without a
model. -/
def Race.Accounted (alone : List Report) (race : Race σ ω) : Prop :=
  ∀ (k : Nat) (worker : Worker σ ω), race.workers[k]? = some worker → ∃ r r',
    worker.run.report = some r ∧ alone[k]? = some r' ∧
      (r.Agrees r' ∨ race.flag = true ∧ r.outcome.isSatisfied = false)

omit [RandomStream σ] in
theorem Race.stage_of_isOver (hover : race.isOver = true) {k : Nat}
    (hw : race.workers[k]? = some worker) : worker.stage = .done := by
  rw [isOver, Array.all_eq_true'] at hover
  simpa using hover worker (Array.mem_of_getElem? hw)

theorem Race.Sound.accounted (hi : race.Sound o budget bases) (hover : race.isOver = true)
    (halone : ReportsAlone o budget bases alone) (hlen : alone.length = bases.length) :
    race.Accounted alone := by
  intro k worker hw
  obtain ⟨base, hk, hfollows⟩ := hi.exists_base hw
  have hlt : k < alone.length := by
    rw [hlen]
    exact (List.getElem?_eq_some_iff.mp hk).1
  have hr' := halone k
  rw [List.getElem?_eq_getElem hlt, hk, Option.bind_some] at hr'
  obtain ⟨r, hr, ha⟩ := hfollows.exists_report (stage_of_isOver hover hw) hr'.symm
  exact ⟨r, _, hr, List.getElem?_eq_getElem hlt, ha⟩

omit [RandomStream σ] in
theorem Race.Accounted.exists_reports (h : race.Accounted alone) : ∃ reports,
    race.reports? = some reports ∧
      ∀ k : Nat, reports[k]? = race.workers[k]?.bind (·.run.report) := by
  have hall : ∀ worker ∈ race.workers.toList, ∃ r, worker.run.report = some r := by
    intro worker hmem
    obtain ⟨k, hk⟩ := List.getElem?_of_mem hmem
    obtain ⟨r, -, hr, -, -⟩ := h k worker (by simpa using hk)
    exact ⟨r, hr⟩
  obtain ⟨reports, hreports, -, hk⟩ := exists_mapM_eq_some hall
  exact ⟨reports, hreports, fun k => by simpa using hk k⟩

omit [RandomStream σ] in
/-- As long as nobody has won, the workers report what they would on their own. -/
theorem Race.Accounted.map_reports (h : race.Accounted alone) (hf : race.flag = false)
    (hlen : alone.length = race.workers.size) {reports : List Report}
    (hk : ∀ k : Nat, reports[k]? = race.workers[k]?.bind (·.run.report)) :
    reports.map (·.outcome) = alone.map (·.outcome) ∧
      reports.map (·.stats) = alone.map (·.stats) := by
  have hmap {α : Type} (f : Report → α) (hfun : ∀ r r' : Report, r.Agrees r' → f r = f r') :
      reports.map f = alone.map f := by
    refine List.ext_getElem? fun k => ?_
    rw [List.getElem?_map, List.getElem?_map, hk k]
    cases hw : race.workers[k]? with
    | none =>
      have hge : alone.length ≤ k := by
        rw [hlen]
        exact Array.getElem?_eq_none_iff.mp hw
      rw [List.getElem?_eq_none hge]
      rfl
    | some worker =>
      obtain ⟨r, r', hr, hr', ha⟩ := h k worker hw
      rw [hr', Option.bind_some, hr, Option.map_some, Option.map_some, Option.some_inj]
      rcases ha with ha | ⟨hf', -⟩
      · exact hfun r r' ha
      · rw [hf] at hf'; cases hf'
  exact ⟨hmap _ fun r r' ha => ha.outcome, hmap _ fun r r' ha => ha.stats⟩

omit [RandomStream σ] in
/-- A race that nobody has won. -/
theorem Race.Accounted.settles_undecided (h : race.Accounted alone) (hf : race.flag = false)
    (hlen : alone.length = race.workers.size) (hne : alone ≠ []) (hc : race.channel = [])
    (hdone : ∀ worker ∈ race.workers.toList, ∀ r, worker.run.report = some r →
      r.outcome.isSatisfied = false)
    {reports : List Report} (hk : ∀ k : Nat, reports[k]? = race.workers[k]?.bind (·.run.report))
    (elapsed : Duration) :
    race.Settles alone ⟨outcomeOf reports race.channel.head?, totals reports, elapsed⟩ := by
  obtain ⟨houtcome, hstats⟩ := h.map_reports hf hlen hk
  have hunsat : ∀ r ∈ alone, r.outcome.isSatisfied = false := by
    intro r hmem
    have hmem' : r.outcome ∈ reports.map (·.outcome) := houtcome ▸ List.mem_map_of_mem hmem
    obtain ⟨q, hq, hqr⟩ := List.mem_map.mp hmem'
    obtain ⟨j, hj⟩ := List.getElem?_of_mem hq
    rw [hk j] at hj
    obtain ⟨worker, hw, hr⟩ := Option.bind_eq_some_iff.mp hj
    have hwm : worker ∈ race.workers.toList := by simpa using Array.mem_of_getElem? hw
    rw [← hqr]
    exact hdone worker hwm q hr
  obtain ⟨iterations, reason, hex, his⟩ := isExhaustion hne
  have hresult : outcomeOf reports race.channel.head? = .exhausted iterations reason := by
    rw [hc, ← hex, ← exhaustion_congr houtcome]
    rfl
  rw [hresult, totals_congr hstats]
  constructor
  case sends =>
    refine ⟨fun h => absurd hc h, ?_⟩
    rintro ⟨worker, hmem, r, hr, hsat⟩
    rw [hdone worker hmem r hr] at hsat
    cases hsat
  case satisfied =>
    refine ⟨fun h => (by cases h), ?_⟩
    rintro ⟨r, hmem, hsat⟩
    rw [hunsat r hmem] at hsat
    cases hsat
  case winner =>
    intro hsat
    cases hsat
  case exhausted => exact fun _ => ⟨iterations, reason, rfl, his⟩

omit [RandomStream σ] in
/-- A race that worker `k` has won. -/
theorem Race.Accounted.settles_won (h : race.Accounted alone) {k : Nat}
    (hw : race.workers[k]? = some worker) {report : Report} (hr : worker.run.report = some report)
    (hsat : report.outcome.isSatisfied = true) (hc : race.channel = [k]) {reports : List Report}
    (hk : ∀ k : Nat, reports[k]? = race.workers[k]?.bind (·.run.report)) (elapsed : Duration) :
    race.Settles alone ⟨outcomeOf reports race.channel.head?, totals reports, elapsed⟩ := by
  obtain ⟨r, r', hr', halone', ha⟩ := h k worker hw
  obtain rfl : report = r := Option.some.inj (hr.symm.trans hr')
  have hagree : report.outcome = r'.outcome := by
    rcases ha with ha | ⟨-, hunsat⟩
    · exact ha.outcome
    · rw [hsat] at hunsat; cases hunsat
  have hmem : r' ∈ alone := List.mem_of_getElem? halone'
  have hresult : outcomeOf reports race.channel.head? = report.outcome := by
    have hk' := hk k
    rw [hw, Option.bind_some, hr] at hk'
    simp [outcomeOf, hc, hk']
  rw [hresult]
  constructor
  case sends =>
    have hworker : worker ∈ race.workers.toList := by simpa using Array.mem_of_getElem? hw
    exact ⟨fun _ => ⟨worker, hworker, report, hr, hsat⟩, fun _ => by simp [hc]⟩
  case satisfied => exact ⟨fun _ => ⟨r', hmem, hagree ▸ hsat⟩, fun _ => hsat⟩
  case winner => exact fun _ => ⟨r', hmem, hagree.symm⟩
  case exhausted =>
    intro hunsat
    have := hunsat r' hmem
    rw [← hagree, hsat] at this
    cases this

/-- **What the workers of a race that is over have come to.** -/
theorem Race.Sound.settled (hi : race.Sound o budget bases) (hover : race.isOver = true)
    (halone : ReportsAlone o budget bases alone) (hlen : alone.length = bases.length)
    (hne : alone ≠ []) (elapsed : Duration) :
    ∃ report, race.verdict? elapsed = some report ∧ race.Settles alone report := by
  have haccounted := hi.accounted hover halone hlen
  obtain ⟨reports, hreports, hk⟩ := haccounted.exists_reports
  refine ⟨⟨outcomeOf reports race.channel.head?, totals reports, elapsed⟩,
    by rw [verdict?, hreports]; rfl, ?_⟩
  cases hi.standing with
  | undecided hf hc h =>
    refine haccounted.settles_undecided hf (hlen.trans hi.size.symm) hne hc ?_ hk elapsed
    intro worker hmem r hr
    obtain ⟨j, hj⟩ := List.getElem?_of_mem hmem
    have hw : race.workers[j]? = some worker := by simpa using hj
    exact (h j worker hw).2 (stage_of_isOver hover hw) r hr
  | @won k winner report hf hw hr hsat hothers h =>
    have hc : race.channel = [k] := by
      rcases h with ⟨h, -⟩ | ⟨-, hc⟩
      · rw [stage_of_isOver hover hw] at h; cases h
      · exact hc
    exact haccounted.settles_won hw hr hsat hc hk elapsed

end Settling

/-! ### Races from their beginning -/

theorem length_forks : ∀ (n : Nat) (s : σ), (RandomStream.forks n s).1.length = n
  | 0, _ => rfl
  | n + 1, s => congrArg (· + 1) (length_forks n (RandomStream.fork s).2)

/-- **The reports of an engine's runs**, each on its own with one of the streams: whatever the
clock, the run ends with this outcome and these counters. -/
structure Engine.RunsAlone (e : Engine) (o : Observer ω) (budget : Budget) (streams : List σ)
    (w : ω) (alone : List Report) : Prop where
  length_eq : alone.length = streams.length
  agrees : ∀ (k : Nat) (s : σ) (r : Report), streams[k]? = some s → alone[k]? = some r →
    ∀ clock, ∃ report, (e.run o budget clock s w).report = some report ∧ report.Agrees r

omit [RandomStream σ] in
theorem Race.exists_raceReport {race : Race σ ω} {elapsed : Duration} {report : Report}
    (h : race.verdict? elapsed = some report) :
    ∃ result, race.raceReport? elapsed = some result ∧ result.report = report := by
  unfold raceReport?
  rw [h]
  exact ⟨_, rfl, rfl⟩

section Beginning
variable {inst : Instance} {t : Schedule} {e : Engine} (he : e.Fresh inst t) {budget : Budget}
  {m : Nat}
include he

theorem Engine.Fresh.exists_alone (hm : budget.maxFlips = some m) (ht : budget.timeLimit = none)
    (o : Observer ω) (streams : List σ) (w : ω) : ∃ alone, e.RunsAlone o budget streams w alone ∧
      ReportsAlone o budget (streams.map (Run.start o e · w)) alone := by
  have hends : ∀ base ∈ streams.map (Run.start o e · w),
      ∃ report, (base.alone o budget budget.passes).report = some report := by
    intro base hbase
    obtain ⟨s, -, rfl⟩ := List.mem_map.mp hbase
    exact he.run_ends hm o _ s w
  obtain ⟨alone, -, hlen, hk⟩ := exists_mapM_eq_some hends
  refine ⟨alone, ⟨by rw [hlen, List.length_map], fun k s r hs hr clock => ?_⟩, hk⟩
  rw [hk k, List.getElem?_map, hs] at hr
  obtain ⟨report, hreport⟩ := he.run_ends hm o clock s w
  have hagree : Run.Agrees (e.run o budget clock s w) (e.run o budget (fun _ => .zero) s w) :=
    Run.advance_agrees ht (he.ready o s w).steady rfl _ _ _
  exact ⟨report, hreport, hagree.reports hreport hr⟩

theorem Engine.Fresh.ready_of_mem {o : Observer ω} {streams : List σ} {w : ω} {base : Run σ ω}
    (hbase : base ∈ streams.map (Run.start o e · w)) : base.Ready := by
  obtain ⟨s, -, rfl⟩ := List.mem_map.mp hbase
  exact he.ready o s w

theorem Engine.Fresh.worker_cost_le {o : Observer ω} {streams : List σ} {w : ω}
    {worker : Worker σ ω} (hworker : worker ∈ (Race.start o e streams w).workers.toList)
    (m : Nat) : worker.cost m ≤ 2 * m + 3 := by
  obtain ⟨s, -, rfl⟩ := List.mem_map.mp hworker
  exact Nat.add_le_add_right (he.passesLeft_le o m s w) 3

theorem Engine.Fresh.race_cost_le (o : Observer ω) (streams : List σ) (w : ω) (m : Nat) :
    (Race.start o e streams w).cost m ≤ streams.length * (2 * m + 3) := by
  have hcost : ∀ c ∈ (Race.start o e streams w).workers.toList.map (Worker.cost m),
      c ≤ 2 * m + 3 := by
    intro c hc
    obtain ⟨worker, hw, rfl⟩ := List.mem_map.mp hc
    exact he.worker_cost_le hw m
  refine (List.sum_le_card_nsmul _ _ hcost).trans_eq ?_
  simp [Race.start]

omit he in
theorem Race.Sound.start (o : Observer ω) (budget : Budget) (e : Engine) (streams : List σ)
    (w : ω) :
    (Race.start o e streams w).Sound o budget (streams.map (Run.start o e · w)) := by
  constructor
  case size => simp [Race.start]
  case follows =>
    intro k base worker hb hw
    rw [List.getElem?_map] at hb
    obtain ⟨s, hs, rfl⟩ := Option.map_eq_some_iff.mp hb
    rw [Race.start, List.getElem?_toArray, List.getElem?_map, hs] at hw
    cases hw
    exact Worker.Follows.running (n := 0) rfl
  case standing =>
    refine .undecided rfl rfl fun k worker hw => ?_
    rw [Race.start, List.getElem?_toArray, List.getElem?_map] at hw
    obtain ⟨s, -, rfl⟩ := Option.map_eq_some_iff.mp hw
    exact ⟨by simp, fun h => by cases h⟩

/-- Whatever the workers of a race do and in whatever order, they do a bounded number of actions,
and the reports of their runs settle its result once it is over. -/
theorem Engine.Fresh.follow_settles (hm : budget.maxFlips = some m) (ht : budget.timeLimit = none)
    (o : Observer ω) {streams : List σ} (hne : streams ≠ []) (w : ω) :
    ∃ alone, e.RunsAlone o budget streams w alone ∧ ∀ actions race,
      (Race.start o e streams w).follow o budget actions = some race →
        actions.length ≤ streams.length * (2 * m + 3) ∧ race.channel.length ≤ 1 ∧
        (race.isOver = true → ∀ elapsed, ∃ result, race.raceReport? elapsed = some result ∧
          race.Settles alone result.report) := by
  obtain ⟨alone, hruns, halone⟩ := he.exists_alone hm ht o streams w
  refine ⟨alone, hruns, fun actions race h => ?_⟩
  have hready : ∀ base ∈ streams.map (Run.start o e · w), base.Ready := fun _ => he.ready_of_mem
  have hstart := Race.Sound.start o budget e streams w
  have hsound := hstart.follow ht (fun base hbase => (hready base hbase).steady) h
  refine ⟨?_, hsound.standing.channel_length_le, fun hover elapsed => ?_⟩
  · have hle := hstart.length_add_cost_le ht hready hm h
    have hcost := he.race_cost_le o streams w m
    omega
  · have hlen : alone.length = (streams.map (Run.start o e · w)).length := by
      rw [List.length_map, hruns.length_eq]
    have hsome : alone ≠ [] := by
      rw [← List.length_pos_iff, hruns.length_eq]
      exact List.length_pos_iff.mpr hne
    obtain ⟨report, hverdict, hsettles⟩ := hsound.settled hover halone hlen hsome elapsed
    obtain ⟨result, hresult, rfl⟩ := Race.exists_raceReport hverdict
    exact ⟨result, hresult, hsettles⟩

end Beginning

/-! ### Races of a configuration -/

/-- How a contest begins. -/
theorem Contest.start_eq (inst : Instance) (config : Config) (threads : Nat) (o : Observer ω)
    (s : σ) (w : ω) :
    Contest.start inst config threads o s w =
      if threads = 0 then .error (.invalidConfig .noThreads)
      else (Engine.ofConfig inst config).map fun e =>
        if threads = 1 then .alone (.start o e s w)
        else .several (Race.start o e (RandomStream.forks threads s).1 w) := by
  unfold Contest.start
  by_cases h0 : threads = 0
  · rw [if_pos h0, if_pos h0]
    rfl
  · rw [if_neg h0, if_neg h0]
    cases Engine.ofConfig inst config with
    | error err => rfl
    | ok e =>
      by_cases h1 : threads = 1
      · simp only [if_pos h1]; rfl
      · simp only [if_neg h1]; rfl

section Several
variable {inst : Instance} {config : Config} {threads m : Nat} (hn : 2 ≤ threads)
include hn

theorem Contest.start_several {e : Engine} (h : Engine.ofConfig inst config = .ok e)
    (o : Observer ω) (s : σ) (w : ω) :
    Contest.start inst config threads o s w =
      .ok (.several (Race.start o e (RandomStream.forks threads s).1 w)) := by
  rw [Contest.start_eq, if_neg (by omega), h]
  simp only [Except.map, if_neg (show ¬threads = 1 by omega)]

theorem forks_ne_nil (s : σ) : (RandomStream.forks threads s).1 ≠ [] := by
  rw [← List.length_pos_iff, length_forks]
  omega

/-- **The result of a race does not depend on the interleaving.**  A race of a valid configuration
with a limit on flips and none on time begins, and there are reports of the workers on their own
such that, whatever actions its workers do and in whatever order, they do a bounded number of them,
at most one number is sent, some worker can go on as long as the race is not over, and once it is
over it has a result, settled by those reports. -/
theorem races_settle_by_runs_alone {noise : Noise} (hv : config.validate = .ok noise)
    (hm : config.budget.maxFlips = some m) (ht : config.budget.timeLimit = none) (o : Observer ω)
    (s : σ) (w : ω) :
    ∃ e first alone, Engine.ofConfig inst config = .ok e ∧
      Contest.start inst config threads o s w = .ok (.several first) ∧
      e.RunsAlone o config.budget (RandomStream.forks threads s).1 w alone ∧
      alone.length = threads ∧
      ∀ actions race, first.follow o config.budget actions = some race →
        actions.length ≤ threads * (2 * m + 3) ∧ race.channel.length ≤ 1 ∧
        (race.isOver = false → ∃ action race', race.act o config.budget action = some race') ∧
        (race.isOver = true → ∀ elapsed, ∃ result, race.raceReport? elapsed = some result ∧
          race.Settles alone result.report) := by
  obtain ⟨e, h⟩ : ∃ e, Engine.ofConfig inst config = .ok e := by
    unfold Engine.ofConfig
    rw [hv]
    exact ⟨_, rfl⟩
  have he : e.Fresh inst config.schedule := .ofConfig rfl h
  obtain ⟨alone, hruns, hsettles⟩ := he.follow_settles hm ht o (forks_ne_nil hn s) w
  refine ⟨e, _, alone, h, Contest.start_several hn h o s w, hruns,
    hruns.length_eq.trans (length_forks threads s), fun actions race hf => ?_⟩
  obtain ⟨hle, hchannel, hover⟩ := hsettles actions race hf
  rw [length_forks] at hle
  exact ⟨hle, hchannel, Race.exists_act, hover⟩

end Several

/-- Three workers race for a model of a formula that has none. -/
theorem race_over_contradiction :
    let config : Config := { Config.default with budget := .flips 5 }
    ∃ e first alone, Engine.ofConfig (.ofClauses [[1], [-1]]) config = .ok e ∧
      Contest.start (.ofClauses [[1], [-1]]) config 3 .silent (⟨0⟩ : Seeded) () =
        .ok (.several first) ∧
      e.RunsAlone .silent (.flips 5) (RandomStream.forks 3 (⟨0⟩ : Seeded)).1 () alone ∧
      ∀ actions race, first.follow .silent (.flips 5) actions = some race →
        actions.length ≤ 39 ∧ race.channel.length ≤ 1 := by
  have hv : ({ Config.default with budget := .flips 5 } : Config).validate =
      .ok ⟨Noise.defaultThreshold⟩ := rfl
  have hn : 2 ≤ 3 := by decide
  intro config
  have hm : config.budget.maxFlips = some 5 := rfl
  obtain ⟨e, first, alone, h, hstart, hruns, -, hfollow⟩ :=
    races_settle_by_runs_alone hn hv hm rfl .silent (⟨0⟩ : Seeded) ()
  refine ⟨e, first, alone, h, hstart, hruns, fun actions race hf => ?_⟩
  obtain ⟨hle, hchannel, -⟩ := hfollow actions race hf
  exact ⟨hle, hchannel⟩

end StochasticSat
