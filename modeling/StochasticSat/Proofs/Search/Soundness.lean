import StochasticSat.Proofs.Rows
import StochasticSat.Proofs.Search.Rounds

/-!
# Sound outcomes

A run reports a model only if its assignment satisfies the instance.  This is a matter of a steady
engine alone (`Run.Honest.pass`), so it holds for every observer, budget and clock, from every
reachable engine, and of every worker of a race in whatever order they act.

The states that the observer goes through are part of the same invariant: a property that the
observer keeps (`Observer.Keeps`) holds of the state it is left in.
-/

namespace StochasticSat

variable {σ ω : Type} [RandomStream σ]

/-- A model that is reported is one. -/
def Outcome.Honest (inst : Instance) (outcome : Outcome) : Prop :=
  ∀ a n, outcome = .satisfied a n → a.numVars = inst.numVars ∧ inst.allSatisfied a.value = true

theorem Outcome.honest_exhausted (inst : Instance) (n : Nat) (reason : StopReason) :
    (Outcome.exhausted n reason).Honest inst := fun _ _ h => by cases h

/-- A property of the states of an observer that nothing it is told destroys. -/
structure Observer.Keeps (o : Observer ω) (P : ω → Prop) : Prop where
  onStart : ∀ inst a w, P w → P (o.onStart inst a w)
  onFlip : ∀ event w, P w → P (o.onFlip event w).2
  onRestart : ∀ n a w, P w → P (o.onRestart n a w)
  onFinish : ∀ report w, P w → P (o.onFinish report w)

theorem Observer.keeps_true (o : Observer ω) : o.Keeps fun _ => True :=
  ⟨fun _ _ _ _ => trivial, fun _ _ _ => trivial, fun _ _ _ _ => trivial, fun _ _ _ => trivial⟩

/-- **What holds of every run** over an instance: its engine is steady, and its report is honest. -/
structure Run.Honest (inst : Instance) (P : ω → Prop) (r : Run σ ω) : Prop where
  steady : r.engine.Steady
  inst_eq : r.engine.inst = inst
  report : ∀ report, r.report = some report → report.outcome.Honest inst
  watcher : P r.watcher

section Runs
variable {o : Observer ω} {budget : Budget} {elapsed : Duration} {inst : Instance} {P : ω → Prop}
  {new : List Event} {r r₁ : Run σ ω}

omit [RandomStream σ] in
theorem Observer.Keeps.stoppedIf (hk : o.Keeps P) (stopped : Bool) :
    (o.stoppedIf stopped).Keeps P := by
  refine ⟨hk.onStart, fun event w hw => ?_, hk.onRestart, hk.onFinish⟩
  cases stopped with
  | false => exact hk.onFlip event w hw
  | true => exact hw

theorem Run.Honest.start (hk : o.Keeps P) {e : Engine} (h : e.phase = .initializing ∨ e.Steady)
    (hi : e.inst = inst) (s : σ) {w : ω} (hw : P w) : (Run.start o e s w).Honest inst P := by
  obtain ⟨hs, hinst⟩ := Engine.steady_ensureBegun h s
  exact ⟨hs, hinst.trans hi, fun report hr => (by cases hr), hk.onStart _ _ _ hw⟩

/-- An outcome that ends a run is honest. -/
theorem Ends.honest {e : Engine} {outcome : Outcome} (h : Ends budget elapsed e outcome)
    (hs : e.Steady) : outcome.Honest e.inst := by
  cases h with
  | satisfied h =>
    intro a n heq
    cases heq
    exact ⟨hs.numVars, hs.satisfied_iff.mp h⟩
  | flipLimit h hf => exact Outcome.honest_exhausted _ _ _
  | timeLimit h hf ht => exact Outcome.honest_exhausted _ _ _

theorem Passed.honest (hp : Passed o budget elapsed r new r₁) (h : r.Honest inst P)
    (hk : o.Keeps P) (hr : r.report = none) : r₁.Honest inst P := by
  obtain ⟨hs, hi⟩ := hp.steady h.steady
  refine ⟨hs, hi.trans h.inst_eq, fun report hreport => ?_, ?_⟩
  · cases hp with
    | ended hends =>
      cases hreport
      exact h.inst_eq ▸ hends.honest h.steady
    | retried _ _ => exact absurd (hr.symm.trans hreport) (by simp)
    | stalled _ _ _ =>
      cases hreport
      exact Outcome.honest_exhausted _ _ _
    | flipped _ _ _ _ => exact absurd (hr.symm.trans hreport) (by simp)
    | cancelled _ _ _ _ =>
      cases hreport
      exact Outcome.honest_exhausted _ _ _
  · have hflip {f : Flip} {d : Verdict} {w : ω}
        (hw : o.onFlip (r.engine.flipEvent f) r.watcher = (d, w)) : P w := by
      have := hk.onFlip (r.engine.flipEvent f) r.watcher h.watcher
      rw [hw] at this
      exact this
    cases hp with
    | ended _ => exact hk.onFinish _ _ h.watcher
    | retried _ _ => exact hk.onRestart _ _ _ h.watcher
    | stalled _ _ _ => exact hk.onFinish _ _ h.watcher
    | flipped _ _ _ hw => exact hflip hw
    | cancelled _ _ _ hw => exact hk.onFinish _ _ (hflip hw)

/-- **Every pass keeps a run honest**, for every observer and budget and at any time. -/
theorem Run.Honest.pass (h : r.Honest inst P) (hk : o.Keeps P) (budget : Budget)
    (elapsed : Duration) : (r.pass o budget elapsed).Honest inst P := by
  cases hr : r.report with
  | none =>
    obtain ⟨new, hp, -⟩ := @pass_passed σ ω _ o budget elapsed r h.steady.begun hr
    exact hp.honest h hk hr
  | some report =>
    rw [pass_of_ended hr]
    exact h

theorem Run.Honest.advance (hk : o.Keeps P) (budget : Budget) (clock : Nat → Duration) :
    ∀ (n : Nat) {r : Run σ ω}, r.Honest inst P → (r.advance o budget clock n).Honest inst P
  | 0, _, h => h
  | n + 1, r, h => by
    rw [advance_succ]
    exact (Run.Honest.advance hk budget clock n h).pass hk _ _

end Runs

/-! ### Races -/

/-- What holds of every worker of a race. -/
def Race.Honest (inst : Instance) (P : ω → Prop) (race : Race σ ω) : Prop :=
  ∀ worker ∈ race.workers.toList, worker.run.Honest inst P

section Races
variable {o : Observer ω} {budget : Budget} {inst : Instance} {P : ω → Prop}
  {race race' : Race σ ω} {action : Action}

omit [RandomStream σ] in
theorem Race.Honest.setWorker (h : race.Honest inst P) {k : Nat} {run : Run σ ω} {stage : Stage}
    (hw : run.Honest inst P) : (race.setWorker k ⟨run, stage⟩).Honest inst P := by
  intro other hmem
  rw [Race.setWorker, Array.toList_setIfInBounds] at hmem
  rcases List.mem_or_eq_of_mem_set hmem with hmem | rfl
  · exact h other hmem
  · exact hw

/-- **Every action keeps the workers honest.** -/
theorem Race.Honest.acted (h : race.Honest inst P) (hk : o.Keeps P)
    (ha : Acted o budget race action race') : race'.Honest inst P := by
  have hrun {k : Nat} {worker : Worker σ ω} (hw : race.workers[k]? = some worker) :
      worker.run.Honest inst P := h worker (by simpa using Array.mem_of_getElem? hw)
  cases ha with
  | passed hw hs hf => exact h.setWorker ((hrun hw).pass (hk.stoppedIf _) _ _)
  | raised hw hs hf => exact h.setWorker (hrun hw)
  | late hw hs hf => exact h.setWorker (hrun hw)
  | sent hw hs => exact h.setWorker (hrun hw)

theorem Race.Honest.follow (hk : o.Keeps P) : ∀ {actions : List Action} {race : Race σ ω},
    race.Honest inst P → race.follow o budget actions = some race' → race'.Honest inst P
  | [], _, h, hf => by cases hf; exact h
  | action :: rest, race, h, hf => by
    obtain ⟨next, hact, hrest⟩ := Option.bind_eq_some_iff.mp hf
    exact Race.Honest.follow hk (h.acted hk (acted_of_act hact)) hrest

omit [RandomStream σ] in
/-- **The result of a race is honest.** -/
theorem Race.Honest.verdict (h : race.Honest inst P) {elapsed : Duration} {report : Report}
    (hv : race.verdict? elapsed = some report) : report.outcome.Honest inst := by
  obtain ⟨reports, hreports, hv⟩ := Option.bind_eq_some_iff.mp hv
  cases hv
  show (outcomeOf reports race.channel.head?).Honest inst
  unfold outcomeOf
  cases hwin : race.channel.head?.bind (reports[·]?) with
  | none => exact Outcome.honest_exhausted _ _ _
  | some r =>
    obtain ⟨k, -, hk⟩ := Option.bind_eq_some_iff.mp hwin
    obtain ⟨worker, hmem, hr⟩ := mem_of_mapM_eq_some hreports r (List.mem_of_getElem? hk)
    exact (h worker hmem).report r hr

end Races

/-! ### Contests -/

/-- The results that a contest can come to: a worker alone makes passes at any times, several act in
any order, until all runs have ended. -/
inductive Contest.Yields (o : Observer ω) (budget : Budget) :
    Contest σ ω → RaceReport ω → Prop
  | alone {run : Run σ ω} {result : RaceReport ω} (clock : Nat → Duration) (n : Nat)
    (h : (run.advance o budget clock n).raceReport? = some result) :
    Yields o budget (.alone run) result
  | several {race race' : Race σ ω} {result : RaceReport ω} (actions : List Action)
    (elapsed : Duration) (hf : race.follow o budget actions = some race')
    (h : race'.raceReport? elapsed = some result) : Yields o budget (.several race) result

/-- What holds of the result of a search. -/
structure RaceReport.Honest (inst : Instance) (P : ω → Prop) (result : RaceReport ω) : Prop where
  outcome : result.report.outcome.Honest inst
  watchers : ∀ w ∈ result.watchers, P w
  notes : ∀ record ∈ result.notes, record.level ≠ .error

theorem Race.winnerNotes_level (threads : Nat) (winner? : Option Nat) :
    ∀ record ∈ winnerNotes threads winner?, record.level ≠ .error := by
  cases winner? with
  | none => simp [winnerNotes]
  | some k => simp [winnerNotes]

section Contests
variable {o : Observer ω} {budget : Budget} {inst : Instance} {P : ω → Prop}

omit [RandomStream σ] in
theorem Run.Honest.raceReport {r : Run σ ω} (h : r.Honest inst P) {result : RaceReport ω}
    (hr : r.raceReport? = some result) : result.Honest inst P := by
  obtain ⟨report, hreport, rfl⟩ := Option.map_eq_some_iff.mp hr
  refine ⟨h.report report hreport, fun w hw => ?_, fun record hmem => by simp at hmem⟩
  rw [List.mem_singleton.mp hw]
  exact h.watcher

omit [RandomStream σ] in
theorem Race.Honest.raceReport {race : Race σ ω} (h : race.Honest inst P) {elapsed : Duration}
    {result : RaceReport ω} (hr : race.raceReport? elapsed = some result) :
    result.Honest inst P := by
  obtain ⟨report, hreport, hr⟩ := Option.bind_eq_some_iff.mp hr
  cases hr
  refine ⟨h.verdict hreport, fun w hw => ?_, winnerNotes_level _ _⟩
  obtain ⟨worker, hmem, rfl⟩ := List.mem_map.mp hw
  exact (h worker hmem).watcher

theorem Race.Honest.start (hk : o.Keeps P) {e : Engine} (h : e.phase = .initializing ∨ e.Steady)
    (hi : e.inst = inst) (streams : List σ) {w : ω} (hw : P w) :
    (Race.start o e streams w).Honest inst P := by
  intro worker hmem
  obtain ⟨s, -, rfl⟩ := List.mem_map.mp hmem
  exact .start hk h hi s hw

theorem Contest.start_eq_ok {config : Config} {threads : Nat} {s : σ} {w : ω}
    {contest : Contest σ ω} (h : Contest.start inst config threads o s w = .ok contest) :
    ∃ e, Engine.ofConfig inst config = .ok e ∧ (contest = .alone (.start o e s w) ∨
      contest = .several (Race.start o e (RandomStream.forks threads s).1 w)) := by
  rw [Contest.start_eq] at h
  by_cases h0 : threads = 0
  · rw [if_pos h0] at h; cases h
  rw [if_neg h0] at h
  cases he : Engine.ofConfig inst config with
  | error err => rw [he] at h; cases h
  | ok e =>
    rw [he] at h
    cases h
    refine ⟨e, rfl, ?_⟩
    by_cases h1 : threads = 1
    · exact Or.inl (if_pos h1)
    · exact Or.inr (if_neg h1)

/-- A contest that does not begin is refused for its configuration. -/
theorem Contest.start_eq_error {config : Config} {threads : Nat} {s : σ} {w : ω} {err : Error}
    (h : Contest.start inst config threads o s w = .error err) :
    ∃ fault, err = .invalidConfig fault := by
  rw [Contest.start_eq] at h
  by_cases h0 : threads = 0
  · rw [if_pos h0] at h
    cases h
    exact ⟨_, rfl⟩
  rw [if_neg h0] at h
  cases he : Engine.ofConfig inst config with
  | error err' =>
    rw [he] at h
    cases h
    exact Engine.ofConfig_eq_error he
  | ok e => rw [he] at h; cases h

/-- **Whatever a contest yields is honest.** -/
theorem Contest.Yields.honest {config : Config} {threads : Nat} {s : σ} {w : ω}
    {contest : Contest σ ω} {result : RaceReport ω} (hk : o.Keeps P) (hw : P w)
    (hstart : Contest.start inst config threads o s w = .ok contest)
    (h : contest.Yields o budget result) : result.Honest inst P := by
  obtain ⟨e, he, hcontest⟩ := Contest.start_eq_ok hstart
  obtain ⟨noise, rfl⟩ := Engine.ofConfig_eq_ok he
  cases h with
  | @alone run result clock n h =>
    obtain hrun | hrun := hcontest
    · cases hrun
      exact (Run.Honest.advance hk budget clock n
        (.start hk (Or.inl rfl) rfl s hw)).raceReport h
    · cases hrun
  | @several race race' result actions elapsed hf h =>
    obtain hrace | hrace := hcontest
    · cases hrace
    · cases hrace
      exact ((Race.Honest.start hk (Or.inl rfl) rfl _ hw).follow hk hf).raceReport h

end Contests

end StochasticSat
