import Mathlib.Tactic.Common
import StochasticSat.Proofs.Search.Endings
import StochasticSat.Search.Race

/-!
# The workers of a race

`Race.follow` lets the workers of a race act in any order, and `Race.Acted` says once what an action
does.  Whatever the order, a worker that has not been cancelled has made the passes of a run on its
own (`Worker.Follows`), so its result does not depend on the others; and of the workers with a model
exactly one raises the flag and sends its number (`Race.Standing`).  Both are kept by every action
(`Race.Sound.acted`).
-/

namespace StochasticSat

variable {σ ω : Type} [RandomStream σ]

/-- The worker that does an action. -/
def Action.worker : Action → Nat
  | .pass k _ _ => k
  | .exchange k => k
  | .send k => k

namespace Race

/-! ### Actions -/

/-- The race after a row of actions, if the workers can do them in this order. -/
def follow (o : Observer ω) (budget : Budget) : List Action → Race σ ω → Option (Race σ ω)
  | [], race => some race
  | action :: rest, race => (race.act o budget action).bind (follow o budget rest)

/-- **What an action does.** -/
inductive Acted (o : Observer ω) (budget : Budget) (race : Race σ ω) : Action → Race σ ω → Prop
  | passed {k : Nat} {sees : Bool} {elapsed : Duration} {worker : Worker σ ω}
    (hw : race.workers[k]? = some worker) (hs : worker.stage = .running)
    (hf : sees = true → race.flag = true) :
    Acted o budget race (.pass k sees elapsed)
      (race.setWorker k ⟨worker.run.pass (o.stoppedIf sees) budget elapsed,
        .ofReport (worker.run.pass (o.stoppedIf sees) budget elapsed).report⟩)
  | raised {k : Nat} {worker : Worker σ ω} (hw : race.workers[k]? = some worker)
    (hs : worker.stage = .claiming) (hf : race.flag = false) :
    Acted o budget race (.exchange k)
      { race.setWorker k ⟨worker.run, .announcing⟩ with flag := true }
  | late {k : Nat} {worker : Worker σ ω} (hw : race.workers[k]? = some worker)
    (hs : worker.stage = .claiming) (hf : race.flag = true) :
    Acted o budget race (.exchange k) (race.setWorker k ⟨worker.run, .done⟩)
  | sent {k : Nat} {worker : Worker σ ω} (hw : race.workers[k]? = some worker)
    (hs : worker.stage = .announcing) :
    Acted o budget race (.send k)
      { race.setWorker k ⟨worker.run, .done⟩ with channel := race.channel ++ [k] }

variable {o : Observer ω} {budget : Budget} {race race' : Race σ ω} {action : Action}

theorem acted_of_act (h : race.act o budget action = some race') :
    Acted o budget race action race' := by
  cases action with
  | pass k sees elapsed =>
    obtain ⟨worker, hw, h⟩ := Option.bind_eq_some_iff.mp h
    split_ifs at h with hs
    cases h
    exact .passed hw hs.1 hs.2
  | exchange k =>
    obtain ⟨worker, hw, h⟩ := Option.bind_eq_some_iff.mp h
    split_ifs at h with hs hf
    · cases h
      have hflag : ({ race.setWorker k ⟨worker.run, .done⟩ with flag := true } : Race σ ω) =
          race.setWorker k ⟨worker.run, .done⟩ := by
        rw [setWorker, hf]
      rw [hflag]
      exact .late hw hs hf
    · cases h
      exact .raised hw hs (by simpa using hf)
  | send k =>
    obtain ⟨worker, hw, h⟩ := Option.bind_eq_some_iff.mp h
    split_ifs at h with hs
    cases h
    exact .sent hw hs

/-- The next action of a worker is its own, and the worker can do it. -/
theorem exists_act_nextAction (o : Observer ω) (budget : Budget) {k : Nat} {elapsed : Duration}
    (h : race.nextAction? elapsed k = some action) :
    action.worker = k ∧ ∃ race', race.act o budget action = some race' := by
  obtain ⟨worker, hw, h⟩ := Option.bind_eq_some_iff.mp h
  cases hs : worker.stage with
  | running =>
    rw [hs] at h
    cases h
    exact ⟨rfl, _, by simp [act, hw, hs]; rfl⟩
  | claiming =>
    rw [hs] at h
    cases h
    exact ⟨rfl, _, by simp [act, hw, hs]; rfl⟩
  | announcing =>
    rw [hs] at h
    cases h
    exact ⟨rfl, _, by simp [act, hw, hs]; rfl⟩
  | done =>
    rw [hs] at h
    cases h

omit [RandomStream σ] in
theorem done_of_nextAction {k : Nat} {elapsed : Duration} (h : race.nextAction? elapsed k = none)
    {worker : Worker σ ω} (hw : race.workers[k]? = some worker) : worker.stage = .done := by
  unfold nextAction? at h
  rw [hw] at h
  cases hs : worker.stage <;> simp [hs] at h ⊢

/-- **A turn** is an action of its worker, unless that is done. -/
theorem turn_cases (o : Observer ω) (budget : Budget) (elapsed : Duration) (race : Race σ ω)
    (k : Nat) :
    (race.turn o budget elapsed k = race ∧
      ∀ worker, race.workers[k]? = some worker → worker.stage = .done) ∨
    ∃ action, action.worker = k ∧
      race.act o budget action = some (race.turn o budget elapsed k) := by
  cases h : race.nextAction? elapsed k with
  | none =>
    refine Or.inl ⟨?_, fun worker hw => done_of_nextAction h hw⟩
    rw [turn, h]
    rfl
  | some action =>
    obtain ⟨hk, race', hact⟩ := exists_act_nextAction o budget h
    refine Or.inr ⟨action, hk, ?_⟩
    rw [turn, h, Option.bind_some, hact, Option.getD_some]

omit [RandomStream σ] in
theorem workers_setWorker {k : Nat} {worker : Worker σ ω} (hw : race.workers[k]? = some worker)
    (worker' : Worker σ ω) (j : Nat) :
    (race.setWorker k worker').workers[j]? =
      if k = j then some worker' else race.workers[j]? := by
  have hlt : k < race.workers.size := (Array.getElem?_eq_some_iff.mp hw).1
  rw [setWorker, Array.getElem?_setIfInBounds, if_pos hlt]

end Race

/-! ### Workers -/

/-- The first `n` passes of a run on its own, at time zero. -/
def Run.alone (o : Observer ω) (budget : Budget) (base : Run σ ω) (n : Nat) : Run σ ω :=
  base.advance o budget (fun _ => .zero) n

/-- **What a worker has done**, by the beginning of its run and the state of the flag: it is as far
as its run would be on its own, it has ended as that ends, or it has been cancelled. -/
inductive Worker.Follows (o : Observer ω) (budget : Budget) (base : Run σ ω) (flag : Bool) :
    Worker σ ω → Prop
  | running {n : Nat} (h : (base.alone o budget n).report = none) :
    Follows o budget base flag ⟨base.alone o budget n, .running⟩
  | found {run : Run σ ω} {stage : Stage} {report report' : Report} {n : Nat}
    (h : run.report = some report) (h' : (base.alone o budget n).report = some report')
    (ha : report.Agrees report') (hsat : report.outcome.isSatisfied = true)
    (hs : stage ≠ .running) : Follows o budget base flag ⟨run, stage⟩
  | exhausted {run : Run σ ω} {report report' : Report} {n : Nat}
    (h : run.report = some report) (h' : (base.alone o budget n).report = some report')
    (ha : report.Agrees report') (hsat : report.outcome.isSatisfied = false) :
    Follows o budget base flag ⟨run, .done⟩
  | cancelled {run : Run σ ω} {report : Report} {n : Nat} (h : run.report = some report)
    (ho : report.outcome = .exhausted n .cancelled) (hf : flag = true) :
    Follows o budget base flag ⟨run, .done⟩

section Workers
variable {o : Observer ω} {budget : Budget} {base : Run σ ω} {flag : Bool} {worker : Worker σ ω}

theorem Worker.Follows.mono {flag' : Bool} (h : worker.Follows o budget base flag)
    (hf : flag = true → flag' = true) : worker.Follows o budget base flag' := by
  cases h with
  | running h => exact .running h
  | found h h' ha hsat hs => exact .found h h' ha hsat hs
  | exhausted h h' ha hsat => exact .exhausted h h' ha hsat
  | cancelled h ho hf' => exact .cancelled h ho (hf hf')

/-- A worker with something to say about its model has one. -/
theorem Worker.Follows.exists_satisfied (h : worker.Follows o budget base flag)
    (hr : worker.stage ≠ .running) (hd : worker.stage ≠ .done) :
    ∃ report, worker.run.report = some report ∧ report.outcome.isSatisfied = true := by
  cases h with
  | running h => exact absurd rfl hr
  | found h h' ha hsat hs => exact ⟨_, h, hsat⟩
  | exhausted h h' ha hsat => exact absurd rfl hd
  | cancelled h ho hf => exact absurd rfl hd

/-- It may then say it. -/
theorem Worker.Follows.next (h : worker.Follows o budget base flag) (hr : worker.stage ≠ .running)
    (hd : worker.stage ≠ .done) {stage : Stage} (hs : stage ≠ .running) :
    Worker.Follows o budget base flag ⟨worker.run, stage⟩ := by
  cases h with
  | running h => exact absurd rfl hr
  | found h h' ha hsat _ => exact .found h h' ha hsat hs
  | exhausted h h' ha hsat => exact absurd rfl hd
  | cancelled h ho hf => exact absurd rfl hd

/-- **A pass in a race** is a pass on its own, unless the flag cancels it. -/
theorem Worker.Follows.pass (h : worker.Follows o budget base flag)
    (ht : budget.timeLimit = none) (hb : base.engine.Steady) (hs : worker.stage = .running)
    {sees : Bool} (hf : sees = true → flag = true) (elapsed : Duration) :
    Worker.Follows o budget base flag ⟨worker.run.pass (o.stoppedIf sees) budget elapsed,
      .ofReport (worker.run.pass (o.stoppedIf sees) budget elapsed).report⟩ := by
  cases h with
  | @running n h =>
    have hbegun : (base.alone o budget n).engine.phase ≠ .initializing :=
      (Run.steady_advance hb _ n).1.begun
    have hnext : (base.alone o budget n).pass o budget .zero = base.alone o budget (n + 1) :=
      (Run.advance_succ n base).symm
    rcases Run.pass_stoppedIf ht hbegun h sees elapsed .zero with hpass | ⟨hsees, i, stats, hpass⟩
    · rw [hnext] at hpass
      generalize (base.alone o budget n).pass (o.stoppedIf sees) budget elapsed = run at hpass ⊢
      cases hpass with
      | running hr =>
        rw [hr]
        exact .running hr
      | @ended _ report _ hr hr' ha =>
        rw [hr]
        cases hsat : report.outcome.isSatisfied with
        | false =>
          rw [Stage.ofReport, hsat]
          exact .exhausted hr hr' ha hsat
        | true => exact .found hr hr' ha hsat (by simp [Stage.ofReport, hsat])
    · rw [hpass]
      exact .cancelled hpass rfl (hf hsees)
  | found h h' ha hsat hs' => exact absurd hs hs'
  | exhausted h h' ha hsat => cases hs
  | cancelled h ho hf' => cases hs

end Workers

/-! ### The flag and the channel -/

namespace Race

/-- **Who has won.**  As long as the flag is down nobody has; once it is up there is one worker that
has raised it, and only that one ever sends its number. -/
inductive Standing (race : Race σ ω) : Prop
  | undecided (hf : race.flag = false) (hc : race.channel = [])
    (h : ∀ (k : Nat) (worker : Worker σ ω), race.workers[k]? = some worker →
      worker.stage ≠ .announcing ∧ (worker.stage = .done → ∀ report,
        worker.run.report = some report → report.outcome.isSatisfied = false))
  | won {k : Nat} {winner : Worker σ ω} {report : Report} (hf : race.flag = true)
    (hw : race.workers[k]? = some winner) (hr : winner.run.report = some report)
    (hsat : report.outcome.isSatisfied = true)
    (hothers : ∀ (j : Nat) (worker : Worker σ ω), j ≠ k → race.workers[j]? = some worker →
      worker.stage ≠ .announcing)
    (h : winner.stage = .announcing ∧ race.channel = [] ∨
      winner.stage = .done ∧ race.channel = [k])

/-- **What holds of a race** that began with the given runs, in whatever order its workers act. -/
structure Sound (o : Observer ω) (budget : Budget) (bases : List (Run σ ω)) (race : Race σ ω) :
    Prop where
  size : race.workers.size = bases.length
  follows : ∀ (k : Nat) (base : Run σ ω) (worker : Worker σ ω), bases[k]? = some base →
    race.workers[k]? = some worker → worker.Follows o budget base race.flag
  standing : race.Standing

variable {o : Observer ω} {budget : Budget} {bases : List (Run σ ω)} {race race' : Race σ ω}
  {action : Action}

theorem ofReport_ne_announcing (report : Option Report) : Stage.ofReport report ≠ .announcing := by
  cases report with
  | none => simp [Stage.ofReport]
  | some report =>
    simp only [Stage.ofReport]
    split_ifs <;> simp

theorem unsatisfied_of_ofReport_done {report : Report}
    (h : Stage.ofReport (some report) = .done) : report.outcome.isSatisfied = false := by
  simp only [Stage.ofReport] at h
  split_ifs at h with hsat
  simpa using hsat

/-- The base of a worker, which has as many slots as there are workers. -/
theorem Sound.exists_base (hi : race.Sound o budget bases) {k : Nat} {worker : Worker σ ω}
    (hw : race.workers[k]? = some worker) :
    ∃ base, bases[k]? = some base ∧ worker.Follows o budget base race.flag := by
  have hlt := (Array.getElem?_eq_some_iff.mp hw).1
  rw [hi.size] at hlt
  exact ⟨_, List.getElem?_eq_getElem hlt, hi.follows k _ _ (List.getElem?_eq_getElem hlt) hw⟩

/-- Following is kept when one worker moves and the flag does not go down. -/
theorem Sound.follows_setWorker (hi : race.Sound o budget bases) {k : Nat} {worker' : Worker σ ω}
    {worker : Worker σ ω} (hw : race.workers[k]? = some worker) {flag : Bool}
    (hf : race.flag = true → flag = true)
    (h : ∀ base, bases[k]? = some base → worker'.Follows o budget base flag) :
    ∀ (j : Nat) (base : Run σ ω) (other : Worker σ ω), bases[j]? = some base →
      (race.setWorker k worker').workers[j]? = some other → other.Follows o budget base flag := by
  intro j base other hj ho
  rw [workers_setWorker hw] at ho
  split_ifs at ho with hkj
  · cases ho
    subst hkj
    exact h base hj
  · exact (hi.follows j base other hj ho).mono hf

omit [RandomStream σ] in
theorem Standing.channel_length_le (h : race.Standing) : race.channel.length ≤ 1 := by
  cases h with
  | undecided _ hc => rw [hc]; simp
  | won _ _ _ _ _ h => rcases h with ⟨-, hc⟩ | ⟨-, hc⟩ <;> rw [hc] <;> simp

section Standing
variable {k : Nat} {worker : Worker σ ω} (hw : race.workers[k]? = some worker)
omit [RandomStream σ]
include hw

/-- Once the flag is up, a worker that has not raised it moves freely. -/
theorem Standing.bystander (h : race.Standing) (hf : race.flag = true)
    (ha : worker.stage ≠ .announcing) (hd : worker.stage ≠ .done) {worker' : Worker σ ω}
    (ha' : worker'.stage ≠ .announcing) : (race.setWorker k worker').Standing := by
  cases h with
  | undecided hf' => rw [hf] at hf'; cases hf'
  | @won k' winner report hf hw' hr hsat hothers h =>
    have hne : k ≠ k' := by
      rintro rfl
      rw [hw] at hw'
      cases hw'
      rcases h with ⟨h, -⟩ | ⟨h, -⟩
      · exact ha h
      · exact hd h
    refine .won hf (by rw [workers_setWorker hw, if_neg hne]; exact hw') hr hsat ?_ h
    intro j other hj ho
    rw [workers_setWorker hw] at ho
    split_ifs at ho
    · cases ho
      exact ha'
    · exact hothers j other hj ho

theorem Standing.passed (h : race.Standing) (hs : worker.stage = .running) (run : Run σ ω) :
    (race.setWorker k ⟨run, .ofReport run.report⟩).Standing := by
  cases h with
  | undecided hf hc h =>
    refine .undecided hf hc fun j other ho => ?_
    rw [workers_setWorker hw] at ho
    split_ifs at ho with hkj
    · cases ho
      refine ⟨ofReport_ne_announcing _, fun hd report hr => ?_⟩
      have hr' : run.report = some report := hr
      have hd' : Stage.ofReport run.report = .done := hd
      rw [hr'] at hd'
      exact unsatisfied_of_ofReport_done hd'
    · exact h j other ho
  | won hf hw' hr hsat hothers h =>
    exact (Standing.won hf hw' hr hsat hothers h).bystander hw hf (by rw [hs]; simp)
      (by rw [hs]; simp) (ofReport_ne_announcing _)

theorem Standing.raised (h : race.Standing) (hf : race.flag = false) {report : Report}
    (hr : worker.run.report = some report) (hsat : report.outcome.isSatisfied = true) :
    Standing { race.setWorker k ⟨worker.run, .announcing⟩ with flag := true } := by
  cases h with
  | undecided _ hc h =>
    have hself : (race.setWorker k ⟨worker.run, .announcing⟩).workers[k]? =
        some ⟨worker.run, .announcing⟩ := by rw [workers_setWorker hw, if_pos rfl]
    refine .won rfl hself hr hsat (fun j other hj ho => ?_) (Or.inl ⟨rfl, hc⟩)
    have ho' : (race.setWorker k _).workers[j]? = some other := ho
    rw [workers_setWorker hw, if_neg (Ne.symm hj)] at ho'
    exact (h j other ho').1
  | won hf' => rw [hf] at hf'; cases hf'

theorem Standing.sent (h : race.Standing) (hs : worker.stage = .announcing) :
    Standing { race.setWorker k ⟨worker.run, .done⟩ with channel := race.channel ++ [k] } := by
  cases h with
  | undecided _ _ h => exact absurd hs (h k worker hw).1
  | @won k' winner report hf hw' hr hsat hothers h =>
    obtain rfl : k = k' := by
      by_contra hne
      exact hothers k worker hne hw hs
    rw [hw] at hw'
    cases hw'
    have hc : race.channel = [] := by
      rcases h with ⟨-, hc⟩ | ⟨h, -⟩
      · exact hc
      · rw [hs] at h; cases h
    have hself : (race.setWorker k ⟨worker.run, .done⟩).workers[k]? = some ⟨worker.run, .done⟩ := by
      rw [workers_setWorker hw, if_pos rfl]
    refine .won hf hself hr hsat (fun j other hj ho => ?_) (Or.inr ⟨rfl, by rw [hc]; rfl⟩)
    have ho' : (race.setWorker k _).workers[j]? = some other := ho
    rw [workers_setWorker hw, if_neg (Ne.symm hj)] at ho'
    exact hothers j other hj ho'

end Standing

/-- **Every action keeps what holds of a race.** -/
theorem Sound.acted (hi : race.Sound o budget bases) (h : Acted o budget race action race')
    (ht : budget.timeLimit = none) (hb : ∀ base ∈ bases, base.engine.Steady) :
    race'.Sound o budget bases := by
  have hsize : ∀ k worker, (race.setWorker k worker).workers.size = bases.length := by
    intro k worker
    rw [setWorker, Array.size_setIfInBounds]
    exact hi.size
  cases h with
  | @passed k sees elapsed worker hw hs hf =>
    refine ⟨hsize _ _, ?_, hi.standing.passed hw hs _⟩
    refine hi.follows_setWorker hw id fun base hk => ?_
    exact (hi.follows k base worker hk hw).pass ht (hb base (List.mem_of_getElem? hk)) hs hf elapsed
  | @raised k worker hw hs hf =>
    obtain ⟨base, hk, hfollows⟩ := hi.exists_base hw
    have hrun : worker.stage ≠ .running := by rw [hs]; simp
    have hdone : worker.stage ≠ .done := by rw [hs]; simp
    obtain ⟨report, hr, hsat⟩ := hfollows.exists_satisfied hrun hdone
    refine ⟨hsize _ _, ?_, hi.standing.raised hw hf hr hsat⟩
    refine hi.follows_setWorker hw (fun _ => rfl) fun base' hk' => ?_
    exact ((hi.follows k base' worker hk' hw).next hrun hdone (by simp)).mono fun _ => rfl
  | @late k worker hw hs hf =>
    have hrun : worker.stage ≠ .running := by rw [hs]; simp
    have hdone : worker.stage ≠ .done := by rw [hs]; simp
    refine ⟨hsize _ _, ?_, hi.standing.bystander hw hf (by rw [hs]; simp) hdone (by simp)⟩
    refine hi.follows_setWorker hw id fun base hk => ?_
    exact (hi.follows k base worker hk hw).next hrun hdone (by simp)
  | @sent k worker hw hs =>
    have hrun : worker.stage ≠ .running := by rw [hs]; simp
    have hdone : worker.stage ≠ .done := by rw [hs]; simp
    refine ⟨hsize _ _, ?_, hi.standing.sent hw hs⟩
    refine hi.follows_setWorker hw id fun base hk => ?_
    exact (hi.follows k base worker hk hw).next hrun hdone (by simp)

theorem Sound.follow (ht : budget.timeLimit = none) (hb : ∀ base ∈ bases, base.engine.Steady) :
    ∀ {actions : List Action} {race : Race σ ω}, race.Sound o budget bases →
      race.follow o budget actions = some race' → race'.Sound o budget bases
  | [], _, hi, h => by cases h; exact hi
  | action :: rest, race, hi, h => by
    obtain ⟨next, hact, hrest⟩ := Option.bind_eq_some_iff.mp h
    exact Sound.follow ht hb (hi.acted (acted_of_act hact) ht hb) hrest

end Race

end StochasticSat
