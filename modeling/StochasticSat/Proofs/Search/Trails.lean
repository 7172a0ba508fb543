import StochasticSat.Proofs.Search.Endings

/-!
# The trail of an engine

Budgets, clocks and observers decide when a run stops, not what it does.  `Engine.next` is what an
engine does next if nothing stops it, and `Engine.trail` strings these moves together.

A pass that does not end the run is a move of its engine (`Passed.moved`); one that does is
`Stopped` in one of three ways.  So a run that has not ended after `n` passes stands where the trail
stands after `n` moves (`Engine.onTrail_of_running`), and a run that has ended made its last pass
from there (`Engine.exists_end`).  What holds along every trail (`Engine.trail_induction`) holds
along every run.
-/

namespace StochasticSat

variable {σ ω : Type} [RandomStream σ]

/-! ### Moves -/

def Event.isFinish : Event → Bool
  | finish _ => true
  | _ => false

/-- What an engine does if nothing stops it: the event, and the engine and the stream after it. -/
inductive Engine.Moved (e : Engine) (s : σ) : Event → Engine → σ → Prop
  | restarted (h : e.phase ≠ .satisfied) (hd : e.restarter.remaining = 0) :
    Moved e s (.restart (e.stats.restarts + 1) (e.rearmed.restart s).1.assignment)
      (e.rearmed.restart s).1 (e.rearmed.restart s).2
  | flipped {f : Flip} {s' : σ} (h : e.phase ≠ .satisfied) (hd : e.restarter.remaining ≠ 0)
    (hp : e.propose s = (some f, s')) :
    Moved e s (.flip (e.flipEvent f)) (e.counted.apply f) s'

/-- The next move; there is none if every clause is satisfied or if there is nothing to flip. -/
def Engine.next (e : Engine) (s : σ) : Option (Event × Engine × σ) :=
  if e.phase = .satisfied then none
  else if e.restarter.remaining = 0 then
    let (e', s') := e.rearmed.restart s
    some (.restart e'.stats.restarts e'.assignment, e', s')
  else
    match e.propose s with
    | (none, _) => none
    | (some f, s') => some (.flip (e.flipEvent f), e.counted.apply f, s')

namespace Engine

variable {e e' : Engine} {s s' : σ} {event : Event}

theorem next_eq_some_iff : e.next s = some (event, e', s') ↔ e.Moved s event e' s' := by
  constructor
  · intro h
    unfold next at h
    split_ifs at h with hp hd
    · cases h
      exact .restarted hp hd
    · rcases hf : e.propose s with ⟨_ | f, s₁⟩
      · simp [hf] at h
      · simp only [hf, Option.some.injEq, Prod.mk.injEq] at h
        obtain ⟨rfl, rfl, rfl⟩ := h
        exact .flipped hp hd hf
  · rintro (⟨hp, hd⟩ | ⟨hp, hd, hf⟩)
    · rw [next, if_neg hp, if_pos hd]
      rfl
    · rw [next, if_neg hp, if_neg hd, hf]

namespace Moved

variable (h : e.Moved s event e' s')
include h

theorem unsatisfied : e.phase ≠ .satisfied := by
  cases h with
  | restarted h hd => exact h
  | flipped h hd hp => exact h

theorem steady (hs : e.Steady) : e'.Steady ∧ e'.inst = e.inst := by
  cases h with
  | restarted h hd => exact ⟨.restart _ _, rfl⟩
  | flipped h hd hp => exact ⟨hs.counted.apply h _, rfl⟩

theorem iterations : e'.iterations = e.iterations + flipsIn [event] := by
  cases h with
  | restarted h hd => rfl
  | flipped h hd hp => rfl

theorem isFinish : event.isFinish = false := by
  cases h with
  | restarted h hd => rfl
  | flipped h hd hp => rfl

/-- An engine that moves has something to flip unless it restarts. -/
theorem propose_ne_none (hd : e.restarter.remaining ≠ 0) : (e.propose s).1 ≠ none := by
  cases h with
  | restarted h hd' => exact absurd hd' hd
  | flipped h hd hp => simp [hp]

end Moved

end Engine

/-! ### Trails -/

/-- Where an engine has come to, with the stream it goes on with and the events on the way. -/
structure Trail (σ : Type) where
  engine : Engine
  stream : σ
  events : List Event

/-- The trail after one more move, if there is one. -/
def Trail.extend (t : Trail σ) : Trail σ :=
  match t.engine.next t.stream with
  | none => t
  | some (event, e, s) => ⟨e, s, t.events ++ [event]⟩

theorem Trail.extend_of_moved {t : Trail σ} {event : Event} {e : Engine} {s : σ}
    (h : t.engine.Moved t.stream event e s) : t.extend = ⟨e, s, t.events ++ [event]⟩ := by
  rw [extend, Engine.next_eq_some_iff.mpr h]

/-- A trail ends where every clause is satisfied. -/
theorem Trail.extend_of_satisfied {t : Trail σ} (h : t.engine.phase = .satisfied) :
    t.extend = t := by
  rw [extend, Engine.next, if_pos h]

theorem Trail.extend_cases (t : Trail σ) :
    t.extend = t ∨ ∃ event e s, t.engine.Moved t.stream event e s ∧
      t.extend = ⟨e, s, t.events ++ [event]⟩ := by
  cases hn : t.engine.next t.stream with
  | none => exact Or.inl (by rw [extend, hn])
  | some move =>
    obtain ⟨event, e, s⟩ := move
    have hm := Engine.next_eq_some_iff.mp hn
    exact Or.inr ⟨event, e, s, hm, extend_of_moved hm⟩

namespace Engine

/-- **What an engine does in `n` moves** if nothing stops it. -/
def trail (e : Engine) (s : σ) : Nat → Trail σ
  | 0 => ⟨(e.ensureBegun s).1, (e.ensureBegun s).2,
      [.start e.inst (e.ensureBegun s).1.assignment]⟩
  | n + 1 => (e.trail s n).extend

variable {e : Engine} {s : σ}

/-- What every move keeps holds all along the trail. -/
theorem trail_induction {P : Trail σ → Prop} (hstart : P (e.trail s 0))
    (hmove : ∀ t event e' s', P t → t.engine.Moved t.stream event e' s' →
      P ⟨e', s', t.events ++ [event]⟩) : ∀ n, P (e.trail s n)
  | 0 => hstart
  | n + 1 => by
    have ih := trail_induction hstart hmove n
    rw [trail]
    rcases (e.trail s n).extend_cases with he | ⟨event, e', s', hm, he⟩
    · rw [he]
      exact ih
    · rw [he]
      exact hmove _ _ _ _ ih hm

/-- A trail only gets longer. -/
theorem trail_prefix {m n : Nat} (h : m ≤ n) : (e.trail s m).events <+: (e.trail s n).events := by
  induction n, h using Nat.le_induction with
  | base => exact List.prefix_refl _
  | succ n _ ih =>
    refine ih.trans ?_
    rw [trail]
    rcases (e.trail s n).extend_cases with he | ⟨event, e', s', -, he⟩
    · simp only [he, List.prefix_refl]
    · rw [he]
      exact List.prefix_append _ _

/-- The engine counts the flips of its trail. -/
theorem iterations_trail (n : Nat) : (e.trail s n).engine.iterations =
    (e.ensureBegun s).1.iterations + flipsIn (e.trail s n).events := by
  refine trail_induction (P := fun t => t.engine.iterations =
    (e.ensureBegun s).1.iterations + flipsIn t.events) rfl (fun t event e' s' ht hm => ?_) n
  rw [hm.iterations, ht, flipsIn_append, Nat.add_assoc]

theorem steady_trail (h : e.phase = .initializing ∨ e.Steady) (n : Nat) :
    (e.trail s n).engine.Steady ∧ (e.trail s n).engine.inst = e.inst := by
  refine trail_induction (P := fun t => t.engine.Steady ∧ t.engine.inst = e.inst)
    (steady_ensureBegun h s) (fun t event e' s' ⟨hs, hi⟩ hm => ?_) n
  obtain ⟨hs', hi'⟩ := hm.steady hs
  exact ⟨hs', hi'.trans hi⟩

theorem trail_of_satisfied {m n : Nat} (hmn : m ≤ n)
    (h : (e.trail s m).engine.phase = .satisfied) : e.trail s n = e.trail s m := by
  induction n, hmn using Nat.le_induction with
  | base => rfl
  | succ n _ ih => rw [trail, ih, Trail.extend_of_satisfied h]

end Engine

/-! ### Runs along a trail -/

/-- The run of an engine after `n` passes. -/
def Engine.runFor (e : Engine) (o : Observer ω) (budget : Budget) (clock : Nat → Duration) (n : Nat)
    (s : σ) (w : ω) : Run σ ω := (Run.start o e s w).advance o budget clock n

/-- **How a pass ends a run**, with the report and the last events. -/
inductive Stopped (o : Observer ω) (budget : Budget) (elapsed : Duration) (r : Run σ ω)
    (report : Report) : List Event → Prop
  | ended (h : Ends budget elapsed r.engine report.outcome) :
    Stopped o budget elapsed r report [.finish report]
  | stalled {s : σ} (h : GoesOn budget elapsed r.engine) (hd : r.engine.restarter.remaining ≠ 0)
    (hp : r.engine.propose r.stream = (none, s))
    (ho : report.outcome = .exhausted r.engine.iterations .flipLimit) :
    Stopped o budget elapsed r report [.finish report]
  | cancelled {f : Flip} {s : σ} (h : GoesOn budget elapsed r.engine)
    (hd : r.engine.restarter.remaining ≠ 0) (hp : r.engine.propose r.stream = (some f, s))
    (hw : (o.onFlip (r.engine.flipEvent f) r.watcher).1 = .stop)
    (ho : report.outcome = .exhausted (r.engine.iterations + 1) .cancelled) :
    Stopped o budget elapsed r report [.flip (r.engine.flipEvent f), .finish report]

section Passes
variable {o : Observer ω} {budget : Budget} {elapsed : Duration} {new : List Event}
  {r r₁ : Run σ ω}

/-- A pass that does not end the run is a move of its engine. -/
theorem Passed.moved (hp : Passed o budget elapsed r new r₁) (hr : r₁.report = none) :
    GoesOn budget elapsed r.engine ∧
      ∃ event, new = [event] ∧ r.engine.Moved r.stream event r₁.engine r₁.stream := by
  cases hp with
  | ended h => exact absurd hr (by simp [Run.finish])
  | retried h hd => exact ⟨h, _, rfl, .restarted h.unsatisfied hd⟩
  | stalled h hd hp => exact absurd hr (by simp [Run.giveUp, Run.finish])
  | flipped h hd hp hw => exact ⟨h, _, rfl, .flipped h.unsatisfied hd hp⟩
  | cancelled h hd hp hw => exact absurd hr (by simp [Run.giveUp, Run.finish])

/-- A pass that ends the run has stopped it. -/
theorem Passed.stopped (hp : Passed o budget elapsed r new r₁) (hr : r.report = none)
    {report : Report} (h : r₁.report = some report) : Stopped o budget elapsed r report new := by
  cases hp with
  | ended hends =>
    cases h
    exact .ended hends
  | retried hg hd => exact absurd (hr.symm.trans h) (by simp)
  | stalled hg hd hp =>
    cases h
    exact .stalled hg hd hp rfl
  | flipped hg hd hp hw => exact absurd (hr.symm.trans h) (by simp)
  | cancelled hg hd hp hw =>
    cases h
    exact .cancelled hg hd hp (congrArg Prod.fst hw) rfl

/-- A pass that ends the run and tells of a move has been cancelled after that move. -/
theorem Stopped.cancelled_of_split {report : Report} (h : Stopped o budget elapsed r report new)
    {pre post : List Event} {event : Event} (hsplit : new = pre ++ event :: post)
    (he : event.isFinish = false) :
    pre = [] ∧ post = [.finish report] ∧
      report.outcome = .exhausted (r.engine.iterations + flipsIn [event]) .cancelled := by
  have hfinish {past : List Event} (hsplit : [.finish report] = past ++ event :: post) : False := by
    have hmem : event ∈ [Event.finish report] := by simp [hsplit]
    rw [List.mem_singleton.mp hmem] at he
    cases he
  cases h with
  | ended _ => exact (hfinish hsplit).elim
  | stalled _ _ _ _ => exact (hfinish hsplit).elim
  | cancelled _ _ _ _ ho =>
    cases pre with
    | nil =>
      obtain ⟨rfl, rfl⟩ := List.cons_eq_cons.mp hsplit
      exact ⟨rfl, rfl, ho⟩
    | cons first pre =>
      rw [List.cons_append] at hsplit
      exact (hfinish (List.cons_eq_cons.mp hsplit).2).elim

/-- A run whose clauses are all satisfied reports its model. -/
theorem Passed.of_satisfied (hp : Passed o budget elapsed r new r₁)
    (h : r.engine.phase = .satisfied) :
    new = [.finish ⟨.satisfied r.engine.assignment r.engine.iterations, r.engine.stats, elapsed⟩] ∧
      r₁ = r.entered.finish o elapsed (.satisfied r.engine.assignment r.engine.iterations) := by
  cases hp with
  | ended hends =>
    cases hends with
    | satisfied _ => exact ⟨rfl, rfl⟩
    | flipLimit h' _ => exact absurd h h'
    | timeLimit h' _ _ => exact absurd h h'
  | retried h' _ => exact absurd h h'.unsatisfied
  | stalled h' _ _ => exact absurd h h'.unsatisfied
  | flipped h' _ _ _ => exact absurd h h'.unsatisfied
  | cancelled h' _ _ _ => exact absurd h h'.unsatisfied

/-- A pass that goes on with its try and has something to flip flips it. -/
theorem Passed.of_propose (hp : Passed o budget elapsed r new r₁)
    (h : GoesOn budget elapsed r.engine) (hd : r.engine.restarter.remaining ≠ 0) {f : Flip} {s : σ}
    (hf : r.engine.propose r.stream = (some f, s)) :
    ∃ later, new = .flip (r.engine.flipEvent f) :: later ∧
      (later ≠ [] → (o.onFlip (r.engine.flipEvent f) r.watcher).1 = .stop) := by
  cases hp with
  | ended hends =>
    cases hends with
    | satisfied hsat => exact absurd hsat h.unsatisfied
    | flipLimit _ hl => exact absurd hl (by simp [h.flipsLeft])
    | timeLimit _ _ ht => exact absurd ht (by simp [h.timeLeft])
  | retried _ hd' => exact absurd hd' hd
  | stalled _ _ hnone => cases hf.symm.trans hnone
  | flipped _ _ hsome _ =>
    cases hf.symm.trans hsome
    exact ⟨[], rfl, fun hne => absurd rfl hne⟩
  | cancelled _ _ hsome hw =>
    cases hf.symm.trans hsome
    exact ⟨_, rfl, fun _ => congrArg Prod.fst hw⟩

end Passes

/-- A run and what it has told stand where a trail stands. -/
structure Run.OnTrail (r : Run σ ω) (told : List Event) (t : Trail σ) : Prop where
  engine : r.engine = t.engine
  stream : r.stream = t.stream
  told : told = t.events

namespace Engine

theorem runFor_of_ended {e : Engine} {o : Observer ω} {budget : Budget} {clock : Nat → Duration}
    {s : σ} {w : ω} {m n : Nat} {report : Report} (hmn : m ≤ n)
    (hr : (e.runFor o budget clock m s w).report = some report) :
    e.runFor o budget clock n s w = e.runFor o budget clock m s w := Run.advance_of_le hmn hr

/-- A run that has not ended has not ended before. -/
theorem running_of_le {e : Engine} {o : Observer ω} {budget : Budget} {clock : Nat → Duration}
    {s : σ} {w : ω} {m n : Nat} (hmn : m ≤ n)
    (hr : (e.runFor o budget clock n s w).report = none) :
    (e.runFor o budget clock m s w).report = none := by
  cases hm : (e.runFor o budget clock m s w).report with
  | none => rfl
  | some report =>
    rw [runFor_of_ended hmn hm, hm] at hr
    cases hr

section Along
variable {e : Engine} (h : e.phase = .initializing ∨ e.Steady) (o : Observer ω) (budget : Budget)
  (clock : Nat → Duration) (s : σ) (w : ω)
include h

theorem told_zero :
    e.told o budget clock 0 s w = [.start e.inst (e.ensureBegun s).1.assignment] := by
  rw [← (steady_ensureBegun h s).2]
  rfl

/-- Recording a run adds what it has told and changes nothing else. -/
theorem recorded_eq (n : Nat) :
    (Run.start o.recording e s (#[], w)).advance o.recording budget clock n =
      (e.runFor o budget clock n s w).withLog (e.told o budget clock n s w) := by
  obtain ⟨past, -, hlog⟩ := Course.advance (@Course.start σ ω _ o budget (Run.start o e s w))
    (steady_ensureBegun h s).1 clock n
  have hrec := hlog [.start (e.ensureBegun s).1.inst (e.ensureBegun s).1.assignment]
  rw [← Run.start_recording] at hrec
  unfold told
  rw [hrec]
  rfl

theorem steady_runFor (n : Nat) : (e.runFor o budget clock n s w).engine.Steady ∧
    (e.runFor o budget clock n s w).engine.inst = e.inst := by
  obtain ⟨hs, hi⟩ := steady_ensureBegun h s
  obtain ⟨hs', hi'⟩ : (e.runFor o budget clock n s w).engine.Steady ∧
      (e.runFor o budget clock n s w).engine.inst = (e.ensureBegun s).1.inst :=
    Run.steady_advance hs clock n
  exact ⟨hs', hi'.trans hi⟩

/-- A run that has not ended makes one more pass, and tells what belongs to it. -/
theorem exists_passed {n : Nat} (hr : (e.runFor o budget clock n s w).report = none) :
    ∃ new elapsed, Passed o budget elapsed (e.runFor o budget clock n s w) new
        (e.runFor o budget clock (n + 1) s w) ∧
      (∃ k, elapsed = clock k) ∧
      e.told o budget clock (n + 1) s w = e.told o budget clock n s w ++ new := by
  have hb := (steady_runFor h o budget clock s w n).1.begun
  obtain ⟨new, hp, hlog⟩ := @pass_passed σ ω _ o budget
    (clock (e.runFor o budget clock n s w).passes) (e.runFor o budget clock n s w) hb hr
  have hnext : e.runFor o budget clock (n + 1) s w = (e.runFor o budget clock n s w).pass o budget
      (clock (e.runFor o budget clock n s w).passes) := Run.advance_succ n _
  refine ⟨new, _, hnext ▸ hp, ⟨_, rfl⟩, ?_⟩
  unfold told
  rw [Run.advance_succ, recorded_eq h]
  have hpass := hlog (e.told o budget clock n s w)
  simp only [Run.withLog] at hpass ⊢
  rw [hpass]

/-- A run that has ended tells nothing more. -/
theorem told_of_ended {m n : Nat} {report : Report} (hmn : m ≤ n)
    (hr : (e.runFor o budget clock m s w).report = some report) :
    e.told o budget clock n s w = e.told o budget clock m s w := by
  have hrec : ((Run.start o.recording e s (#[], w)).advance o.recording budget clock m).report =
      some report := by
    rw [recorded_eq h]
    exact hr
  unfold told
  rw [Run.advance_of_le hmn hrec]

/-- **A run that has not ended stands on the trail**, one move for every pass. -/
theorem onTrail_of_running {n : Nat} (hr : (e.runFor o budget clock n s w).report = none) :
    (e.runFor o budget clock n s w).OnTrail (e.told o budget clock n s w) (e.trail s n) := by
  induction n with
  | zero => exact ⟨rfl, rfl, told_zero h o budget clock s w⟩
  | succ n ih =>
    have hr₀ := running_of_le (Nat.le_succ n) hr
    have ht := ih hr₀
    obtain ⟨new, elapsed, hp, -, htold⟩ := exists_passed h o budget clock s w hr₀
    obtain ⟨-, event, rfl, hm⟩ := hp.moved hr
    rw [ht.engine, ht.stream] at hm
    rw [trail, Trail.extend_of_moved hm]
    exact ⟨rfl, rfl, by rw [htold, ht.told]⟩

/-- As long as a run goes on, nothing stops its engine on the trail. -/
theorem goesOn_trail {n : Nat} (hr : (e.runFor o budget clock (n + 1) s w).report = none) :
    (∃ k, GoesOn budget (clock k) (e.trail s n).engine) ∧
      ∃ event, (e.trail s n).engine.Moved (e.trail s n).stream event (e.trail s (n + 1)).engine
        (e.trail s (n + 1)).stream ∧
      (e.trail s (n + 1)).events = (e.trail s n).events ++ [event] := by
  have hr₀ := running_of_le (Nat.le_succ n) hr
  have ht := onTrail_of_running h o budget clock s w hr₀
  obtain ⟨new, elapsed, hp, ⟨k, rfl⟩, -⟩ := exists_passed h o budget clock s w hr₀
  obtain ⟨hg, event, -, hm⟩ := hp.moved hr
  rw [ht.engine] at hg
  rw [ht.engine, ht.stream] at hm
  refine ⟨⟨k, hg⟩, event, ?_⟩
  rw [trail, Trail.extend_of_moved hm]
  exact ⟨hm, rfl⟩

/-- **A run that has ended** made its last pass from a place on the trail. -/
theorem exists_end {n : Nat} {report : Report}
    (hr : (e.runFor o budget clock n s w).report = some report) :
    ∃ j new elapsed, (e.runFor o budget clock j s w).report = none ∧ j + 1 ≤ n ∧
      (e.runFor o budget clock (j + 1) s w).report = some report ∧ (∃ k, elapsed = clock k) ∧
      Passed o budget elapsed (e.runFor o budget clock j s w) new (e.runFor o budget clock n s w) ∧
      e.told o budget clock n s w = (e.trail s j).events ++ new := by
  induction n with
  | zero => cases hr
  | succ n ih =>
    cases hr₀ : (e.runFor o budget clock n s w).report with
    | some report₀ =>
      rw [runFor_of_ended (Nat.le_succ n) hr₀] at hr ⊢
      rw [told_of_ended h o budget clock s w (Nat.le_succ n) hr₀]
      obtain ⟨j, new, elapsed, hj, hjn, hlast⟩ := ih hr
      exact ⟨j, new, elapsed, hj, Nat.le_succ_of_le hjn, hlast⟩
    | none =>
      obtain ⟨new, elapsed, hp, hk, htold⟩ := exists_passed h o budget clock s w hr₀
      refine ⟨n, new, elapsed, hr₀, Nat.le_refl _, hr, hk, hp, ?_⟩
      rw [htold, (onTrail_of_running h o budget clock s w hr₀).told]

end Along

end Engine

end StochasticSat
