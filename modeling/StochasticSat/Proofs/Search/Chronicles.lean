import StochasticSat.Proofs.Formula.Meaning
import StochasticSat.Proofs.Search.Places

/-!
# The chronicle of a run

The row of events that an observer is told is a complete account of the run (`Chronicle`).  It
begins with the only start, its flips and its restarts are numbered one after the other, and every
flip shows the assignment that the event right before it shows, with one index inverted
(`FlipEvent.Follows`).  A run that ends tells so once, at the end, with the report that it gives.

Each move adds to the counters of the engine what its event says (`Stats.afterEvent`), so the
counters of the report can be read off the row (`runs_are_chronicled`).
-/

namespace StochasticSat

variable {σ ω : Type} [RandomStream σ]

namespace Event

def isStart : Event → Bool
  | start .. => true
  | _ => false

/-- Whether the event is a flip of the given kind. -/
def isFlipOf (kind : FlipKind) : Event → Bool
  | flip f => f.flip.kind = kind
  | _ => false

end Event

/-! ### Counters -/

/-- The number of flips of a kind among some events. -/
def flipsOfKind (kind : FlipKind) (events : List Event) : Nat := events.countP (·.isFlipOf kind)

namespace Stats

/-- The counters after an event. -/
def afterEvent (t : Stats) : Event → Stats
  | .flip f => t.afterFlip f.flip.kind
  | .restart .. => t.afterRestart
  | _ => t

/-- The counters after a row of events. -/
def afterEvents (t : Stats) (events : List Event) : Stats := events.foldl afterEvent t

theorem afterEvents_append (t : Stats) (xs ys : List Event) :
    t.afterEvents (xs ++ ys) = (t.afterEvents xs).afterEvents ys := List.foldl_append

/-- **Each counter grows by the number of its events.** -/
theorem afterEvents_eq (t : Stats) (events : List Event) :
    t.afterEvents events = ⟨t.flips + flipsIn events, t.noiseFlips + flipsOfKind .noise events,
      t.greedyFlips + flipsOfKind .greedy events, t.restarts + restartsIn events⟩ := by
  induction events generalizing t with
  | nil => rfl
  | cons event events ih =>
    rw [show t.afterEvents (event :: events) = (t.afterEvent event).afterEvents events from rfl, ih]
    cases event with
    | start inst a => rfl
    | finish report => rfl
    | restart k a =>
      simp [afterEvent, afterRestart, flipsOfKind, Event.isFlipOf, Nat.add_assoc, Nat.add_comm]
    | flip f =>
      cases hf : f.flip.kind <;>
        simp [afterEvent, afterFlip, flipsOfKind, Event.isFlipOf, hf, Nat.add_assoc, Nat.add_comm]

end Stats

/-! ### Flips -/

theorem Assignment.slot?_flip_ne_iff {a : Assignment} {i : Nat} (hi : i < a.slots.size) (j : Nat) :
    (a.flip i).slot? j ≠ a.slot? j ↔ j = i := by
  unfold flip slot?
  rw [Array.getElem?_modify]
  by_cases hij : i = j
  · subst hij
    simp [hi]
  · simp [hij, Ne.symm hij]

theorem Instance.satisfiedCount_add_countP (inst : Instance) (v : Valuation) :
    inst.satisfiedCount v + inst.clauses.countP (fun d => !d.eval v) = inst.numClauses := by
  have h : inst.clauses.size = inst.clauses.countP (·.eval v) +
      inst.clauses.countP (fun d => ¬ d.eval v) := Array.size_eq_countP_add_countP
  simpa [satisfiedCount, numClauses] using h.symm

/-- What is told of a flip is true if the assignment before it was `a`: one index of the instance is
inverted and nothing else, and the clauses that are not satisfied are counted. -/
structure FlipEvent.Follows (f : FlipEvent) (inst : Instance) (a : Assignment) : Prop where
  inst_eq : f.inst = inst
  index_pos : 1 ≤ f.flip.index
  index_le : f.flip.index ≤ inst.numVars
  changed : ∀ j, f.assignment.slot? j ≠ a.slot? j ↔ j = f.flip.index
  /-- The satisfied clauses can be counted, and there are no more of them than clauses. -/
  counted : ∃ k, inst.satisfiedCount? f.assignment.slot? = some k ∧
    k + f.unsatisfied = inst.numClauses
  falsified : f.unsatisfied = inst.clauses.countP (fun d => !d.eval f.assignment.value)

namespace Engine

/-- Every move of a steady engine that flips tells the truth about its flip. -/
theorem Moved.follows {e e' : Engine} {s s' : σ} {f : FlipEvent} (h : e.Moved s (.flip f) e' s')
    (hs : e.Steady) (hi : e.inst.Proper) : f.Follows e.inst e.assignment := by
  cases h with
  | @flipped f _ hp hd hpropose =>
    obtain ⟨hpos, hle⟩ := Instance.mem_indices.mp (mem_of_propose hi hpropose)
    have hsize := hs.size_slots
    have hnum : (e.apply f).assignment.numVars = e.inst.numVars := (hs.apply hp f).numVars
    have hcov := hi.covers (Nat.le_of_eq hnum.symm)
    have hadd := e.inst.satisfiedCount_add_countP (e.apply f).assignment.value
    have hunsat : (e.flipEvent f).unsatisfied =
        e.inst.numClauses - e.inst.satisfiedCount (e.apply f).assignment.value := rfl
    exact
      { inst_eq := rfl
        index_pos := hpos
        index_le := hle
        changed := Assignment.slot?_flip_ne_iff (by omega)
        counted := ⟨_, hcov.satisfiedCount?_eq, by omega⟩
        falsified := by
          rw [hunsat, ← hadd, Nat.add_sub_cancel_left]
          rfl }

/-! ### Trails -/

theorem Moved.stats {e e' : Engine} {s s' : σ} {event : Event} (h : e.Moved s event e' s') :
    e'.stats = e.stats.afterEvent event := by
  cases h with
  | restarted h hd => rfl
  | flipped h hd hp => rfl

theorem Moved.isStart {e e' : Engine} {s s' : σ} {event : Event} (h : e.Moved s event e' s') :
    event.isStart = false := by
  cases h with
  | restarted h hd => rfl
  | flipped h hd hp => rfl

/-- The engine counts what its trail tells. -/
theorem stats_trail (e : Engine) (s : σ) (n : Nat) : (e.trail s n).engine.stats =
    (e.ensureBegun s).1.stats.afterEvents (e.trail s n).events := by
  refine trail_induction (P := fun t => t.engine.stats =
    (e.ensureBegun s).1.stats.afterEvents t.events) rfl (fun t event e' s' ht hm => ?_) n
  rw [hm.stats, ht, Stats.afterEvents_append]
  rfl

theorem restarts_trail (e : Engine) (s : σ) (n : Nat) : (e.trail s n).engine.stats.restarts =
    (e.ensureBegun s).1.stats.restarts + restartsIn (e.trail s n).events := by
  rw [stats_trail, Stats.afterEvents_eq]

/-- A trail begins with its only start. -/
theorem trail_eq_start_cons (e : Engine) (s : σ) (n : Nat) : ∃ later,
    (e.trail s n).events = .start e.inst (e.ensureBegun s).1.assignment :: later ∧
      ∀ event ∈ later, event.isStart = false := by
  refine trail_induction (P := fun t => ∃ later,
    t.events = .start e.inst (e.ensureBegun s).1.assignment :: later ∧
      ∀ event ∈ later, event.isStart = false) ⟨[], rfl, fun event hmem => by cases hmem⟩
    (fun t event e' s' ⟨later, ht, hlater⟩ hm => ?_) n
  refine ⟨later ++ [event], by rw [ht]; rfl, fun event' hmem => ?_⟩
  rcases List.mem_append.mp hmem with hmem | hmem
  · exact hlater event' hmem
  · rw [List.mem_singleton.mp hmem]
    exact hm.isStart

end Engine

/-! ### Runs -/

/-- **A true account of a run** whose engine has counted some flips and restarts before. -/
structure Chronicle (inst : Instance) (iterations restarts : Nat) (events : List Event) :
    Prop where
  /-- The first event is the start, and no other is. -/
  start : ∃ a later, events = .start inst a :: later ∧ ∀ event ∈ later, event.isStart = false
  /-- Flips are numbered, and each follows from what the event right before it shows. -/
  flip : ∀ pre f post, events = pre ++ .flip f :: post →
    f.iteration = iterations + (flipsIn pre + 1) ∧
      ∃ past last a, pre = past ++ [last] ∧ last.assignment? = some a ∧ f.Follows inst a
  /-- Restarts are numbered. -/
  restart : ∀ pre k a post, events = pre ++ .restart k a :: post →
    k = restarts + (restartsIn pre + 1)

namespace Engine

section Along
variable {e : Engine} (h : e.phase = .initializing ∨ e.Steady) (o : Observer ω) (budget : Budget)
  (clock : Nat → Duration) (s : σ) (w : ω)
include h

/-- **What a run tells is a true account of it.** -/
theorem chronicle_told (hi : e.inst.Proper) (n : Nat) :
    Chronicle e.inst (e.ensureBegun s).1.iterations (e.ensureBegun s).1.stats.restarts
      (e.told o budget clock n s w) := by
  refine ⟨?_, fun pre f post hsplit => ?_, fun pre k a post hsplit => ?_⟩
  · obtain ⟨j, htold | ⟨report, htold⟩⟩ := exists_trail_told h o budget clock s w n
    all_goals
      obtain ⟨later, hevents, hlater⟩ := trail_eq_start_cons e s j
      rw [htold, hevents]
    · exact ⟨_, later, rfl, hlater⟩
    · refine ⟨_, later ++ [.finish report], rfl, fun event hmem => ?_⟩
      rcases List.mem_append.mp hmem with hmem | hmem
      · exact hlater event hmem
      · rw [List.mem_singleton.mp hmem]
        rfl
  · rcases told_cases h o budget clock s w hsplit rfl with
      ⟨-, hstart⟩ | ⟨j, past, last, e', s', rfl, hshows, hm⟩
    · cases hstart
    have hfollows := hm.follows hshows.steady (hshows.inst_eq ▸ hi)
    rw [hshows.inst_eq] at hfollows
    refine ⟨?_, past, last, _, rfl, hshows.last, hfollows⟩
    rw [← hshows.events, ← Nat.add_assoc, ← iterations_trail]
    cases hm with
    | flipped _ _ _ => rfl
  · rcases told_cases h o budget clock s w hsplit rfl with
      ⟨-, hstart⟩ | ⟨j, past, last, e', s', rfl, hshows, hm⟩
    · cases hstart
    rw [← hshows.events, ← Nat.add_assoc, ← restarts_trail]
    cases hm with
    | restarted _ _ => rfl

end Along

end Engine

/-- **An observer can follow the whole run.**  For a run of a reachable engine of an instance, with
any budget, clock and observer, the observer goes through exactly the events that are told, and
these are a true account of the run.

The finish is told once and last, exactly if the run ends, and with the report of the run.  The
counters of the report have grown by the events of each kind, and an assignment that is reported as
a model is the one that the last event before the finish shows. -/
theorem runs_are_chronicled {inst : Instance} {e : Engine} (hi : inst.Obtainable)
    (he : Engine.Reachable σ inst e) (c : Restarter) (o : Observer ω) (budget : Budget)
    (clock : Nat → Duration) (s : σ) (w : ω) (n : Nat) :
    let run := (e.withRestarter c).runFor o budget clock n s w
    let told := (e.withRestarter c).told o budget clock n s w
    run.watcher = o.replay w told ∧
    Chronicle inst e.iterations e.stats.restarts told ∧
    (run.report = none → ∀ event ∈ told, event.isFinish = false) ∧
    ∀ report, run.report = some report →
      report.stats = ⟨e.stats.flips + flipsIn told, e.stats.noiseFlips + flipsOfKind .noise told,
        e.stats.greedyFlips + flipsOfKind .greedy told, e.stats.restarts + restartsIn told⟩ ∧
      ∃ past last, told = past ++ [last, .finish report] ∧
        (∀ event ∈ past ++ [last], event.isFinish = false) ∧
        ∀ a i, report.outcome = .satisfied a i → last.assignment? = some a := by
  intro run told
  have h := he.withRestarter c
  have hinst : (e.withRestarter c).inst = inst := he.steady.1
  have hchronicle := Engine.chronicle_told h o budget clock s w (hinst ▸ hi.proper) n
  rw [hinst, he.iterations_ensureBegun, he.stats_ensureBegun] at hchronicle
  refine ⟨Engine.watcher_runFor h o budget clock s w n, hchronicle, fun hr => ?_,
    fun report hr => ?_⟩
  · have htold : told = _ := (Engine.onTrail_of_running h o budget clock s w hr).told
    rw [htold]
    exact Engine.isFinish_trail _ s n
  · obtain ⟨j, htold, hstats, hmodel⟩ := Engine.exists_trail_report h o budget clock s w hr
    obtain ⟨past, last, hshows⟩ := Engine.trail_shows h s j
    refine ⟨?_, past, last, ?_, ?_, fun a i ho => ?_⟩
    · have hfinish : report.stats = e.stats.afterEvents told := by
        rw [hstats, Engine.stats_trail, he.stats_ensureBegun, ← show _ = told from htold.symm,
          Stats.afterEvents_append]
        rfl
      rw [hfinish, Stats.afterEvents_eq]
    · rw [show told = _ from htold, hshows.events, List.append_assoc]
      rfl
    · rw [← hshows.events]
      exact Engine.isFinish_trail _ s j
    · rw [hmodel a i ho]
      exact hshows.last

/-- The chronicle of five flips on a contradiction. -/
theorem chronicle_of_contradiction :
    let inst := Instance.ofClauses [[1], [-1]]
    let e := Engine.new inst .walksat (.fixed 2) ⟨Noise.defaultThreshold⟩
    let told := e.told .silent (.flips 5) (fun _ => .zero) 11 (⟨0⟩ : Seeded) ()
    Chronicle inst 0 0 told ∧
      ∃ report past last, told = past ++ [last, .finish report] ∧
        report.stats = ⟨flipsIn told, flipsOfKind .noise told, flipsOfKind .greedy told,
          restartsIn told⟩ := by
  intro inst e told
  have hi : inst.Obtainable := Instance.obtainable_ofClauses (by decide)
  have he : Engine.Reachable Seeded inst e := .new _ _ _
  have hfresh : e.Fresh inst (.fixed 2) := .new _ _
  have hm : (Budget.flips 5).maxFlips = some 5 := rfl
  obtain ⟨report, hr⟩ := hfresh.run_ends hm .silent (fun _ => .zero) (⟨0⟩ : Seeded) ()
  obtain ⟨-, hchronicle, -, hreport⟩ := runs_are_chronicled hi he (.start (.fixed 2)) .silent
    (.flips 5) (fun _ => .zero) (⟨0⟩ : Seeded) () 11
  obtain ⟨hstats, past, last, htold, -⟩ := hreport report hr
  have hzero : report.stats = ⟨0 + flipsIn told, 0 + flipsOfKind .noise told,
      0 + flipsOfKind .greedy told, 0 + restartsIn told⟩ := hstats
  simp only [Nat.zero_add] at hzero
  exact ⟨hchronicle, report, past, last, htold, hzero⟩

end StochasticSat
