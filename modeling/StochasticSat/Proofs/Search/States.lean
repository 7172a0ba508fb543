import Mathlib.Tactic.Common
import StochasticSat.Search.Engine

/-!
# The states of an engine

An engine is *steady* once it has an assignment: the assignment has a slot for every index and the
sentinel, and the phase tells whether it satisfies the instance (`Engine.Steady`).  Every operation
leads to a steady engine, whatever state it starts in, provided that state can be reached at all
(`Engine.Reachable.steady`).

What an operation leaves alone is stated field by field; the restarter is the run's own and no
operation of the engine touches it, so an engine may be given any other (`Engine.withRestarter`).
-/

namespace StochasticSat

variable {σ : Type} [RandomStream σ]

/-! ### Satisfied clauses -/

section Clauses
variable {inst : Instance} {v : Valuation}

theorem Instance.allSatisfied_iff :
    inst.allSatisfied v = true ↔ ∀ d ∈ inst.clauses, d.eval v = true := by
  rw [allSatisfied, Array.all_eq_true_iff_forall_mem]

theorem Instance.allSatisfied_eq_false_iff :
    inst.allSatisfied v = false ↔ ∃ d ∈ inst.clauses, d.eval v = false := by
  rw [← Bool.not_eq_true, allSatisfied_iff]
  push Not
  simp only [Bool.not_eq_true]

end Clauses

/-! ### Random assignments -/

theorem size_drawCoinsOnto (coins : Array Bool) : ∀ (n : Nat) (s : σ),
    (RandomStream.drawCoinsOnto coins n s).1.size = coins.size + n
  | 0, _ => rfl
  | n + 1, s => by
    unfold RandomStream.drawCoinsOnto
    rw [size_drawCoinsOnto, Array.size_push]
    omega

@[simp] theorem Assignment.size_random (n : Nat) (s : σ) :
    (Assignment.random n s).1.slots.size = n + 1 := by
  have h := size_drawCoinsOnto #[false] n s
  simp only [List.size_toArray, List.length_cons, List.length_nil] at h
  rw [Nat.add_comm]
  exact h

@[simp] theorem Assignment.size_flip (a : Assignment) (i : Nat) :
    (a.flip i).slots.size = a.slots.size := by simp [flip]

theorem drawCoinsOnto_getElem? {coins : Array Bool} {i : Nat} (hi : i < coins.size) :
    ∀ (n : Nat) (s : σ), (RandomStream.drawCoinsOnto coins n s).1[i]? = coins[i]?
  | 0, _ => rfl
  | n + 1, s => by
    unfold RandomStream.drawCoinsOnto
    rw [drawCoinsOnto_getElem? (by rw [Array.size_push]; omega), Array.getElem?_push_lt hi,
      Array.getElem?_eq_getElem hi]

/-- A random assignment has the sentinel. -/
theorem Assignment.sentinel_random (n : Nat) (s : σ) :
    (Assignment.random n s).1.slot? 0 = some false := drawCoinsOnto_getElem? (by decide) n s

/-- Only a flip of the sentinel changes it. -/
theorem Assignment.sentinel_flip (a : Assignment) {i : Nat} (hi : 1 ≤ i) :
    (a.flip i).slot? 0 = a.slot? 0 := by
  unfold flip slot?
  rw [Array.getElem?_modify, if_neg (by omega)]

/-! ### Configurations -/

theorem Config.validate_eq_error {config : Config} {err : Error}
    (h : config.validate = .error err) : ∃ fault, err = .invalidConfig fault := by
  unfold validate Noise.ofThreshold at h
  split_ifs at h
  cases h
  exact ⟨_, rfl⟩

namespace Engine

/-! ### What operations leave alone -/

section Frame
variable (e : Engine) (s : σ) (f : Flip)

@[simp] theorem begin_restarter : (e.begin s).1.restarter = e.restarter := rfl

@[simp] theorem restart_restarter : (e.restart s).1.restarter = e.restarter := rfl
@[simp] theorem restart_iterations : (e.restart s).1.iterations = e.iterations := rfl
@[simp] theorem restart_stats : (e.restart s).1.stats = e.stats.afterRestart := rfl

@[simp] theorem apply_inst : (e.apply f).inst = e.inst := rfl
@[simp] theorem apply_restarter : (e.apply f).restarter = e.restarter := rfl
@[simp] theorem apply_iterations : (e.apply f).iterations = e.iterations + 1 := rfl
@[simp] theorem apply_stats : (e.apply f).stats = e.stats.afterFlip f.kind := rfl

end Frame

@[simp] theorem afterFlip_restarts (t : Stats) (k : FlipKind) :
    (t.afterFlip k).restarts = t.restarts := by cases k <;> rfl

@[simp] theorem afterRestart_restarts (t : Stats) : t.afterRestart.restarts = t.restarts + 1 := rfl

/-- The engine with another restarter. -/
def withRestarter (e : Engine) (c : Restarter) : Engine := { e with restarter := c }

/-! ### Steady engines -/

theorem phaseOf_ne_initializing (inst : Instance) (a : Assignment) :
    phaseOf inst a ≠ .initializing := by
  unfold phaseOf
  split_ifs <;> simp

theorem phaseOf_eq_satisfied_iff {inst : Instance} {a : Assignment} :
    phaseOf inst a = .satisfied ↔ inst.allSatisfied a.value = true := by
  unfold phaseOf
  split_ifs with h <;> simp [h]

theorem apply_phase {e : Engine} (h : e.phase = .searching) (f : Flip) :
    (e.apply f).phase = phaseOf e.inst (e.apply f).assignment := by
  simp only [apply, h]
  rfl

/-- The engine has an assignment, and its phase says whether that satisfies the instance. -/
structure Steady (e : Engine) : Prop where
  begun : e.phase ≠ .initializing
  size_slots : e.assignment.slots.size = e.inst.numVars + 1
  satisfied_iff : e.phase = .satisfied ↔ e.inst.allSatisfied e.assignment.value = true

namespace Steady

variable {e : Engine}

theorem numVars (h : e.Steady) : e.assignment.numVars = e.inst.numVars := by
  rw [Assignment.numVars, h.size_slots, Nat.add_sub_cancel]

theorem searching (h : e.Steady) (h' : e.phase ≠ .satisfied) : e.phase = .searching := by
  have := h.begun
  cases hp : e.phase <;> simp_all

theorem unsatisfied (h : e.Steady) (h' : e.phase ≠ .satisfied) :
    e.inst.allSatisfied e.assignment.value = false := by
  rw [← Bool.not_eq_true]
  exact mt h.satisfied_iff.mpr h'

theorem draw (e : Engine) (s : σ) : (e.draw s).1.Steady :=
  ⟨phaseOf_ne_initializing _ _, Assignment.size_random _ _, phaseOf_eq_satisfied_iff⟩

theorem begin (e : Engine) (s : σ) : (e.begin s).1.Steady := draw _ s

theorem restart (e : Engine) (s : σ) : (e.restart s).1.Steady := draw _ s

theorem apply (h : e.Steady) (h' : e.phase ≠ .satisfied) (f : Flip) : (e.apply f).Steady := by
  have hp := apply_phase (h.searching h') f
  refine ⟨?_, (Assignment.size_flip _ _).trans h.size_slots, ?_⟩
  · rw [hp]
    exact phaseOf_ne_initializing _ _
  · rw [hp]
    exact phaseOf_eq_satisfied_iff

end Steady

theorem ensureBegun_of_begun {e : Engine} (h : e.phase ≠ .initializing) (s : σ) :
    e.ensureBegun s = (e, s) := if_neg h

theorem ensureBegun_of_initializing {e : Engine} (h : e.phase = .initializing) (s : σ) :
    e.ensureBegun s = e.begin s := if_pos h

/-! ### Steps -/

section Steps
variable {e : Engine} {s s' : σ}

theorem step_of_initializing (h : e.phase = .initializing) (s : σ) :
    e.step s = (e.begin s).1.step (e.begin s).2 := by
  have hb : (e.begin s).1.phase ≠ .initializing := (Steady.begin e s).begun
  rw [step, step, ensureBegun_of_initializing h, ensureBegun_of_begun hb]

theorem step_of_satisfied (h : e.phase = .satisfied) (s : σ) : e.step s = (none, e, s) := by
  rw [step, ensureBegun_of_begun (by simp [h])]
  exact if_pos h

theorem step_of_propose_none (hb : e.phase ≠ .initializing) (hs : e.phase ≠ .satisfied)
    (hp : e.propose s = (none, s')) : e.step s = (none, e, s') := by
  unfold step
  rw [ensureBegun_of_begun hb]
  simp only [stepBegun, if_neg hs, hp]

theorem step_of_propose_some {f : Flip} (hb : e.phase ≠ .initializing)
    (hs : e.phase ≠ .satisfied) (hp : e.propose s = (some f, s')) :
    e.step s = (some f, e.apply f, s') := by
  unfold step
  rw [ensureBegun_of_begun hb]
  simp only [stepBegun, if_neg hs, hp]

end Steps

/-! ### Reachable engines -/

/-- The engines of an instance that can be reached from a fresh one by beginning, restarting and
stepping, each time with any stream. -/
inductive Reachable (σ : Type) [RandomStream σ] (inst : Instance) : Engine → Prop
  | new (strategy : Strategy) (schedule : Schedule) (noise : Noise) :
    Reachable σ inst (Engine.new inst strategy schedule noise)
  | begin {e : Engine} (h : Reachable σ inst e) (s : σ) : Reachable σ inst (e.begin s).1
  | restart {e : Engine} (h : Reachable σ inst e) (s : σ) : Reachable σ inst (e.restart s).1
  | step {e : Engine} (h : Reachable σ inst e) (s : σ) : Reachable σ inst (e.step s).2.1

/-- The engines of an instance and a schedule that have not drawn anything yet. -/
inductive Fresh (inst : Instance) (schedule : Schedule) : Engine → Prop
  | new (strategy : Strategy) (noise : Noise) :
    Fresh inst schedule (Engine.new inst strategy schedule noise)
  | ofConfig {config : Config} {e : Engine} (hs : config.schedule = schedule)
    (h : Engine.ofConfig inst config = .ok e) : Fresh inst schedule e

theorem ofConfig_eq_ok {inst : Instance} {config : Config} {e : Engine}
    (h : Engine.ofConfig inst config = .ok e) :
    ∃ noise, e = Engine.new inst config.strategy config.schedule noise := by
  unfold ofConfig at h
  cases hv : config.validate with
  | error err => rw [hv] at h; cases h
  | ok noise => rw [hv] at h; cases h; exact ⟨noise, rfl⟩

theorem ofConfig_eq_error {inst : Instance} {config : Config} {err : Error}
    (h : Engine.ofConfig inst config = .error err) : ∃ fault, err = .invalidConfig fault := by
  unfold ofConfig at h
  cases hv : config.validate with
  | error err' => rw [hv] at h; cases h; exact Config.validate_eq_error hv
  | ok noise => rw [hv] at h; cases h

theorem Fresh.exists_new {inst : Instance} {schedule : Schedule} {e : Engine}
    (h : Fresh inst schedule e) :
    ∃ strategy noise, e = Engine.new inst strategy schedule noise := by
  cases h with
  | new strategy noise => exact ⟨strategy, noise, rfl⟩
  | ofConfig hs h =>
    obtain ⟨noise, rfl⟩ := ofConfig_eq_ok h
    rw [hs]
    exact ⟨_, noise, rfl⟩

/-- What a step makes of an engine that has an assignment. -/
theorem stepBegun_cases (e : Engine) (s : σ) :
    (e.stepBegun s).1 = none ∧ (e.stepBegun s).2.1 = e ∨
      ∃ f, e.phase ≠ .satisfied ∧ (e.propose s).1 = some f ∧
        e.stepBegun s = (some f, e.apply f, (e.propose s).2) := by
  unfold stepBegun
  split_ifs with h
  · exact Or.inl ⟨rfl, rfl⟩
  · rcases hp : e.propose s with ⟨_ | f, s'⟩
    · exact Or.inl ⟨rfl, rfl⟩
    · exact Or.inr ⟨f, h, rfl, rfl⟩

theorem Steady.stepBegun {e : Engine} (h : e.Steady) (s : σ) :
    (e.stepBegun s).2.1.Steady ∧ (e.stepBegun s).2.1.inst = e.inst := by
  rcases stepBegun_cases e s with ⟨-, he⟩ | ⟨f, hp, -, he⟩
  · rw [he]; exact ⟨h, rfl⟩
  · rw [he]; exact ⟨h.apply hp f, rfl⟩

/-- Beginning makes every engine steady that is not so already. -/
theorem steady_ensureBegun {e : Engine} (h : e.phase = .initializing ∨ e.Steady) (s : σ) :
    (e.ensureBegun s).1.Steady ∧ (e.ensureBegun s).1.inst = e.inst := by
  rcases h with h | h
  · rw [ensureBegun_of_initializing h]
    exact ⟨.begin e s, rfl⟩
  · rw [ensureBegun_of_begun h.begun]
    exact ⟨h, rfl⟩

/-- **A reachable engine has drawn nothing yet or is steady.** -/
theorem Reachable.steady {inst : Instance} {e : Engine} (h : Reachable σ inst e) :
    e.inst = inst ∧ (e.phase = .initializing ∨ e.Steady) := by
  induction h with
  | new strategy schedule noise => exact ⟨rfl, Or.inl rfl⟩
  | begin h s ih => exact ⟨ih.1, Or.inr (.begin _ s)⟩
  | restart h s ih => exact ⟨ih.1, Or.inr (.restart _ s)⟩
  | step h s ih =>
    obtain ⟨hb, hi⟩ := steady_ensureBegun ih.2 s
    obtain ⟨hs, hi'⟩ := hb.stepBegun ((Engine.ensureBegun _ s).2)
    exact ⟨(hi'.trans hi).trans ih.1, Or.inr hs⟩

/-- The same of the engine with any restarter. -/
theorem Reachable.withRestarter {inst : Instance} {e : Engine} (h : Reachable σ inst e)
    (c : Restarter) :
    (e.withRestarter c).phase = .initializing ∨ (e.withRestarter c).Steady :=
  h.steady.2.imp id fun hs => ⟨hs.begun, hs.size_slots, hs.satisfied_iff⟩

/-- A reachable engine that has drawn nothing yet is as it was made. -/
theorem Reachable.exists_new {inst : Instance} {e : Engine} (h : Reachable σ inst e)
    (hp : e.phase = .initializing) :
    ∃ strategy schedule noise, e = .new inst strategy schedule noise := by
  cases h with
  | new strategy schedule noise => exact ⟨strategy, schedule, noise, rfl⟩
  | begin h s => exact absurd hp (Steady.begin _ s).begun
  | restart h s => exact absurd hp (Steady.restart _ s).begun
  | @step e₀ h s =>
    obtain ⟨hb, -⟩ := steady_ensureBegun h.steady.2 s
    exact absurd hp (hb.stepBegun (e₀.ensureBegun s).2).1.begun

/-- Beginning does not change what was counted. -/
theorem Reachable.stats_ensureBegun {inst : Instance} {e : Engine} (h : Reachable σ inst e)
    (c : Restarter) (s : σ) : ((e.withRestarter c).ensureBegun s).1.stats = e.stats := by
  by_cases hp : e.phase = .initializing
  · obtain ⟨strategy, schedule, noise, rfl⟩ := h.exists_new hp
    rfl
  · have hp' : (e.withRestarter c).phase ≠ .initializing := hp
    rw [ensureBegun_of_begun hp']
    rfl

/-- An engine that has drawn nothing yet has not flipped anything. -/
theorem Reachable.iterations_eq_zero {inst : Instance} {e : Engine} (h : Reachable σ inst e)
    (hp : e.phase = .initializing) : e.iterations = 0 := by
  obtain ⟨strategy, schedule, noise, rfl⟩ := h.exists_new hp
  rfl

/-- Beginning does not change the number of flips that were made. -/
theorem Reachable.iterations_ensureBegun {inst : Instance} {e : Engine} (h : Reachable σ inst e)
    (c : Restarter) (s : σ) : ((e.withRestarter c).ensureBegun s).1.iterations = e.iterations := by
  by_cases hp : e.phase = .initializing
  · have hp' : (e.withRestarter c).phase = .initializing := hp
    rw [ensureBegun_of_initializing hp', h.iterations_eq_zero hp]
    rfl
  · have hp' : (e.withRestarter c).phase ≠ .initializing := hp
    rw [ensureBegun_of_begun hp']
    rfl

end Engine

end StochasticSat
