import StochasticSat.Proofs.Formula.Representation
import StochasticSat.Proofs.Search.Choices

/-!
# Steps that find all they look up

A step of an engine reads values of its assignment, slots of indices and clauses at positions, and
none of these accesses is checked.  `Engine.guardedStep?` is the same step with a guard at every
access: it has no result as soon as an index has no value or no slot, or a position no clause.

For an engine that can be reached none of the guards ever fails, so the guarded step has the result
of the step (`Engine.guardedStep?_eq`).  The slots of an instance that can be built have an entry
for every index and name only positions of clauses (`Instance.Obtainable.exists_slot`), and what a
strategy rates are indices.

An engine that is searching always flips one index (`Engine.Flipped`), since there is a clause left
to satisfy; `steps_make_one_flip` says what a step does in every phase.
-/

namespace StochasticSat

open RandomStream

variable {σ : Type} [RandomStream σ]

/-! ### Guarded choices -/

/-- What flipping an index adds to the number of satisfied clauses; `none` if the index has no slot,
if there is no clause at one of the positions in it, or if a value is missing. -/
def Instance.guardedDelta? (inst : Instance) (r : Reading) (i : Nat) : Option Int := do
  let slot ← inst.occurrences? i
  let deltas ← slot.toList.mapM fun j => inst.clauses[j]?.bind (clauseDelta? r i)
  return deltas.foldr (· + ·) 0

/-- A uniform draw among the best candidates, with guarded deltas. -/
def guardedBestOf? (inst : Instance) (r : Reading) (candidates : List Nat) (s : σ) :
    Option (Option Nat × σ) :=
  (candidates.mapM fun i => (inst.guardedDelta? r i).map fun d => (i, d)).map fun scored =>
    choose (leaders scored) s

/-- The index that a strategy proposes to flip; `none` if the clause that was drawn is not there. -/
def Strategy.guardedPick? (strategy : Strategy) (inst : Instance) (r : Reading) (s : σ) :
    Option (Option Nat × σ) :=
  match strategy with
  | .gsat => guardedBestOf? inst r inst.indices s
  | .walksat => do
    match ← pickClause? inst r s with
    | (none, s) => return (none, s)
    | (some j, s) =>
      let c ← inst.clauses[j]?
      guardedBestOf? inst r c.indices s

namespace Instance

variable {inst : Instance} {i : Nat}

/-- **Every index has a slot, and all positions in it are positions of clauses.** -/
theorem Obtainable.exists_slot (h : inst.Obtainable) (hi : inst.knows i = true) :
    inst.occurrences? i = some (inst.occurrences.getD i #[]) ∧
      ∀ j ∈ (inst.occurrences.getD i #[]).toList,
        inst.clauses[j]? = some (inst.clauses.getD j default) := by
  rcases h with rfl | ⟨cs, hcs⟩
  · have hbounds := knows_iff.mp hi
    have hnum : (default : Instance).numVars = 0 := rfl
    omega
  · obtain ⟨-, rfl⟩ := build_eq_ok_iff_acceptable.mp hcs
    have hslot := occurrences?_ofClauses (knows_iff.mp hi).2
    have hget : (ofClauses cs).occurrences.getD i #[] = ((ofClauses cs).positions i).toArray := by
      rw [Array.getD_eq_getD_getElem?]
      exact congrArg (·.getD #[]) hslot
    refine ⟨by rw [hslot, hget], fun j hj => ?_⟩
    rw [hget] at hj
    obtain ⟨d, hd, -⟩ := mem_positions.mp hj
    rw [Array.getD_eq_getD_getElem?, hd, Option.getD_some]

section Guards
variable (h : inst.Obtainable) {r : Reading} {v : Valuation} (hcov : inst.Covers r v)
include h hcov

theorem Obtainable.guardedDelta?_eq (hi : inst.knows i = true) :
    inst.guardedDelta? r i = some (inst.flipDelta v i) := by
  obtain ⟨hslot, hpositions⟩ := h.exists_slot hi
  have hdelta : ∀ j ∈ (inst.occurrences.getD i #[]).toList,
      inst.clauses[j]?.bind (clauseDelta? r i) =
        some (clauseDelta v i (inst.clauses.getD j default)) := by
    intro j hj
    rw [hpositions j hj, Option.bind_some, hcov.clauseDelta?_eq]
  unfold guardedDelta?
  rw [hslot]
  simp only [bind, Option.bind_some, mapM_eq_pure_map hdelta]
  rfl

theorem Obtainable.guardedBestOf?_eq {candidates : List Nat}
    (hc : ∀ i ∈ candidates, inst.knows i = true) (s : σ) :
    guardedBestOf? inst r candidates s = some (bestOf inst v candidates s) := by
  have hscored : ∀ i ∈ candidates,
      (inst.guardedDelta? r i).map (fun d => (i, d)) = some (i, inst.flipDelta v i) := by
    intro i hi
    rw [h.guardedDelta?_eq hcov (hc i hi), Option.map_some]
  rw [guardedBestOf?, mapM_eq_pure_map hscored]
  rfl

/-- **A strategy looks up only what is there.** -/
theorem Obtainable.guardedPick?_eq (strategy : Strategy) (s : σ) :
    strategy.guardedPick? inst r s = some (strategy.pick inst v s) := by
  cases strategy with
  | gsat => exact h.guardedBestOf?_eq hcov (fun _ => knows_of_mem_indices) s
  | walksat =>
    unfold Strategy.guardedPick?
    rw [hcov.pickClause?_eq]
    by_cases hnil : inst.unsatisfied v = []
    · rw [pickClause_of_nil hnil, walksat_pick_of_nil hnil]
      rfl
    · obtain ⟨j, s', c, -, hpick, hc, -⟩ := exists_pickClause hnil s
      have hknows := (h.proper.candidates_of_clause (Array.mem_of_getElem? hc)).2
      rw [hpick, walksat_pick_of_clause hpick hc]
      simp only [bind, Option.bind_some, hc]
      exact h.guardedBestOf?_eq hcov hknows s'

end Guards

end Instance

namespace Engine

/-! ### Guarded steps -/

/-- The index to flip next and the reason for it, with guarded choices. -/
def guardedPropose? (e : Engine) (s : σ) : Option (Option Flip × σ) :=
  match e.noise.isWalk s with
  | (true, s) =>
    let (i, s) := Noise.randomIndex e.inst s
    some (i.map (⟨·, .noise⟩), s)
  | (false, s) => do
    let (i, s) ← e.strategy.guardedPick? e.inst e.assignment.slot? s
    return (i.map (⟨·, .greedy⟩), s)

/-- The engine after a flip; `none` if the assignment has no such slot or a value is missing when
the clauses are looked through. -/
def guardedApply? (e : Engine) (f : Flip) : Option Engine := do
  let a ← e.assignment.flip? f.index
  let done ← e.inst.allSatisfied? a.slot?
  return { e with
    assignment := a
    iterations := e.iterations + 1
    stats := e.stats.afterFlip f.kind
    phase := if done then .satisfied else e.phase }

/-- A fresh random assignment and cleared counters; `none` if a value is missing when the clauses
are looked through. -/
def guardedBegin? (e : Engine) (s : σ) : Option (Engine × σ) := do
  let (a, s) := Assignment.random e.inst.numVars s
  let done ← e.inst.allSatisfied? a.slot?
  return ({ e with
    iterations := 0
    stats := .zero
    assignment := a
    phase := if done then .satisfied else .searching }, s)

/-- One flip of an engine that has an assignment. -/
def guardedStepBegun? (e : Engine) (s : σ) : Option (Option Flip × Engine × σ) :=
  if e.phase = .satisfied then some (none, e, s)
  else do
    match ← e.guardedPropose? s with
    | (none, s) => return (none, e, s)
    | (some f, s) =>
      let e ← e.guardedApply? f
      return (some f, e, s)

/-- Begins with an engine that has no assignment yet. -/
def guardedEnsureBegun? (e : Engine) (s : σ) : Option (Engine × σ) :=
  if e.phase = .initializing then e.guardedBegin? s else some (e, s)

/-- **A step with a guard at every access**: `none` as soon as something is not there. -/
def guardedStep? (e : Engine) (s : σ) : Option (Option Flip × Engine × σ) := do
  let (e, s) ← e.guardedEnsureBegun? s
  e.guardedStepBegun? s

theorem guardedBegin?_eq {e : Engine} (hi : e.inst.Proper) (s : σ) :
    e.guardedBegin? s = some (e.begin s) := by
  have hcov : e.inst.Covers (Assignment.random e.inst.numVars s).1.slot?
      (Assignment.random e.inst.numVars s).1.value := hi.covers (by simp [Assignment.numVars])
  unfold guardedBegin?
  simp only [hcov.allSatisfied?_eq, bind, Option.bind_some]
  rfl

namespace Steady

variable {e : Engine} (h : e.Steady) (hi : e.inst.Obtainable)
include h hi

theorem covers : e.inst.Covers e.assignment.slot? e.assignment.value :=
  hi.proper.covers (Nat.le_of_eq h.numVars.symm)

theorem guardedPropose?_eq (s : σ) : e.guardedPropose? s = some (e.propose s) := by
  unfold guardedPropose? propose
  rcases e.noise.isWalk s with ⟨_ | _, s₁⟩
  · simp only [hi.guardedPick?_eq (h.covers hi), bind, Option.bind_some]
    rfl
  · rfl

theorem guardedApply?_eq {f : Flip} (hf : f.index ∈ e.inst.indices) :
    e.guardedApply? f = some (e.apply f) := by
  have hbounds := Instance.mem_indices.mp hf
  have hsize := h.size_slots
  have hflip : e.assignment.flip? f.index = some (e.assignment.flip f.index) :=
    if_pos (by omega)
  have hcov : e.inst.Covers (e.assignment.flip f.index).slot? (e.assignment.flip f.index).value :=
    hi.proper.covers (by rw [Assignment.numVars_flip, h.numVars])
  unfold guardedApply?
  simp only [hflip, hcov.allSatisfied?_eq, bind, Option.bind_some]
  rfl

theorem guardedStepBegun?_eq (s : σ) : e.guardedStepBegun? s = some (e.stepBegun s) := by
  unfold guardedStepBegun? Engine.stepBegun
  by_cases hp : e.phase = .satisfied
  · rw [if_pos hp, if_pos hp]
  · rw [if_neg hp, if_neg hp, h.guardedPropose?_eq hi]
    rcases hpropose : e.propose s with ⟨_ | f, s'⟩
    · rfl
    · have hf := mem_of_propose hi.proper hpropose
      simp only [bind, Option.bind_some, h.guardedApply?_eq hi hf]
      rfl

end Steady

/-- **No guard of a step ever fails.** -/
theorem guardedStep?_eq {e : Engine} (h : e.phase = .initializing ∨ e.Steady)
    (hi : e.inst.Obtainable) (s : σ) : e.guardedStep? s = some (e.step s) := by
  obtain ⟨hsteady, hinst⟩ := steady_ensureBegun h s
  have hbegun : e.guardedEnsureBegun? s = some (e.ensureBegun s) := by
    unfold guardedEnsureBegun? ensureBegun
    split_ifs
    · exact guardedBegin?_eq hi.proper s
    · rfl
  unfold guardedStep? step
  rw [hbegun]
  exact hsteady.guardedStepBegun?_eq (hinst ▸ hi) _

/-! ### What a step does -/

/-- What a flip makes of an engine: it inverts the value of one index and counts as one more flip of
its kind. -/
structure Flipped (e : Engine) (f : Flip) (e' : Engine) : Prop where
  index_pos : 1 ≤ f.index
  index_le : f.index ≤ e.inst.numVars
  inverted : ∃ b, e.assignment.slot? f.index = some b ∧ e'.assignment.slot? f.index = some (!b)
  /-- All other slots, the sentinel included, are as they were. -/
  others : ∀ i, i ≠ f.index → e'.assignment.slot? i = e.assignment.slot? i
  iterations : e'.iterations = e.iterations + 1
  flips : e'.stats.flips = e.stats.flips + 1
  kinds : f.kind = .noise ∧ e'.stats.noiseFlips = e.stats.noiseFlips + 1 ∧
      e'.stats.greedyFlips = e.stats.greedyFlips ∨
    f.kind = .greedy ∧ e'.stats.noiseFlips = e.stats.noiseFlips ∧
      e'.stats.greedyFlips = e.stats.greedyFlips + 1

theorem Steady.flipped_apply {e : Engine} (h : e.Steady) {f : Flip}
    (hf : f.index ∈ e.inst.indices) : e.Flipped f (e.apply f) := by
  obtain ⟨h1, h2⟩ := Instance.mem_indices.mp hf
  have hsize := h.size_slots
  have hslot : f.index < e.assignment.slots.size := by omega
  have hflip (i : Nat) : (e.apply f).assignment.slot? i =
      if f.index = i then (e.assignment.slot? i).map not else e.assignment.slot? i :=
    Array.getElem?_modify
  refine ⟨h1, h2, ⟨e.assignment.slots[f.index], ?_, ?_⟩, fun i hne => ?_, rfl, ?_, ?_⟩
  · exact Array.getElem?_eq_getElem hslot
  · rw [hflip, if_pos rfl, Assignment.slot?, Array.getElem?_eq_getElem hslot, Option.map_some]
  · rw [hflip, if_neg (Ne.symm hne)]
  · rw [apply_stats]
    cases f.kind <;> rfl
  · rw [apply_stats]
    cases f.kind with
    | noise => exact Or.inl ⟨rfl, rfl, rfl⟩
    | greedy => exact Or.inr ⟨rfl, rfl, rfl⟩

/-- **An engine that is searching makes a flip.** -/
theorem Steady.exists_step {e : Engine} (h : e.Steady) (hi : e.inst.Proper)
    (hp : e.phase = .searching) (s : σ) :
    ∃ f e' s', e.step s = (some f, e', s') ∧ e.Flipped f e' := by
  have hsat : e.phase ≠ .satisfied := by
    rw [hp]
    decide
  obtain ⟨f, s', hpropose⟩ := h.exists_propose hi hsat s
  exact ⟨f, e.apply f, s', step_of_propose_some h.begun hsat hpropose,
    h.flipped_apply (mem_of_propose hi hpropose)⟩

end Engine

/-- **Steps never stall and look up only what is there.**  For an instance that can be built, take
any engine that can be reached by beginning, restarting and stepping, and any stream.  If it is
satisfied, a step changes neither the engine nor the stream; if it is searching, a step makes one
flip; and if it is initializing, a step is a beginning and a step.  In no phase does it look up a
value, a slot or a clause that is not there. -/
theorem steps_make_one_flip {inst : Instance} (hi : inst.Obtainable) {e : Engine}
    (h : Engine.Reachable σ inst e) (s : σ) :
    (e.phase = .satisfied → e.step s = (none, e, s)) ∧
    (e.phase = .searching → ∃ f e' s', e.step s = (some f, e', s') ∧ e.Flipped f e') ∧
    (e.phase = .initializing → e.step s = (e.begin s).1.step (e.begin s).2) ∧
    e.guardedStep? s = some (e.step s) := by
  obtain ⟨rfl, hbegun⟩ := h.steady
  refine ⟨fun hp => Engine.step_of_satisfied hp s, fun hp => ?_,
    fun hp => Engine.step_of_initializing hp s, Engine.guardedStep?_eq hbegun hi s⟩
  have hs : e.Steady := hbegun.resolve_left (by simp [hp])
  exact hs.exists_step hi.proper hp s

/-- A contradiction leaves every engine searching, also one that is restarted before it begins. -/
theorem step_over_contradiction :
    let inst := Instance.ofClauses [[1], [-1, 2], [-2]]
    let e := ((Engine.new inst .walksat .never ⟨Noise.defaultThreshold⟩).restart (⟨3⟩ : Seeded)).1
    let s : Seeded := ⟨5⟩
    inst.Obtainable ∧ Engine.Reachable Seeded inst e ∧ e.phase = .searching ∧
      (∃ f e' s', e.step s = (some f, e', s') ∧ e.Flipped f e') ∧
      e.guardedStep? s = some (e.step s) := by
  have hinst : Instance.ofClauses [[1], [-1, 2], [-2]] =
      ⟨#[⟨[⟨1, true⟩]⟩, ⟨[⟨1, false⟩, ⟨2, true⟩]⟩, ⟨[⟨2, false⟩]⟩], #[0, 1, 2],
        #[#[], #[0, 1], #[1, 2]]⟩ := by cbv
  have hi : (Instance.ofClauses [[1], [-1, 2], [-2]]).Obtainable :=
    Instance.obtainable_ofClauses (by decide)
  rw [hinst] at hi ⊢
  intro inst e s
  have h : Engine.Reachable Seeded inst e := .restart (.new _ _ _) _
  have hs : e.Steady := .restart _ _
  have hfalse (v : Valuation) : inst.allSatisfied v = false := by
    cases h1 : v 1 <;> cases h2 : v 2 <;>
      simp [inst, Instance.allSatisfied, Clause.eval, Literal.eval, h1, h2]
  have hp : e.phase = .searching := by
    refine hs.searching fun hsat => ?_
    have hall := hs.satisfied_iff.mp hsat
    rw [h.steady.1, hfalse] at hall
    cases hall
  obtain ⟨-, hsearching, -, hguarded⟩ := steps_make_one_flip hi h s
  exact ⟨hi, h, hp, hsearching hp, hguarded⟩

end StochasticSat
