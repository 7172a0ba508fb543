import Mathlib.Data.List.Permutation
import StochasticSat.Proofs.Formula.Models
import StochasticSat.Proofs.Search.Choices
import StochasticSat.Proofs.Search.Places

/-!
# Greedy flips repair

The strategy `walksat` proposes an index of an unsatisfied clause.  Its flip satisfies that clause,
and the flip of no other index of the clause would satisfy more clauses of the instance
(`Instance.RepairedBy`): what the strategy compares is what the flips add to the clauses that
mention the index, and that ranks them like their scores (`Instance.Obtainable.repaired_of_pick`).

The engine flips what was proposed for the assignment that it has, which is the one shown by the
event right before the flip.  So every greedy flip of every run repairs a clause
(`walksat_flips_repair`).
-/

namespace StochasticSat

open RandomStream

variable {σ ω : Type} [RandomStream σ]

/-! ### Repaired clauses -/

/-- Flipping `i` satisfies the clause `d`, which was not satisfied, and flipping no other index of
`d` would satisfy more clauses of the instance. -/
structure Instance.RepairedBy (inst : Instance) (v : Valuation) (d : Clause) (i : Nat) : Prop where
  mem : d ∈ inst.clauses
  unsatisfied : d.eval v = false
  mem_indices : i ∈ d.indices
  satisfied : d.eval (v.flipAt i) = true
  best : ∀ k ∈ d.indices, inst.flipScore v k ≤ inst.flipScore v i

namespace Instance

variable {inst : Instance} {v : Valuation} {i : Nat} {s s' : σ}

/-- **What `walksat` proposes repairs a clause.** -/
theorem Obtainable.repaired_of_pick (h : inst.Obtainable)
    (hpick : Strategy.walksat.pick inst v s = (some i, s')) : ∃ d, inst.RepairedBy v d i := by
  have hne : inst.unsatisfied v ≠ [] := by
    intro hnil
    rw [walksat_pick_of_nil hnil] at hpick
    cases hpick
  obtain ⟨j, s₁, d, -, hclause, hd, hunsat⟩ := exists_pickClause hne s
  rw [walksat_pick_of_clause hclause hd] at hpick
  obtain ⟨hi, hbest⟩ := best_of_bestOf hpick
  have hmem : d ∈ inst.clauses := Array.mem_of_getElem? hd
  refine ⟨d, hmem, hunsat, hi, Clause.eval_flipAt_of_unsatisfied hunsat hi, fun k hk => ?_⟩
  have hle := hbest k hk
  rw [h.indexed.flipDelta_eq (h.proper.mem_indices_of_clause hmem hk).2,
    h.indexed.flipDelta_eq (h.proper.mem_indices_of_clause hmem hi).2] at hle
  omega

end Instance

/-- **A greedy move of an engine with the strategy `walksat` repairs a clause**, and shows what its
flip makes of the assignment. -/
theorem Engine.Moved.repairs {e e' : Engine} {s s' : σ} {f : FlipEvent}
    (h : e.Moved s (.flip f) e' s') (hs : e.Steady) (hi : e.inst.Obtainable)
    (hw : e.strategy = .walksat) (hf : f.flip.kind = .greedy) :
    f.assignment = e.assignment.flip f.flip.index ∧
      ∃ d, e.inst.RepairedBy e.assignment.value d f.flip.index ∧
        d.eval f.assignment.value = true := by
  cases h with
  | @flipped f _ hp hd hpropose =>
    rcases propose_cases hpropose with ⟨hnoise, -⟩ | ⟨-, s₁, hpick⟩
    · exact absurd (hf.symm.trans hnoise) (by decide)
    · rw [hw] at hpick
      obtain ⟨d, hrepaired⟩ := hi.repaired_of_pick hpick
      have hsize : f.index < e.assignment.slots.size := by
        have := (hi.proper.mem_indices_of_clause hrepaired.mem hrepaired.mem_indices).2
        have := hs.size_slots
        omega
      refine ⟨rfl, d, hrepaired, ?_⟩
      show d.eval (e.assignment.flip f.index).value = true
      rw [Assignment.value_flip hsize]
      exact hrepaired.satisfied

namespace Instance

variable {inst : Instance} (hi : inst.Obtainable) {a : Assignment} (ha : inst.numVars ≤ a.numVars)
include hi ha

/-- **The strategy `walksat` proposes a repair** for every assignment that leaves a clause
unsatisfied. -/
theorem Obtainable.exists_repair {d : Clause} (hd : d ∈ inst.clauses)
    (hunsat : d.eval? a.slot? = some false) (s : σ) :
    ∃ i s', Strategy.walksat.pick? inst a.slot? s = some (some i, s') ∧
      ∃ d, inst.RepairedBy a.value d i := by
  have hcov := hi.proper.covers ha
  rw [hcov.eval?_eq (by simpa using hd), Option.some.injEq] at hunsat
  have hall : inst.allSatisfied a.value ≠ true := by
    rw [ne_eq, Bool.not_eq_true]
    exact allSatisfied_eq_false_iff.mpr ⟨d, hd, hunsat⟩
  obtain ⟨i, s', hpick⟩ := hi.proper.exists_pick hall .walksat s
  exact ⟨i, s', by rw [hcov.pick?_eq, hpick], hi.repaired_of_pick hpick⟩

variable {d : Clause} {i : Nat} (hd : inst.RepairedBy a.value d i)
include hd

/-- Reading the assignment shows that the clause is repaired. -/
theorem Obtainable.eval?_repaired :
    d.eval? a.slot? = some false ∧ d.eval? (a.flip i).slot? = some true := by
  have hmem : d ∈ inst.clauses.toList := by simpa using hd.mem
  have hflipped : inst.Covers (a.flip i).slot? (a.flip i).value := hi.proper.covers <| by
    rwa [Assignment.numVars_flip]
  have hsize : i < a.slots.size := by
    have := hi.proper.mem_indices_of_clause hd.mem hd.mem_indices
    unfold Assignment.numVars at ha
    omega
  rw [(hi.proper.covers ha).eval?_eq hmem, hflipped.eval?_eq hmem, Assignment.value_flip hsize]
  exact ⟨congrArg some hd.unsatisfied, congrArg some hd.satisfied⟩

/-- Reading the assignment shows that the score of the repair is the best of the clause. -/
theorem Obtainable.flipScore?_repaired : ∃ score, inst.flipScore? a.slot? i = .ok (some score) ∧
    ∀ k ∈ d.indices, ∃ score', inst.flipScore? a.slot? k = .ok (some score') ∧ score' ≤ score := by
  have hscore : ∀ k ∈ d.indices,
      inst.flipScore? a.slot? k = .ok (some (inst.flipScore a.value k)) := fun k hk => by
    obtain ⟨h1, h2⟩ := hi.proper.mem_indices_of_clause hd.mem hk
    exact (hi.proper.covers ha).flipScore?_eq (knows_iff.mpr ⟨h1, h2⟩)
  exact ⟨_, hscore i hd.mem_indices, fun k hk => ⟨_, hscore k hk, hd.best k hk⟩⟩

end Instance

/-- **Greedy flips of `walksat` repair.**  For an instance that can be built and an assignment of
all its indices that leaves a clause unsatisfied, the strategy proposes an index of such a clause;
flipping it satisfies the clause, and of the indices of the clause none has a higher score.  So in
every run of an engine with this strategy, every greedy flip satisfies a clause that the assignment
right before it leaves unsatisfied. -/
theorem walksat_flips_repair {inst : Instance} (hi : inst.Obtainable) :
    (∀ (a : Assignment) (s : σ), inst.numVars ≤ a.numVars →
      (∃ d ∈ inst.clauses, d.eval? a.slot? = some false) →
        ∃ i s', Strategy.walksat.pick? inst a.slot? s = some (some i, s') ∧
          ∃ d ∈ inst.clauses, i ∈ d.indices ∧ d.eval? a.slot? = some false ∧
            d.eval? (a.flip i).slot? = some true ∧
            ∃ score, inst.flipScore? a.slot? i = .ok (some score) ∧
              ∀ k ∈ d.indices, ∃ score', inst.flipScore? a.slot? k = .ok (some score') ∧
                score' ≤ score) ∧
    ∀ e : Engine, Engine.Reachable σ inst e → e.strategy = .walksat →
      ∀ (c : Restarter) (o : Observer ω) (budget : Budget) (clock : Nat → Duration) (n : Nat)
        (s : σ) (w : ω) (pre post : List Event) (f : FlipEvent),
        (e.withRestarter c).told o budget clock n s w = pre ++ .flip f :: post →
          f.flip.kind = .greedy →
            ∃ past last a, pre = past ++ [last] ∧ last.assignment? = some a ∧
              f.assignment = a.flip f.flip.index ∧
              ∃ d, inst.RepairedBy a.value d f.flip.index ∧
                d.eval f.assignment.value = true := by
  refine ⟨fun a s ha ⟨d, hd, hunsat⟩ => ?_,
    fun e he hw c o budget clock n s w pre post f hsplit hf => ?_⟩
  · obtain ⟨i, s', hpick, d, hrepaired⟩ := hi.exists_repair ha hd hunsat s
    obtain ⟨hbefore, hafter⟩ := hi.eval?_repaired ha hrepaired
    exact ⟨i, s', hpick, d, hrepaired.mem, hrepaired.mem_indices, hbefore, hafter,
      hi.flipScore?_repaired ha hrepaired⟩
  · have h := he.withRestarter c
    have hinst : (e.withRestarter c).inst = inst := he.steady.1
    rcases Engine.told_cases h o budget clock s w hsplit rfl with
      ⟨-, hstart⟩ | ⟨k, past, last, e', s', hpre, hshows, hm⟩
    · cases hstart
    · obtain ⟨hflip, d, hd, hsat⟩ := hm.repairs hshows.steady
        (by rw [hshows.inst_eq, hinst]; exact hi) ((Engine.strategy_trail _ s k).trans hw) hf
      rw [hshows.inst_eq, hinst] at hd
      exact ⟨past, last, _, hpre, hshows.last, hflip, d, hd, hsat⟩

/-- A contradiction: whatever is proposed repairs one of its clauses, and the first flip of a run
does so if it is a greedy one. -/
theorem repairs_of_contradiction :
    let inst := Instance.ofClauses [[1, -2], [2], [-1]]
    let e := Engine.new inst .walksat .never ⟨Noise.defaultThreshold⟩
    let a : Assignment := ⟨#[false, true, true]⟩
    (∃ i s', Strategy.walksat.pick? inst a.slot? (⟨5⟩ : Seeded) = some (some i, s') ∧
      ∃ d ∈ inst.clauses, d.eval? a.slot? = some false ∧
        d.eval? (a.flip i).slot? = some true) ∧
    ∃ a' f, e.told .silent .unbounded (fun _ => .zero) 1 (⟨7⟩ : Seeded) () =
        [.start inst a', .flip f] ∧
      (f.flip.kind = .greedy →
        ∃ d ∈ inst.clauses, d.eval a'.value = false ∧ d.eval f.assignment.value = true) := by
  have hi : (Instance.ofClauses [[1, -2], [2], [-1]]).Obtainable :=
    Instance.obtainable_ofClauses (by decide)
  have hinst : Instance.ofClauses [[1, -2], [2], [-1]] =
      ⟨#[⟨[⟨1, true⟩, ⟨2, false⟩]⟩, ⟨[⟨2, true⟩]⟩, ⟨[⟨1, false⟩]⟩], #[0, 1, 2],
        #[#[], #[0, 2], #[0, 1]]⟩ := by cbv
  rw [hinst] at hi ⊢
  intro inst e a
  obtain ⟨hproposed, hrun⟩ := walksat_flips_repair (σ := Seeded) (ω := Unit) hi
  refine ⟨?_, ?_⟩
  · obtain ⟨i, s', hpick, d, hd, -, hbefore, hafter, -⟩ :=
      hproposed a ⟨5⟩ (by decide) (by decide)
    exact ⟨i, s', hpick, d, hd, hbefore, hafter⟩
  have he : Engine.Reachable Seeded inst e := .new _ _ _
  have h : e.phase = .initializing ∨ e.Steady := Or.inl rfl
  have hfalse (v : Valuation) : inst.allSatisfied v = false := by
    cases h1 : v 1 <;> cases h2 : v 2 <;>
      simp [inst, Instance.allSatisfied, Clause.eval, Literal.eval, h1, h2]
  obtain ⟨new, elapsed, hp, -, htold⟩ := Engine.exists_passed h .silent .unbounded
    (fun _ => .zero) (⟨7⟩ : Seeded) () (n := 0) rfl
  obtain ⟨hs, hsame⟩ :=
    Engine.steady_runFor h .silent .unbounded (fun _ => .zero) (⟨7⟩ : Seeded) () 0
  have hrestarter : (e.runFor .silent .unbounded (fun _ => .zero) 0
      (⟨7⟩ : Seeded) ()).engine.restarter = .start .never := rfl
  rw [Engine.told_zero h] at htold
  generalize e.runFor .silent .unbounded (fun _ => .zero) 0 (⟨7⟩ : Seeded) () = r
    at hp hs hsame hrestarter
  generalize e.runFor .silent .unbounded (fun _ => .zero) (0 + 1) (⟨7⟩ : Seeded) () = r₁ at hp
  have hunsat : r.engine.phase ≠ .satisfied := by
    rw [ne_eq, hs.satisfied_iff, hsame, Bool.not_eq_true]
    exact hfalse _
  obtain ⟨f, s', hpropose⟩ := hs.exists_propose (by rw [hsame]; exact hi.proper) hunsat r.stream
  have hdue : r.engine.restarter.remaining ≠ 0 := by
    rw [hrestarter]
    decide
  obtain ⟨later, rfl, hlater⟩ := hp.of_propose ⟨hunsat, rfl, rfl⟩ hdue hpropose
  obtain rfl : later = [] := by
    by_contra hne
    cases hlater hne
  refine ⟨_, _, htold, fun hgreedy => ?_⟩
  obtain ⟨past, last, a', hpast, hlast, -, d, hd, hsat⟩ := hrun e he rfl e.restarter .silent
    .unbounded (fun _ => .zero) 1 ⟨7⟩ () [.start inst _] [] _ htold hgreedy
  obtain ⟨rfl, rfl⟩ : past = [] ∧ last = .start inst _ := by
    simpa [List.append_eq_singleton_iff] using hpast.symm
  obtain rfl := Option.some.inj hlast
  exact ⟨d, hd.mem, hd.unsatisfied, hsat⟩

end StochasticSat
