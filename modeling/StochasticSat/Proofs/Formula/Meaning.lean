import StochasticSat.Proofs.Formula.Numbering
import StochasticSat.Proofs.Formula.Readings

/-!
# What an instance means

Building accepts exactly the lists without an empty clause, a `0` or the least integer, and names
the first clause at fault otherwise (`build_eq_ok_iff_acceptable`, `build_eq_error_iff`).

An instance that was built says of its indices what the clauses say of their variables.  A valuation
`v` of the variables makes a signed clause true (`SignedClause.holds`) exactly if the valuation that
`v` induces on the indices satisfies the clause of the instance in the same place
(`eval_clauseOver`).  So every question about the instance is one about the clauses it was built
from (`build_preserves_meaning`).
-/

namespace StochasticSat

/-! ### Which clauses are accepted -/

namespace SignedClause

/-- Nothing is wrong with the clause. -/
structure Acceptable (c : SignedClause) : Prop where
  nonempty : c ≠ []
  zero_notMem : 0 ∉ c
  least_notMem : Int32.minValue ∉ c

/-- The clause has the fault, and none that goes before it. -/
def Shows (c : SignedClause) : ClauseFault → Prop
  | .empty => c = []
  | .zeroLiteral => 0 ∈ c
  | .outOfRange => 0 ∉ c ∧ Int32.minValue ∈ c

variable {c : SignedClause}

theorem fault?_eq_none_iff : c.fault? = none ↔ c.Acceptable := by
  constructor
  · intro h
    unfold fault? at h
    split_ifs at h with h1 h2 h3
    exact ⟨by simpa using h1, by simpa using h2, by simpa using h3⟩
  · rintro ⟨h1, h2, h3⟩
    simp [fault?, h1, h2, h3]

theorem fault?_eq_some_iff {f : ClauseFault} : c.fault? = some f ↔ c.Shows f := by
  unfold fault?
  cases f <;> simp only [Shows] <;> split_ifs with h1 h2 h3 <;> simp_all

end SignedClause

variable {cs : List SignedClause}

theorem getElem?_zipIdx_eq_some_iff {c : SignedClause} {i j : Nat} :
    cs.zipIdx[j]? = some (c, i) ↔ i = j ∧ cs[j]? = some c := by
  rw [List.getElem?_zipIdx, Option.map_eq_some_iff]
  constructor
  · rintro ⟨d, hd, he⟩
    simp only [Prod.mk.injEq] at he
    obtain ⟨rfl, rfl⟩ := he
    exact ⟨by omega, hd⟩
  · rintro ⟨rfl, hc⟩
    exact ⟨c, hc, by simp⟩

theorem firstFault?_eq_some_iff {i : Nat} {f : ClauseFault} :
    firstFault? cs = some (i, f) ↔
      ∃ c, cs[i]? = some c ∧ c.Shows f ∧ ∀ j < i, ∀ d, cs[j]? = some d → d.Acceptable := by
  unfold firstFault?
  rw [List.findSome?_eq_some_iff]
  constructor
  · rintro ⟨before, ⟨c, k⟩, after, hsplit, hc, hbefore⟩
    obtain ⟨rfl, hk⟩ := getElem?_zipIdx_eq_some_iff.mp
      (show cs.zipIdx[before.length]? = some (c, k) by rw [hsplit]; simp)
    simp only [Option.map_eq_some_iff, Prod.mk.injEq] at hc
    obtain ⟨f, hf, rfl, rfl⟩ := hc
    refine ⟨c, hk, SignedClause.fault?_eq_some_iff.mp hf, fun j hj d hd => ?_⟩
    have hmem := getElem?_zipIdx_eq_some_iff.mpr ⟨rfl, hd⟩
    rw [hsplit, List.getElem?_append_left hj] at hmem
    have := hbefore (d, j) (List.mem_of_getElem? hmem)
    exact SignedClause.fault?_eq_none_iff.mp (by simpa using this)
  · rintro ⟨c, hc, hf, hbefore⟩
    have hi : i < cs.zipIdx.length := by
      rw [List.length_zipIdx]
      exact (List.getElem?_eq_some_iff.mp hc).1
    refine ⟨cs.zipIdx.take i, (c, i), cs.zipIdx.drop (i + 1), ?_, ?_, ?_⟩
    · have := List.getElem?_eq_some_iff.mp (getElem?_zipIdx_eq_some_iff.mpr ⟨rfl, hc⟩)
      rw [← this.2, ← List.drop_eq_getElem_cons, List.take_append_drop]
    · simp [SignedClause.fault?_eq_some_iff.mpr hf]
    · rintro ⟨d, k⟩ hd
      obtain ⟨j, hj⟩ := List.getElem?_of_mem hd
      rw [List.getElem?_take] at hj
      split_ifs at hj with hji
      have hd' := (getElem?_zipIdx_eq_some_iff.mp hj).2
      simp [SignedClause.fault?_eq_none_iff.mpr (hbefore j hji d hd')]

theorem firstFault?_eq_none_iff : firstFault? cs = none ↔ ∀ c ∈ cs, c.Acceptable := by
  unfold firstFault?
  rw [List.findSome?_eq_none_iff]
  constructor
  · intro h c hc
    obtain ⟨i, hi⟩ := List.getElem?_of_mem hc
    have := h (c, i) (List.mem_zipIdx_iff_getElem?.mpr hi)
    rw [← SignedClause.fault?_eq_none_iff]
    simpa using this
  · rintro h ⟨c, i⟩ hc
    have hc' := h c (List.mem_of_getElem? (List.mem_zipIdx_iff_getElem?.mp hc))
    simp [SignedClause.fault?_eq_none_iff.mpr hc']

namespace Instance

variable {inst : Instance}

theorem build_eq_ok_iff_acceptable :
    build cs = .ok inst ↔ (∀ c ∈ cs, c.Acceptable) ∧ inst = ofClauses cs := by
  rw [← firstFault?_eq_none_iff]
  unfold build
  cases firstFault? cs with
  | none => simp [eq_comm]
  | some p => simp

theorem build_eq_error_iff {e : Error} :
    build cs = .error e ↔
      ∃ i c f, e = .malformedClause i f ∧ cs[i]? = some c ∧ c.Shows f ∧
        ∀ j < i, ∀ d, cs[j]? = some d → d.Acceptable := by
  unfold build
  cases h : firstFault? cs with
  | none =>
    simp only [reduceCtorEq, false_iff, not_exists, not_and]
    intro i c f _ hc hf hbefore
    rw [firstFault?_eq_some_iff.mpr ⟨c, hc, hf, hbefore⟩] at h
    simp at h
  | some p =>
    obtain ⟨i, f⟩ := p
    simp only [Except.error.injEq]
    constructor
    · rintro rfl
      obtain ⟨c, hc⟩ := firstFault?_eq_some_iff.mp h
      exact ⟨i, c, f, rfl, hc⟩
    · rintro ⟨j, c, g, rfl, hc⟩
      have hj := firstFault?_eq_some_iff.mpr ⟨c, hc⟩
      rw [h, Option.some.injEq, Prod.mk.injEq] at hj
      obtain ⟨rfl, rfl⟩ := hj
      rfl

end Instance

/-! ### The truth of signed clauses -/

/-- Whether a signed literal gives its variable the value that it has under `v`. -/
def SignedLiteral.holds (v : Valuation) (l : SignedLiteral) : Bool := v l.magnitude == l.isPositive

/-- Whether some literal of a signed clause holds under `v`. -/
def SignedClause.holds (c : SignedClause) (v : Valuation) : Bool := c.any (SignedLiteral.holds v)

theorem SignedClause.holds_iff {c : SignedClause} {v : Valuation} :
    c.holds v = true ↔ ∃ l ∈ c, v l.magnitude = l.isPositive := by
  simp [holds, SignedLiteral.holds]

/-- The valuation `u` of the indices gives every index the value that `v` gives its variable. -/
def Instance.Induces (inst : Instance) (v u : Valuation) : Prop :=
  ∀ i, 1 ≤ i → i ≤ inst.numVars → u i = v (inst.variableAt i)

namespace Instance

theorem mem_mentionedVariables_of_mem {c : SignedClause} {l : SignedLiteral} (hc : c ∈ cs)
    (hl : l ∈ c) : l.magnitude ∈ mentionedVariables cs :=
  mem_mentionedVariables.mpr ⟨c, hc, l, hl, rfl⟩

theorem clauses_ofClauses (cs : List SignedClause) :
    (ofClauses cs).clauses.toList = cs.map (clauseOver (ofClauses cs).names) := by simp [ofClauses]

theorem mem_clauseOver {c : SignedClause} {l : Literal} {names : Array Nat} :
    l ∈ (clauseOver names c).literals ↔ ∃ k ∈ c, literalOver names k = l := by
  simp [clauseOver]

/-- Every index that a clause of the instance mentions is one of `1, …, N`. -/
theorem index_mem_ofClauses {d : Clause} {l : Literal} (hd : d ∈ (ofClauses cs).clauses.toList)
    (hl : l ∈ d.literals) : 1 ≤ l.index ∧ l.index ≤ (ofClauses cs).numVars := by
  rw [clauses_ofClauses] at hd
  obtain ⟨c, hc, rfl⟩ := List.mem_map.mp hd
  obtain ⟨k, hk, rfl⟩ := mem_clauseOver.mp hl
  obtain ⟨i, h, h', -, he⟩ := literalOver_ofClauses (mem_mentionedVariables_of_mem hc hk)
  rw [he]
  exact ⟨h, h'⟩

theorem covers_ofClauses {r : Reading} {u : Valuation}
    (h : ∀ i, 1 ≤ i → i ≤ (ofClauses cs).numVars → r i = some (u i)) :
    (ofClauses cs).Covers r u := by
  intro d hd l hl
  obtain ⟨h1, h2⟩ := index_mem_ofClauses hd hl
  exact h l.index h1 h2

section Truth
variable {v u : Valuation} (h : (ofClauses cs).Induces v u)
include h

theorem eval_literalOver {l : SignedLiteral} (hl : l.magnitude ∈ mentionedVariables cs) :
    (literalOver (ofClauses cs).names l).eval u = l.holds v := by
  obtain ⟨i, h1, h2, hi, he⟩ := literalOver_ofClauses hl
  rw [he, Literal.eval, h i h1 h2, hi]
  rfl

/-- **A clause over the indices says what the signed clause says of the variables.** -/
theorem eval_clauseOver {c : SignedClause} (hc : c ∈ cs) :
    (clauseOver (ofClauses cs).names c).eval u = c.holds v := by
  rw [Bool.eq_iff_iff, Clause.eval_iff, SignedClause.holds, List.any_eq_true]
  constructor
  · rintro ⟨l, hl, hu⟩
    obtain ⟨k, hk, rfl⟩ := mem_clauseOver.mp hl
    exact ⟨k, hk, by rwa [eval_literalOver h (mem_mentionedVariables_of_mem hc hk)] at hu⟩
  · rintro ⟨k, hk, hv⟩
    refine ⟨_, mem_clauseOver.mpr ⟨k, hk, rfl⟩, ?_⟩
    rwa [eval_literalOver h (mem_mentionedVariables_of_mem hc hk)]

theorem map_eval_ofClauses :
    (ofClauses cs).clauses.toList.map (·.eval u) = cs.map (·.holds v) := by
  rw [clauses_ofClauses, List.map_map]
  exact List.map_congr_left fun c hc => eval_clauseOver h hc

theorem allSatisfied_ofClauses : (ofClauses cs).allSatisfied u = cs.all (·.holds v) := by
  have hall := congrArg (List.all · id) (map_eval_ofClauses h)
  simpa [List.all_map, allSatisfied] using hall

theorem satisfiedCount_ofClauses : (ofClauses cs).satisfiedCount u = cs.countP (·.holds v) := by
  have hcount := congrArg (List.countP id) (map_eval_ofClauses h)
  simpa [List.countP_map, satisfiedCount, Function.comp_def] using hcount

theorem unsatisfied_ofClauses :
    (ofClauses cs).unsatisfied u = cs.findIdxs (!·.holds v) := by
  have hpos := congrArg (List.findIdxs (!·)) (map_eval_ofClauses h)
  rw [List.findIdxs_map, List.findIdxs_map] at hpos
  unfold unsatisfied
  rw [show (fun c : SignedClause => !c.holds v) = (fun b => !b) ∘ (·.holds v) from rfl, ← hpos,
    List.findIdxs_eq_filterMap_zipIdx]
  congr 1
  funext ⟨d, j⟩
  cases hd : d.eval u <;> simp [hd]

end Truth

/-! ### Proper instances -/

variable {inst : Instance}

/-- Every clause has a literal, and every literal is over one of the indices `1, …, N`. -/
structure Proper (inst : Instance) : Prop where
  literals_ne_nil : ∀ d ∈ inst.clauses.toList, d.literals ≠ []
  index_mem : ∀ d ∈ inst.clauses.toList, ∀ l ∈ d.literals, 1 ≤ l.index ∧ l.index ≤ inst.numVars

/-- An assignment that has a value for every index can be read wherever the instance needs it. -/
theorem Proper.covers (h : inst.Proper) {a : Assignment}
    (ha : inst.numVars ≤ a.numVars) : inst.Covers a.slot? a.value := by
  intro c hc l hl
  have hsize : l.index < a.slots.size := by
    obtain ⟨h1, h2⟩ := h.index_mem c hc l hl
    unfold Assignment.numVars at ha
    omega
  simp [Assignment.slot?, Assignment.value, hsize]

/-- The instances that there are: those built from clauses, and the one without slots. -/
def Obtainable (inst : Instance) : Prop := inst = default ∨ ∃ cs, build cs = .ok inst

theorem proper_ofClauses (hcs : ∀ c ∈ cs, c.Acceptable) : (ofClauses cs).Proper := by
  refine ⟨fun d hd => ?_, fun d hd l hl => index_mem_ofClauses hd hl⟩
  rw [clauses_ofClauses] at hd
  obtain ⟨c, hc, rfl⟩ := List.mem_map.mp hd
  obtain ⟨l, hl⟩ := List.exists_mem_of_ne_nil c (hcs c hc).nonempty
  exact List.ne_nil_of_mem (mem_clauseOver.mpr ⟨l, hl, rfl⟩)

theorem Obtainable.proper (h : inst.Obtainable) : inst.Proper := by
  rcases h with rfl | ⟨cs, hcs⟩
  · have hnone : ∀ d, d ∉ (default : Instance).clauses.toList := fun d => List.not_mem_nil
    exact ⟨fun d hd => absurd hd (hnone d), fun d hd => absurd hd (hnone d)⟩
  · obtain ⟨ha, rfl⟩ := build_eq_ok_iff_acceptable.mp hcs
    exact proper_ofClauses ha

/-- Clauses without faults make an instance. -/
theorem obtainable_ofClauses (h : ∀ c ∈ cs, c.fault? = none) : (ofClauses cs).Obtainable :=
  Or.inr ⟨cs, build_eq_ok_iff_acceptable.mpr
    ⟨fun c hc => SignedClause.fault?_eq_none_iff.mp (h c hc), rfl⟩⟩

/-- **Building accepts exactly the well-formed clauses and keeps their meaning.**  The first clause
at fault is named; the clauses keep their places; and under the values that an assignment takes from
a valuation of the variables, a clause is satisfied if and only if one of the literals it was built
from holds. -/
theorem build_preserves_meaning (cs : List SignedClause) :
    ((∃ inst, build cs = .ok inst) ↔ ∀ c ∈ cs, c.Acceptable) ∧
    (∀ e, build cs = .error e ↔
      ∃ i c f, e = .malformedClause i f ∧ cs[i]? = some c ∧ c.Shows f ∧
        ∀ j < i, ∀ d, cs[j]? = some d → d.Acceptable) ∧
    ∀ inst, build cs = .ok inst →
      inst.clauses.size = cs.length ∧
      ∀ (v : Valuation) (a : Assignment),
        (∀ i, 1 ≤ i → i ≤ inst.numVars → a.slot? i = some (v (inst.variableAt i))) →
          (∀ (j : Nat) (c : SignedClause) (d : Clause), cs[j]? = some c →
            inst.clauses[j]? = some d → ∃ b, d.eval? a.slot? = some b ∧ d.eval a.value = b ∧
              (b = true ↔ ∃ l ∈ c, v l.magnitude = l.isPositive)) ∧
          (inst.allSatisfied? a.slot? = some (cs.all (·.holds v)) ∧
            inst.allSatisfied a.value = cs.all (·.holds v)) ∧
          (inst.satisfiedCount? a.slot? = some (cs.countP (·.holds v)) ∧
            inst.satisfiedCount a.value = cs.countP (·.holds v)) ∧
          (inst.unsatisfied? a.slot? = some (cs.findIdxs (!·.holds v)) ∧
            inst.unsatisfied a.value = cs.findIdxs (!·.holds v)) := by
  refine ⟨?_, fun e => build_eq_error_iff, ?_⟩
  · simp [build_eq_ok_iff_acceptable]
  rintro inst hinst
  obtain ⟨-, rfl⟩ := build_eq_ok_iff_acceptable.mp hinst
  refine ⟨by simp [ofClauses], fun v a ha => ?_⟩
  have hvalue : ∀ i b, a.slot? i = some b → a.value i = b := by
    intro i b hb
    unfold Assignment.slot? at hb
    simp [Assignment.value, Array.getD_eq_getD_getElem?, hb]
  have hind : (ofClauses cs).Induces v a.value := fun i h1 h2 => hvalue i _ (ha i h1 h2)
  have hcov : (ofClauses cs).Covers a.slot? a.value :=
    covers_ofClauses fun i h1 h2 => by rw [hind i h1 h2, ha i h1 h2]
  refine ⟨fun j c d hc hd => ?_, ?_, ?_, ?_⟩
  · have hd' : (ofClauses cs).clauses.toList[j]? = some d := by simpa using hd
    have hmem := List.mem_of_getElem? hd'
    rw [clauses_ofClauses, List.getElem?_map, hc, Option.map_some, Option.some.injEq] at hd'
    refine ⟨_, hcov.eval?_eq hmem, rfl, ?_⟩
    rw [← hd', eval_clauseOver hind (List.mem_of_getElem? hc), SignedClause.holds_iff]
  · rw [hcov.allSatisfied?_eq, allSatisfied_ofClauses hind]
    exact ⟨rfl, rfl⟩
  · rw [hcov.satisfiedCount?_eq, satisfiedCount_ofClauses hind]
    exact ⟨rfl, rfl⟩
  · rw [hcov.unsatisfied?_eq, unsatisfied_ofClauses hind]
    exact ⟨rfl, rfl⟩

end Instance

end StochasticSat
