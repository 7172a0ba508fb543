import StochasticSat.Formula.Evaluation
import StochasticSat.Proofs.Rows

/-!
# Readings that are defined where they are needed

The evaluation under a reading stops at an index without a value.  If the reading has the values of
a valuation at every index that the clauses mention, it never stops, and every question about the
instance has the answer that it has under the valuation.
-/

namespace StochasticSat

variable {r : Reading} {v : Valuation}

theorem Literal.eval?_eq {l : Literal} (h : r l.index = some (v l.index)) :
    l.eval? r = some (l.eval v) := by simp [eval?, eval, h]

theorem Clause.eval?_eq {c : Clause} (h : ∀ l ∈ c.literals, r l.index = some (v l.index)) :
    c.eval? r = some (c.eval v) :=
  anyM_eq_some_any fun l hl => Literal.eval?_eq (h l hl)

/-- The reading has the values of the valuation at every index that the instance mentions. -/
def Instance.Covers (inst : Instance) (r : Reading) (v : Valuation) : Prop :=
  ∀ c ∈ inst.clauses.toList, ∀ l ∈ c.literals, r l.index = some (v l.index)

namespace Instance

variable {inst : Instance}

theorem knows_iff {i : Nat} : inst.knows i = true ↔ 1 ≤ i ∧ i ≤ inst.numVars := by
  simp [knows, Nat.one_le_iff_ne_zero]

variable (h : inst.Covers r v)
include h

theorem Covers.eval?_eq {c : Clause} (hc : c ∈ inst.clauses.toList) :
    c.eval? r = some (c.eval v) := Clause.eval?_eq (h c hc)

theorem Covers.allSatisfied?_eq : inst.allSatisfied? r = some (inst.allSatisfied v) := by
  unfold allSatisfied? allSatisfied
  rw [← Array.allM_toList, ← Array.all_toList]
  exact allM_eq_some_all fun c hc => h.eval?_eq hc

theorem Covers.clauseValues?_eq :
    inst.clauseValues? r = some (inst.clauses.toList.map (·.eval v)) :=
  mapM_eq_pure_map fun _ hc => h.eval?_eq hc

theorem Covers.satisfiedCount?_eq : inst.satisfiedCount? r = some (inst.satisfiedCount v) := by
  unfold satisfiedCount? satisfiedCount
  rw [h.clauseValues?_eq, Option.map_some, List.count_eq_countP, List.countP_map,
    ← Array.countP_toList]
  congr 2
  funext c
  simp

theorem Covers.unsatisfied?_eq : inst.unsatisfied? r = some (inst.unsatisfied v) := by
  unfold unsatisfied? unsatisfied
  rw [h.clauseValues?_eq, Option.map_some, List.zipIdx_map, List.filterMap_map]
  rfl

/-- A reading that is defined where it is needed stays so after a flip. -/
theorem Covers.flipAt (i : Nat) : inst.Covers (Reading.flipAt r i) (v.flipAt i) := by
  intro c hc l hl
  rw [Reading.flipAt_apply, h c hc l hl]
  rfl

theorem Covers.flipScore?_eq {i : Nat} (hi : inst.knows i = true) :
    inst.flipScore? r i = .ok (some (inst.flipScore v i)) := by
  rw [flipScore?, check, if_pos hi]
  simp only [bind, Except.bind, pure, Except.pure, (h.flipAt i).satisfiedCount?_eq, flipScore]

theorem Covers.eval?_getD (j : Nat) :
    (inst.clauses.getD j default).eval? r = some ((inst.clauses.getD j default).eval v) := by
  rw [Array.getD_eq_getD_getElem?]
  cases hj : inst.clauses[j]? with
  | none => rfl
  | some c => exact h.eval?_eq (by simpa using Array.mem_of_getElem? hj)

theorem Covers.clauseDelta?_eq (i j : Nat) :
    clauseDelta? r i (inst.clauses.getD j default) =
      some (clauseDelta v i (inst.clauses.getD j default)) := by
  rw [clauseDelta?, h.eval?_getD, (h.flipAt i).eval?_getD]
  rfl

theorem Covers.deltaAt?_eq (i : Nat) : inst.deltaAt? r i = some (inst.flipDelta v i) := by
  rw [deltaAt?, mapM_eq_pure_map fun j _ => h.clauseDelta?_eq i j]
  rfl

theorem Covers.flipDelta?_eq {i : Nat} (hi : inst.knows i = true) :
    inst.flipDelta? r i = .ok (some (inst.flipDelta v i)) := by
  rw [flipDelta?, check, if_pos hi]
  simp only [bind, Except.bind, pure, Except.pure, h.deltaAt?_eq]

end Instance

end StochasticSat
