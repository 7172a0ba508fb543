import Mathlib.Algebra.BigOperators.Group.List.Basic
import Mathlib.Algebra.Ring.Int.Defs
import Mathlib.Data.List.GetD
import StochasticSat.Proofs.Formula.Meaning

/-!
# Occurrences and scores

The slot of an index holds the positions of exactly the clauses that mention it, in ascending order
(`Instance.Indexed`): building goes through the clauses once and adds the position of each to the
slots of its indices (`getElem?_foldl_noteOccurrences`).

So the two ways to rate a flip agree.  A flip changes the truth of no clause that does not mention
the index, and therefore what it adds to the clauses of the slot is what it adds to the number of
all satisfied clauses (`Instance.Indexed.flipDelta_eq`).
-/

namespace StochasticSat

/-! ### The slots of the indices -/

theorem Clause.mentions_iff {c : Clause} {i : Nat} : c.mentions i = true ↔ i ∈ c.indices := by
  simp [mentions, indices]

theorem Clause.nodup_indices (c : Clause) : c.indices.Nodup := nodup_eraseDups _

namespace Instance

/-- Noting a clause adds its position to the slots of its indices and to no other. -/
theorem getElem?_noteOccurrences (j i : Nat) : ∀ {is : List Nat} (slots : Array (Array Nat)),
    is.Nodup → (noteOccurrences slots j is)[i]? =
      slots[i]?.map fun ps => if i ∈ is then ps.push j else ps
  | [], slots, _ => by simp [noteOccurrences]
  | k :: is, slots, h => by
    obtain ⟨hk, his⟩ := List.nodup_cons.mp h
    have ih := getElem?_noteOccurrences j i (slots.modify k (·.push j)) his
    rw [show noteOccurrences slots j (k :: is) =
      noteOccurrences (slots.modify k (·.push j)) j is from rfl, ih, Array.getElem?_modify]
    by_cases hki : k = i
    · subst hki
      simp [hk, Function.comp_def]
    · simp [hki, Ne.symm hki]

/-- **What a row of clauses leaves in a slot**: the positions of those that mention the index. -/
theorem getElem?_foldl_noteOccurrences (i : Nat) : ∀ (cs : List Clause) (k : Nat)
    (slots : Array (Array Nat)),
    ((cs.zipIdx k).foldl (fun slots (c, j) => noteOccurrences slots j c.indices) slots)[i]? =
      slots[i]?.map (· ++ (cs.findIdxs (·.mentions i) k).toArray)
  | [], k, slots => by simp
  | c :: cs, k, slots => by
    rw [List.zipIdx_cons, List.foldl_cons, getElem?_foldl_noteOccurrences i cs,
      getElem?_noteOccurrences k i slots c.nodup_indices, Option.map_map, List.findIdxs_cons]
    congr 1
    funext ps
    by_cases hi : i ∈ c.indices
    · simp [hi, Clause.mentions_iff.mpr hi]
    · simp [hi, Bool.eq_false_iff.mpr (mt Clause.mentions_iff.mp hi)]

theorem getElem?_occurrenceTable {size i : Nat} (h : i < size) (cs : List Clause) :
    (occurrenceTable size cs)[i]? = some (cs.findIdxs (·.mentions i)).toArray := by
  rw [occurrenceTable, getElem?_foldl_noteOccurrences]
  simp [h]

theorem getD_occurrenceTable {size i : Nat} (h : i < size) (cs : List Clause) :
    (occurrenceTable size cs).getD i #[] = (cs.findIdxs (·.mentions i)).toArray := by
  rw [Array.getD_eq_getD_getElem?, getElem?_occurrenceTable h, Option.getD_some]

/-- The slot of every index holds the positions of the clauses that mention it, in ascending
order. -/
def Indexed (inst : Instance) : Prop :=
  ∀ i ≤ inst.numVars,
    inst.occurrences.getD i #[] = (inst.clauses.toList.findIdxs (·.mentions i)).toArray

theorem indexed_ofClauses (cs : List SignedClause) : (ofClauses cs).Indexed := by
  intro i hi
  have hsize : i < (ofClauses cs).names.size := by
    rw [numVars_ofClauses] at hi
    rw [size_names_ofClauses]
    omega
  rw [clauses_ofClauses]
  exact getD_occurrenceTable hsize _

theorem Obtainable.indexed {inst : Instance} (h : inst.Obtainable) : inst.Indexed := by
  rcases h with rfl | ⟨cs, hcs⟩
  · exact fun _ _ => rfl
  · rw [(build_eq_ok_iff_acceptable.mp hcs).2]
    exact indexed_ofClauses cs

end Instance

/-! ### What a flip adds -/

section Flips
variable {v : Valuation} {i : Nat}

/-- A flip changes the truth of no clause that does not mention the index. -/
theorem Clause.eval_flipAt_of_not_mentions {c : Clause} (h : c.mentions i = false) :
    c.eval (v.flipAt i) = c.eval v := by
  have hall : ∀ l ∈ c.literals, l.index ≠ i := by simpa [mentions] using h
  rw [Bool.eq_iff_iff, Clause.eval_iff, Clause.eval_iff]
  refine exists_congr fun l => and_congr_right fun hl => ?_
  simp [Literal.eval, beq_eq_false_iff_ne.mpr (hall l hl)]

/-- A flip of one of its indices satisfies a clause that is not satisfied. -/
theorem Clause.eval_flipAt_of_unsatisfied {c : Clause} (h : c.eval v = false)
    (hi : i ∈ c.indices) : c.eval (v.flipAt i) = true := by
  obtain ⟨l, hl, rfl⟩ : ∃ l ∈ c.literals, l.index = i := by simpa [indices] using hi
  have hfalse : l.eval v = false := by
    have hnone := List.any_eq_false.mp h l hl
    simpa using hnone
  refine Clause.eval_iff.mpr ⟨l, hl, ?_⟩
  revert hfalse
  cases hv : v l.index <;> cases hp : l.positive <;> simp [Literal.eval, hv, hp]

namespace Instance

theorem clauseDelta_of_not_mentions {c : Clause} (h : c.mentions i = false) :
    clauseDelta v i c = 0 := by
  rw [clauseDelta, Clause.eval_flipAt_of_not_mentions h, Int.sub_self]

theorem sum_clauseDelta : ∀ cs : List Clause, (cs.map (clauseDelta v i)).sum =
    (cs.countP (·.eval (v.flipAt i)) : Int) - cs.countP (·.eval v)
  | [] => rfl
  | c :: cs => by
    rw [List.map_cons, List.sum_cons, sum_clauseDelta cs, List.countP_cons, List.countP_cons,
      clauseDelta]
    cases c.eval (v.flipAt i) <;> cases c.eval v <;> simp <;> omega

theorem sum_map_filter_of_eq_zero {α : Type} {p : α → Bool} {f : α → Int} : ∀ {xs : List α},
    (∀ x ∈ xs, p x = false → f x = 0) → ((xs.filter p).map f).sum = (xs.map f).sum
  | [], _ => rfl
  | x :: xs, h => by
    have ih := sum_map_filter_of_eq_zero fun y hy => h y (List.mem_cons_of_mem x hy)
    cases hx : p x with
    | true => simp [hx, ih]
    | false => simp [hx, ih, h x List.mem_cons_self hx]

/-- The elements at the positions of those with a property are those with the property. -/
theorem map_getD_findIdxs {α : Type} (p : α → Bool) (xs : List α) (d : α) :
    (xs.findIdxs p).map (xs.getD · d) = xs.filter p := by
  refine List.ext_getElem (by simp [List.countP_eq_length_filter]) fun k h1 h2 => ?_
  have hk : k < (xs.findIdxs p).length := by simpa using h1
  rw [List.getElem_map, List.getElem_filter_eq_getElem_getElem_findIdxs h2,
    List.getD_eq_getElem]

/-- **What a flip adds to the clauses that mention the index is what it adds to the score.** -/
theorem Indexed.flipDelta_eq {inst : Instance} (h : inst.Indexed) (hi : i ≤ inst.numVars) :
    inst.flipDelta v i = (inst.flipScore v i : Int) - inst.satisfiedCount v := by
  have hclauses : ((inst.occurrences.getD i #[]).toList.map fun j =>
      clauseDelta v i (inst.clauses.getD j default)) =
        (inst.clauses.toList.filter (·.mentions i)).map (clauseDelta v i) := by
    rw [h i hi, ← map_getD_findIdxs (·.mentions i) inst.clauses.toList default, List.map_map]
    simp [Function.comp_def]
  calc inst.flipDelta v i
      = ((inst.clauses.toList.filter (·.mentions i)).map (clauseDelta v i)).sum := by
        rw [flipDelta, hclauses]
        rfl
    _ = (inst.clauses.toList.map (clauseDelta v i)).sum :=
        sum_map_filter_of_eq_zero fun c _ hc => clauseDelta_of_not_mentions hc
    _ = (inst.flipScore v i : Int) - inst.satisfiedCount v := by
        rw [sum_clauseDelta, flipScore, satisfiedCount, satisfiedCount, ← Array.countP_toList,
          ← Array.countP_toList]

end Instance

end Flips

end StochasticSat
