import Mathlib.Data.List.Permutation
import StochasticSat.Proofs.Formula.Occurrences

/-!
# Scores along flips

There are two ways to rate the flip of an index.  The score counts the satisfied clauses anew, as if
the flip had been made, and the delta goes through the slot of the index only.  For an assignment of
all indices both can be read, and both say what the flip does: the score is the count after it, and
the delta is what it adds to the count before it (`Instance.Obtainable.exists_rated`).

Whoever flips index after index may therefore keep the count by adding up the deltas, each taken
just before its flip (`Instance.flipSumming`).  An index that only the assignment has cannot be
rated, and does not have to be: no clause mentions it (`Instance.Proper.satisfiedCount_flipAt`).
-/

namespace StochasticSat

/-! ### Flips of an assignment -/

namespace Assignment

variable {a : Assignment} {i : Nat}

theorem value_flip (hi : i < a.slots.size) : (a.flip i).value = a.value.flipAt i := by
  funext j
  rw [Valuation.flipAt_apply]
  unfold value flip
  rw [Array.getD_eq_getD_getElem?, Array.getD_eq_getD_getElem?, Array.getElem?_modify]
  by_cases hij : i = j
  · subst hij
    simp [hi]
  · simp [hij, beq_eq_false_iff_ne.mpr (Ne.symm hij)]

@[simp] theorem numVars_flip (a : Assignment) (i : Nat) : (a.flip i).numVars = a.numVars := by
  simp [numVars, flip]

theorem knows_iff : a.knows i = true ↔ 1 ≤ i ∧ i ≤ a.numVars := by
  simp [knows, Nat.one_le_iff_ne_zero]

theorem tryFlip_of_knows (h : a.knows i = true) : a.tryFlip i = .ok (a.flip i) := by
  unfold tryFlip check
  rw [if_pos h]
  rfl

theorem tryFlip_of_not_knows (h : a.knows i ≠ true) :
    a.tryFlip i = .error (.unknownVariable i a.numVars) := by
  unfold tryFlip check
  rw [if_neg h]
  rfl

theorem lt_size_of_knows (h : a.knows i = true) : i < a.slots.size := by
  have hi := knows_iff.mp h
  unfold numVars at hi
  omega

end Assignment

namespace Instance

/-! ### Indices that are not known -/

section Unknown
variable {inst : Instance} {r : Reading} {v : Valuation} {i : Nat}

theorem check_of_not_knows (h : inst.knows i ≠ true) :
    inst.check i = .error (.unknownVariable i inst.numVars) := if_neg h

theorem flipScore?_of_not_knows (h : inst.knows i ≠ true) :
    inst.flipScore? r i = .error (.unknownVariable i inst.numVars) := by
  rw [flipScore?, check_of_not_knows h]
  rfl

theorem flipDelta?_of_not_knows (h : inst.knows i ≠ true) :
    inst.flipDelta? r i = .error (.unknownVariable i inst.numVars) := by
  rw [flipDelta?, check_of_not_knows h]
  rfl

/-- A clause of a proper instance mentions indices of the instance only. -/
theorem Proper.mentions_eq_false (h : inst.Proper) (hi : inst.knows i ≠ true) {c : Clause}
    (hc : c ∈ inst.clauses) : c.mentions i = false := by
  unfold Clause.mentions
  rw [List.any_eq_false]
  intro l hl
  have hl' := h.index_mem c (by simpa using hc) l hl
  have hne : l.index ≠ i := by
    rintro rfl
    exact hi (knows_iff.mpr hl')
  simpa using hne

/-- A flip of an index that the instance does not have satisfies as many clauses as before. -/
theorem Proper.satisfiedCount_flipAt (h : inst.Proper) (hi : inst.knows i ≠ true) :
    inst.satisfiedCount (v.flipAt i) = inst.satisfiedCount v := by
  unfold satisfiedCount
  rw [← Array.countP_toList, ← Array.countP_toList]
  refine List.countP_congr fun c hc => ?_
  have hm : c.mentions i = false := h.mentions_eq_false hi (by simpa using hc)
  rw [Clause.eval_flipAt_of_not_mentions hm]

end Unknown

theorem satisfiedCount_le (inst : Instance) (v : Valuation) :
    inst.satisfiedCount v ≤ inst.numClauses := Array.countP_le_size

/-! ### Adding up deltas -/

/-- An assignment and a sum of deltas, after the attempt to flip one more index.  An attempt that
fails changes neither.  Otherwise the delta of the index is taken before the flip and added; the
instance may refuse to rate an index that it does not have.  There is no result if the delta cannot
be computed. -/
def flipSumming (inst : Instance) (done : Assignment × Int) (i : Nat) : Option (Assignment × Int) :=
  match done.1.tryFlip i with
  | .error _ => some done
  | .ok a =>
    match inst.flipDelta? done.1.slot? i with
    | .ok delta? => delta?.map fun d => (a, done.2 + d)
    | .error _ => some (a, done.2)

section Flips
variable {inst : Instance} (hi : inst.Obtainable) {a : Assignment}
include hi

/-- What a flip of a known index adds, by the clauses that mention it. -/
theorem Obtainable.satisfiedCount_flip (ha : inst.numVars ≤ a.numVars) {i : Nat}
    (hk : inst.knows i = true) :
    (inst.satisfiedCount a.value : Int) + inst.flipDelta a.value i =
        inst.satisfiedCount (a.flip i).value ∧
      inst.flipScore a.value i = inst.satisfiedCount (a.flip i).value := by
  have hbounds := knows_iff.mp hk
  have hsize : i < a.slots.size := by
    unfold Assignment.numVars at ha
    omega
  have hdelta := hi.indexed.flipDelta_eq (v := a.value) hbounds.2
  have hscore : inst.flipScore a.value i = inst.satisfiedCount (a.flip i).value := by
    rw [flipScore, Assignment.value_flip hsize]
  refine ⟨?_, hscore⟩
  rw [hdelta, hscore]
  omega

/-- **Both ratings of a known index say what its flip does.** -/
theorem Obtainable.exists_rated (ha : inst.numVars ≤ a.numVars) {i : Nat}
    (hk : inst.knows i = true) : ∃ a' n n' d, a.tryFlip i = .ok a' ∧
      inst.satisfiedCount? a.slot? = some n ∧ inst.satisfiedCount? a'.slot? = some n' ∧
      inst.flipScore? a.slot? i = .ok (some n') ∧ inst.flipDelta? a.slot? i = .ok (some d) ∧
      (n : Int) + d = n' ∧ n' ≤ inst.numClauses := by
  have hbounds := knows_iff.mp hk
  have hknows : a.knows i = true := Assignment.knows_iff.mpr ⟨hbounds.1, by omega⟩
  have hcov := hi.proper.covers ha
  have hcov' : inst.Covers (a.flip i).slot? (a.flip i).value :=
    hi.proper.covers (by rwa [Assignment.numVars_flip])
  obtain ⟨hsum, hscore⟩ := hi.satisfiedCount_flip ha hk
  refine ⟨a.flip i, inst.satisfiedCount a.value, inst.satisfiedCount (a.flip i).value,
    inst.flipDelta a.value i, Assignment.tryFlip_of_knows hknows, hcov.satisfiedCount?_eq,
    hcov'.satisfiedCount?_eq, ?_, hcov.flipDelta?_eq hk, hsum, inst.satisfiedCount_le _⟩
  rw [hcov.flipScore?_eq hk, hscore]

/-- **One attempt keeps the count**: what it adds to the sum it adds to the satisfied clauses. -/
theorem Obtainable.flipSumming_keeps (ha : inst.numVars ≤ a.numVars) (sum : Int) (i : Nat) :
    ∃ a' sum', inst.flipSumming (a, sum) i = some (a', sum') ∧ inst.numVars ≤ a'.numVars ∧
      (inst.satisfiedCount a.value : Int) + sum' = inst.satisfiedCount a'.value + sum := by
  by_cases hknows : a.knows i = true
  · have hnum : inst.numVars ≤ (a.flip i).numVars := by rwa [Assignment.numVars_flip]
    have hflip := Assignment.tryFlip_of_knows hknows
    by_cases hk : inst.knows i = true
    · obtain ⟨hsum, -⟩ := hi.satisfiedCount_flip ha hk
      refine ⟨a.flip i, sum + inst.flipDelta a.value i, ?_, hnum, by omega⟩
      simp only [flipSumming, hflip, (hi.proper.covers ha).flipDelta?_eq hk, Option.map_some]
    · have hsame : inst.satisfiedCount (a.flip i).value = inst.satisfiedCount a.value := by
        rw [Assignment.value_flip (Assignment.lt_size_of_knows hknows)]
        exact hi.proper.satisfiedCount_flipAt hk
      refine ⟨a.flip i, sum, ?_, hnum, by omega⟩
      simp only [flipSumming, hflip, flipDelta?_of_not_knows hk]
  · refine ⟨a, sum, ?_, ha, rfl⟩
    simp only [flipSumming, Assignment.tryFlip_of_not_knows hknows]

/-- **A row of attempts keeps the count.** -/
theorem Obtainable.foldlM_flipSumming : ∀ (is : List Nat) {a : Assignment} (sum : Int),
    inst.numVars ≤ a.numVars →
      ∃ last total, is.foldlM inst.flipSumming (a, sum) = some (last, total) ∧
        inst.numVars ≤ last.numVars ∧
        (inst.satisfiedCount a.value : Int) + total = inst.satisfiedCount last.value + sum
  | [], a, sum, ha => ⟨a, sum, rfl, ha, rfl⟩
  | i :: is, a, sum, ha => by
    obtain ⟨a', sum', hstep, ha', hkeeps⟩ := hi.flipSumming_keeps ha sum i
    obtain ⟨last, total, hrest, hlast, hcount⟩ := foldlM_flipSumming is sum' ha'
    refine ⟨last, total, ?_, hlast, by omega⟩
    rw [List.foldlM_cons, hstep]
    exact hrest

end Flips

/-- **Deltas add up to recounts.**  For an instance that can be built and an assignment of all its
indices, the score of an index is the number of clauses that are satisfied after its flip, and the
delta is the difference to the number before.  So along any row of attempts to flip an index, the
number at the beginning and the deltas taken on the way add up to the number at the end.  An index
that the instance does not have is refused. -/
theorem deltas_add_up_to_recounts {inst : Instance} (hi : inst.Obtainable) {a : Assignment}
    (ha : inst.numVars ≤ a.numVars) :
    (∀ i, 1 ≤ i → i ≤ inst.numVars → ∃ a' n n' d, a.tryFlip i = .ok a' ∧
      inst.satisfiedCount? a.slot? = some n ∧ inst.satisfiedCount? a'.slot? = some n' ∧
      inst.flipScore? a.slot? i = .ok (some n') ∧ inst.flipDelta? a.slot? i = .ok (some d) ∧
      (n : Int) + d = n' ∧ n' ≤ inst.numClauses) ∧
    (∀ is : List Nat, ∃ last total n n', is.foldlM inst.flipSumming (a, 0) = some (last, total) ∧
      inst.satisfiedCount? a.slot? = some n ∧ inst.satisfiedCount? last.slot? = some n' ∧
      (n : Int) + total = n') ∧
    ∀ i, ¬ (1 ≤ i ∧ i ≤ inst.numVars) →
      inst.flipScore? a.slot? i = .error (.unknownVariable i inst.numVars) ∧
      inst.flipDelta? a.slot? i = .error (.unknownVariable i inst.numVars) := by
  refine ⟨fun i h1 h2 => hi.exists_rated ha (knows_iff.mpr ⟨h1, h2⟩), fun is => ?_,
    fun i hunknown => ?_⟩
  · obtain ⟨last, total, hfold, hlast, hcount⟩ := hi.foldlM_flipSumming is 0 ha
    refine ⟨last, total, _, _, hfold, (hi.proper.covers ha).satisfiedCount?_eq,
      (hi.proper.covers hlast).satisfiedCount?_eq, ?_⟩
    rw [hcount, Int.add_zero]
  · have hk : inst.knows i ≠ true := mt knows_iff.mp hunknown
    exact ⟨flipScore?_of_not_knows hk, flipDelta?_of_not_knows hk⟩

/-- Six attempts, of which one has no slot, one is the sentinel and one is an index that only the
assignment has.  The first of the others satisfies one more clause. -/
theorem deltas_along_six_attempts :
    let inst := ofClauses [[1, 2, 1], [-1, 3], [2, -2], [-3]]
    let a : Assignment := ⟨#[false, false, false, true, true]⟩
    let last : Assignment := ⟨#[false, true, true, false, false]⟩
    inst.Obtainable ∧ inst.numVars ≤ a.numVars ∧
      inst.flipDelta? a.slot? 4 = .error (.unknownVariable 4 3) ∧
      [1, 9, 3, 4, 0, 2].foldlM inst.flipSumming (a, 0) = some (last, 1) ∧
      ∃ n n', inst.satisfiedCount? a.slot? = some n ∧ inst.satisfiedCount? last.slot? = some n' ∧
        n' = n + 1 := by
  have hi : (ofClauses [[1, 2, 1], [-1, 3], [2, -2], [-3]]).Obtainable :=
    obtainable_ofClauses (by decide)
  have hinst : ofClauses [[1, 2, 1], [-1, 3], [2, -2], [-3]] =
      ⟨#[⟨[⟨1, true⟩, ⟨2, true⟩]⟩, ⟨[⟨1, false⟩, ⟨3, true⟩]⟩, ⟨[⟨2, true⟩, ⟨2, false⟩]⟩,
        ⟨[⟨3, false⟩]⟩], #[0, 1, 2, 3], #[#[], #[0, 1], #[0, 2], #[1, 3]]⟩ := by cbv
  rw [hinst] at hi ⊢
  intro inst a last
  have ha : inst.numVars ≤ a.numVars := by decide
  obtain ⟨-, hsum, hrefused⟩ := deltas_add_up_to_recounts hi ha
  obtain ⟨last', total, n, n', hfold, hn, hn', hadd⟩ := hsum [1, 9, 3, 4, 0, 2]
  have hrun : [1, 9, 3, 4, 0, 2].foldlM inst.flipSumming (a, 0) = some (last, 1) := by decide
  obtain ⟨rfl, rfl⟩ : last = last' ∧ 1 = total := by simpa using hrun.symm.trans hfold
  exact ⟨hi, ha, (hrefused 4 (by decide)).2, hrun, n, n', hn, hn', by omega⟩

end Instance

end StochasticSat
