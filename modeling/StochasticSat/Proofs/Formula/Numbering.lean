import Mathlib.Algebra.Ring.Nat
import Mathlib.Data.List.Sort
import Mathlib.Tactic.Common
import StochasticSat.Formula.Instance

/-!
# The numbering of the variables

Building an instance sorts the variables that occur, drops the repetitions and numbers what is left
from 1.  Here are the facts that make the numbering a bijection:

* `mem_mentionedVariables`, `pairwise_lt_mentionedVariables`: the sorted list holds exactly the
  variables that occur, in strictly ascending order;
* `positionWithin_eq_some_iff`: halving finds exactly the positions that hold what is looked for;
* `indexOf?_ofClauses`: hence `indexOf?` and `variableAt` are inverse to each other on the indices
  `1, …, N` and the variables that occur.

The magnitudes of literals that are neither `0` nor the least integer fit a signed literal, so a
literal can be had back from its variable and its sign (`ofVariable_magnitude`).
-/

namespace StochasticSat

/-! ### Signed literals and their variables -/

namespace SignedLiteral

variable {l : SignedLiteral}

theorem magnitude_pos (h : l ≠ 0) : 0 < l.magnitude := by
  have : l.toInt ≠ 0 := fun h' => h (Int32.toInt_inj.mp h')
  unfold magnitude
  omega

theorem magnitude_lt (h : l ≠ Int32.minValue) : l.magnitude < 2 ^ 31 := by
  have h1 := l.minValue_le_toInt
  have h2 := l.toInt_lt
  have h3 : l.toInt ≠ Int32.minValue.toInt := fun h' => h (Int32.toInt_inj.mp h')
  simp only [Int32.toInt_minValue] at h1 h3
  unfold magnitude
  omega

theorem isPositive_iff : l.isPositive = true ↔ 0 < l.toInt := by
  simp [isPositive, Int32.lt_iff_toInt_lt]

theorem toInt_ofVariable {x : Nat} (h : x < 2 ^ 31) (b : Bool) :
    (ofVariable x b).toInt = if b then (x : Int) else -(x : Int) := by
  have hx : (Int32.ofNat x).toInt = x := Int32.toInt_ofNat_of_lt h
  cases b with
  | true => exact hx
  | false =>
    have hneg : (-Int32.ofNat x).toInt = -(x : Int) := by
      rw [Int32.toInt_neg, hx]
      exact Int.bmod_eq_of_le (by omega) (by omega)
    exact hneg

theorem magnitude_ofVariable {x : Nat} (h : x < 2 ^ 31) (b : Bool) :
    (ofVariable x b).magnitude = x := by
  unfold magnitude
  rw [toInt_ofVariable h]
  cases b <;> simp

theorem isPositive_ofVariable {x : Nat} (h0 : 0 < x) (h : x < 2 ^ 31) (b : Bool) :
    (ofVariable x b).isPositive = b := by
  rw [Bool.eq_iff_iff, isPositive_iff, toInt_ofVariable h]
  cases b with
  | true => simpa using h0
  | false => simp

/-- **A literal is its variable with its sign.** -/
theorem ofVariable_magnitude (h0 : l ≠ 0) (h : l ≠ Int32.minValue) :
    ofVariable l.magnitude l.isPositive = l := by
  rw [← Int32.toInt_inj, toInt_ofVariable (magnitude_lt h)]
  have h0' := magnitude_pos h0
  unfold magnitude at h0' ⊢
  split_ifs with hp
  · have := isPositive_iff.mp hp
    omega
  · have : ¬ 0 < l.toInt := fun h' => hp (isPositive_iff.mpr h')
    omega

theorem neg_ofVariable (x : Nat) (b : Bool) : -ofVariable x b = ofVariable x (!b) := by
  cases b with
  | true => rfl
  | false => exact Int32.neg_neg

/-- **The inverted literal is over the same variable, with the other sign.** -/
theorem neg_eq_ofVariable (h0 : l ≠ 0) (h : l ≠ Int32.minValue) :
    -l = ofVariable l.magnitude (!l.isPositive) := by
  rw [← neg_ofVariable, ofVariable_magnitude h0 h]

/-- The literal is over one of the variables `1, …, n`. -/
structure Names (n : Nat) (l : SignedLiteral) : Prop where
  ne_zero : l ≠ 0
  magnitude_pos : 1 ≤ l.magnitude
  magnitude_le : l.magnitude ≤ n

theorem names_ofVariable {n x : Nat} (hn : n ≤ maxVariable) (hx : 1 ≤ x)
    (hx' : x ≤ n) (b : Bool) : Names n (ofVariable x b) := by
  have hmax : maxVariable = 2 ^ 31 - 1 := rfl
  have hmag := magnitude_ofVariable (x := x) (by omega) b
  refine ⟨fun h0 => ?_, by omega, by omega⟩
  rw [h0] at hmag
  exact absurd (hmag.symm.trans (by decide : (0 : SignedLiteral).magnitude = 0)) (by omega)

theorem Names.ne_least {n : Nat} (h : Names n l)
    (hn : n ≤ maxVariable) : l ≠ Int32.minValue := by
  rintro rfl
  have hmax : maxVariable = 2 ^ 31 - 1 := rfl
  have hmag : magnitude Int32.minValue = 2 ^ 31 := by decide
  have := h.magnitude_le
  omega

end SignedLiteral

/-! ### First occurrences -/

theorem nodup_eraseDups {α : Type} [BEq α] [LawfulBEq α] : ∀ xs : List α, xs.eraseDups.Nodup
  | [] => by simp
  | x :: xs => by
    rw [List.eraseDups_cons]
    refine List.nodup_cons.mpr ⟨by simp, nodup_eraseDups _⟩
termination_by xs => xs.length
decreasing_by
  have := List.length_filter_le (fun b => !b == x) xs
  simp only [List.length_cons]
  omega

theorem eraseDups_of_nodup {α : Type} [BEq α] [LawfulBEq α] {xs : List α} (h : xs.Nodup) :
    xs.eraseDups = xs := by
  induction xs with
  | nil => rfl
  | cons x xs ih =>
    obtain ⟨hx, hxs⟩ := List.nodup_cons.mp h
    have hfilter : xs.filter (fun b => !b == x) = xs := by
      rw [List.filter_eq_self]
      rintro y hy
      simpa using ne_of_mem_of_not_mem hy hx
    rw [List.eraseDups_cons, hfilter, ih hxs]

/-- A map that keeps the elements apart keeps the first occurrences. -/
theorem eraseDups_map {α β : Type} [BEq α] [LawfulBEq α] [BEq β] [LawfulBEq β] {f : α → β} :
    ∀ {xs : List α}, (∀ x ∈ xs, ∀ y ∈ xs, f x = f y → x = y) →
      (xs.map f).eraseDups = xs.eraseDups.map f
  | [], _ => rfl
  | x :: xs, h => by
    have hfilter : (xs.map f).filter (fun b => !b == f x) =
        (xs.filter fun b => !b == x).map f := by
      rw [List.filter_map]
      congr 1
      refine List.filter_congr fun y hy => ?_
      have hxy : f y = f x ↔ y = x :=
        ⟨h y (List.mem_cons_of_mem x hy) x List.mem_cons_self, congrArg f⟩
      rw [Function.comp_apply, Bool.eq_iff_iff]
      simp [hxy]
    have hrest : ∀ y ∈ xs.filter fun b => !b == x, y ∈ x :: xs :=
      fun y hy => List.mem_cons_of_mem x (List.mem_filter.mp hy).1
    rw [List.map_cons, List.eraseDups_cons, List.eraseDups_cons, List.map_cons, hfilter,
      eraseDups_map fun y hy z hz => h y (hrest y hy) z (hrest z hz)]
termination_by xs => xs.length
decreasing_by
  have := List.length_filter_le (fun b => !b == x) xs
  simp only [List.length_cons]
  omega

/-! ### The variables in ascending order -/

theorem mem_dropRepeats {x : Nat} : ∀ {xs : List Nat}, x ∈ dropRepeats xs ↔ x ∈ xs
  | [] => by simp [dropRepeats]
  | [y] => by simp [dropRepeats]
  | y :: z :: xs => by
    unfold dropRepeats
    split_ifs with h
    · rw [mem_dropRepeats, h]
      simp
    · rw [List.mem_cons, mem_dropRepeats, List.mem_cons (l := z :: xs)]

theorem pairwise_lt_dropRepeats : ∀ {xs : List Nat}, xs.Pairwise (· ≤ ·) →
    (dropRepeats xs).Pairwise (· < ·)
  | [], _ => by simp [dropRepeats]
  | [y], _ => by simp [dropRepeats]
  | y :: z :: xs, h => by
    obtain ⟨hy, hrest⟩ := List.pairwise_cons.mp h
    unfold dropRepeats
    split_ifs with hyz
    · exact pairwise_lt_dropRepeats hrest
    · refine List.pairwise_cons.mpr ⟨fun x hx => ?_, pairwise_lt_dropRepeats hrest⟩
      have hzx : z ≤ x := by
        rcases List.mem_cons.mp (mem_dropRepeats.mp hx) with rfl | hx
        · exact le_rfl
        · exact (List.pairwise_cons.mp hrest).1 x hx
      have := hy z (by simp)
      omega

variable {cs : List SignedClause}

theorem mem_mentionedVariables {x : Nat} :
    x ∈ mentionedVariables cs ↔ ∃ c ∈ cs, ∃ l ∈ c, SignedLiteral.magnitude l = x := by
  simp [mentionedVariables, mem_dropRepeats]

theorem pairwise_lt_mentionedVariables (cs : List SignedClause) :
    (mentionedVariables cs).Pairwise (· < ·) :=
  pairwise_lt_dropRepeats (List.pairwise_mergeSort' (· ≤ ·) _)

/-- The numbering depends only on which variables occur. -/
theorem mentionedVariables_eq {xs : List Nat} (hxs : xs.Pairwise (· < ·))
    (h : ∀ x, x ∈ mentionedVariables cs ↔ x ∈ xs) : mentionedVariables cs = xs := by
  have hcs := pairwise_lt_mentionedVariables cs
  exact List.Perm.eq_of_pairwise' hcs hxs
    ((List.perm_ext_iff_of_nodup (hcs.imp Nat.ne_of_lt) (hxs.imp Nat.ne_of_lt)).mpr h)

/-! ### Finding by halving -/

/-- **Halving finds exactly the position of what is looked for** in a part that ascends. -/
theorem positionWithin_eq_some_iff {xs : Array Nat} {x lo hi : Nat}
    (h : ∀ i j, lo ≤ i → i < j → j < hi → xs.getD i 0 < xs.getD j 0) {k : Nat} :
    positionWithin xs x lo hi = some k ↔ lo ≤ k ∧ k < hi ∧ xs.getD k 0 = x := by
  fun_induction positionWithin xs x lo hi with
  | case1 lo hi hlt mid y hy ih =>
    -- what is looked for can only stand behind the middle
    rw [ih fun i j hi' => h i j (by omega)]
    refine ⟨fun ⟨h1, h2, h3⟩ => ⟨by omega, h2, h3⟩, fun ⟨h1, h2, h3⟩ => ⟨?_, h2, h3⟩⟩
    rcases Nat.lt_trichotomy k mid with hk | rfl | hk
    · have := h k mid h1 hk (by omega)
      omega
    · omega
    · omega
  | case2 lo hi hlt mid y hy hy' ih =>
    rw [ih fun i j hi' hij hj => h i j hi' hij (by omega)]
    refine ⟨fun ⟨h1, h2, h3⟩ => ⟨h1, by omega, h3⟩, fun ⟨h1, h2, h3⟩ => ⟨h1, ?_, h3⟩⟩
    rcases Nat.lt_trichotomy k mid with hk | rfl | hk
    · exact hk
    · omega
    · have := h mid k (by omega) hk h2
      omega
  | case3 lo hi hlt mid y hy hy' =>
    have hxy : y = x := by omega
    rw [Option.some.injEq]
    refine ⟨fun hk => hk ▸ ⟨by omega, by omega, hxy⟩, fun ⟨h1, h2, h3⟩ => ?_⟩
    rcases Nat.lt_trichotomy k mid with hk | rfl | hk
    · have := h k mid h1 hk (by omega)
      omega
    · rfl
    · have := h mid k (by omega) hk h2
      omega
  | case4 lo hi hlt =>
    simp only [reduceCtorEq, false_iff]
    omega

/-! ### Indices and variables -/

namespace Instance

variable {i j x : Nat}

theorem size_names_ofClauses (cs : List SignedClause) :
    (ofClauses cs).names.size = (mentionedVariables cs).length + 1 := by simp [ofClauses]

theorem numVars_ofClauses (cs : List SignedClause) :
    (ofClauses cs).numVars = (mentionedVariables cs).length := by
  rw [numVars, size_names_ofClauses, Nat.add_sub_cancel]

theorem variableAt_ofClauses (h : 1 ≤ i) (h' : i ≤ (ofClauses cs).numVars) :
    (mentionedVariables cs)[i - 1]? = some ((ofClauses cs).variableAt i) := by
  rw [numVars_ofClauses] at h'
  obtain ⟨k, rfl⟩ := Nat.exists_eq_add_of_le' h
  have hk : k < (mentionedVariables cs).length := by omega
  simp [variableAt, ofClauses, hk]

/-- **Variables ascend with their indices.** -/
theorem variableAt_lt (h : 1 ≤ i) (hij : i < j) (h' : j ≤ (ofClauses cs).numVars) :
    (ofClauses cs).variableAt i < (ofClauses cs).variableAt j := by
  have h'' : i ≤ (ofClauses cs).numVars := by omega
  obtain ⟨hi, ei⟩ := List.getElem?_eq_some_iff.mp (variableAt_ofClauses h h'')
  obtain ⟨hj, ej⟩ := List.getElem?_eq_some_iff.mp (variableAt_ofClauses (by omega) h')
  rw [← ei, ← ej]
  exact List.pairwise_iff_getElem.mp (pairwise_lt_mentionedVariables cs) _ _ hi hj (by omega)

/-- **The indices name exactly the variables that occur.** -/
theorem exists_variableAt :
    x ∈ mentionedVariables cs ↔
      ∃ i, 1 ≤ i ∧ i ≤ (ofClauses cs).numVars ∧ (ofClauses cs).variableAt i = x := by
  constructor
  · intro hx
    obtain ⟨k, hk, rfl⟩ := List.getElem_of_mem hx
    have hk' : k + 1 ≤ (ofClauses cs).numVars := by rw [numVars_ofClauses]; omega
    have h := variableAt_ofClauses (Nat.le_add_left 1 k) hk'
    rw [Nat.add_sub_cancel, List.getElem?_eq_getElem hk, Option.some.injEq] at h
    exact ⟨k + 1, by omega, hk', h.symm⟩
  · rintro ⟨i, h, h', rfl⟩
    exact List.mem_of_getElem? (variableAt_ofClauses h h')

/-- **A variable is found at the index that names it**, and nowhere else. -/
theorem indexOf?_ofClauses :
    (ofClauses cs).indexOf? x = some i ↔
      1 ≤ i ∧ i ≤ (ofClauses cs).numVars ∧ (ofClauses cs).variableAt i = x := by
  unfold indexOf?
  rw [positionWithin_eq_some_iff, numVars_ofClauses, size_names_ofClauses, variableAt]
  · omega
  · intro i j hi hij hj
    refine variableAt_lt hi hij ?_
    rw [numVars_ofClauses]
    rw [size_names_ofClauses] at hj
    omega

/-- A literal of a clause is put over the index of its variable. -/
theorem literalOver_ofClauses {l : SignedLiteral} (hl : l.magnitude ∈ mentionedVariables cs) :
    ∃ i, 1 ≤ i ∧ i ≤ (ofClauses cs).numVars ∧ (ofClauses cs).variableAt i = l.magnitude ∧
      literalOver (ofClauses cs).names l = ⟨i, l.isPositive⟩ := by
  obtain ⟨i, h, h', hi⟩ := exists_variableAt.mp hl
  refine ⟨i, h, h', hi, ?_⟩
  have hf := indexOf?_ofClauses.mpr ⟨h, h', hi⟩
  unfold indexOf? at hf
  rw [literalOver, hf, Option.getD_some]

end Instance

end StochasticSat
