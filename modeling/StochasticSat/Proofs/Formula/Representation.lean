import Mathlib.Data.Finset.Card
import StochasticSat.Proofs.Formula.Occurrences
import StochasticSat.Proofs.Formula.Solutions

/-!
# The parts of an instance

An instance keeps the same facts in several places: clauses over indices, the variable of every
index, the index of every variable, and the positions of the clauses that mention an index.  Each
part is made in a pass of its own, and whoever reads one part relies on the others.  They agree in
every instance that is built (`Consistent`, `build_makes_consistent`).

Between indices and variables this is the numbering; a variable has a positive and a negative
literal, since neither `0` nor the least integer is accepted.  The slot of an index holds the
positions of the clauses that mention it (`occurrences?_ofClauses`), and is not empty, since an
index stands for a variable that occurs (`positions_ne_nil`).
-/

namespace StochasticSat

namespace Instance

variable {cs : List SignedClause} {inst : Instance} {i x : Nat}

/-- **The parts of an instance agree** with each other and with the clauses it was built from. -/
structure Consistent (cs : List SignedClause) (inst : Instance) : Prop where
  /-- The indices are as many as the variables that occur. -/
  numVars_eq : inst.numVars = (cs.flatMap fun c => c.map (·.magnitude)).toFinset.card
  /-- The variable of an index fits both of its literals. -/
  variable_fits : ∀ i, 1 ≤ i → i ≤ inst.numVars → ∃ x, inst.variableName i = .ok x ∧
    1 ≤ x ∧ x ≤ 2 ^ 31 - 1 ∧ (inst.signed i true).toInt = x ∧ (inst.signed i false).toInt = -x
  variable_lt : ∀ i j x y, i < j → inst.variableName i = .ok x → inst.variableName j = .ok y → x < y
  indexOf?_eq_some_iff : ∀ x i, inst.indexOf? x = some i ↔
    (1 ≤ i ∧ i ≤ inst.numVars) ∧ inst.variableName i = .ok x
  indexOf?_eq_none : ∀ x, x = 0 ∨ ¬ Occurs cs x → inst.indexOf? x = none
  clause : ∀ d ∈ inst.clauses, d.literals ≠ [] ∧ d.literals.Nodup ∧
    ∀ l ∈ d.literals, 1 ≤ l.index ∧ l.index ≤ inst.numVars
  /-- The slot of an index has the positions of the clauses that mention it, in ascending order. -/
  slot : ∀ i, 1 ≤ i → i ≤ inst.numVars → ∃ ps, inst.occurrences? i = some ps ∧ ps ≠ #[] ∧
    ps.toList.Pairwise (· < ·) ∧
      ∀ j, j ∈ ps ↔ ∃ d, inst.clauses[j]? = some d ∧ d.mentions i = true
  sentinel : inst.occurrences? 0 = some #[]

/-! ### Variables -/

theorem variableName_eq_ok_iff :
    inst.variableName i = .ok x ↔ (1 ≤ i ∧ i ≤ inst.numVars) ∧ inst.variableAt i = x := by
  unfold variableName check
  split_ifs with h
  · simp [bind, Except.bind, pure, Except.pure, knows_iff.mp h]
  · simp [bind, Except.bind, mt knows_iff.mpr h]

/-- The indices are as many as the variables that occur. -/
theorem numVars_eq_card (cs : List SignedClause) :
    (ofClauses cs).numVars = (cs.flatMap fun c => c.map (·.magnitude)).toFinset.card := by
  have hset : (cs.flatMap fun c => c.map (·.magnitude)).toFinset =
      (mentionedVariables cs).toFinset := by
    ext x
    simp [mem_mentionedVariables]
  have hnodup : (mentionedVariables cs).Nodup :=
    (pairwise_lt_mentionedVariables cs).imp Nat.ne_of_lt
  rw [hset, List.toFinset_card_of_nodup hnodup, numVars_ofClauses]

/-- Only variables that occur have an index. -/
theorem indexOf?_eq_none (h : ¬ Occurs cs x) : (ofClauses cs).indexOf? x = none := by
  rw [Option.eq_none_iff_forall_ne_some]
  intro i hi
  have hmem : x ∈ mentionedVariables cs := exists_variableAt.mpr ⟨i, indexOf?_ofClauses.mp hi⟩
  exact h (mem_mentionedVariables.mp hmem)

/-! ### Clauses -/

theorem nodup_literals {d : Clause} (hd : d ∈ (ofClauses cs).clauses.toList) :
    d.literals.Nodup := by
  rw [clauses_ofClauses] at hd
  obtain ⟨c, -, rfl⟩ := List.mem_map.mp hd
  exact nodup_eraseDups _

/-- No clause mentions the sentinel. -/
theorem mentions_zero {d : Clause} (hd : d ∈ (ofClauses cs).clauses.toList) :
    d.mentions 0 = false := by
  rw [Clause.mentions, List.any_eq_false]
  intro l hl
  have hpos := (index_mem_ofClauses hd hl).1
  simp
  omega

/-- Every index is mentioned by the clause of some literal of its variable. -/
theorem exists_mentions (h1 : 1 ≤ i) (h2 : i ≤ (ofClauses cs).numVars) :
    ∃ d ∈ (ofClauses cs).clauses.toList, d.mentions i = true := by
  obtain ⟨c, hc, l, hl, hmag⟩ :=
    mem_mentionedVariables.mp (exists_variableAt.mpr ⟨i, h1, h2, rfl⟩)
  obtain ⟨k, hk1, hk2, hk, hover⟩ := literalOver_ofClauses (mem_mentionedVariables_of_mem hc hl)
  obtain rfl := variableAt_injective hk1 hk2 h1 h2 (hk.trans hmag)
  refine ⟨_, by rw [clauses_ofClauses]; exact List.mem_map_of_mem hc, ?_⟩
  rw [Clause.mentions, List.any_eq_true]
  exact ⟨_, mem_clauseOver.mpr ⟨l, hl, hover⟩, by simp⟩

/-! ### Slots -/

/-- The positions of the clauses that mention an index. -/
def positions (inst : Instance) (i : Nat) : List Nat :=
  inst.clauses.toList.findIdxs (·.mentions i)

theorem mem_positions {j : Nat} :
    j ∈ inst.positions i ↔ ∃ d, inst.clauses[j]? = some d ∧ d.mentions i = true := by
  rw [positions, List.mem_findIdxs_iff_exists_getElem_pos]
  simp [Array.getElem?_eq_some_iff]

theorem positions_ne_nil (h1 : 1 ≤ i) (h2 : i ≤ (ofClauses cs).numVars) :
    (ofClauses cs).positions i ≠ [] := by
  obtain ⟨d, hd, hi⟩ := exists_mentions h1 h2
  intro hnil
  have hnone := List.findIdxs_eq_nil_iff.mp hnil d hd
  rw [hi] at hnone
  cases hnone

theorem positions_zero (cs : List SignedClause) : (ofClauses cs).positions 0 = [] :=
  List.findIdxs_eq_nil_iff.mpr fun _ hd => mentions_zero hd

theorem occurrences?_ofClauses (h : i ≤ (ofClauses cs).numVars) :
    (ofClauses cs).occurrences? i = some ((ofClauses cs).positions i).toArray := by
  have hsize : i < (ofClauses cs).names.size := by
    rw [numVars_ofClauses] at h
    rw [size_names_ofClauses]
    omega
  rw [positions, clauses_ofClauses]
  exact getElem?_occurrenceTable hsize _

/-! ### Built instances -/

/-- **The parts of an instance that is built agree.** -/
theorem build_makes_consistent (h : build cs = .ok inst) : inst.Consistent cs := by
  obtain ⟨hcs, rfl⟩ := build_eq_ok_iff_acceptable.mp h
  constructor
  case numVars_eq => exact numVars_eq_card cs
  case variable_fits =>
    intro i h1 h2
    obtain ⟨hpos, hlt⟩ := variableAt_bounds hcs h1 h2
    exact ⟨_, variableName_eq_ok_iff.mpr ⟨⟨h1, h2⟩, rfl⟩, hpos, Nat.le_sub_one_of_lt hlt,
      SignedLiteral.toInt_ofVariable hlt true, SignedLiteral.toInt_ofVariable hlt false⟩
  case variable_lt =>
    intro i j x y hij hx hy
    obtain ⟨⟨h1, -⟩, rfl⟩ := variableName_eq_ok_iff.mp hx
    obtain ⟨⟨-, h2⟩, rfl⟩ := variableName_eq_ok_iff.mp hy
    exact variableAt_lt h1 hij h2
  case indexOf?_eq_some_iff =>
    intro x i
    rw [indexOf?_ofClauses, variableName_eq_ok_iff]
    tauto
  case indexOf?_eq_none =>
    rintro x (rfl | hx)
    · refine indexOf?_eq_none fun hzero => ?_
      have hmem : 0 ∈ mentionedVariables cs := mem_mentionedVariables.mpr hzero
      exact absurd (mentionedVariables_bounds hcs hmem).1 (Nat.lt_irrefl 0)
    · exact indexOf?_eq_none hx
  case clause =>
    intro d hd
    have hd' : d ∈ (ofClauses cs).clauses.toList := by simpa using hd
    have hproper := proper_ofClauses hcs
    exact ⟨hproper.literals_ne_nil d hd', nodup_literals hd', hproper.index_mem d hd'⟩
  case slot =>
    intro i h1 h2
    have hne : (ofClauses cs).positions i ≠ [] := positions_ne_nil h1 h2
    exact ⟨_, occurrences?_ofClauses h2, by simpa using hne, List.pairwise_findIdxs,
      fun j => List.mem_toArray.trans mem_positions⟩
  case sentinel => rw [occurrences?_ofClauses (Nat.zero_le _), positions_zero]

/-- The least variable of two clauses is found at the first index. -/
theorem consistent_two_clauses :
    let cs : List SignedClause := [[7, -3, 7], [3, 5]]
    let inst := ofClauses cs
    build cs = .ok inst ∧ inst.Consistent cs ∧ inst.numVars = 3 ∧ inst.indexOf? 3 = some 1 := by
  intro cs inst
  have h : build cs = .ok inst := rfl
  have hc := build_makes_consistent h
  have hn : inst.numVars = 3 := by rw [hc.numVars_eq]; decide
  refine ⟨h, hc, hn, (hc.indexOf?_eq_some_iff 3 1).mpr ⟨⟨Nat.le_refl 1, by omega⟩, ?_⟩⟩
  exact variableName_eq_ok_iff.mpr ⟨⟨Nat.le_refl 1, by omega⟩, by cbv⟩

end Instance

end StochasticSat
