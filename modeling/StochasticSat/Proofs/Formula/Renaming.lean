import StochasticSat.Proofs.Formula.Solutions

/-!
# Renamed variables

A map that keeps the order of the variables that occur (`Renames`) gives clauses over new variables
(`renameClauses`).  The dense index of a variable is its place among those that occur, so it is that
of the new variable too (`variableAt_renameClauses`), and the instance differs in its names alone
(`ofClauses_renameClauses`).  The literals of an assignment are the same up to the new names
(`toLiterals_renameClauses`).
-/

namespace StochasticSat

open SignedLiteral

/-- The literal over the new variable, with its sign. -/
def SignedLiteral.rename (f : Nat → Nat) (l : SignedLiteral) : SignedLiteral :=
  ofVariable (f l.magnitude) l.isPositive

/-- The clauses over the new variables. -/
def renameClauses (f : Nat → Nat) (cs : List SignedClause) : List SignedClause :=
  cs.map (·.map (rename f))

/-- The map gives the variables that occur new ones that a literal can name, in the same order. -/
structure Renames (f : Nat → Nat) (cs : List SignedClause) : Prop where
  lt : ∀ x y, Occurs cs x → Occurs cs y → x < y → f x < f y
  pos : ∀ x, Occurs cs x → 1 ≤ f x
  le : ∀ x, Occurs cs x → f x ≤ maxVariable

theorem Instance.occurrences_ofClauses (cs : List SignedClause) : (ofClauses cs).occurrences =
    occurrenceTable (ofClauses cs).names.size (ofClauses cs).clauses.toList := rfl

/-- The instance with other names of its variables. -/
def Instance.withNames (inst : Instance) (names : Array Nat) : Instance :=
  { inst with names := names }

namespace Renames

variable {f : Nat → Nat} {cs : List SignedClause} (h : Renames f cs)
include h

/-! ### Literals -/

theorem names_rename {l : SignedLiteral} (hl : Occurs cs l.magnitude) :
    Names maxVariable (l.rename f) := names_ofVariable (Nat.le_refl _) (h.pos _ hl) (h.le _ hl) _

theorem lt_two_pow {x : Nat} (hx : Occurs cs x) : f x < 2 ^ 31 :=
  Nat.lt_of_le_of_lt (h.le x hx) (by decide)

theorem magnitude_rename {l : SignedLiteral} (hl : Occurs cs l.magnitude) :
    (l.rename f).magnitude = f l.magnitude := magnitude_ofVariable (h.lt_two_pow hl) _

theorem isPositive_rename {l : SignedLiteral} (hl : Occurs cs l.magnitude) :
    (l.rename f).isPositive = l.isPositive :=
  isPositive_ofVariable (h.pos _ hl) (h.lt_two_pow hl) _

/-! ### Variables -/

theorem occurs_renameClauses {y : Nat} :
    Occurs (renameClauses f cs) y ↔ ∃ x, Occurs cs x ∧ f x = y := by
  constructor
  · rintro ⟨_, hd, _, hk, rfl⟩
    obtain ⟨c, hc, rfl⟩ := List.mem_map.mp hd
    obtain ⟨l, hl, rfl⟩ := List.mem_map.mp hk
    have hx : Occurs cs l.magnitude := ⟨c, hc, l, hl, rfl⟩
    exact ⟨_, hx, (h.magnitude_rename hx).symm⟩
  · rintro ⟨x, ⟨c, hc, l, hl, rfl⟩, rfl⟩
    exact ⟨_, List.mem_map_of_mem hc, _, List.mem_map_of_mem hl,
      h.magnitude_rename ⟨c, hc, l, hl, rfl⟩⟩

theorem mentionedVariables_renameClauses :
    mentionedVariables (renameClauses f cs) = (mentionedVariables cs).map f := by
  refine mentionedVariables_eq ?_ fun y => ?_
  · refine List.pairwise_map.mpr ((pairwise_lt_mentionedVariables cs).imp_of_mem ?_)
    exact fun hx hy => h.lt _ _ (mem_mentionedVariables.mp hx) (mem_mentionedVariables.mp hy)
  · rw [mem_mentionedVariables, List.mem_map]
    simp only [mem_mentionedVariables]
    exact h.occurs_renameClauses

theorem size_names_renameClauses : (Instance.ofClauses (renameClauses f cs)).names.size =
    (Instance.ofClauses cs).names.size := by
  rw [Instance.size_names_ofClauses, Instance.size_names_ofClauses,
    h.mentionedVariables_renameClauses, List.length_map]

theorem numVars_renameClauses : (Instance.ofClauses (renameClauses f cs)).numVars =
    (Instance.ofClauses cs).numVars := congrArg (· - 1) h.size_names_renameClauses

/-- **Every index names the new variable.** -/
theorem variableAt_renameClauses {i : Nat} (h1 : 1 ≤ i) (h2 : i ≤ (Instance.ofClauses cs).numVars) :
    (Instance.ofClauses (renameClauses f cs)).variableAt i =
      f ((Instance.ofClauses cs).variableAt i) := by
  have hold := Instance.variableAt_ofClauses h1 h2
  have hnew := Instance.variableAt_ofClauses h1 (h2.trans_eq h.numVars_renameClauses.symm)
  rw [h.mentionedVariables_renameClauses, List.getElem?_map, hold] at hnew
  exact (Option.some.inj hnew).symm

/-! ### Clauses -/

theorem literalOver_rename {l : SignedLiteral} (hl : Occurs cs l.magnitude) :
    Instance.literalOver (Instance.ofClauses (renameClauses f cs)).names (l.rename f) =
      Instance.literalOver (Instance.ofClauses cs).names l := by
  obtain ⟨i, h1, h2, hi, hold⟩ := Instance.literalOver_ofClauses (mem_mentionedVariables.mpr hl)
  have hl' : Occurs (renameClauses f cs) (l.rename f).magnitude :=
    h.occurs_renameClauses.mpr ⟨_, hl, (h.magnitude_rename hl).symm⟩
  obtain ⟨j, h1', h2', hj, hnew⟩ := Instance.literalOver_ofClauses (mem_mentionedVariables.mpr hl')
  obtain rfl : j = i := by
    refine Instance.variableAt_injective h1' h2' h1 (h2.trans_eq h.numVars_renameClauses.symm) ?_
    rw [hj, h.magnitude_rename hl, h.variableAt_renameClauses h1 h2, hi]
  rw [hnew, hold, h.isPositive_rename hl]

theorem clauseOver_rename {c : SignedClause} (hc : c ∈ cs) :
    Instance.clauseOver (Instance.ofClauses (renameClauses f cs)).names (c.map (rename f)) =
      Instance.clauseOver (Instance.ofClauses cs).names c := by
  unfold Instance.clauseOver
  rw [List.map_map]
  exact congrArg Clause.ofLiterals
    (List.map_congr_left fun l hl => h.literalOver_rename ⟨c, hc, l, hl, rfl⟩)

theorem clauses_renameClauses : (Instance.ofClauses (renameClauses f cs)).clauses =
    (Instance.ofClauses cs).clauses := by
  refine Array.toList_inj.mp ?_
  rw [Instance.clauses_ofClauses, Instance.clauses_ofClauses, renameClauses, List.map_map]
  exact List.map_congr_left fun c hc => h.clauseOver_rename hc

theorem occurrences_renameClauses : (Instance.ofClauses (renameClauses f cs)).occurrences =
    (Instance.ofClauses cs).occurrences := by
  rw [Instance.occurrences_ofClauses, Instance.occurrences_ofClauses, h.clauses_renameClauses,
    h.size_names_renameClauses]

/-- **The renamed clauses make the same instance, with other names.** -/
theorem ofClauses_renameClauses : Instance.ofClauses (renameClauses f cs) =
    (Instance.ofClauses cs).withNames (Instance.ofClauses (renameClauses f cs)).names := by
  rw [Instance.withNames, ← h.clauses_renameClauses, ← h.occurrences_renameClauses]

theorem acceptable (hcs : ∀ c ∈ cs, c.Acceptable) : ∀ c ∈ renameClauses f cs, c.Acceptable := by
  intro d hd
  obtain ⟨c, hc, rfl⟩ := List.mem_map.mp hd
  have hnames : ∀ l ∈ c.map (rename f), Names maxVariable l := by
    intro k hk
    obtain ⟨l, hl, rfl⟩ := List.mem_map.mp hk
    exact h.names_rename ⟨c, hc, l, hl, rfl⟩
  exact ⟨fun hnil => (hcs c hc).nonempty (List.map_eq_nil_iff.mp hnil),
    fun h0 => (hnames 0 h0).ne_zero rfl,
    fun hleast => (hnames _ hleast).ne_least (Nat.le_refl _) rfl⟩

/-! ### Models -/

/-- **The literals of an assignment are renamed with the variables.** -/
theorem toLiterals_renameClauses (hcs : ∀ c ∈ cs, c.Acceptable) (a : Assignment) :
    (Instance.ofClauses (renameClauses f cs)).toLiterals a =
      ((Instance.ofClauses cs).toLiterals a).map (List.map (rename f)) := by
  unfold Instance.toLiterals
  rw [h.numVars_renameClauses]
  split_ifs with hn
  · refine congrArg Except.ok ?_
    rw [List.map_map, Assignment.pairs_eq, List.map_map, List.map_map, hn]
    refine List.map_congr_left fun i hi => ?_
    rw [List.mem_range'_1] at hi
    have h1 : 1 ≤ i := hi.1
    have h2 : i ≤ (Instance.ofClauses cs).numVars := by omega
    show Instance.signed _ i (a.value i) = rename f (Instance.signed _ i (a.value i))
    rw [Instance.signed, rename, Instance.magnitude_signed hcs h1 h2,
      Instance.isPositive_signed hcs h1 h2, h.variableAt_renameClauses h1 h2]
  · rfl

end Renames

end StochasticSat
