import Mathlib.Logic.Function.Iterate
import StochasticSat.Proofs.Formula.Models
import StochasticSat.Proofs.Search.States
import StochasticSat.RandomInstance

/-!
# Planted instances

Every literal that is drawn for a shape is over one of its variables (`names_drawLiterals`), so
every row of drawn clauses can be built (`build_of_admits`).

A planted clause is the clause that was drawn, or that clause with one literal inverted
(`Planted`).  It is inverted only where all drawn literals disagree with the hidden values, and then
the inverted one agrees with them: so one literal of every planted clause does
(`Planted.exists_agrees`).  The hidden values are values for all variables, those that do not occur
included; the indices of the instance take theirs from them, and then satisfy every clause
(`planted_instances_are_satisfiable`).
-/

namespace StochasticSat

open RandomStream SignedLiteral

variable {σ : Type} [RandomStream σ]

/-! ### Shapes -/

/-- **Which shapes there are.** -/
theorem Shape.ofRatio_eq_ok_iff {n k : Nat} {ratio : Float} {shape : Shape} :
    Shape.ofRatio n ratio k = .ok shape ↔
      (n ≤ maxVariable ∧ ratio.isFinite = true ∧ ¬ ratio < 0) ∧
        shape.numVars = n ∧ shape.numClauses = clausesForRatio n ratio ∧ shape.clauseSize = k := by
  unfold ofRatio
  constructor
  · intro h
    split_ifs at h with hpos hmax hratio
    cases h
    simp only [Bool.or_eq_true, Bool.not_eq_true', decide_eq_true_eq, not_or,
      Bool.not_eq_false] at hratio
    exact ⟨⟨Nat.not_lt.mp hmax, hratio⟩, rfl, rfl, rfl⟩
  · rintro ⟨⟨hmax, hfinite, hsign⟩, rfl, hnum, rfl⟩
    rw [dif_pos ⟨shape.numVars_pos, shape.clauseSize_pos⟩, if_neg (Nat.not_lt.mpr hmax),
      if_neg (by simp [hfinite, hsign]), ← hnum]

/-! ### Drawn literals -/

/-- The clause has as many literals as the shape says, all over its variables. -/
structure Shape.Admits (shape : Shape) (c : SignedClause) : Prop where
  length : c.length = shape.clauseSize
  names : ∀ l ∈ c, Names shape.numVars l

theorem names_drawLiterals {n : Nat} (h : 0 < n) (hn : n ≤ maxVariable) :
    ∀ (k : Nat) (s : σ), (drawLiterals n h k s).1.length = k ∧
      ∀ l ∈ (drawLiterals n h k s).1, Names n l
  | 0, s => ⟨rfl, fun l hl => absurd hl List.not_mem_nil⟩
  | k + 1, s => by
    obtain ⟨hlen, hnames⟩ := names_drawLiterals h hn k (drawLiteral n h s).2
    refine ⟨congrArg (· + 1) hlen, List.forall_mem_cons.mpr ⟨?_, hnames⟩⟩
    exact names_ofVariable hn (Nat.le_add_left 1 _) (belowNarrow n h s).1.isLt _

theorem Shape.admits_drawLiterals (shape : Shape) (hn : shape.numVars ≤ maxVariable) (s : σ) :
    shape.Admits (drawLiterals shape.numVars shape.numVars_pos shape.clauseSize s).1 :=
  ⟨(names_drawLiterals shape.numVars_pos hn _ s).1, (names_drawLiterals shape.numVars_pos hn _ s).2⟩

theorem Shape.Admits.acceptable {shape : Shape} {c : SignedClause} (h : shape.Admits c)
    (hn : shape.numVars ≤ maxVariable) : c.Acceptable := by
  refine ⟨?_, fun h0 => (h.names 0 h0).ne_zero rfl, fun hl => (h.names _ hl).ne_least hn rfl⟩
  rintro rfl
  exact absurd h.length.symm (Nat.ne_of_gt shape.clauseSize_pos)

/-- Clauses that a shape admits make an instance. -/
theorem build_of_admits {shape : Shape} (hn : shape.numVars ≤ maxVariable)
    {cs : List SignedClause} (h : ∀ c ∈ cs, shape.Admits c) :
    Instance.build cs = .ok (.ofClauses cs) :=
  Instance.build_eq_ok_iff_acceptable.mpr ⟨fun c hc => (h c hc).acceptable hn, rfl⟩

/-! ### Rows of clauses -/

/-- The stream that is left after some rows. -/
def streamAfter (row : σ → SignedClause × σ) (j : Nat) (s : σ) : σ := (fun t => (row t).2)^[j] s

omit [RandomStream σ] in
theorem drawRows_fst (row : σ → SignedClause × σ) : ∀ (m : Nat) (rows : Array SignedClause) (s : σ),
    (drawRows row rows m s).1.toList =
      rows.toList ++ (List.range m).map fun j => (row (streamAfter row j s)).1
  | 0, rows, s => by simp [drawRows]
  | m + 1, rows, s => by
    unfold drawRows
    rw [drawRows_fst row m, List.range_succ_eq_map, List.map_cons, List.map_map,
      Array.toList_push, List.append_assoc]
    rfl

theorem drawClauses_eq (shape : Shape) (s : σ) :
    let row := drawLiterals (σ := σ) shape.numVars shape.numVars_pos shape.clauseSize
    (drawClauses shape s).1 =
      (List.range shape.numClauses).map fun j => (row (streamAfter row j s)).1 :=
  drawRows_fst _ _ _ s

/-- The hidden values of a planted instance. -/
def hiddenValues (shape : Shape) (s : σ) : Array Bool := (drawCoins (shape.numVars + 1) s).1

/-- The stream from which the rows of a planted instance are drawn one after the other. -/
def plantingStream (shape : Shape) (j : Nat) (s : σ) : σ :=
  streamAfter (drawAgreeing shape (hiddenValues shape s)) j (drawCoins (shape.numVars + 1) s).2

theorem drawPlanted_eq (shape : Shape) (s : σ) : (drawPlanted shape s).1 =
    (List.range shape.numClauses).map fun j =>
      (drawAgreeing shape (hiddenValues shape s) (plantingStream shape j s)).1 :=
  drawRows_fst _ _ _ _

/-! ### Planted clauses -/

/-- **What is planted for a clause that was drawn**: the clause itself if one of its literals agrees
with the hidden values, and otherwise the clause with one literal inverted. -/
inductive Planted (hidden : Array Bool) (drawn : SignedClause) : SignedClause → Prop
  | kept (h : ∃ l ∈ drawn, agrees hidden l = true) : Planted hidden drawn drawn
  | repaired {before after : SignedClause} {l : SignedLiteral}
    (h : ∀ l ∈ drawn, agrees hidden l = false) (hsplit : drawn = before ++ l :: after) :
    Planted hidden drawn (before ++ -l :: after)

theorem planted_drawAgreeing (shape : Shape) (hn : shape.numVars ≤ maxVariable)
    (hidden : Array Bool) (s : σ) :
    Planted hidden (drawLiterals shape.numVars shape.numVars_pos shape.clauseSize s).1
      (drawAgreeing shape hidden s).1 := by
  have hlen := (shape.admits_drawLiterals hn s).length
  unfold drawAgreeing
  rcases hdraw : drawLiterals shape.numVars shape.numVars_pos shape.clauseSize s with ⟨drawn, s₁⟩
  rw [hdraw] at hlen
  simp only at hlen ⊢
  split_ifs with h
  · exact .kept (List.any_eq_true.mp h)
  · have hlt : (below shape.clauseSize shape.clauseSize_pos s₁).1.val < drawn.length := by omega
    obtain ⟨before, l, after, hsplit, -, hmodify⟩ := List.exists_of_modify (-·) hlt
    rw [hmodify]
    exact .repaired (by simpa using h) hsplit

namespace Planted

variable {shape : Shape} {hidden : Array Bool} {drawn c : SignedClause}
  (h : Planted hidden drawn c) (hn : shape.numVars ≤ maxVariable) (hd : shape.Admits drawn)
include h hn hd

theorem admits : shape.Admits c := by
  cases h with
  | kept h => exact hd
  | @repaired before after l h hsplit =>
    subst hsplit
    have hl := hd.names l (by simp)
    refine ⟨by simpa using hd.length, fun l' hl' => ?_⟩
    rcases List.mem_append.mp hl' with hl' | hl'
    · exact hd.names l' (by simp [hl'])
    rcases List.mem_cons.mp hl' with rfl | hl'
    · rw [neg_eq_ofVariable hl.ne_zero (hl.ne_least hn)]
      exact names_ofVariable hn hl.magnitude_pos hl.magnitude_le _
    · exact hd.names l' (by simp [hl'])

/-- **One literal of a planted clause agrees with the hidden values.** -/
theorem exists_agrees : ∃ l ∈ c, agrees hidden l = true := by
  cases h with
  | kept h => exact h
  | @repaired before after l h hsplit =>
    have hl := hd.names l (by simp [hsplit])
    have hmax : maxVariable = 2 ^ 31 - 1 := rfl
    have hlt : l.magnitude < 2 ^ 31 := by
      have := hl.magnitude_le
      omega
    refine ⟨-l, by simp, ?_⟩
    have hdisagrees := h l (by simp [hsplit])
    unfold agrees at hdisagrees ⊢
    rw [neg_eq_ofVariable hl.ne_zero (hl.ne_least hn), magnitude_ofVariable hlt,
      isPositive_ofVariable hl.magnitude_pos hlt]
    cases hv : hidden.getD l.magnitude false <;> simp_all

end Planted

/-! ### Planted instances -/

/-- Every value of the variables that satisfies the clauses satisfies their instance. -/
theorem Instance.exists_allSatisfied {cs : List SignedClause} (hcs : ∀ c ∈ cs, c.Acceptable)
    {v : Valuation} (h : ∀ c ∈ cs, ∃ l ∈ c, v l.magnitude = l.isPositive) :
    ∃ a : Assignment, a.numVars = (ofClauses cs).numVars ∧
      (ofClauses cs).allSatisfied? a.slot? = some true := by
  let values := (List.range' 1 (ofClauses cs).numVars).map fun i => v ((ofClauses cs).variableAt i)
  have hnum : (Assignment.ofValues values).numVars = (ofClauses cs).numVars := by simp [values]
  have hind : (ofClauses cs).Induces v (Assignment.ofValues values).value := fun i h1 h2 =>
    Assignment.value_ofValues _ h1 h2
  refine ⟨.ofValues values, hnum, ?_⟩
  rw [((proper_ofClauses hcs).covers (Nat.le_of_eq hnum.symm)).allSatisfied?_eq,
    allSatisfied_ofClauses hind]
  exact congrArg some (List.all_eq_true.mpr fun c hc => SignedClause.holds_iff.mpr (h c hc))

section Drawn
variable (shape : Shape) (hn : shape.numVars ≤ maxVariable) (s : σ)
include hn

theorem planted_of_getElem? {j : Nat} {c : SignedClause}
    (hc : (drawPlanted shape s).1[j]? = some c) :
    Planted (hiddenValues shape s)
      (drawLiterals shape.numVars shape.numVars_pos shape.clauseSize (plantingStream shape j s)).1
      c := by
  rw [drawPlanted_eq, List.getElem?_map] at hc
  obtain ⟨i, hi, rfl⟩ := Option.map_eq_some_iff.mp hc
  obtain ⟨-, rfl⟩ := List.getElem?_eq_some_iff.mp hi
  rw [List.getElem_range]
  exact planted_drawAgreeing shape hn _ _

theorem admits_of_mem_planted {c : SignedClause} (hc : c ∈ (drawPlanted shape s).1) :
    shape.Admits c := by
  obtain ⟨j, hj⟩ := List.getElem?_of_mem hc
  exact (planted_of_getElem? shape hn s hj).admits hn (shape.admits_drawLiterals hn _)

theorem exists_agrees_of_mem_planted {c : SignedClause} (hc : c ∈ (drawPlanted shape s).1) :
    ∃ l ∈ c, (hiddenValues shape s).getD l.magnitude false = l.isPositive := by
  obtain ⟨j, hj⟩ := List.getElem?_of_mem hc
  obtain ⟨l, hl, ha⟩ :=
    (planted_of_getElem? shape hn s hj).exists_agrees hn (shape.admits_drawLiterals hn _)
  exact ⟨l, hl, eq_of_beq ha⟩

theorem admits_of_mem_drawn {c : SignedClause} (hc : c ∈ (drawClauses shape s).1) :
    shape.Admits c := by
  rw [drawClauses_eq] at hc
  obtain ⟨j, -, rfl⟩ := List.mem_map.mp hc
  exact shape.admits_drawLiterals hn _

end Drawn

/-- The hidden values are there for every variable that the shape admits. -/
theorem size_hiddenValues (shape : Shape) (s : σ) :
    (hiddenValues shape s).size = shape.numVars + 1 := by
  rw [hiddenValues, drawCoins, size_drawCoinsOnto]
  exact Nat.zero_add _

/-- **Planted instances are satisfiable.**  A shape can be had for 1 to `2³¹ - 1` variables, at
least one literal in a clause and a ratio that is finite and not negative.

With any stream the planted clauses are of this shape, each is its drawn clause with at most one
literal inverted, and the hidden values, one for every variable and drawn first, satisfy all of
them.  They make an instance, and some assignment satisfies it.  The clauses that are drawn without
hidden values are of the shape too and make an instance. -/
theorem planted_instances_are_satisfiable (n k : Nat) (ratio : Float) :
    ((∃ shape, Shape.ofRatio n ratio k = .ok shape) ↔
      (1 ≤ n ∧ n ≤ maxVariable) ∧ 1 ≤ k ∧ ratio.isFinite = true ∧ ¬ ratio < 0) ∧
    ∀ shape, Shape.ofRatio n ratio k = .ok shape →
      (shape.numVars = n ∧ shape.numClauses = clausesForRatio n ratio ∧ shape.clauseSize = k) ∧
      ∀ s : σ,
        let hidden := hiddenValues shape s
        let planted := (drawPlanted shape s).1
        let drawn := (drawClauses shape s).1
        ((planted.length = shape.numClauses ∧ ∀ c ∈ planted, shape.Admits c) ∧
          (hidden.size = n + 1 ∧
            ∀ c ∈ planted, ∃ l ∈ c, hidden[l.magnitude]? = some l.isPositive) ∧
          (∀ j c, planted[j]? = some c → Planted hidden
            (drawLiterals shape.numVars shape.numVars_pos k (plantingStream shape j s)).1 c) ∧
          ∃ (inst : Instance) (a : Assignment), Instance.build planted = .ok inst ∧
            a.numVars = inst.numVars ∧ inst.allSatisfied? a.slot? = some true) ∧
        (drawn.length = shape.numClauses ∧ ∀ c ∈ drawn, shape.Admits c) ∧
        ∃ inst, Instance.build drawn = .ok inst := by
  refine ⟨⟨?_, ?_⟩, fun shape hshape => ?_⟩
  · rintro ⟨shape, hshape⟩
    obtain ⟨⟨hmax, hratio⟩, rfl, -, rfl⟩ := Shape.ofRatio_eq_ok_iff.mp hshape
    exact ⟨⟨shape.numVars_pos, hmax⟩, shape.clauseSize_pos, hratio⟩
  · rintro ⟨⟨hpos, hmax⟩, hk, hratio⟩
    exact ⟨⟨n, clausesForRatio n ratio, k, hpos, hk⟩,
      Shape.ofRatio_eq_ok_iff.mpr ⟨⟨hmax, hratio⟩, rfl, rfl, rfl⟩⟩
  obtain ⟨⟨hmax, -⟩, rfl, hnum, rfl⟩ := Shape.ofRatio_eq_ok_iff.mp hshape
  refine ⟨⟨rfl, hnum, rfl⟩, fun s => ?_⟩
  intro hidden planted drawn
  have hadmits : ∀ c ∈ planted, shape.Admits c := fun c => admits_of_mem_planted shape hmax s
  have hdrawn : ∀ c ∈ drawn, shape.Admits c := fun c => admits_of_mem_drawn shape hmax s
  obtain ⟨a, hvars, hsat⟩ := Instance.exists_allSatisfied (v := fun x => hidden.getD x false)
    (fun c hc => (hadmits c hc).acceptable hmax) fun c => exists_agrees_of_mem_planted shape hmax s
  refine ⟨⟨⟨?_, hadmits⟩, ⟨size_hiddenValues shape s, fun c hc => ?_⟩,
    fun j c => planted_of_getElem? shape hmax s, _, a, build_of_admits hmax hadmits, hvars, hsat⟩,
    ⟨?_, hdrawn⟩, _, build_of_admits hmax hdrawn⟩
  · simp [planted, drawPlanted_eq]
  · obtain ⟨l, hl, hv⟩ := exists_agrees_of_mem_planted shape hmax s hc
    have hlt : l.magnitude < hidden.size := by
      rw [size_hiddenValues]
      exact Nat.lt_succ_of_le ((hadmits c hc).names l hl).magnitude_le
    exact ⟨l, hl, by simpa [hidden, hlt] using hv⟩
  · simp [drawn, drawClauses_eq]

/-- Planted clauses of two literals over three variables. -/
theorem planted_over_three_variables :
    ∃ shape, Shape.ofRatio 3 2 2 = .ok shape ∧
      ∃ (inst : Instance) (a : Assignment),
        Instance.build (drawPlanted shape (⟨0⟩ : Seeded)).1 = .ok inst ∧
          a.numVars = inst.numVars ∧ inst.allSatisfied? a.slot? = some true := by
  obtain ⟨hshapes, hdraws⟩ := planted_instances_are_satisfiable (σ := Seeded) 3 2 2
  obtain ⟨shape, hshape⟩ := hshapes.mpr ⟨by decide, by decide, by decide +kernel, by decide +kernel⟩
  obtain ⟨-, hstream⟩ := hdraws shape hshape
  obtain ⟨⟨-, -, -, hplanted⟩, -⟩ := hstream (⟨0⟩ : Seeded)
  exact ⟨shape, hshape, hplanted⟩

end StochasticSat
