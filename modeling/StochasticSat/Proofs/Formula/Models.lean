import StochasticSat.Formula.Model
import StochasticSat.Proofs.Formula.Meaning

/-!
# Models of the clauses an instance was built from

The signed literals of an assignment are one literal for every variable that occurs, in ascending
order (`toLiterals_eq_ok`, `map_magnitude_literalsOf`).  Read back they give every index the
value it had (`ofLiterals_eq_ok`), since the last literal of a variable decides (`lastOf?`).  If the
assignment satisfies the instance, every clause that the instance was built from holds one of them,
and the check of the literals succeeds: the assignment is *certified* (`certified_of_allSatisfied`).
-/

namespace StochasticSat

/-! ### Slots and pairs -/

theorem drop_one_toList {α : Type} (xs : Array α) (d : α) :
    xs.toList.drop 1 = (List.range' 1 (xs.size - 1)).map fun i => xs.getD i d := by
  refine List.ext_getElem (by simp) fun k h1 h2 => ?_
  have hk : 1 + k < xs.size := by
    simp only [List.length_drop, Array.length_toList] at h1
    omega
  simp [Array.getD_eq_getD_getElem?, hk, Nat.add_comm k 1]

theorem zipIdx_map_range' {α : Type} (f : Nat → α) (n : Nat) :
    ((List.range' 1 n).map f).zipIdx 1 = (List.range' 1 n).map fun i => (f i, i) := by
  refine List.ext_getElem (by simp) fun k h1 h2 => ?_
  simp

theorem Assignment.pairs_eq (a : Assignment) :
    a.pairs = (List.range' 1 a.numVars).map fun i => (i, a.value i) := by
  unfold pairs values
  rw [drop_one_toList a.slots false, zipIdx_map_range', List.map_map]
  rfl

theorem Assignment.value_ofValues (f : Valuation) {n i : Nat} (h : 1 ≤ i) (h' : i ≤ n) :
    (ofValues ((List.range' 1 n).map f)).value i = f i := by
  obtain ⟨k, rfl⟩ := Nat.exists_eq_add_of_le' h
  have hk : k < n := by omega
  simp [ofValues, value, Array.getD_eq_getD_getElem?, hk, Nat.add_comm]

/-! ### Reading literals back -/

/-- The last literal of a list that is over the variable `x`. -/
def lastOf? (ls : List SignedLiteral) (x : Nat) : Option SignedLiteral :=
  ls.reverse.find? fun l => l.magnitude == x

theorem lastOf?_cons (l : SignedLiteral) (ls : List SignedLiteral) (x : Nat) :
    lastOf? (l :: ls) x = (lastOf? ls x).or (if l.magnitude = x then some l else none) := by
  unfold lastOf?
  rw [List.reverse_cons, List.find?_append, List.find?_singleton]
  simp

theorem lastOf?_isSome_iff {ls : List SignedLiteral} {x : Nat} :
    (lastOf? ls x).isSome = true ↔ ∃ l ∈ ls, l.magnitude = x := by
  simp [lastOf?]

theorem mem_of_lastOf? {ls : List SignedLiteral} {x : Nat} {l : SignedLiteral}
    (h : lastOf? ls x = some l) : l ∈ ls ∧ l.magnitude = x := by
  have h1 := List.mem_of_find?_eq_some h
  have h2 := List.find?_some h
  exact ⟨by simpa using h1, by simpa using h2⟩

namespace Instance

variable {cs : List SignedClause}

theorem noteLiteral_ofClauses {l : SignedLiteral} (h0 : l ≠ 0)
    (hl : l.magnitude ∈ mentionedVariables cs) (values : Array (Option Bool)) :
    ∃ i, 1 ≤ i ∧ i ≤ (ofClauses cs).numVars ∧ (ofClauses cs).variableAt i = l.magnitude ∧
      (ofClauses cs).noteLiteral values l = .ok (values.setIfInBounds i (some l.isPositive)) := by
  obtain ⟨i, h1, h2, hi⟩ := exists_variableAt.mp hl
  refine ⟨i, h1, h2, hi, ?_⟩
  rw [noteLiteral, if_neg h0, indexOf?_ofClauses.mpr ⟨h1, h2, hi⟩]

theorem variableAt_injective {i j : Nat} (hi : 1 ≤ i) (hi' : i ≤ (ofClauses cs).numVars)
    (hj : 1 ≤ j) (hj' : j ≤ (ofClauses cs).numVars)
    (h : (ofClauses cs).variableAt i = (ofClauses cs).variableAt j) : i = j := by
  rcases Nat.lt_trichotomy i j with hij | rfl | hij
  · have := variableAt_lt hi hij hj'
    omega
  · rfl
  · have := variableAt_lt hj hij hi'
    omega

/-- **Noting literals of known variables**: afterwards every index holds the sign of the last
literal of its variable, and what it held before if there is none. -/
theorem foldlM_noteLiteral : ∀ (ls : List SignedLiteral) (values : Array (Option Bool)),
    values.size = (ofClauses cs).numVars + 1 →
    (∀ l ∈ ls, l ≠ 0 ∧ l.magnitude ∈ mentionedVariables cs) →
      ∃ noted : Array (Option Bool), ls.foldlM (ofClauses cs).noteLiteral values = .ok noted ∧
        noted.size = (ofClauses cs).numVars + 1 ∧
        ∀ i, 1 ≤ i → i ≤ (ofClauses cs).numVars → noted.getD i none =
          ((lastOf? ls ((ofClauses cs).variableAt i)).map (·.isPositive)).or (values.getD i none)
  | [], values, hsize, _ => ⟨values, rfl, hsize, fun i _ _ => by simp [lastOf?]⟩
  | l :: ls, values, hsize, hls => by
    obtain ⟨h0, hl⟩ := hls l (by simp)
    obtain ⟨k, hk1, hk2, hk, hnote⟩ := noteLiteral_ofClauses h0 hl values
    obtain ⟨noted, hfold, hsize', hnoted⟩ :=
      foldlM_noteLiteral ls (values.setIfInBounds k (some l.isPositive)) (by simpa using hsize)
        fun l' hl' => hls l' (List.mem_cons_of_mem l hl')
    refine ⟨noted, ?_, hsize', fun i h1 h2 => ?_⟩
    · rw [List.foldlM_cons, hnote]
      exact hfold
    rw [hnoted i h1 h2, lastOf?_cons]
    by_cases hik : k = i
    · subst hik
      have hlt : k < values.size := by omega
      rw [if_pos hk.symm]
      cases lastOf? ls ((ofClauses cs).variableAt k) <;>
        simp [Array.getD_eq_getD_getElem?, hlt]
    · have hne : l.magnitude ≠ (ofClauses cs).variableAt i := fun he =>
        hik (variableAt_injective hk1 hk2 h1 h2 (hk.trans he))
      rw [if_neg hne, Option.or_none]
      simp [Array.getD_eq_getD_getElem?, hik]

/-- **Literals of known variables that leave out none of them describe an assignment**: the one that
gives every index the sign of the last literal of its variable. -/
theorem ofLiterals_eq_ok {ls : List SignedLiteral}
    (hknown : ∀ l ∈ ls, l ≠ 0 ∧ l.magnitude ∈ mentionedVariables cs)
    (hall : ∀ x ∈ mentionedVariables cs, ∃ l ∈ ls, SignedLiteral.magnitude l = x) :
    ∃ a, (ofClauses cs).ofLiterals ls = .ok a ∧ a.numVars = (ofClauses cs).numVars ∧
      ∀ i, 1 ≤ i → i ≤ (ofClauses cs).numVars → ∃ l,
        lastOf? ls ((ofClauses cs).variableAt i) = some l ∧ a.value i = l.isPositive := by
  obtain ⟨noted, hfold, hsize, hnoted⟩ :=
    foldlM_noteLiteral ls (Array.replicate ((ofClauses cs).numVars + 1) none) (by simp) hknown
  have hlast : ∀ i, 1 ≤ i → i ≤ (ofClauses cs).numVars → ∃ l,
      lastOf? ls ((ofClauses cs).variableAt i) = some l ∧
        noted.getD i none = some l.isPositive := by
    intro i h1 h2
    have hsome := lastOf?_isSome_iff.mpr (hall _ (exists_variableAt.mpr ⟨i, h1, h2, rfl⟩))
    obtain ⟨l, hl⟩ := Option.isSome_iff_exists.mp hsome
    refine ⟨l, hl, ?_⟩
    rw [hnoted i h1 h2, hl, Option.map_some, Option.some_or]
  set values := (List.range' 1 (ofClauses cs).numVars).map fun i => (noted.getD i none).getD false
  have hvalues : ((noted.toList.drop 1).zipIdx 1).mapM (ofClauses cs).notedValue = .ok values := by
    rw [drop_one_toList noted none, hsize, Nat.add_sub_cancel, zipIdx_map_range', List.mapM_map]
    refine mapM_eq_pure_map fun i hi => ?_
    rw [List.mem_range'_1] at hi
    obtain ⟨l, -, hl⟩ := hlast i hi.1 (by omega)
    rw [Function.comp_apply, hl]
    rfl
  refine ⟨.ofValues values, ?_, by simp [values], fun i h1 h2 => ?_⟩
  · rw [ofLiterals, hfold]
    simp only [bind, Except.bind, hvalues]
    rfl
  obtain ⟨l, hl, hv⟩ := hlast i h1 h2
  refine ⟨l, hl, ?_⟩
  rw [Assignment.value_ofValues _ h1 h2, hv, Option.getD_some]

/-! ### Writing literals -/

/-- The literals that give every index its value, in ascending order. -/
def literalsOf (inst : Instance) (u : Valuation) : List SignedLiteral :=
  (List.range' 1 inst.numVars).map fun i => inst.signed i (u i)

theorem mem_literalsOf {inst : Instance} {u : Valuation} {l : SignedLiteral} :
    l ∈ inst.literalsOf u ↔ ∃ i, 1 ≤ i ∧ i ≤ inst.numVars ∧ inst.signed i (u i) = l := by
  simp only [literalsOf, List.mem_map, List.mem_range'_1]
  constructor
  · rintro ⟨i, ⟨h1, h2⟩, rfl⟩; exact ⟨i, h1, by omega, rfl⟩
  · rintro ⟨i, h1, h2, rfl⟩; exact ⟨i, ⟨h1, by omega⟩, rfl⟩

theorem toLiterals_eq_ok {inst : Instance} {a : Assignment} (h : a.numVars = inst.numVars) :
    inst.toLiterals a = .ok (inst.literalsOf a.value) := by
  rw [toLiterals, if_pos h, Assignment.pairs_eq, List.map_map, h]
  rfl

section Acceptable
variable (hcs : ∀ c ∈ cs, c.Acceptable)
include hcs

/-- The variables of acceptable clauses have a positive and a negative literal. -/
theorem mentionedVariables_bounds {x : Nat} (hx : x ∈ mentionedVariables cs) :
    0 < x ∧ x < 2 ^ 31 := by
  obtain ⟨c, hc, l, hl, rfl⟩ := mem_mentionedVariables.mp hx
  exact ⟨SignedLiteral.magnitude_pos fun h => (hcs c hc).zero_notMem (h ▸ hl),
    SignedLiteral.magnitude_lt fun h => (hcs c hc).least_notMem (h ▸ hl)⟩

theorem variableAt_bounds {i : Nat} (h1 : 1 ≤ i) (h2 : i ≤ (ofClauses cs).numVars) :
    0 < (ofClauses cs).variableAt i ∧ (ofClauses cs).variableAt i < 2 ^ 31 :=
  mentionedVariables_bounds hcs (exists_variableAt.mpr ⟨i, h1, h2, rfl⟩)

theorem magnitude_signed {i : Nat} (h1 : 1 ≤ i) (h2 : i ≤ (ofClauses cs).numVars) (b : Bool) :
    ((ofClauses cs).signed i b).magnitude = (ofClauses cs).variableAt i :=
  SignedLiteral.magnitude_ofVariable (variableAt_bounds hcs h1 h2).2 b

theorem isPositive_signed {i : Nat} (h1 : 1 ≤ i) (h2 : i ≤ (ofClauses cs).numVars) (b : Bool) :
    ((ofClauses cs).signed i b).isPositive = b := by
  obtain ⟨h, h'⟩ := variableAt_bounds hcs h1 h2
  exact SignedLiteral.isPositive_ofVariable h h' b

/-- **The literals written are over the variables that occur, in ascending order.** -/
theorem map_magnitude_literalsOf (u : Valuation) :
    ((ofClauses cs).literalsOf u).map (·.magnitude) = mentionedVariables cs := by
  rw [literalsOf, List.map_map]
  refine List.ext_getElem? fun k => ?_
  by_cases hk : k < (ofClauses cs).numVars
  · have h1 : 1 ≤ k + 1 := by omega
    have hvar := variableAt_ofClauses h1 (show k + 1 ≤ (ofClauses cs).numVars by omega)
    rw [Nat.add_sub_cancel] at hvar
    rw [hvar, List.getElem?_map, List.getElem?_range' hk, Option.map_some, Function.comp_apply,
      magnitude_signed hcs (by omega) (by omega)]
    simp [Nat.add_comm]
  · rw [List.getElem?_eq_none (by simpa using hk), List.getElem?_eq_none (by
      rw [← numVars_ofClauses]; omega)]

/-- **What was written is read back**: every index gets the value it had. -/
theorem ofLiterals_literalsOf (u : Valuation) :
    ∃ a, (ofClauses cs).ofLiterals ((ofClauses cs).literalsOf u) = .ok a ∧
      a.numVars = (ofClauses cs).numVars ∧
      ∀ i, 1 ≤ i → i ≤ (ofClauses cs).numVars → a.value i = u i := by
  obtain ⟨a, ha, hn, hlast⟩ := @ofLiterals_eq_ok cs ((ofClauses cs).literalsOf u)
    (fun l hl => by
      obtain ⟨i, h1, h2, rfl⟩ := mem_literalsOf.mp hl
      have hpos := (variableAt_bounds hcs h1 h2).1
      rw [← magnitude_signed hcs h1 h2 (u i)] at hpos
      refine ⟨fun h0 => ?_, ?_⟩
      · rw [h0] at hpos
        simp [SignedLiteral.magnitude] at hpos
      · rw [magnitude_signed hcs h1 h2]
        exact exists_variableAt.mpr ⟨i, h1, h2, rfl⟩)
    (fun x hx => by
      obtain ⟨i, h1, h2, rfl⟩ := exists_variableAt.mp hx
      exact ⟨_, mem_literalsOf.mpr ⟨i, h1, h2, rfl⟩, magnitude_signed hcs h1 h2 _⟩)
  refine ⟨a, ha, hn, fun i h1 h2 => ?_⟩
  obtain ⟨l, hl, hv⟩ := hlast i h1 h2
  obtain ⟨hlmem, hlmag⟩ := mem_of_lastOf? hl
  obtain ⟨j, hj1, hj2, rfl⟩ := mem_literalsOf.mp hlmem
  rw [magnitude_signed hcs hj1 hj2] at hlmag
  obtain rfl := variableAt_injective hj1 hj2 h1 h2 hlmag
  rw [hv, isPositive_signed hcs hj1 hj2]

end Acceptable

/-! ### Certified assignments -/

/-- The valuation of the variables that a valuation of the indices stands for. -/
def valuationOf (inst : Instance) (u : Valuation) : Valuation :=
  fun x => ((inst.indexOf? x).map u).getD false

theorem induces_valuationOf (u : Valuation) :
    (ofClauses cs).Induces ((ofClauses cs).valuationOf u) u := by
  intro i h1 h2
  rw [valuationOf, indexOf?_ofClauses.mpr ⟨h1, h2, rfl⟩]
  rfl

theorem allSatisfied_congr {u u' : Valuation}
    (h : ∀ i, 1 ≤ i → i ≤ (ofClauses cs).numVars → u i = u' i) :
    (ofClauses cs).allSatisfied u = (ofClauses cs).allSatisfied u' := by
  have hind := @induces_valuationOf cs u'
  rw [allSatisfied_ofClauses hind, allSatisfied_ofClauses fun i h1 h2 => ?_]
  rw [h i h1 h2, hind i h1 h2]

/-- A literal that holds in a clause is the one that is written for its index. -/
theorem mem_literalsOf_of_holds {c : SignedClause} {l : SignedLiteral} {u : Valuation}
    (hc : c ∈ cs) (ha : c.Acceptable) (hl : l ∈ c)
    (h : (ofClauses cs).valuationOf u l.magnitude = l.isPositive) :
    l ∈ (ofClauses cs).literalsOf u := by
  obtain ⟨i, h1, h2, hi⟩ := exists_variableAt.mp (mem_mentionedVariables_of_mem hc hl)
  rw [← hi, ← induces_valuationOf u i h1 h2] at h
  refine mem_literalsOf.mpr ⟨i, h1, h2, ?_⟩
  rw [signed, h, hi]
  exact SignedLiteral.ofVariable_magnitude (fun h0 => ha.zero_notMem (h0 ▸ hl))
    fun h0 => ha.least_notMem (h0 ▸ hl)

end Instance

/-- The literals are a model of the clauses: one for every variable that occurs, in ascending order,
and one of every clause. -/
structure IsModel (cs : List SignedClause) (ls : List SignedLiteral) : Prop where
  ascending : (ls.map (·.magnitude)).Pairwise (· < ·)
  mentioned : ∀ x, x ∈ ls.map (·.magnitude) ↔ ∃ c ∈ cs, ∃ l ∈ c, SignedLiteral.magnitude l = x
  hits : ∀ c ∈ cs, ∃ l ∈ c, l ∈ ls

namespace Instance

/-- The literals of the assignment can be written, are a model of the clauses and pass the check. -/
def Certified (inst : Instance) (cs : List SignedClause) (a : Assignment) : Prop :=
  ∃ ls, inst.toLiterals a = .ok ls ∧ IsModel cs ls ∧ inst.verify ls = .ok true

/-- **An assignment that satisfies the instance is certified.** -/
theorem certified_of_allSatisfied {a : Assignment} (hcs : ∀ c ∈ cs, c.Acceptable)
    (hn : a.numVars = (ofClauses cs).numVars) (h : (ofClauses cs).allSatisfied a.value = true) :
    (ofClauses cs).Certified cs a := by
  refine ⟨_, toLiterals_eq_ok hn, ⟨?_, fun x => ?_, fun c hc => ?_⟩, ?_⟩
  · rw [map_magnitude_literalsOf hcs]
    exact pairwise_lt_mentionedVariables cs
  · rw [map_magnitude_literalsOf hcs]
    exact mem_mentionedVariables
  · rw [allSatisfied_ofClauses (induces_valuationOf a.value), List.all_eq_true] at h
    obtain ⟨l, hl, hv⟩ := SignedClause.holds_iff.mp (h c hc)
    exact ⟨l, hl, mem_literalsOf_of_holds hc (hcs c hc) hl hv⟩
  · obtain ⟨b, hb, -, hvalue⟩ := ofLiterals_literalsOf hcs a.value
    rw [verify, hb]
    simp only [bind, Except.bind, pure, Except.pure, allSatisfied_congr hvalue, h]

end Instance

end StochasticSat
