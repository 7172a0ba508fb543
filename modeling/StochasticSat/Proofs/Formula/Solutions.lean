import Mathlib.Data.List.Permutation
import StochasticSat.Proofs.Formula.Models

/-!
# Solutions of the clauses an instance was built from

A solution is any list of signed literals.  Reading it goes through the list, then through the
variables, and what it comes to is one of three things (`solution_cases`): the first literal that is
`0` or over a variable that does not occur, the least variable that has no literal, or an assignment
that gives every variable the sign of its last literal.

So checking a solution decides about the clauses themselves, not about their numbered form
(`Checked`, `verify_eq_iff_checked`).  Writing and reading are inverse to each other: an assignment
is read back from its literals, and the literals of what was read are the last ones of the list
(`literals_round_trip`).
-/

namespace StochasticSat

/-- Some clause has a literal over the variable `x`. -/
def Occurs (cs : List SignedClause) (x : Nat) : Prop :=
  ∃ c ∈ cs, ∃ l ∈ c, SignedLiteral.magnitude l = x

/-- The literal is over a variable that occurs. -/
structure SignedLiteral.Known (cs : List SignedClause) (l : SignedLiteral) : Prop where
  ne_zero : l ≠ 0
  occurs : Occurs cs l.magnitude

instance (cs : List SignedClause) (x : Nat) : Decidable (Occurs cs x) :=
  inferInstanceAs (Decidable (∃ c ∈ cs, ∃ l ∈ c, SignedLiteral.magnitude l = x))

instance (cs : List SignedClause) (l : SignedLiteral) : Decidable (l.Known cs) :=
  decidable_of_iff (l ≠ 0 ∧ Occurs cs l.magnitude) ⟨fun ⟨h, h'⟩ => ⟨h, h'⟩, fun ⟨h, h'⟩ => ⟨h, h'⟩⟩

/-- **What checking a solution comes to**: the first unknown literal, else the least variable
without a literal, else whether every clause has a literal that is the last one of its variable. -/
inductive Checked (cs : List SignedClause) (ls : List SignedLiteral) : Except Error Bool → Prop
  | unknown {before after : List SignedLiteral} {l : SignedLiteral}
    (hls : ls = before ++ l :: after) (hbefore : ∀ k ∈ before, SignedLiteral.Known cs k)
    (hl : ¬ l.Known cs) : Checked cs ls (.error (.unknownLiteral l))
  | missing {x : Nat} (hknown : ∀ l ∈ ls, SignedLiteral.Known cs l) (hx : Occurs cs x)
    (hnone : ∀ l ∈ ls, SignedLiteral.magnitude l ≠ x)
    (hleast : ∀ y < x, Occurs cs y → ∃ l ∈ ls, SignedLiteral.magnitude l = y) :
    Checked cs ls (.error (.missingVariable x))
  | complete {b : Bool} (hknown : ∀ l ∈ ls, SignedLiteral.Known cs l)
    (hall : ∀ x, Occurs cs x → ∃ l ∈ ls, SignedLiteral.magnitude l = x)
    (hb : b = true ↔ ∀ c ∈ cs, ∃ l ∈ c, lastOf? ls l.magnitude = some l) :
    Checked cs ls (.ok b)

variable {cs : List SignedClause} {ls : List SignedLiteral} {inst : Instance}

/-- A list of literals has a first unknown one, or leaves out a least variable, or neither. -/
theorem solution_cases (cs : List SignedClause) (ls : List SignedLiteral) :
    (∃ before l after, ls = before ++ l :: after ∧
        (∀ k ∈ before, SignedLiteral.Known cs k) ∧ ¬ SignedLiteral.Known cs l) ∨
      (∀ l ∈ ls, SignedLiteral.Known cs l) ∧
        ((∃ x, Occurs cs x ∧ (∀ l ∈ ls, SignedLiteral.magnitude l ≠ x) ∧
            ∀ y < x, Occurs cs y → ∃ l ∈ ls, SignedLiteral.magnitude l = y) ∨
          ∀ x, Occurs cs x → ∃ l ∈ ls, SignedLiteral.magnitude l = x) := by
  classical
  by_cases hknown : ∀ l ∈ ls, SignedLiteral.Known cs l
  · refine Or.inr ⟨hknown, ?_⟩
    by_cases hall : ∀ x, Occurs cs x → ∃ l ∈ ls, SignedLiteral.magnitude l = x
    · exact Or.inr hall
    · push Not at hall
      refine Or.inl ⟨Nat.find hall, (Nat.find_spec hall).1, (Nat.find_spec hall).2,
        fun y hy hocc => ?_⟩
      by_contra hnone
      exact Nat.find_min hall hy ⟨hocc, by push Not at hnone; exact hnone⟩
  · obtain ⟨l, hl⟩ : ∃ l, ls.find? (fun l => ¬ SignedLiteral.Known cs l) = some l := by
      rw [← Option.isSome_iff_exists, List.find?_isSome]
      push Not at hknown
      simpa using hknown
    obtain ⟨hunknown, before, after, hls, hbefore⟩ := List.find?_eq_some_iff_append.mp hl
    exact Or.inl ⟨before, l, after, hls, fun k hk => by simpa using hbefore k hk,
      by simpa using hunknown⟩

theorem Assignment.slot?_eq {a : Assignment} {i : Nat} (h1 : 1 ≤ i) (h2 : i ≤ a.numVars) :
    a.slot? i = some (a.value i) := by
  have hi : i < a.slots.size := by
    unfold numVars at h2
    omega
  simp [slot?, value, Array.getD_eq_getD_getElem?, hi]

namespace Instance

/-! ### Reading a solution -/

theorem range'_split {i n : Nat} (h1 : 1 ≤ i) (h2 : i ≤ n) :
    List.range' 1 n = List.range' 1 (i - 1) ++ i :: List.range' (i + 1) (n - i) := by
  obtain ⟨k, rfl⟩ := Nat.exists_eq_add_of_le' h1
  obtain ⟨m, rfl⟩ := Nat.exists_eq_add_of_le h2
  rw [Nat.add_sub_cancel, Nat.add_sub_cancel_left, ← List.range'_succ, Nat.add_comm k 1,
    List.range'_append_1]
  congr 1
  omega

theorem noteLiteral_of_unknown {l : SignedLiteral} (hl : ¬ l.Known cs)
    (values : Array (Option Bool)) :
    (ofClauses cs).noteLiteral values l = .error (.unknownLiteral l) := by
  unfold noteLiteral
  by_cases h0 : l = 0
  · rw [if_pos h0]
  · have hnone : (ofClauses cs).indexOf? l.magnitude = none := by
      rw [Option.eq_none_iff_forall_ne_some]
      intro i hi
      obtain ⟨h1, h2, hvar⟩ := indexOf?_ofClauses.mp hi
      exact hl ⟨h0, mem_mentionedVariables.mp (exists_variableAt.mpr ⟨i, h1, h2, hvar⟩)⟩
    rw [if_neg h0, hnone]

theorem known_mentioned (h : ∀ l ∈ ls, SignedLiteral.Known cs l) :
    ∀ l ∈ ls, l ≠ 0 ∧ l.magnitude ∈ mentionedVariables cs :=
  fun l hl => ⟨(h l hl).ne_zero, mem_mentionedVariables.mpr (h l hl).occurs⟩

/-- The first unknown literal ends the reading. -/
theorem ofLiterals_of_unknown {before after : List SignedLiteral} {l : SignedLiteral}
    (hbefore : ∀ k ∈ before, SignedLiteral.Known cs k) (hl : ¬ l.Known cs) :
    (ofClauses cs).ofLiterals (before ++ l :: after) = .error (.unknownLiteral l) := by
  obtain ⟨noted, hfold, -⟩ := foldlM_noteLiteral before
    (Array.replicate ((ofClauses cs).numVars + 1) none) (by simp) (known_mentioned hbefore)
  rw [ofLiterals, foldlM_eq_error hfold (noteLiteral_of_unknown hl noted)]
  rfl

/-- The least variable without a literal ends the reading of known literals. -/
theorem ofLiterals_of_missing {x : Nat} (hknown : ∀ l ∈ ls, SignedLiteral.Known cs l)
    (hx : Occurs cs x) (hnone : ∀ l ∈ ls, SignedLiteral.magnitude l ≠ x)
    (hleast : ∀ y < x, Occurs cs y → ∃ l ∈ ls, SignedLiteral.magnitude l = y) :
    (ofClauses cs).ofLiterals ls = .error (.missingVariable x) := by
  obtain ⟨noted, hfold, hsize, hnoted⟩ := foldlM_noteLiteral ls
    (Array.replicate ((ofClauses cs).numVars + 1) none) (by simp) (known_mentioned hknown)
  obtain ⟨i, h1, h2, rfl⟩ := exists_variableAt.mp (mem_mentionedVariables.mpr hx)
  -- The indices below `i` name smaller variables, which have literals; `i` has none.
  have hbelow : ∀ j ∈ List.range' 1 (i - 1), (ofClauses cs).notedValue (noted.getD j none, j) =
      .ok ((noted.getD j none).getD false) := by
    intro j hj
    rw [List.mem_range'_1] at hj
    have hsome := lastOf?_isSome_iff.mpr (hleast _ (variableAt_lt hj.1 (by omega) h2)
      (mem_mentionedVariables.mp (exists_variableAt.mpr ⟨j, hj.1, by omega, rfl⟩)))
    obtain ⟨l, hl⟩ := Option.isSome_iff_exists.mp hsome
    rw [hnoted j hj.1 (by omega), hl]
    rfl
  have hat : (ofClauses cs).notedValue (noted.getD i none, i) =
      .error (.missingVariable ((ofClauses cs).variableAt i)) := by
    have hlast : lastOf? ls ((ofClauses cs).variableAt i) = none := by
      rw [← Option.not_isSome_iff_eq_none, lastOf?_isSome_iff]
      rintro ⟨l, hl, hlx⟩
      exact hnone l hl hlx
    rw [hnoted i h1 h2, hlast]
    simp [Array.getD_eq_getD_getElem?, Nat.lt_succ_of_le h2, notedValue]
  have hvalues : ((noted.toList.drop 1).zipIdx 1).mapM (ofClauses cs).notedValue =
      .error (.missingVariable ((ofClauses cs).variableAt i)) := by
    rw [drop_one_toList noted none, hsize, Nat.add_sub_cancel, zipIdx_map_range', List.mapM_map,
      range'_split h1 h2]
    exact mapM_eq_error_iff.mpr ⟨_, _, _, rfl, fun j hj => ⟨_, hbelow j hj⟩, hat⟩
  rw [ofLiterals, hfold]
  simp only [bind, Except.bind, hvalues]

theorem ofLiterals_sentinel {a : Assignment}
    (h : inst.ofLiterals ls = .ok a) : a.slot? 0 = some false := by
  unfold ofLiterals at h
  cases hfold : ls.foldlM inst.noteLiteral (Array.replicate (inst.numVars + 1) none) with
  | error err =>
    rw [hfold] at h
    cases h
  | ok noted =>
    cases hvalues : ((noted.toList.drop 1).zipIdx 1).mapM inst.notedValue with
    | error err =>
      rw [hfold] at h
      simp only [bind, Except.bind, hvalues] at h
      cases h
    | ok values =>
      rw [hfold] at h
      simp only [bind, Except.bind, hvalues] at h
      cases h
      rfl

/-- **A list that can be read has known literals only, and one for every variable.** -/
theorem readable_of_ofLiterals {a : Assignment} (h : (ofClauses cs).ofLiterals ls = .ok a) :
    (∀ l ∈ ls, SignedLiteral.Known cs l) ∧
      ∀ x, Occurs cs x → ∃ l ∈ ls, SignedLiteral.magnitude l = x := by
  rcases solution_cases cs ls with
    ⟨before, l, after, rfl, hbefore, hl⟩ | ⟨hknown, ⟨x, hx, hnone, hleast⟩ | hall⟩
  · rw [ofLiterals_of_unknown hbefore hl] at h
    cases h
  · rw [ofLiterals_of_missing hknown hx hnone hleast] at h
    cases h
  · exact ⟨hknown, hall⟩

/-- What is read gives every index the sign of the last literal of its variable. -/
theorem lastOf?_of_ofLiterals {a : Assignment} (h : (ofClauses cs).ofLiterals ls = .ok a) :
    a.numVars = (ofClauses cs).numVars ∧ ∀ i, 1 ≤ i → i ≤ (ofClauses cs).numVars →
      ∃ l, lastOf? ls ((ofClauses cs).variableAt i) = some l ∧ a.value i = l.isPositive := by
  obtain ⟨hknown, hall⟩ := readable_of_ofLiterals h
  obtain ⟨b, hb, hn, hlast⟩ := ofLiterals_eq_ok (known_mentioned hknown) fun x hx =>
    hall x (mem_mentionedVariables.mp hx)
  obtain rfl : a = b := Except.ok.inj (h.symm.trans hb)
  exact ⟨hn, hlast⟩

/-! ### Checking a solution -/

section Readable
variable (hcs : ∀ c ∈ cs, c.Acceptable) (hknown : ∀ l ∈ ls, SignedLiteral.Known cs l)
include hcs hknown

/-- A known literal is its variable with its sign. -/
theorem ofVariable_of_mem {l : SignedLiteral} (hl : l ∈ ls) :
    SignedLiteral.ofVariable l.magnitude l.isPositive = l := by
  refine SignedLiteral.ofVariable_magnitude (hknown l hl).ne_zero ?_
  rintro rfl
  have hlt := (mentionedVariables_bounds hcs (mem_mentionedVariables.mpr (hknown _ hl).occurs)).2
  exact absurd hlt (by decide)

/-- The last literal of its variable is a literal of the clause just if it has the sign of one. -/
theorem lastOf?_eq_some_iff {c : SignedClause} {l k : SignedLiteral} (hc : c ∈ cs) (hl : l ∈ c)
    (hk : lastOf? ls l.magnitude = some k) :
    lastOf? ls l.magnitude = some l ↔ k.isPositive = l.isPositive := by
  obtain ⟨hmem, hmag⟩ := mem_of_lastOf? hk
  rw [hk, Option.some.injEq]
  refine ⟨fun h => h ▸ rfl, fun h => ?_⟩
  have hl0 : l ≠ 0 := fun h0 => (hcs c hc).zero_notMem (h0 ▸ hl)
  have hlm : l ≠ Int32.minValue := fun h0 => (hcs c hc).least_notMem (h0 ▸ hl)
  rw [← ofVariable_of_mem hcs hknown hmem, hmag, h, SignedLiteral.ofVariable_magnitude hl0 hlm]

variable (hall : ∀ x, Occurs cs x → ∃ l ∈ ls, SignedLiteral.magnitude l = x)
include hall

/-- A readable list satisfies the clauses that have a literal that is the last one of its
variable. -/
theorem exists_verify_eq_ok : ∃ b, (ofClauses cs).verify ls = .ok b ∧
    (b = true ↔ ∀ c ∈ cs, ∃ l ∈ c, lastOf? ls l.magnitude = some l) := by
  obtain ⟨a, ha, -, hvalue⟩ := ofLiterals_eq_ok (known_mentioned hknown) fun x hx =>
    hall x (mem_mentionedVariables.mp hx)
  have hind : (ofClauses cs).Induces
      (fun x => (lastOf? ls x).any (·.isPositive)) a.value := by
    intro i h1 h2
    obtain ⟨l, hl, hv⟩ := hvalue i h1 h2
    simp only [hv, hl, Option.any_some]
  refine ⟨_, by rw [verify, ha]; rfl, ?_⟩
  rw [allSatisfied_ofClauses hind, List.all_eq_true]
  refine forall₂_congr fun c hc => ?_
  rw [SignedClause.holds_iff]
  refine exists_congr fun l => and_congr_right fun hl => ?_
  obtain ⟨k, hk, hmag⟩ := hall l.magnitude ⟨c, hc, l, hl, rfl⟩
  obtain ⟨k, hlast⟩ := Option.isSome_iff_exists.mp (lastOf?_isSome_iff.mpr ⟨k, hk, hmag⟩)
  rw [lastOf?_eq_some_iff hcs hknown hc hl hlast, hlast, Option.any_some]

end Readable

/-- **Checking a solution decides about the clauses themselves**: about the first literal that is
`0` or over a variable that does not occur, about the least variable without a literal, and about
the clauses, each of which must have a literal that is the last one of its variable. -/
theorem verify_eq_iff_checked (h : build cs = .ok inst) (ls : List SignedLiteral)
    (result : Except Error Bool) : inst.verify ls = result ↔ Checked cs ls result := by
  obtain ⟨hcs, rfl⟩ := build_eq_ok_iff_acceptable.mp h
  have hverify {err : Error} (herr : (ofClauses cs).ofLiterals ls = .error err) :
      (ofClauses cs).verify ls = .error err := by rw [verify, herr]; rfl
  constructor
  · rintro rfl
    rcases solution_cases cs ls with
      ⟨before, l, after, rfl, hbefore, hl⟩ | ⟨hknown, ⟨x, hx, hnone, hleast⟩ | hall⟩
    · rw [hverify (ofLiterals_of_unknown hbefore hl)]
      exact .unknown rfl hbefore hl
    · rw [hverify (ofLiterals_of_missing hknown hx hnone hleast)]
      exact .missing hknown hx hnone hleast
    · obtain ⟨b, hok, hb⟩ := exists_verify_eq_ok hcs hknown hall
      rw [hok]
      exact .complete hknown hall hb
  · intro hchecked
    cases hchecked with
    | unknown hls hbefore hl =>
      subst hls
      exact hverify (ofLiterals_of_unknown hbefore hl)
    | missing hknown hx hnone hleast =>
      exact hverify (ofLiterals_of_missing hknown hx hnone hleast)
    | complete hknown hall hb =>
      obtain ⟨b', hok, hb'⟩ := exists_verify_eq_ok hcs hknown hall
      rw [hok, Bool.eq_iff_iff.mpr (hb'.trans hb.symm)]

/-- A later literal of a variable overrides an earlier one, a missing variable is named by its
number in the clauses, and an unknown literal is named before that. -/
theorem checks_of_two_clauses :
    let inst := ofClauses [[7, -3], [3, 5]]
    inst.verify [3, -5, 7, -3, 5] = .ok true ∧
      inst.verify [7, 3] = .error (.missingVariable 5) ∧
      inst.verify [7, 4, 0] = .error (.unknownLiteral 4) := by
  intro inst
  have h : build [[7, -3], [3, 5]] = .ok inst := rfl
  have hsplit : ([7, 4, 0] : List SignedLiteral) = [7] ++ 4 :: [0] := rfl
  have hall : ∀ c ∈ ([[7, -3], [3, 5]] : List SignedClause), ∀ l ∈ c,
      ∃ k ∈ ([3, -5, 7, -3, 5] : List SignedLiteral), k.magnitude = l.magnitude := by
    simp_rw [← List.forall_iff_forall_mem]
    decide
  refine ⟨(verify_eq_iff_checked h _ _).mpr (.complete ?_ ?_ (by decide)),
    (verify_eq_iff_checked h _ _).mpr (.missing ?_ (by decide) ?_ (by decide)),
    (verify_eq_iff_checked h _ _).mpr (.unknown hsplit ?_ (by decide))⟩
  · exact List.forall_iff_forall_mem.mp (by decide)
  · rintro x ⟨c, hc, l, hl, rfl⟩
    exact hall c hc l hl
  all_goals exact List.forall_iff_forall_mem.mp (by decide)

/-! ### Round trips -/

/-- Two assignments of the same indices with a false sentinel and the same values are the same. -/
theorem assignment_eq {a b : Assignment} (ha : a.slot? 0 = some false) (hb : b.slot? 0 = some false)
    (hn : a.numVars = b.numVars) (h : ∀ i, 1 ≤ i → i ≤ a.numVars → a.value i = b.value i) :
    a = b := by
  have hpos {a : Assignment} (ha : a.slot? 0 = some false) : a.slots.size = a.numVars + 1 := by
    have hlt : 0 < a.slots.size := (Array.getElem?_eq_some_iff.mp ha).1
    unfold Assignment.numVars
    omega
  have hsize : a.slots.size = b.slots.size := by rw [hpos ha, hpos hb, hn]
  obtain ⟨as⟩ := a
  obtain ⟨bs⟩ := b
  congr 1
  refine Array.ext hsize fun i h1 h2 => ?_
  cases i with
  | zero =>
    simp only [Assignment.slot?, Array.getElem?_eq_getElem h1, Option.some.injEq] at ha
    simp only [Assignment.slot?, Array.getElem?_eq_getElem h2, Option.some.injEq] at hb
    rw [ha, hb]
  | succ i =>
    have hi : i + 1 ≤ (Assignment.mk as).numVars := by
      rw [hpos ha] at h1
      omega
    have hv := h (i + 1) (by omega) hi
    simpa [Assignment.value, Array.getD_eq_getD_getElem?, h1, h2] using hv

/-- What is written of an assignment that was read are the last literals of the list. -/
theorem lastOf?_of_mem_literalsOf (hcs : ∀ c ∈ cs, c.Acceptable) {a : Assignment}
    (h : (ofClauses cs).ofLiterals ls = .ok a) :
    ∀ k ∈ (ofClauses cs).literalsOf a.value, lastOf? ls k.magnitude = some k := by
  intro k hk
  obtain ⟨i, h1, h2, rfl⟩ := mem_literalsOf.mp hk
  obtain ⟨l, hl, hv⟩ := (lastOf?_of_ofLiterals h).2 i h1 h2
  obtain ⟨hmem, hmag⟩ := mem_of_lastOf? hl
  rw [magnitude_signed hcs h1 h2, hl, hv, signed, ← hmag,
    ofVariable_of_mem hcs (readable_of_ofLiterals h).1 hmem]

theorem toLiterals_eq_ok_iff {a : Assignment} :
    inst.toLiterals a = .ok ls ↔ a.numVars = inst.numVars ∧ inst.literalsOf a.value = ls := by
  by_cases hn : a.numVars = inst.numVars
  · rw [toLiterals_eq_ok hn, Except.ok.injEq]
    exact (and_iff_right hn).symm
  · simp [toLiterals, hn]

/-- Literals over different variables, one for every variable that occurs, are what is written of
them, in another order. -/
theorem literalsOf_perm (hcs : ∀ c ∈ cs, c.Acceptable) {a : Assignment}
    (h : (ofClauses cs).ofLiterals ls = .ok a) (hls : (ls.map (·.magnitude)).Nodup) :
    ((ofClauses cs).literalsOf a.value).Perm ls := by
  have hlast := lastOf?_of_mem_literalsOf hcs h
  have hmags := map_magnitude_literalsOf hcs a.value
  have hnodup : ((ofClauses cs).literalsOf a.value).Nodup := by
    refine List.Nodup.of_map (·.magnitude) ?_
    rw [hmags]
    exact (pairwise_lt_mentionedVariables cs).imp Nat.ne_of_lt
  refine (List.perm_ext_iff_of_nodup hnodup hls.of_map).mpr fun l => ⟨fun hl => ?_, fun hl => ?_⟩
  · exact (mem_of_lastOf? (hlast l hl)).1
  · have hmem : l.magnitude ∈ ((ofClauses cs).literalsOf a.value).map (·.magnitude) := by
      rw [hmags]
      exact mem_mentionedVariables.mpr ((readable_of_ofLiterals h).1 l hl).occurs
    obtain ⟨k, hk, hkl⟩ := List.mem_map.mp hmem
    obtain rfl : k = l :=
      List.inj_on_of_nodup_map hls (mem_of_lastOf? (hlast k hk)).1 hl hkl
    exact hk

/-- **Assignments and lists of literals are translated back and forth without loss.**  Exactly the
assignments of as many indices as the instance has can be written; what is written is read back as
the same values, and as the same assignment if its sentinel is in place, and the check of it says
whether the assignment satisfies the instance.  What is read from a list is written as one literal
for every variable that occurs, in ascending order, each of them the last one of its variable in the
list; it is the list in another order if no variable repeats, and it is read back as the same
assignment. -/
theorem literals_round_trip (h : build cs = .ok inst) :
    (∀ a : Assignment, ((∃ ls, inst.toLiterals a = .ok ls) ↔ a.numVars = inst.numVars) ∧
      ∀ ls, inst.toLiterals a = .ok ls →
        (∃ b, inst.ofLiterals ls = .ok b ∧ b.numVars = inst.numVars ∧
          (∀ i, 1 ≤ i → i ≤ inst.numVars → b.slot? i = a.slot? i ∧ (b.slot? i).isSome = true) ∧
          (a.slot? 0 = some false → b = a)) ∧
        ∃ satisfied, inst.allSatisfied? a.slot? = some satisfied ∧
          inst.verify ls = .ok satisfied) ∧
    ∀ ls a, inst.ofLiterals ls = .ok a →
      ∃ ks, inst.toLiterals a = .ok ks ∧ (ks.map (·.magnitude)).Pairwise (· < ·) ∧
        (∀ x, x ∈ ks.map (·.magnitude) ↔ Occurs cs x) ∧
        (∀ k ∈ ks, lastOf? ls k.magnitude = some k) ∧
        ((ls.map (·.magnitude)).Nodup → ks.Perm ls) ∧ inst.ofLiterals ks = .ok a := by
  obtain ⟨hcs, rfl⟩ := build_eq_ok_iff_acceptable.mp h
  refine ⟨fun a => ⟨by simp [toLiterals_eq_ok_iff], fun ls hls => ?_⟩, fun ls a ha => ?_⟩
  · obtain ⟨hn, rfl⟩ := toLiterals_eq_ok_iff.mp hls
    obtain ⟨b, hb, hbn, hvalue⟩ := ofLiterals_literalsOf hcs a.value
    refine ⟨⟨b, hb, hbn, fun i h1 h2 => ?_, fun h0 => ?_⟩, (ofClauses cs).allSatisfied a.value,
      ?_, ?_⟩
    · rw [Assignment.slot?_eq h1 (hbn.symm ▸ h2), Assignment.slot?_eq h1 (hn.symm ▸ h2),
        hvalue i h1 h2]
      exact ⟨rfl, rfl⟩
    · exact assignment_eq (ofLiterals_sentinel hb) h0 (hbn.trans hn.symm) (hbn ▸ hvalue)
    · exact ((proper_ofClauses hcs).covers (Nat.le_of_eq hn.symm)).allSatisfied?_eq
    · rw [verify, hb]
      simp only [bind, Except.bind, pure, Except.pure, allSatisfied_congr hvalue]
  · obtain ⟨hn, -⟩ := lastOf?_of_ofLiterals ha
    obtain ⟨b, hb, hbn, hvalue⟩ := ofLiterals_literalsOf hcs a.value
    have hmags := map_magnitude_literalsOf hcs a.value
    obtain rfl : b = a := assignment_eq (ofLiterals_sentinel hb) (ofLiterals_sentinel ha)
      (hbn.trans hn.symm) (hbn ▸ hvalue)
    refine ⟨_, toLiterals_eq_ok hn, ?_, fun x => ?_, lastOf?_of_mem_literalsOf hcs ha,
      literalsOf_perm hcs ha, hb⟩
    · rw [hmags]
      exact pairwise_lt_mentionedVariables cs
    · rw [hmags]
      exact mem_mentionedVariables

/-- A list that repeats a variable is read as its last literals say. -/
theorem round_trip_of_repeated :
    let inst := ofClauses [[7, -3], [3, 5]]
    ∃ a, inst.ofLiterals [3, -5, 7, -3] = .ok a ∧ inst.toLiterals a = .ok [-3, -5, 7] ∧
      inst.ofLiterals [-3, -5, 7] = .ok a := by
  intro inst
  have h : build [[7, -3], [3, 5]] = .ok inst := rfl
  have ha : inst.ofLiterals [3, -5, 7, -3] = .ok ⟨#[false, false, false, true]⟩ := by cbv
  have hw : inst.toLiterals ⟨#[false, false, false, true]⟩ = .ok [-3, -5, 7] := by cbv
  obtain ⟨ks, hks, -, -, -, -, hb⟩ := (literals_round_trip h).2 _ _ ha
  obtain rfl : [-3, -5, 7] = ks := Except.ok.inj (hw.symm.trans hks)
  exact ⟨_, ha, hw, hb⟩

end Instance

end StochasticSat
