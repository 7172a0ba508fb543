import Mathlib.Data.Finset.Dedup
import Mathlib.Data.Finset.Order
import StochasticSat.Proofs.Formula.Solutions
import StochasticSat.Proofs.Search.Choices

/-!
# Clauses that are always satisfied

A clause is made of literals by dropping those that have occurred before, so what it says is what
the literals say (`Clause.eval_ofLiterals`).  It is a tautology if it has a literal together with
its complement, wherever they stand (`Clause.isTautology_iff`); without such a pair the values that
its negative literals refuse falsify it (`Clause.exists_falsifying`).  So the test is exact.

A tautology is never found unsatisfied, not even under a reading that lacks values: wherever it can
be evaluated it is true (`Clause.eval?_ne_some_false`).  Hence no walk draws it.
-/

namespace StochasticSat

/-! ### Distinct literals -/

theorem eraseDups_concat {α : Type} [BEq α] [LawfulBEq α] (xs : List α) (x : α) :
    (xs ++ [x]).eraseDups = xs.eraseDups ++ if x ∈ xs then [] else [x] := by
  rw [List.eraseDups_append, List.removeAll]
  by_cases hx : x ∈ xs <;> simp [List.eraseDups_cons, hx]

/-- **First occurrences stand in the order of their places.** -/
theorem pairwise_idxOf_eraseDups {α : Type} [BEq α] [LawfulBEq α] (xs : List α) :
    xs.eraseDups.Pairwise fun x y => xs.idxOf x < xs.idxOf y := by
  induction xs using List.reverseRecOn with
  | nil => simp
  | append_singleton xs x ih =>
    rw [eraseDups_concat]
    refine List.pairwise_append.mpr ⟨ih.imp_of_mem fun {y z} hy hz hlt => ?_, ?_, ?_⟩
    · rw [List.mem_eraseDups] at hy hz
      rwa [List.idxOf_append_of_mem hy, List.idxOf_append_of_mem hz]
    · split_ifs <;> simp
    · intro y hy z hz
      rw [List.mem_eraseDups] at hy
      split_ifs at hz with hx
      · exact absurd hz List.not_mem_nil
      · obtain rfl := List.mem_singleton.mp hz
        rw [List.idxOf_append_of_mem hy, List.idxOf_append_of_notMem hx]
        exact Nat.lt_add_right _ (List.idxOf_lt_length_of_mem hy)

theorem Literal.negate_ne (l : Literal) : l.negate ≠ l := by
  intro h
  have hpos : (!l.positive) = l.positive := congrArg Literal.positive h
  exact absurd hpos (by simp)

/-- The assignment has a value for every index of the literals. -/
def Assignment.Covers (a : Assignment) (ls : List Literal) : Prop := ∀ l ∈ ls, l.index ≤ a.numVars

namespace Clause

variable {c : Clause} {ls : List Literal} {r : Reading}

/-- **A clause says what the literals say that it was made of.** -/
theorem eval_ofLiterals (v : Valuation) (ls : List Literal) :
    (ofLiterals ls).eval v = ls.any (·.eval v) := by
  rw [Bool.eq_iff_iff, eval_iff]
  simp

/-! ### The test -/

theorem hasOpposites_iff : hasOpposites ls = true ↔ ∃ l ∈ ls, l.negate ∈ ls := by
  induction ls with
  | nil => simp [hasOpposites]
  | cons l ls ih =>
    simp only [hasOpposites, Bool.or_eq_true, List.any_eq_true, beq_iff_eq, ih]
    constructor
    · rintro (⟨k, hk, rfl⟩ | ⟨k, hk, hn⟩)
      · exact ⟨l, List.mem_cons_self, List.mem_cons_of_mem l hk⟩
      · exact ⟨k, List.mem_cons_of_mem l hk, List.mem_cons_of_mem l hn⟩
    · rintro ⟨k, hk, hn⟩
      rcases List.mem_cons.mp hk with rfl | hk <;> rcases List.mem_cons.mp hn with hn | hn
      · exact absurd hn (Literal.negate_ne _)
      · exact Or.inl ⟨_, hn, rfl⟩
      · exact Or.inl ⟨k, hk, by rw [← hn, Literal.negate_negate]⟩
      · exact Or.inr ⟨k, hk, hn⟩

/-- **A tautology has a literal together with its complement.** -/
theorem isTautology_iff : c.isTautology = true ↔ ∃ l ∈ c.literals, l.negate ∈ c.literals :=
  hasOpposites_iff

theorem eval_of_isTautology (h : c.isTautology = true) (v : Valuation) : c.eval v = true := by
  obtain ⟨l, hl, hn⟩ := isTautology_iff.mp h
  rw [eval_iff]
  cases he : l.eval v with
  | true => exact ⟨l, hl, he⟩
  | false => exact ⟨l.negate, hn, by rw [Literal.eval_negate, he]; rfl⟩

/-- A tautology that can be evaluated is true. -/
theorem eval?_ne_some_false (h : c.isTautology = true) : c.eval? r ≠ some false := by
  intro he
  obtain ⟨l, hl, hn⟩ := isTautology_iff.mp h
  rw [eval?, anyM_eq_some_false_iff] at he
  obtain ⟨b, hb, hpos⟩ := Option.map_eq_some_iff.mp (he l hl)
  obtain ⟨b', hb', hneg⟩ := Option.map_eq_some_iff.mp (he _ hn)
  obtain rfl : b = b' := Option.some_inj.mp (hb.symm.trans hb')
  cases b <;> simp_all [Literal.negate]

/-- **Literals without a complementary pair can all be false**: each index gets the value that its
negative literal refuses, if it has one, and else the value that no positive one may have. -/
theorem exists_falsifying (hls : ∀ l ∈ ls, 1 ≤ l.index) (h : (ofLiterals ls).isTautology ≠ true) :
    ∃ bs : List Bool, (Assignment.ofValues bs).Covers ls ∧
      ls.any (·.eval (Assignment.ofValues bs).value) = false := by
  obtain ⟨n, hn⟩ := (ls.map (·.index)).toFinset.exists_le
  have hle : ∀ l ∈ ls, l.index ≤ n := fun l hl => hn _ (by simpa using ⟨l, hl, rfl⟩)
  refine ⟨(List.range' 1 n).map fun i => decide (⟨i, false⟩ ∈ ls), fun l hl => ?_, ?_⟩
  · simpa using hle l hl
  rw [List.any_eq_false]
  intro l hl
  rw [Literal.eval, Assignment.value_ofValues _ (hls l hl) (hle l hl)]
  obtain ⟨i, b⟩ := l
  cases b with
  | false => simpa using hl
  | true =>
    -- the complement of a literal of the list is not in it
    have hnot : (⟨i, false⟩ : Literal) ∉ ls := fun hn =>
      h (isTautology_iff.mpr ⟨⟨i, true⟩, mem_literals_ofLiterals.mpr hl,
        mem_literals_ofLiterals.mpr hn⟩)
    simpa using hnot

end Clause

/-! ### Tautologies in an instance -/

namespace Instance

variable {inst : Instance} {r : Reading} {j : Nat} {c : Clause}

theorem not_mem_unsatisfied (h : c.isTautology = true) (hc : inst.clauses[j]? = some c)
    (v : Valuation) : j ∉ inst.unsatisfied v := by
  rw [mem_unsatisfied]
  rintro ⟨d, hd, he⟩
  obtain rfl : c = d := Option.some_inj.mp (hc.symm.trans hd)
  rw [Clause.eval_of_isTautology h] at he
  cases he

/-- A position that is found unsatisfied is that of a clause that is read as false. -/
theorem eval?_of_mem_unsatisfied? {js : List Nat} (h : inst.unsatisfied? r = some js)
    (hc : inst.clauses[j]? = some c) (hj : j ∈ js) : c.eval? r = some false := by
  obtain ⟨bs, hbs, rfl⟩ := Option.map_eq_some_iff.mp h
  obtain ⟨⟨b, k⟩, hb, hk⟩ := List.mem_filterMap.mp hj
  cases b with
  | true => cases hk
  | false =>
    obtain rfl : k = j := Option.some_inj.mp hk
    have hbj : bs[k]? = some false := by simpa using List.mem_zipIdx_iff_getElem?.mp hb
    have hget := getElem?_of_mapM_eq_some hbs k
    have hck : inst.clauses.toList[k]? = some c := by simpa using hc
    rw [hbj, hck] at hget
    exact hget.symm

/-- What is drawn is a position that is found unsatisfied. -/
theorem mem_of_pickClause? {σ : Type} [RandomStream σ] {s s' : σ}
    (h : pickClause? inst r s = some (some j, s')) :
    ∃ js, inst.unsatisfied? r = some js ∧ j ∈ js := by
  obtain ⟨js, hjs, hdraw⟩ := Option.map_eq_some_iff.mp h
  exact ⟨js, hjs, mem_of_choose hdraw⟩

end Instance

/-- **Making a clause of literals changes nothing about what they say, and the test for tautologies
is exact.**  The clause has the distinct literals of the list, in the order of their first places.
Every assignment that covers the list can be read, before and after a flip, and makes the clause
true just if it makes one of the literals of the list true.  The clause is a tautology if and only
if all these assignments make it true.  In no instance is a tautology among the unsatisfied clauses,
and no stream draws it, whatever the values are and whether or not some are missing; they are not
missing if the instance was built and the assignment has all its variables. -/
theorem clauses_say_what_their_literals_say {ls : List Literal} (hls : ∀ l ∈ ls, 1 ≤ l.index) :
    ((∀ l, l ∈ (Clause.ofLiterals ls).literals ↔ l ∈ ls) ∧
      (Clause.ofLiterals ls).literals.Pairwise fun l k => ls.idxOf l < ls.idxOf k) ∧
    (∀ a : Assignment, a.Covers ls →
      (Clause.ofLiterals ls).eval? a.slot? = some (ls.any (·.eval a.value)) ∧
      ∀ i, 1 ≤ i → i ≤ a.numVars → (Clause.ofLiterals ls).eval? (Reading.flipAt a.slot? i) =
        some (ls.any (·.eval (a.flip i).value))) ∧
    ((Clause.ofLiterals ls).isTautology = true ↔
      ∀ a : Assignment, a.Covers ls → (Clause.ofLiterals ls).eval? a.slot? = some true) ∧
    ((Clause.ofLiterals ls).isTautology = true → ∀ (inst : Instance) (j : Nat),
      inst.clauses[j]? = some (Clause.ofLiterals ls) →
        (∀ v, j ∉ inst.unsatisfied v ∧
          ∀ (σ : Type) [RandomStream σ] (s s' : σ), pickClause inst v s ≠ (some j, s')) ∧
        (∀ r, (∀ js, inst.unsatisfied? r = some js → j ∉ js) ∧
          ∀ (σ : Type) [RandomStream σ] (s s' : σ), pickClause? inst r s ≠ some (some j, s')) ∧
        ∀ a : Assignment, inst.Obtainable → inst.numVars ≤ a.numVars →
          inst.unsatisfied? a.slot? = some (inst.unsatisfied a.value) ∧
          ∀ (σ : Type) [RandomStream σ] (s : σ),
            pickClause? inst a.slot? s = some (pickClause inst a.value s)) := by
  have hread {a : Assignment} (ha : a.Covers ls) :
      ∀ l ∈ (Clause.ofLiterals ls).literals, a.slot? l.index = some (a.value l.index) := by
    intro l hl
    rw [Clause.mem_literals_ofLiterals] at hl
    exact Assignment.slot?_eq (hls l hl) (ha l hl)
  have heval {a : Assignment} (ha : a.Covers ls) :
      (Clause.ofLiterals ls).eval? a.slot? = some (ls.any (·.eval a.value)) := by
    rw [Clause.eval?_eq (hread ha), Clause.eval_ofLiterals]
  refine ⟨⟨fun l => Clause.mem_literals_ofLiterals, pairwise_idxOf_eraseDups ls⟩,
    fun a ha => ⟨heval ha, fun i h1 h2 => ?_⟩, ⟨fun h a ha => ?_, fun h => ?_⟩,
    fun h inst j hj => ⟨fun v => ?_, fun r => ?_, fun a hi hn => ?_⟩⟩
  · have hsize := Assignment.lt_size_of_knows (Assignment.knows_iff.mpr ⟨h1, h2⟩)
    have hflip : ∀ l ∈ (Clause.ofLiterals ls).literals,
        Reading.flipAt a.slot? i l.index = some (a.value.flipAt i l.index) := by
      intro l hl
      rw [Reading.flipAt_apply, hread ha l hl]
      rfl
    rw [Clause.eval?_eq hflip, Clause.eval_ofLiterals, Assignment.value_flip hsize]
  · rw [Clause.eval?_eq (hread ha), Clause.eval_of_isTautology h]
  · by_contra hnot
    obtain ⟨bs, hbs, hfalse⟩ := Clause.exists_falsifying hls hnot
    have htrue := h _ hbs
    rw [heval hbs, hfalse] at htrue
    cases htrue
  · have hnone : j ∉ inst.unsatisfied v := Instance.not_mem_unsatisfied h hj v
    exact ⟨hnone, fun σ _ s s' hdraw => hnone (mem_of_choose hdraw)⟩
  · have hnone : ∀ js, inst.unsatisfied? r = some js → j ∉ js := fun js hjs hmem =>
      Clause.eval?_ne_some_false h (Instance.eval?_of_mem_unsatisfied? hjs hj hmem)
    refine ⟨hnone, fun σ _ s s' hdraw => ?_⟩
    obtain ⟨js, hjs, hmem⟩ := Instance.mem_of_pickClause? hdraw
    exact hnone js hjs hmem
  · have hcovers := hi.proper.covers hn
    exact ⟨hcovers.unsatisfied?_eq, fun σ _ s => hcovers.pickClause?_eq s⟩

/-- A literal that is repeated, and one whose complement comes later, in the first clause of two. -/
theorem first_of_two_clauses_is_tautology :
    let ls : List Literal := [⟨2, true⟩, ⟨1, false⟩, ⟨2, true⟩, ⟨2, false⟩]
    let inst := Instance.ofClauses [[7, -4, 7, -7], [4]]
    (∀ l ∈ ls, 1 ≤ l.index) ∧
      (Clause.ofLiterals ls).literals = [⟨2, true⟩, ⟨1, false⟩, ⟨2, false⟩] ∧
      (∀ a : Assignment, a.Covers ls → (Clause.ofLiterals ls).eval? a.slot? = some true) ∧
      inst.unsatisfied (Assignment.ofValues [false, false]).value = [1] ∧
      ∀ v, 0 ∉ inst.unsatisfied v := by
  intro ls inst
  have hls : ∀ l ∈ ls, 1 ≤ l.index := by decide
  have htaut : (Clause.ofLiterals ls).isTautology = true := by decide
  have hclause : inst.clauses[0]? = some (Clause.ofLiterals ls) := by cbv
  obtain ⟨-, -, hexact, hnever⟩ := clauses_say_what_their_literals_say hls
  exact ⟨hls, by decide, hexact.mp htaut, by cbv, fun v => ((hnever htaut inst 0 hclause).1 v).1⟩

end StochasticSat
