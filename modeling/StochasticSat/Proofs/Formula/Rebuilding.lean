import StochasticSat.Proofs.Formula.Meaning

/-!
# Rebuilding an instance from its own clauses

The clauses of an instance, with their signed literals put back (`signedClauses`), are the clauses
that it was built from with every literal kept at its first occurrence only
(`signedClauses_ofClauses`).  A repeated literal adds no variable and does not survive building, so
the instance built from them is the same one, numbering and occurrences included
(`build_signedClauses`).
-/

namespace StochasticSat

variable {cs : List SignedClause} {inst : Instance}

theorem SignedClause.Acceptable.eraseDups {c : SignedClause} (h : c.Acceptable) :
    Acceptable c.eraseDups where
  nonempty := by
    obtain ⟨l, hl⟩ := List.exists_mem_of_ne_nil c h.nonempty
    exact List.ne_nil_of_mem (List.mem_eraseDups.mpr hl)
  zero_notMem := by rw [List.mem_eraseDups]; exact h.zero_notMem
  least_notMem := by rw [List.mem_eraseDups]; exact h.least_notMem

theorem mentionedVariables_map_eraseDups (cs : List SignedClause) :
    mentionedVariables (cs.map (·.eraseDups)) = mentionedVariables cs := by
  refine mentionedVariables_eq (pairwise_lt_mentionedVariables cs) fun x => ?_
  simp [mem_mentionedVariables]

namespace Instance

/-- The clauses of the instance with their signed literals put back. -/
def signedClauses (inst : Instance) : List SignedClause :=
  inst.clauses.toList.map inst.signedClause

section Acceptable
variable (hcs : ∀ c ∈ cs, c.Acceptable)
include hcs

/-- A literal over the indices has the literal it was made from. -/
theorem signed_literalOver {c : SignedClause} {l : SignedLiteral} (hc : c ∈ cs) (hl : l ∈ c) :
    (ofClauses cs).signed (literalOver (ofClauses cs).names l).index
      (literalOver (ofClauses cs).names l).positive = l := by
  obtain ⟨i, -, -, hi, he⟩ := literalOver_ofClauses (mem_mentionedVariables_of_mem hc hl)
  rw [he, signed, hi]
  exact SignedLiteral.ofVariable_magnitude (fun h => (hcs c hc).zero_notMem (h ▸ hl))
    (fun h => (hcs c hc).least_notMem (h ▸ hl))

theorem literalOver_inj {c : SignedClause} {k l : SignedLiteral} (hc : c ∈ cs) (hk : k ∈ c)
    (hl : l ∈ c)
    (h : literalOver (ofClauses cs).names k = literalOver (ofClauses cs).names l) : k = l := by
  rw [← signed_literalOver hcs hc hk, ← signed_literalOver hcs hc hl, h]

theorem literals_clauseOver {c : SignedClause} (hc : c ∈ cs) :
    (clauseOver (ofClauses cs).names c).literals =
      c.eraseDups.map (literalOver (ofClauses cs).names) :=
  eraseDups_map fun _ hk _ hl => literalOver_inj hcs hc hk hl

/-- **What is put back of a clause are the first occurrences of its literals.** -/
theorem signedClause_clauseOver {c : SignedClause} (hc : c ∈ cs) :
    (ofClauses cs).signedClause (clauseOver (ofClauses cs).names c) = c.eraseDups := by
  rw [signedClause, literals_clauseOver hcs hc, List.map_map]
  exact (List.map_congr_left fun l hl =>
    signed_literalOver hcs hc (List.mem_eraseDups.mp hl)).trans (List.map_id' _)

theorem signedClauses_ofClauses : (ofClauses cs).signedClauses = cs.map (·.eraseDups) := by
  rw [signedClauses, clauses_ofClauses, List.map_map]
  exact List.map_congr_left fun c hc => signedClause_clauseOver hcs hc

theorem ofClauses_map_eraseDups : ofClauses (cs.map (·.eraseDups)) = ofClauses cs := by
  have hclauses : (cs.map (·.eraseDups)).map (clauseOver (ofClauses cs).names) =
      cs.map (clauseOver (ofClauses cs).names) := by
    rw [List.map_map]
    refine List.map_congr_left fun c hc => ?_
    -- what is left of a clause over the indices has no repetitions to lose
    rw [Function.comp_apply, clauseOver, ← literals_clauseOver hcs hc]
    exact congrArg Clause.mk (eraseDups_of_nodup (nodup_eraseDups _))
  rw [show (ofClauses cs).names = (0 :: mentionedVariables cs).toArray from rfl] at hclauses
  simp only [ofClauses, mentionedVariables_map_eraseDups, hclauses]

end Acceptable

/-- **An instance is built again from its own clauses.** -/
theorem build_signedClauses (h : build cs = .ok inst) : build inst.signedClauses = .ok inst := by
  obtain ⟨hcs, rfl⟩ := build_eq_ok_iff_acceptable.mp h
  rw [signedClauses_ofClauses hcs]
  refine build_eq_ok_iff_acceptable.mpr ⟨fun d hd => ?_, (ofClauses_map_eraseDups hcs).symm⟩
  obtain ⟨c, hc, rfl⟩ := List.mem_map.mp hd
  exact (hcs c hc).eraseDups

end Instance

end StochasticSat
