import StochasticSat.Proofs.Formula.Meaning
import StochasticSat.Proofs.Search.States

/-!
# Proposals

As long as a proper instance has an unsatisfied clause there is something to flip: the clause has a
literal, so there is an index for the noise and for `gsat` to draw, and the clause itself gives
`walksat` its candidates (`Engine.Steady.exists_propose`).

Whatever is proposed is one of the indices of the instance (`Engine.mem_of_propose`), so the
sentinel is never flipped: a draw takes one of its candidates, and the candidates are indices.  What
is drawn among the best candidates is as good as any of them (`best_of_bestOf`).
-/

namespace StochasticSat

open RandomStream

variable {σ : Type} [RandomStream σ]

/-! ### Drawing one element -/

/-- One bounded draw, with the length of the row for its bound, gives the place of the element. -/
def Draws {α : Type} (xs : List α) (s : σ) (x : α) (s' : σ) : Prop :=
  ∃ (h : 0 < xs.length) (d : Fin xs.length), below xs.length h s = (d, s') ∧ xs.get d = x

@[simp] theorem choose_nil {α : Type} (s : σ) : choose ([] : List α) s = (none, s) := rfl

theorem exists_draws {α : Type} {xs : List α} (h : xs ≠ []) (s : σ) :
    ∃ x s', Draws xs s x s' ∧ choose xs s = (some x, s') := by
  have hpos : 0 < xs.length := List.length_pos_iff.mpr h
  exact ⟨_, _, ⟨hpos, _, rfl, rfl⟩, dif_pos hpos⟩

theorem Draws.mem {α : Type} {xs : List α} {s s' : σ} {x : α} (h : Draws xs s x s') : x ∈ xs := by
  obtain ⟨-, d, -, rfl⟩ := h
  exact List.getElem_mem d.isLt

theorem mem_of_choose {α : Type} {xs : List α} {x : α} {s s' : σ} (h : choose xs s = (some x, s')) :
    x ∈ xs := by
  have hne : xs ≠ [] := by
    rintro rfl
    simp at h
  obtain ⟨y, s'', hdraws, hy⟩ := exists_draws hne s
  obtain rfl : x = y := Option.some_inj.mp (congrArg Prod.fst (h.symm.trans hy))
  exact hdraws.mem

/-! ### Something to flip -/

theorem foldl_keepBest_ne_empty : ∀ (rest : List (Nat × Int)) (best : Int × Array Nat),
    best.2 ≠ #[] → (rest.foldl keepBest best).2 ≠ #[]
  | [], best, h => h
  | candidate :: rest, best, h => by
    refine foldl_keepBest_ne_empty rest _ ?_
    unfold keepBest
    split_ifs <;> simp [h]

theorem leaders_ne_nil {scored : List (Nat × Int)} (h : scored ≠ []) : leaders scored ≠ [] := by
  obtain ⟨⟨i, score⟩, rest, rfl⟩ := List.exists_cons_of_ne_nil h
  have := foldl_keepBest_ne_empty rest (score, #[i]) (by simp)
  simpa [leaders] using this

theorem exists_bestOf (inst : Instance) (v : Valuation) {candidates : List Nat}
    (h : candidates ≠ []) (s : σ) : ∃ i s', bestOf inst v candidates s = (some i, s') := by
  have hscored : candidates.map (fun i => (i, inst.flipDelta v i)) ≠ [] := by simpa using h
  obtain ⟨i, s', -, he⟩ := exists_draws (leaders_ne_nil hscored) s
  exact ⟨i, s', he⟩

namespace Instance

variable {inst : Instance} {v : Valuation}

theorem mem_unsatisfied {j : Nat} :
    j ∈ inst.unsatisfied v ↔ ∃ c, inst.clauses[j]? = some c ∧ c.eval v = false := by
  simp only [unsatisfied, List.mem_filterMap]
  constructor
  · rintro ⟨⟨c, k⟩, hc, hj⟩
    split_ifs at hj with he
    obtain rfl : k = j := by simpa using hj
    have := List.mem_zipIdx_iff_getElem?.mp hc
    exact ⟨c, by simpa using this, by simpa using he⟩
  · rintro ⟨c, hc, he⟩
    refine ⟨(c, j), List.mem_zipIdx_iff_getElem?.mpr (by simpa using hc), ?_⟩
    simp [he]

theorem exists_mem_unsatisfied (h : inst.allSatisfied v ≠ true) : ∃ j, j ∈ inst.unsatisfied v := by
  have hex : ∃ c ∈ inst.clauses.toList, c.eval v ≠ true := by
    by_contra hall
    push Not at hall
    exact h (by rw [allSatisfied, ← Array.all_toList]; exact List.all_eq_true.mpr hall)
  obtain ⟨c, hc, he⟩ := hex
  obtain ⟨j, hj⟩ := List.getElem?_of_mem hc
  exact ⟨j, mem_unsatisfied.mpr ⟨c, by simpa using hj, by simpa using he⟩⟩

/-- An unsatisfied clause has a literal, and that is over one of the indices. -/
theorem Proper.exists_literal (h : inst.Proper) {j : Nat} (hj : j ∈ inst.unsatisfied v) :
    ∃ c, inst.clauses[j]? = some c ∧ ∃ l ∈ c.literals, 1 ≤ l.index ∧ l.index ≤ inst.numVars := by
  obtain ⟨c, hc, -⟩ := mem_unsatisfied.mp hj
  have hmem : c ∈ inst.clauses.toList := by simpa using Array.mem_of_getElem? hc
  obtain ⟨l, hl⟩ := List.exists_mem_of_ne_nil _ (h.literals_ne_nil c hmem)
  exact ⟨c, hc, l, hl, h.index_mem c hmem l hl⟩

theorem Proper.clauseIndices_ne_nil (h : inst.Proper) {j : Nat} (hj : j ∈ inst.unsatisfied v) :
    clauseIndices inst j ≠ [] := by
  obtain ⟨c, hc, l, hl, -⟩ := h.exists_literal hj
  refine List.ne_nil_of_mem (a := l.index) ?_
  rw [clauseIndices, Array.getD_eq_getD_getElem?, hc, Option.getD_some, Clause.indices]
  simpa using ⟨l, hl, rfl⟩

theorem Proper.indices_ne_nil (h : inst.Proper) (hv : inst.allSatisfied v ≠ true) :
    inst.indices ≠ [] := by
  obtain ⟨j, hj⟩ := exists_mem_unsatisfied hv
  obtain ⟨c, -, l, -, h1, h2⟩ := h.exists_literal hj
  refine List.ne_nil_of_mem (a := l.index) ?_
  rw [indices, List.mem_range'_1]
  omega

/-- A strategy has a candidate as long as a clause is unsatisfied. -/
theorem Proper.exists_pick (h : inst.Proper) (hv : inst.allSatisfied v ≠ true)
    (strategy : Strategy) (s : σ) : ∃ i s', strategy.pick inst v s = (some i, s') := by
  cases strategy with
  | gsat => exact exists_bestOf inst v (h.indices_ne_nil hv) s
  | walksat =>
    obtain ⟨j, hj⟩ := exists_mem_unsatisfied hv
    obtain ⟨k, s', hdraws, hpick⟩ := exists_draws (List.ne_nil_of_mem hj) s
    obtain ⟨i, s'', hbest⟩ := exists_bestOf inst v (h.clauseIndices_ne_nil hdraws.mem) s'
    refine ⟨i, s'', ?_⟩
    simp only [Strategy.pick, pickClause, hpick, hbest]

end Instance

/-- **An engine that is still searching has something to flip.** -/
theorem Engine.Steady.exists_propose {e : Engine} (h : e.Steady) (hi : e.inst.Proper)
    (hs : e.phase ≠ .satisfied) (s : σ) : ∃ f s', e.propose s = (some f, s') := by
  have hv : e.inst.allSatisfied e.assignment.value ≠ true := fun h' => hs (h.satisfied_iff.mpr h')
  unfold propose
  rcases e.noise.isWalk s with ⟨_ | _, s₁⟩
  · obtain ⟨i, s', hpick⟩ := hi.exists_pick hv e.strategy s₁
    exact ⟨⟨i, .greedy⟩, s', by simp only [hpick, Option.map_some]⟩
  · obtain ⟨i, s', -, hdraw⟩ := exists_draws (hi.indices_ne_nil hv) s₁
    exact ⟨⟨i, .noise⟩, s', by simp only [Noise.randomIndex, hdraw, Option.map_some]⟩

/-! ### What is proposed -/

/-- After one more candidate the best score is at least what it was and at least that of the
candidate, and it is the score of whatever is kept. -/
theorem keepBest_bounds (best : Int × Array Nat) (k : Nat) (score : Int) :
    best.1 ≤ (keepBest best (k, score)).1 ∧ score ≤ (keepBest best (k, score)).1 ∧
      ∀ i ∈ (keepBest best (k, score)).2,
        i ∈ best.2 ∧ (keepBest best (k, score)).1 = best.1 ∨
          i = k ∧ (keepBest best (k, score)).1 = score := by
  unfold keepBest
  split_ifs with h1 h2
  · exact ⟨Int.le_of_lt h1, Int.le_refl _, fun i hi => Or.inr ⟨by simpa using hi, rfl⟩⟩
  · refine ⟨Int.le_refl _, Int.le_of_eq h2, fun i hi => ?_⟩
    rcases Array.mem_push.mp hi with hi | rfl
    · exact Or.inl ⟨hi, rfl⟩
    · exact Or.inr ⟨rfl, h2.symm⟩
  · exact ⟨Int.le_refl _, Int.not_lt.mp h1, fun i hi => Or.inl ⟨hi, rfl⟩⟩

/-- The best score only grows; it ends above all scores of the row, and is the score of whatever is
kept. -/
theorem foldl_keepBest : ∀ (rest : List (Nat × Int)) (best : Int × Array Nat),
    best.1 ≤ (rest.foldl keepBest best).1 ∧ (∀ p ∈ rest, p.2 ≤ (rest.foldl keepBest best).1) ∧
      ∀ i ∈ (rest.foldl keepBest best).2,
        i ∈ best.2 ∧ (rest.foldl keepBest best).1 = best.1 ∨
          (i, (rest.foldl keepBest best).1) ∈ rest
  | [], best => ⟨Int.le_refl _, by simp, fun i hi => Or.inl ⟨hi, rfl⟩⟩
  | (k, score) :: rest, best => by
    obtain ⟨hle, hall, hkept⟩ := foldl_keepBest rest (keepBest best (k, score))
    rw [List.foldl_cons]
    generalize rest.foldl keepBest (keepBest best (k, score)) = last at hle hall hkept ⊢
    obtain ⟨hbest, hscore, hkeep⟩ := keepBest_bounds best k score
    refine ⟨Int.le_trans hbest hle, fun p hp => ?_, fun i hi => ?_⟩
    · rcases List.mem_cons.mp hp with rfl | hp
      · exact Int.le_trans hscore hle
      · exact hall p hp
    · rcases hkept i hi with ⟨hi, hlast⟩ | hi
      · rcases hkeep i hi with ⟨hi, he⟩ | ⟨rfl, he⟩
        · exact Or.inl ⟨hi, hlast.trans he⟩
        · exact Or.inr (by simp [hlast, he])
      · exact Or.inr (List.mem_cons_of_mem _ hi)

/-- **The leaders are candidates, and no candidate has a higher score.** -/
theorem exists_score_of_mem_leaders {scored : List (Nat × Int)} {i : Nat} (h : i ∈ leaders scored) :
    ∃ score, (i, score) ∈ scored ∧ ∀ p ∈ scored, p.2 ≤ score := by
  cases scored with
  | nil => exact absurd h List.not_mem_nil
  | cons first rest =>
    obtain ⟨j, score⟩ := first
    rw [leaders, Array.mem_toList_iff] at h
    obtain ⟨hle, hall, hkept⟩ := foldl_keepBest rest (score, #[j])
    refine ⟨(rest.foldl keepBest (score, #[j])).1, ?_, fun p hp => ?_⟩
    · rcases hkept i h with ⟨hi, he⟩ | hi
      · obtain rfl : i = j := by simpa using hi
        rw [he]
        exact List.mem_cons_self
      · exact List.mem_cons_of_mem _ hi
    · rcases List.mem_cons.mp hp with rfl | hp
      · exact hle
      · exact hall p hp

/-- A draw among the best candidates is a candidate, and none adds more. -/
theorem best_of_bestOf {inst : Instance} {v : Valuation} {candidates : List Nat} {i : Nat}
    {s s' : σ} (h : bestOf inst v candidates s = (some i, s')) :
    i ∈ candidates ∧ ∀ k ∈ candidates, inst.flipDelta v k ≤ inst.flipDelta v i := by
  obtain ⟨score, hi, hbest⟩ := exists_score_of_mem_leaders (mem_of_choose h)
  obtain ⟨_, hmem, he⟩ := List.mem_map.mp hi
  cases he
  exact ⟨hmem, fun k hk => hbest _ (List.mem_map_of_mem hk)⟩

namespace Instance

variable {inst : Instance} {v : Valuation} {i : Nat}

theorem mem_indices : i ∈ inst.indices ↔ 1 ≤ i ∧ i ≤ inst.numVars := by
  rw [indices, List.mem_range'_1]
  omega

theorem Proper.mem_indices_of_mem_clauseIndices (h : inst.Proper) {j : Nat}
    (hi : i ∈ clauseIndices inst j) : i ∈ inst.indices := by
  rw [clauseIndices, Array.getD_eq_getD_getElem?] at hi
  cases hj : inst.clauses[j]? with
  | none =>
    rw [hj] at hi
    exact absurd hi List.not_mem_nil
  | some c =>
    rw [hj] at hi
    obtain ⟨l, hl, rfl⟩ : ∃ l ∈ c.literals, l.index = i := by simpa [Clause.indices] using hi
    have hc : c ∈ inst.clauses.toList := by simpa using Array.mem_of_getElem? hj
    exact mem_indices.mpr (h.index_mem c hc l hl)

/-- A strategy proposes one of the indices of the instance. -/
theorem Proper.mem_indices_of_pick (h : inst.Proper) {strategy : Strategy} {s s' : σ}
    (hpick : strategy.pick inst v s = (some i, s')) : i ∈ inst.indices := by
  cases strategy with
  | gsat => exact (best_of_bestOf hpick).1
  | walksat =>
    unfold Strategy.pick at hpick
    rcases hc : pickClause inst v s with ⟨_ | j, s₁⟩
    · simp only [hc] at hpick
      cases hpick
    · simp only [hc] at hpick
      exact h.mem_indices_of_mem_clauseIndices (best_of_bestOf hpick).1

end Instance

/-- What an engine proposes comes from the noise or from its strategy, as it says. -/
theorem Engine.propose_cases {e : Engine} {f : Flip} {s s' : σ}
    (h : e.propose s = (some f, s')) :
    (f.kind = .noise ∧ ∃ s₁, Noise.randomIndex e.inst s₁ = (some f.index, s')) ∨
      f.kind = .greedy ∧
        ∃ s₁, e.strategy.pick e.inst e.assignment.value s₁ = (some f.index, s') := by
  unfold propose at h
  rcases hw : e.noise.isWalk s with ⟨_ | _, s₁⟩
  · rcases hpick : e.strategy.pick e.inst e.assignment.value s₁ with ⟨_ | i, s₂⟩
    · simp [hw, hpick] at h
    · obtain ⟨rfl, rfl⟩ : (⟨i, .greedy⟩ : Flip) = f ∧ s₂ = s' := by simpa [hw, hpick] using h
      exact Or.inr ⟨rfl, s₁, hpick⟩
  · rcases hdraw : Noise.randomIndex e.inst s₁ with ⟨_ | i, s₂⟩
    · simp [hw, hdraw] at h
    · obtain ⟨rfl, rfl⟩ : (⟨i, .noise⟩ : Flip) = f ∧ s₂ = s' := by simpa [hw, hdraw] using h
      exact Or.inl ⟨rfl, s₁, hdraw⟩

/-- **What an engine proposes to flip is one of the indices of its instance.** -/
theorem Engine.mem_of_propose {e : Engine} (hi : e.inst.Proper) {f : Flip} {s s' : σ}
    (h : e.propose s = (some f, s')) : f.index ∈ e.inst.indices := by
  rcases propose_cases h with ⟨-, s₁, hdraw⟩ | ⟨-, s₁, hpick⟩
  · exact mem_of_choose hdraw
  · exact hi.mem_indices_of_pick hpick

end StochasticSat
