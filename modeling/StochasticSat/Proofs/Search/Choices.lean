import StochasticSat.Proofs.Formula.Scores
import StochasticSat.Proofs.Search.Proposals

/-!
# Choices among the best

The one pass over scored candidates keeps the best score so far and the candidates that reach it.
What is left at its end are the candidates of the highest score, in order and with their repetitions
(`leaders_eq_filter`).  The pass sees deltas; since these differ from the scores by the number of
clauses that are satisfied anyway, the candidates that are left are those whose flips satisfy the
most clauses (`Instance.topScored`).

So a greedy choice is one bounded draw among them, made after all candidates have been checked
(`Instance.Obtainable.greedyBest?_eq`), and both strategies make such choices
(`greedy_choices_draw_among_best`).
-/

namespace StochasticSat

open RandomStream

variable {σ : Type} [RandomStream σ]

/-! ### The candidates that are left -/

/-- The best score of a row is the one it began with or one of its own. -/
theorem foldl_keepBest_attained (rest : List (Nat × Int)) (best : Int × Array Nat)
    (h : best.2 ≠ #[]) : (rest.foldl keepBest best).1 = best.1 ∨
      ∃ i, (i, (rest.foldl keepBest best).1) ∈ rest := by
  obtain ⟨i, hi⟩ := Array.exists_mem_of_ne_empty _ (foldl_keepBest_ne_empty rest best h)
  rcases (foldl_keepBest rest best).2.2 i hi with ⟨-, hbest⟩ | hmem
  · exact Or.inl hbest
  · exact Or.inr ⟨i, hmem⟩

/-- What one more candidate leaves, if the best score is `top` in the end. -/
theorem kept_keepBest {best : Int × Array Nat} {k : Nat} {score top : Int}
    (h : (keepBest best (k, score)).1 ≤ top) :
    (if (keepBest best (k, score)).1 = top then (keepBest best (k, score)).2.toList else []) =
      (if best.1 = top then best.2.toList else []) ++ if score = top then [k] else [] := by
  rcases Int.lt_trichotomy best.1 score with hlt | heq | hgt
  · -- A better candidate replaces the others, which are then not the best in the end.
    have hkeep : keepBest best (k, score) = (score, #[k]) := if_pos hlt
    rw [hkeep] at h ⊢
    have hle : score ≤ top := h
    have hbest : best.1 ≠ top := by omega
    simp [hbest]
  · have hkeep : keepBest best (k, score) = (best.1, best.2.push k) := by
      simp [keepBest, heq]
    rw [hkeep]
    by_cases htop : score = top <;> simp [heq, htop]
  · have hkeep : keepBest best (k, score) = best := by
      have h1 : ¬ best.1 < score := by omega
      have h2 : score ≠ best.1 := by omega
      simp [keepBest, h1, h2]
    rw [hkeep] at h ⊢
    have hscore : score ≠ top := by omega
    simp [hscore]

/-- **What a row of candidates leaves**: those kept before, if the best score has not changed, and
behind them those of the row that have it. -/
theorem kept_foldl_keepBest : ∀ (rest : List (Nat × Int)) (best : Int × Array Nat),
    (rest.foldl keepBest best).2.toList =
      (if best.1 = (rest.foldl keepBest best).1 then best.2.toList else []) ++
        (rest.filter fun p => p.2 = (rest.foldl keepBest best).1).map (·.1)
  | [], best => by simp
  | (k, score) :: rest, best => by
    have ih := kept_foldl_keepBest rest (keepBest best (k, score))
    have hle := (foldl_keepBest rest (keepBest best (k, score))).1
    rw [List.foldl_cons, ih, List.filter_cons, kept_keepBest hle, List.append_assoc]
    by_cases htop : score = (rest.foldl keepBest (keepBest best (k, score))).1
    · simp [← htop]
    · simp [htop]

/-- **The leaders are the candidates that no candidate beats**, in order and with their
repetitions. -/
theorem leaders_eq_filter (scored : List (Nat × Int)) :
    leaders scored = (scored.filter fun p => scored.all fun q => q.2 ≤ p.2).map (·.1) := by
  cases scored with
  | nil => rfl
  | cons first rest =>
    obtain ⟨j, score⟩ := first
    have hkept := kept_foldl_keepBest rest (score, #[j])
    obtain ⟨hle, hall, -⟩ := foldl_keepBest rest (score, #[j])
    have hatt := foldl_keepBest_attained rest (score, #[j]) (by simp)
    rw [leaders, hkept]
    generalize rest.foldl keepBest (score, #[j]) = last at hle hall hatt ⊢
    have hbound : ∀ q ∈ (j, score) :: rest, q.2 ≤ last.1 := List.forall_mem_cons.mpr ⟨hle, hall⟩
    obtain ⟨top, htop, hlast⟩ : ∃ q ∈ (j, score) :: rest, q.2 = last.1 := by
      rcases hatt with hfirst | ⟨i, hi⟩
      · exact ⟨_, List.mem_cons_self, hfirst.symm⟩
      · exact ⟨_, List.mem_cons_of_mem _ hi, rfl⟩
    have hbest : ∀ p ∈ (j, score) :: rest,
        decide (p.2 = last.1) = ((j, score) :: rest).all fun q => q.2 ≤ p.2 := by
      intro p hp
      rw [Bool.eq_iff_iff, decide_eq_true_iff, List.all_eq_true]
      constructor
      · intro he q hq
        rw [he]
        exact decide_eq_true (hbound q hq)
      · intro hbeats
        have hge : top.2 ≤ p.2 := of_decide_eq_true (hbeats top htop)
        have hp' := hbound p hp
        omega
    rw [← List.filter_congr hbest, List.filter_cons]
    by_cases h : score = last.1 <;> simp [h]

/-! ### Scores -/

namespace Instance

/-- The candidates whose flips satisfy the most clauses, in order and with their repetitions. -/
def topScored (inst : Instance) (v : Valuation) (candidates : List Nat) : List Nat :=
  candidates.filter fun i => candidates.all fun k => inst.flipScore v k ≤ inst.flipScore v i

theorem topScored_ne_nil {inst : Instance} {v : Valuation} {candidates : List Nat}
    (h : candidates ≠ []) : inst.topScored v candidates ≠ [] := by
  have hscored : candidates.map (fun i => (i, (inst.flipScore v i : Int))) ≠ [] := by simpa using h
  have hne := leaders_ne_nil hscored
  rw [leaders_eq_filter, List.filter_map] at hne
  simpa [topScored, List.all_map, Function.comp_def] using hne

/-- **The leaders by deltas are the leaders by scores.** -/
theorem Indexed.leaders_eq_topScored {inst : Instance} (h : inst.Indexed) {v : Valuation}
    {candidates : List Nat} (hc : ∀ i ∈ candidates, inst.knows i = true) :
    leaders (candidates.map fun i => (i, inst.flipDelta v i)) = inst.topScored v candidates := by
  rw [leaders_eq_filter, List.filter_map, List.map_map, topScored]
  simp only [Function.comp_def, List.map_id', List.all_map]
  refine List.filter_congr fun i hi => ?_
  rw [Bool.eq_iff_iff, List.all_eq_true, List.all_eq_true]
  refine forall₂_congr fun k hk => ?_
  have hdi := h.flipDelta_eq (v := v) (knows_iff.mp (hc i hi)).2
  have hdk := h.flipDelta_eq (v := v) (knows_iff.mp (hc k hk)).2
  rw [hdi, hdk, decide_eq_true_iff, decide_eq_true_iff]
  omega

end Instance

/-! ### Readings -/

section Readings
variable {r : Reading} {v : Valuation} {inst : Instance} (h : inst.Covers r v)
include h

theorem Instance.Covers.bestOf?_eq (candidates : List Nat) (s : σ) :
    bestOf? inst r candidates s = some (bestOf inst v candidates s) := by
  have hscored : ∀ i ∈ candidates,
      (inst.deltaAt? r i).map (fun d => (i, d)) = some (i, inst.flipDelta v i) := fun i _ => by
    rw [h.deltaAt?_eq, Option.map_some]
  rw [bestOf?, mapM_eq_pure_map hscored]
  rfl

theorem Instance.Covers.pickClause?_eq (s : σ) :
    pickClause? inst r s = some (pickClause inst v s) := by
  rw [pickClause?, h.unsatisfied?_eq]
  rfl

theorem Instance.Covers.pick?_eq (strategy : Strategy) (s : σ) :
    strategy.pick? inst r s = some (strategy.pick inst v s) := by
  cases strategy with
  | gsat => exact h.bestOf?_eq inst.indices s
  | walksat =>
    unfold Strategy.pick? Strategy.pick
    simp only [h.pickClause?_eq]
    rcases pickClause inst v s with ⟨_ | j, s₁⟩
    · rfl
    · exact h.bestOf?_eq (clauseIndices inst j) s₁

end Readings

/-! ### Greedy choices -/

namespace Instance

/-- The first candidate that is not known is refused, before anything is drawn. -/
theorem greedyBest?_of_not_knows {inst : Instance} {r : Reading} {before after : List Nat}
    {i : Nat} (hbefore : ∀ k ∈ before, inst.knows k = true) (hi : inst.knows i ≠ true) (s : σ) :
    greedyBest? inst r (before ++ i :: after) s =
      .error (.unknownVariable i inst.numVars) := by
  have hcheck : (before ++ i :: after).mapM inst.check =
      .error (.unknownVariable i inst.numVars) :=
    mapM_eq_error_iff.mpr ⟨before, i, after, rfl, fun k hk => ⟨k, if_pos (hbefore k hk)⟩,
      check_of_not_knows hi⟩
  rw [greedyBest?, hcheck]
  rfl

theorem greedyBest?_of_knows {inst : Instance} {r : Reading} {candidates : List Nat}
    (hc : ∀ i ∈ candidates, inst.knows i = true) (s : σ) :
    greedyBest? inst r candidates s = .ok (bestOf? inst r candidates s) := by
  have hcheck : candidates.mapM inst.check = .ok (candidates.map id) :=
    mapM_eq_pure_map fun i hi => if_pos (hc i hi)
  rw [greedyBest?, hcheck, List.map_id]
  rfl

theorem knows_of_mem_indices {inst : Instance} {i : Nat} (h : i ∈ inst.indices) :
    inst.knows i = true := knows_iff.mpr (mem_indices.mp h)

theorem Proper.mem_indices_of_clause {inst : Instance} (h : inst.Proper) {c : Clause}
    (hc : c ∈ inst.clauses) {i : Nat} (hi : i ∈ c.indices) : 1 ≤ i ∧ i ≤ inst.numVars := by
  obtain ⟨l, hl, rfl⟩ : ∃ l ∈ c.literals, l.index = i := by simpa [Clause.indices] using hi
  exact h.index_mem c (by simpa using hc) l hl

/-- A clause of a proper instance has an index, and its indices are known. -/
theorem Proper.candidates_of_clause {inst : Instance} (h : inst.Proper) {c : Clause}
    (hc : c ∈ inst.clauses) : c.indices ≠ [] ∧ ∀ i ∈ c.indices, inst.knows i = true := by
  obtain ⟨l, hl⟩ := List.exists_mem_of_ne_nil _ (h.literals_ne_nil c (by simpa using hc))
  have hmem : l.index ∈ c.indices := by simpa [Clause.indices] using ⟨l, hl, rfl⟩
  exact ⟨List.ne_nil_of_mem hmem, fun i hi => knows_iff.mpr (h.mem_indices_of_clause hc hi)⟩

section Walksat
variable {inst : Instance} {v : Valuation}

/-- Without an unsatisfied clause nothing is drawn. -/
theorem pickClause_of_nil (h : inst.unsatisfied v = []) (s : σ) :
    pickClause inst v s = (none, s) := by rw [pickClause, h, choose_nil]

theorem exists_pickClause (h : inst.unsatisfied v ≠ []) (s : σ) :
    ∃ j s' c, Draws (inst.unsatisfied v) s j s' ∧ pickClause inst v s = (some j, s') ∧
      inst.clauses[j]? = some c ∧ c.eval v = false := by
  obtain ⟨j, s', hdraws, hchoose⟩ := exists_draws h s
  obtain ⟨c, hc, hunsat⟩ := mem_unsatisfied.mp hdraws.mem
  exact ⟨j, s', c, hdraws, hchoose, hc, hunsat⟩

theorem walksat_pick_of_nil (h : inst.unsatisfied v = []) (s : σ) :
    Strategy.walksat.pick inst v s = (none, s) := by
  simp only [Strategy.pick, pickClause_of_nil h]

/-- Once a clause is drawn, the strategy `walksat` draws among the best of its indices. -/
theorem walksat_pick_of_clause {j : Nat} {s s' : σ} (hpick : pickClause inst v s = (some j, s'))
    {c : Clause} (hc : inst.clauses[j]? = some c) :
    Strategy.walksat.pick inst v s = bestOf inst v c.indices s' := by
  have hindices : clauseIndices inst j = c.indices := by
    rw [clauseIndices, Array.getD_eq_getD_getElem?, hc, Option.getD_some]
  simp only [Strategy.pick, hpick, hindices]

end Walksat

section Choices
variable {inst : Instance} (hi : inst.Obtainable) {a : Assignment} (ha : inst.numVars ≤ a.numVars)
include hi ha

/-- **A greedy choice is a draw among the candidates of the highest score.** -/
theorem Obtainable.greedyBest?_eq {candidates : List Nat}
    (hc : ∀ i ∈ candidates, inst.knows i = true) (s : σ) :
    greedyBest? inst a.slot? candidates s =
      .ok (some (choose (inst.topScored a.value candidates) s)) := by
  rw [greedyBest?_of_knows hc, (hi.proper.covers ha).bestOf?_eq, bestOf,
    hi.indexed.leaders_eq_topScored hc]

end Choices

/-- **Greedy choices are draws among the best.**  For an instance that can be built and an
assignment of all its indices, a choice among some candidates refuses the first one that the
instance does not have, whatever the stream; without candidates it draws nothing; and otherwise it
makes one bounded draw, among the candidates whose flips satisfy the most clauses by a full recount,
in order and with their repetitions.  The strategy `gsat` chooses among all indices.  The strategy
`walksat` draws nothing if all clauses are satisfied, and otherwise first draws one of the clauses
that are not, and then chooses among its indices, each of which counts once. -/
theorem greedy_choices_draw_among_best {inst : Instance} (hi : inst.Obtainable) {a : Assignment}
    (ha : inst.numVars ≤ a.numVars) :
    (∀ i, inst.knows i = true ↔ 1 ≤ i ∧ i ≤ inst.numVars) ∧
    (∀ i, inst.knows i = true →
      inst.flipScore? a.slot? i = .ok (some (inst.flipScore a.value i))) ∧
    (∀ (candidates : List Nat) (s : σ),
      (∀ before i after, candidates = before ++ i :: after →
        (∀ k ∈ before, inst.knows k = true) → inst.knows i = false →
          greedyBest? inst a.slot? candidates s = .error (.unknownVariable i inst.numVars)) ∧
      (candidates = [] → greedyBest? inst a.slot? candidates s = .ok (some (none, s))) ∧
      (candidates ≠ [] → (∀ i ∈ candidates, inst.knows i = true) →
        ∃ i s', Draws (inst.topScored a.value candidates) s i s' ∧
          greedyBest? inst a.slot? candidates s = .ok (some (some i, s')))) ∧
    ∀ s : σ,
      (∀ strategy : Strategy,
        strategy.pick? inst a.slot? s = some (strategy.pick inst a.value s)) ∧
      greedyBest? inst a.slot? (List.range' 1 inst.numVars) s =
        .ok (Strategy.gsat.pick? inst a.slot? s) ∧
      ∃ js, inst.unsatisfied? a.slot? = some js ∧
        (js = [] → Strategy.walksat.pick? inst a.slot? s = some (none, s)) ∧
        (js ≠ [] → ∃ j s' c, Draws js s j s' ∧ inst.clauses[j]? = some c ∧
          c.eval? a.slot? = some false ∧ c.indices ≠ [] ∧ c.indices.Nodup ∧
          (∀ i, i ∈ c.indices ↔ c.mentions i = true) ∧
          (∀ i ∈ c.indices, inst.knows i = true) ∧
          greedyBest? inst a.slot? c.indices s' =
            .ok (Strategy.walksat.pick? inst a.slot? s)) := by
  have hcov := hi.proper.covers ha
  refine ⟨fun i => knows_iff, fun i hk => hcov.flipScore?_eq hk, fun candidates s => ⟨?_, ?_, ?_⟩,
    fun s => ⟨fun strategy => hcov.pick?_eq strategy s, ?_, inst.unsatisfied a.value,
      hcov.unsatisfied?_eq, fun hnil => ?_, fun hne => ?_⟩⟩
  · rintro before i after rfl hbefore hunknown
    exact greedyBest?_of_not_knows hbefore (by simp [hunknown]) s
  · rintro rfl
    rw [hi.greedyBest?_eq ha (by simp)]
    rfl
  · intro hne hknows
    obtain ⟨i, s', hdraws, hchoose⟩ := exists_draws (topScored_ne_nil hne) s
    exact ⟨i, s', hdraws, by rw [hi.greedyBest?_eq ha hknows, hchoose]⟩
  · exact greedyBest?_of_knows (fun _ => knows_of_mem_indices) s
  · rw [hcov.pick?_eq, walksat_pick_of_nil hnil]
  · obtain ⟨j, s', c, hdraws, hpick, hc, hunsat⟩ := exists_pickClause hne s
    have hmem : c ∈ inst.clauses := Array.mem_of_getElem? hc
    obtain ⟨hindices, hknows⟩ := hi.proper.candidates_of_clause hmem
    refine ⟨j, s', c, hdraws, hc, ?_, hindices, c.nodup_indices,
      fun i => Clause.mentions_iff.symm, hknows, ?_⟩
    · rw [hcov.eval?_eq (by simpa using hmem), hunsat]
    · rw [greedyBest?_of_knows hknows, hcov.bestOf?_eq, hcov.pick?_eq,
        walksat_pick_of_clause hpick hc]

/-- Of four candidates three are drawn from, one of them twice; the first of two strangers is
refused. -/
theorem choice_among_three :
    let inst := ofClauses [[1, 2], [-1, 2], [3]]
    let a : Assignment := ⟨#[false, false, false, false]⟩
    let s : Seeded := ⟨5⟩
    inst.Obtainable ∧ inst.numVars ≤ a.numVars ∧
      greedyBest? inst a.slot? [2, 7, 9] s = .error (.unknownVariable 7 3) ∧
      ∃ i s', Draws [3, 2, 3] s i s' ∧
        greedyBest? inst a.slot? [3, 1, 2, 3] s = .ok (some (some i, s')) := by
  have hinst : ofClauses [[1, 2], [-1, 2], [3]] =
      ⟨#[⟨[⟨1, true⟩, ⟨2, true⟩]⟩, ⟨[⟨1, false⟩, ⟨2, true⟩]⟩, ⟨[⟨3, true⟩]⟩], #[0, 1, 2, 3],
        #[#[], #[0, 1], #[0, 1], #[2]]⟩ := by cbv
  have hi : (ofClauses [[1, 2], [-1, 2], [3]]).Obtainable := obtainable_ofClauses (by decide)
  rw [hinst] at hi ⊢
  intro inst a s
  have ha : inst.numVars ≤ a.numVars := by decide
  obtain ⟨-, -, hchoices, -⟩ := greedy_choices_draw_among_best (σ := Seeded) hi ha
  have htop : inst.topScored a.value [3, 1, 2, 3] = [3, 2, 3] := by decide
  have hdraw := (hchoices [3, 1, 2, 3] s).2.2 (by decide) (by decide)
  rw [htop] at hdraw
  exact ⟨hi, ha, (hchoices [2, 7, 9] s).1 [2] 7 [9] rfl (by decide) (by decide), hdraw⟩

end Instance

end StochasticSat
