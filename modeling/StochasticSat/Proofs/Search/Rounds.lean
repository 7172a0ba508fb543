import StochasticSat.Proofs.Search.Interleavings

/-!
# Fair rounds

`Race.advance` lets every worker act once a round.  This is one of the interleavings
(`Race.exists_follow_advance`), and in each round every worker that is not done comes nearer to it
(`Race.Nearer`), so the rounds of a budget with a limit on flips are enough.  A search with several
workers therefore has a result, and `searchWith_settles` says which.
-/

namespace StochasticSat

variable {σ ω : Type} [RandomStream σ]

namespace Race

/-! ### Rounds are interleavings -/

section Follow
variable {o : Observer ω} {budget : Budget} {race race' : Race σ ω}

theorem follow_append (rest : List Action) : ∀ (actions : List Action) (race : Race σ ω),
    race.follow o budget (actions ++ rest) =
      (race.follow o budget actions).bind (follow o budget rest)
  | [], _ => rfl
  | action :: actions, race => by
    simp only [List.cons_append, follow, Option.bind_assoc]
    exact congrArg _ (funext fun next => follow_append rest actions next)

theorem exists_follow_foldl (o : Observer ω) (budget : Budget) (elapsed : Duration) :
    ∀ (ks : List Nat) (race : Race σ ω), ∃ actions,
      race.follow o budget actions = some (ks.foldl (turn o budget elapsed) race)
  | [], race => ⟨[], rfl⟩
  | k :: ks, race => by
    obtain ⟨actions, h⟩ := exists_follow_foldl o budget elapsed ks (race.turn o budget elapsed k)
    rcases turn_cases o budget elapsed race k with ⟨hturn, -⟩ | ⟨action, -, hact⟩
    · rw [List.foldl_cons, hturn]
      exact ⟨actions, hturn ▸ h⟩
    · exact ⟨action :: actions, by rw [follow, hact, Option.bind_some, h]; rfl⟩

/-- **The fair schedule is an interleaving.** -/
theorem exists_follow_advance (o : Observer ω) (budget : Budget) : ∀ (n : Nat)
    (clock : Nat → Duration) (race : Race σ ω), ∃ actions,
      race.follow o budget actions = some (race.advance o budget clock n)
  | 0, _, race => ⟨[], rfl⟩
  | n + 1, clock, race => by
    unfold advance
    split_ifs
    · exact ⟨[], rfl⟩
    · obtain ⟨first, h⟩ :=
        exists_follow_foldl o budget (clock 0) (List.range race.workers.size) race
      obtain ⟨rest, h'⟩ := exists_follow_advance o budget n (fun k => clock (k + 1))
        (race.round o budget (clock 0))
      exact ⟨first ++ rest, by rw [follow_append, h]; exact h'⟩

end Follow

/-! ### Rounds come to an end -/

/-- The workers of `ks` have at least `n` actions fewer to do, and no other has more. -/
structure Nearer (m : Nat) (ks : List Nat) (n : Nat) (race race' : Race σ ω) : Prop where
  size : race'.workers.size = race.workers.size
  cost_le : ∀ (k : Nat) (worker' : Worker σ ω), race'.workers[k]? = some worker' →
    ∃ worker, race.workers[k]? = some worker ∧ worker'.cost m ≤ worker.cost m ∧
      (k ∈ ks → worker'.cost m ≤ worker.cost m - n)

section Nearer
variable {m : Nat} {race race' race'' : Race σ ω}

omit [RandomStream σ] in
theorem Nearer.append {ks ks' : List Nat} {n : Nat} (h : Nearer m ks n race race')
    (h' : Nearer m ks' n race' race'') : Nearer m (ks ++ ks') n race race'' := by
  refine ⟨h'.size.trans h.size, fun k worker'' hw'' => ?_⟩
  obtain ⟨worker', hw', hle', hk'⟩ := h'.cost_le k worker'' hw''
  obtain ⟨worker, hw, hle, hk⟩ := h.cost_le k worker' hw'
  refine ⟨worker, hw, hle'.trans hle, fun hmem => ?_⟩
  rcases List.mem_append.mp hmem with hmem | hmem
  · exact hle'.trans (hk hmem)
  · exact (hk' hmem).trans (Nat.sub_le_sub_right hle n)

omit [RandomStream σ] in
theorem Nearer.add {ks : List Nat} {n n' : Nat} (h : Nearer m ks n race race')
    (h' : Nearer m ks n' race' race'') : Nearer m ks (n' + n) race race'' := by
  refine ⟨h'.size.trans h.size, fun k worker'' hw'' => ?_⟩
  obtain ⟨worker', hw', hle', hk'⟩ := h'.cost_le k worker'' hw''
  obtain ⟨worker, hw, hle, hk⟩ := h.cost_le k worker' hw'
  refine ⟨worker, hw, hle'.trans hle, fun hmem => ?_⟩
  have := hk hmem
  have := hk' hmem
  omega

variable {o : Observer ω} {budget : Budget} {bases : List (Run σ ω)}
  (hb : ∀ base ∈ bases, base.Ready) (hm : budget.maxFlips = some m)
include hb hm

/-- A turn brings its worker nearer to its end. -/
theorem Sound.nearer_turn (hi : race.Sound o budget bases) (elapsed : Duration) (k : Nat) :
    Nearer m [k] 1 race (race.turn o budget elapsed k) := by
  rcases turn_cases o budget elapsed race k with ⟨hturn, hdone⟩ | ⟨action, rfl, hact⟩
  · rw [hturn]
    refine ⟨rfl, fun j worker hw => ⟨worker, hw, Nat.le_refl _, fun hj => ?_⟩⟩
    obtain rfl := List.mem_singleton.mp hj
    rw [Worker.cost, hdone worker hw]
    exact Nat.zero_le _
  · obtain ⟨worker, worker', hw, hset, hlt⟩ := hi.moves (acted_of_act hact) hb hm
    refine ⟨by rw [hset, Array.size_setIfInBounds], fun j worker'' hj => ?_⟩
    have hbound : action.worker < race.workers.size := (Array.getElem?_eq_some_iff.mp hw).1
    rw [hset, Array.getElem?_setIfInBounds, if_pos hbound] at hj
    split_ifs at hj with hkj
    · cases hj
      exact ⟨worker, hkj ▸ hw, hlt.le, fun _ => Nat.le_sub_one_of_lt hlt⟩
    · exact ⟨worker'', hj, Nat.le_refl _, fun hmem => absurd (List.mem_singleton.mp hmem).symm hkj⟩

variable (ht : budget.timeLimit = none)
include ht

theorem Sound.nearer_foldl (elapsed : Duration) : ∀ (ks : List Nat) {race : Race σ ω},
    race.Sound o budget bases → Nearer m ks 1 race (ks.foldl (turn o budget elapsed) race)
  | [], race, _ => ⟨rfl, fun _ worker' h => ⟨worker', h, Nat.le_refl _, fun hk => by simp at hk⟩⟩
  | k :: ks, race, hi => by
    obtain ⟨actions, hfollow⟩ := exists_follow_foldl o budget elapsed [k] race
    have hi' := hi.follow ht (fun base hbase => (hb base hbase).steady) hfollow
    exact (hi.nearer_turn hb hm elapsed k).append (Sound.nearer_foldl elapsed ks hi')

/-- **After `n` rounds** every worker has `n` actions fewer to do. -/
theorem Sound.nearer_advance : ∀ (n : Nat) (clock : Nat → Duration) {race : Race σ ω},
    race.Sound o budget bases →
      Nearer m (List.range race.workers.size) n race (race.advance o budget clock n)
  | 0, _, race, _ =>
    ⟨rfl, fun _ worker' h => ⟨worker', h, Nat.le_refl _, fun _ => Nat.le_refl _⟩⟩
  | n + 1, clock, race, hi => by
    unfold advance
    split_ifs with hover
    · refine ⟨rfl, fun k worker hw => ⟨worker, hw, Nat.le_refl _, fun _ => ?_⟩⟩
      rw [isOver, Array.all_eq_true'] at hover
      have hd : worker.stage = .done := by simpa using hover worker (Array.mem_of_getElem? hw)
      rw [Worker.cost, hd]
      exact Nat.zero_le _
    · have hround : Nearer m (List.range race.workers.size) 1 race
          (race.round o budget (clock 0)) := hi.nearer_foldl hb hm ht _ _
      obtain ⟨actions, hfollow⟩ :=
        exists_follow_foldl o budget (clock 0) (List.range race.workers.size) race
      have hi' : (race.round o budget (clock 0)).Sound o budget bases :=
        hi.follow ht (fun base hbase => (hb base hbase).steady) hfollow
      have hrest := Sound.nearer_advance n (fun k => clock (k + 1)) hi'
      rw [hround.size] at hrest
      exact hround.add hrest

end Nearer

end Race

/-! ### Searching with several workers -/

omit [RandomStream σ] in
theorem Worker.done_of_cost {m : Nat} {worker : Worker σ ω} (h : worker.cost m = 0) :
    worker.stage = .done := by
  unfold cost at h
  cases hs : worker.stage <;> simp [hs] at h ⊢

section Several
variable {inst : Instance} {t : Schedule} {e : Engine} {budget : Budget} {m : Nat}

/-- **The rounds of a budget** with a limit on flips are enough. -/
theorem Engine.Fresh.isOver_advance (he : e.Fresh inst t) (hm : budget.maxFlips = some m)
    (ht : budget.timeLimit = none) (o : Observer ω) (streams : List σ) (w : ω)
    (clock : Nat → Duration) :
    ((Race.start o e streams w).advance o budget clock budget.rounds).isOver = true := by
  have hready : ∀ base ∈ streams.map (Run.start o e · w), base.Ready := fun _ => he.ready_of_mem
  have hnear := (Race.Sound.start o budget e streams w).nearer_advance hready hm ht
    budget.rounds clock
  have hrounds : budget.rounds = 2 * m + 3 := by rw [Budget.rounds, Budget.passes, hm]
  rw [Race.isOver, ← Array.all_toList]
  refine List.all_eq_true.mpr fun worker' hmem => ?_
  obtain ⟨k, hk⟩ := List.getElem?_of_mem hmem
  obtain ⟨worker, hw, -, hle⟩ := hnear.cost_le k worker' (by simpa using hk)
  have hlt : k < (Race.start o e streams w).workers.size := (Array.getElem?_eq_some_iff.mp hw).1
  have hcost : worker.cost m ≤ 2 * m + 3 :=
    he.worker_cost_le (by simpa using Array.mem_of_getElem? hw) m
  have hzero : worker'.cost m = 0 := by
    have := hle (List.mem_range.mpr hlt)
    omega
  simpa using Worker.done_of_cost hzero

/-- **A search with several workers** and a limit on flips has a result, settled by what the workers
report on their own. -/
theorem searchWith_settles {config : Config} {threads : Nat} (hn : 2 ≤ threads)
    (h : Engine.ofConfig inst config = .ok e) (hm : config.budget.maxFlips = some m)
    (ht : config.budget.timeLimit = none) (o : Observer ω) (clock : Nat → Duration) (s : σ)
    (w : ω) :
    ∃ alone result, e.RunsAlone o config.budget (RandomStream.forks threads s).1 w alone ∧
      searchWith inst config threads o clock s w = .ok (some result) ∧
      ((Race.start o e (RandomStream.forks threads s).1 w).advance o config.budget clock
        config.budget.rounds).Settles alone result.report := by
  have he : e.Fresh inst config.schedule := .ofConfig rfl h
  obtain ⟨alone, hruns, hsettles⟩ := he.follow_settles hm ht o (forks_ne_nil hn s) w
  obtain ⟨actions, hfollow⟩ := Race.exists_follow_advance o config.budget config.budget.rounds clock
    (Race.start o e (RandomStream.forks threads s).1 w)
  have hover := he.isOver_advance hm ht o (RandomStream.forks threads s).1 w clock
  obtain ⟨-, -, hresult⟩ := hsettles actions _ hfollow
  obtain ⟨result, hreport, hsettled⟩ := hresult hover (clock config.budget.rounds)
  refine ⟨alone, result, hruns, ?_, hsettled⟩
  unfold searchWith
  rw [Contest.start_several hn h]
  exact congrArg Except.ok hreport

end Several

end StochasticSat
