import StochasticSat.Proofs.Search.Proposals

/-!
# Engines driven by hand

Whoever drives an engine without a run may begin, restart and step in any order, and give every call
a stream of its own.  `Engine.callAll` plays a row of such calls and notes what each came to, as a
row of `Deed`s.

`Engine.Tallies` is what the engine and the deeds have to do with each other: the engine is
initializing as long as there are none, and is steady afterwards, and its counters count the deeds
since the last beginning.  Every call keeps this (`Engine.Tallies.call`); `calls_keep_account`
collects what follows for a row of calls.
-/

namespace StochasticSat

variable {σ : Type} [RandomStream σ]

/-! ### Calls and deeds -/

/-- A call to an engine, with the stream it draws from. -/
inductive Call (σ : Type) where
  | begin (s : σ)
  | restart (s : σ)
  | step (s : σ)

/-- What a call came to. -/
inductive Deed where
  | begun
  | restarted
  /-- A step, with the flip that it made if it made one. -/
  | stepped (flip : Option Flip)
deriving DecidableEq

/-- The flip that was made, if any. -/
def Deed.flip? : Deed → Option Flip
  | stepped f => f
  | _ => none

/-- The deeds since the last beginning, where the last deed comes first.  These are all if there was
no call to begin: a step begins by itself only if it is the very first call. -/
def sinceBeginning (deeds : List Deed) : List Deed := deeds.takeWhile (· ≠ .begun)

/-- The flips performed since the last beginning. -/
def flipsSince (deeds : List Deed) : List Flip := (sinceBeginning deeds).filterMap Deed.flip?

/-- The number of calls to restart since the last beginning. -/
def restartsSince (deeds : List Deed) : Nat := (sinceBeginning deeds).count .restarted

section Deeds
variable (deeds : List Deed)

@[simp] theorem flipsSince_nil : flipsSince [] = [] := rfl
@[simp] theorem restartsSince_nil : restartsSince [] = 0 := rfl

@[simp] theorem flipsSince_begun : flipsSince (.begun :: deeds) = [] := rfl
@[simp] theorem restartsSince_begun : restartsSince (.begun :: deeds) = 0 := rfl

@[simp] theorem flipsSince_restarted : flipsSince (.restarted :: deeds) = flipsSince deeds := rfl

@[simp] theorem restartsSince_restarted :
    restartsSince (.restarted :: deeds) = restartsSince deeds + 1 := List.count_cons_self

@[simp] theorem flipsSince_stepped (f : Flip) :
    flipsSince (.stepped (some f) :: deeds) = f :: flipsSince deeds := rfl

@[simp] theorem flipsSince_stepped_none :
    flipsSince (.stepped none :: deeds) = flipsSince deeds := rfl

@[simp] theorem restartsSince_stepped (f : Option Flip) :
    restartsSince (.stepped f :: deeds) = restartsSince deeds := rfl

end Deeds

namespace Engine

/-- The engine after a call, and what the call came to. -/
def call (e : Engine) : Call σ → Deed × Engine
  | .begin s => (.begun, (e.begin s).1)
  | .restart s => (.restarted, (e.restart s).1)
  | .step s => (.stepped (e.step s).1, (e.step s).2.1)

/-- The engine after some deeds and one more call, and all deeds. -/
def callOn (done : List Deed × Engine) (c : Call σ) : List Deed × Engine :=
  ((done.2.call c).1 :: done.1, (done.2.call c).2)

/-- The engine after a row of calls, and what these came to, the last first. -/
def callAll (e : Engine) (calls : List (Call σ)) : List Deed × Engine :=
  calls.foldl callOn ([], e)

/-! ### The counters -/

/-- **The counters count** the deeds since the last beginning. -/
structure Counts (deeds : List Deed) (e : Engine) : Prop where
  iterations : e.iterations = (flipsSince deeds).length
  flips : e.stats.flips = (flipsSince deeds).length
  noise : e.stats.noiseFlips = (flipsSince deeds).countP (·.kind = .noise)
  greedy : e.stats.greedyFlips = (flipsSince deeds).countP (·.kind = .greedy)
  restarts : e.stats.restarts = restartsSince deeds

namespace Counts

variable {deeds : List Deed} {e : Engine}

/-- Counters that are cleared count nothing. -/
theorem begin (e : Engine) (s : σ) (hf : flipsSince deeds = []) (hr : restartsSince deeds = 0) :
    Counts deeds (e.begin s).1 := by
  constructor
  case restarts => exact hr.symm
  all_goals rw [hf]; rfl

theorem restart (h : Counts deeds e) (s : σ) : Counts (.restarted :: deeds) (e.restart s).1 := by
  refine ⟨h.iterations, h.flips, h.noise, h.greedy, ?_⟩
  rw [restart_stats, afterRestart_restarts, restartsSince_restarted, h.restarts]

theorem apply (h : Counts deeds e) (f : Flip) :
    Counts (.stepped (some f) :: deeds) (e.apply f) := by
  obtain ⟨i, kind⟩ := f
  have hi := congrArg (· + 1) h.iterations
  have hf := congrArg (· + 1) h.flips
  cases kind with
  | noise =>
    refine ⟨hi, hf, ?_, ?_, h.restarts⟩
    · rw [flipsSince_stepped, List.countP_cons_of_pos rfl, ← h.noise]
      rfl
    · rw [flipsSince_stepped, List.countP_cons_of_neg (by simp), ← h.greedy]
      rfl
  | greedy =>
    refine ⟨hi, hf, ?_, ?_, h.restarts⟩
    · rw [flipsSince_stepped, List.countP_cons_of_neg (by simp), ← h.noise]
      rfl
    · rw [flipsSince_stepped, List.countP_cons_of_pos rfl, ← h.greedy]
      rfl

theorem stepBegun (h : Counts deeds e) (s : σ) :
    Counts (.stepped (e.stepBegun s).1 :: deeds) (e.stepBegun s).2.1 := by
  rcases stepBegun_cases e s with ⟨hf, he⟩ | ⟨f, -, -, he⟩
  · rw [hf, he]
    exact ⟨h.iterations, h.flips, h.noise, h.greedy, h.restarts⟩
  · rw [he]
    exact h.apply f

end Counts

/-! ### The assignment -/

/-- The engine has an assignment for its instance, behind a sentinel that is false. -/
structure Seated (inst : Instance) (e : Engine) : Prop where
  inst_eq : e.inst = inst
  steady : e.Steady
  sentinel : e.assignment.slot? 0 = some false

namespace Seated

variable {inst : Instance} {e : Engine}

theorem begin (hi : e.inst = inst) (s : σ) : Seated inst (e.begin s).1 :=
  ⟨hi, .begin e s, Assignment.sentinel_random _ _⟩

theorem restart (hi : e.inst = inst) (s : σ) : Seated inst (e.restart s).1 :=
  ⟨hi, .restart e s, Assignment.sentinel_random _ _⟩

/-- A step flips an index of the instance, which the sentinel is not. -/
theorem stepBegun (h : Seated inst e) (hp : inst.Proper) (s : σ) :
    Seated inst (e.stepBegun s).2.1 := by
  obtain ⟨hs, hinst⟩ := h.steady.stepBegun s
  refine ⟨hinst.trans h.inst_eq, hs, ?_⟩
  rcases stepBegun_cases e s with ⟨-, he⟩ | ⟨f, -, hf, he⟩
  · rw [he]
    exact h.sentinel
  · have hmem : f.index ∈ e.inst.indices :=
      mem_of_propose (h.inst_eq.symm ▸ hp) (Prod.ext hf rfl)
    rw [he]
    exact (Assignment.sentinel_flip _ (Instance.mem_indices.mp hmem).1).trans h.sentinel

theorem satisfied_iff (h : Seated inst e) :
    e.phase = .satisfied ↔ ∀ d ∈ inst.clauses, d.eval e.assignment.value = true := by
  rw [h.steady.satisfied_iff, h.inst_eq, Instance.allSatisfied_iff]

theorem searching_iff (h : Seated inst e) :
    e.phase = .searching ↔ ∃ d ∈ inst.clauses, d.eval e.assignment.value = false := by
  rw [← Instance.allSatisfied_eq_false_iff, ← h.inst_eq]
  constructor
  · intro hp
    exact h.steady.unsatisfied (by rw [hp]; decide)
  · intro hfalse
    refine h.steady.searching fun hp => ?_
    rw [h.steady.satisfied_iff.mp hp] at hfalse
    cases hfalse

end Seated

/-! ### Rows of calls -/

/-- **What an engine has to do with the deeds so far.** -/
structure Tallies (inst : Instance) (deeds : List Deed) (e : Engine) : Prop where
  inst_eq : e.inst = inst
  counts : Counts deeds e
  /-- Nothing is drawn before the first call. -/
  untouched : deeds = [] → e.phase = .initializing
  seated : deeds ≠ [] → Seated inst e

namespace Tallies

variable {inst : Instance} {deeds : List Deed} {e : Engine}

theorem ensureBegun (h : Tallies inst deeds e) (s : σ) :
    Counts deeds (e.ensureBegun s).1 ∧ Seated inst (e.ensureBegun s).1 := by
  cases deeds with
  | nil =>
    rw [ensureBegun_of_initializing (h.untouched rfl)]
    exact ⟨.begin e s rfl rfl, .begin h.inst_eq s⟩
  | cons d deeds =>
    have hs := h.seated (List.cons_ne_nil _ _)
    rw [ensureBegun_of_begun hs.steady.begun]
    exact ⟨h.counts, hs⟩

/-- **Every call keeps the account.** -/
theorem call (h : Tallies inst deeds e) (hp : inst.Proper) (c : Call σ) :
    Tallies inst ((e.call c).1 :: deeds) (e.call c).2 := by
  have of_seated {d : Deed} {e' : Engine} (hc : Counts (d :: deeds) e') (hs : Seated inst e') :
      Tallies inst (d :: deeds) e' :=
    ⟨hs.inst_eq, hc, fun hnil => absurd hnil (List.cons_ne_nil _ _), fun _ => hs⟩
  cases c with
  | begin s => exact of_seated (.begin e s rfl rfl) (.begin h.inst_eq s)
  | restart s => exact of_seated (h.counts.restart s) (.restart h.inst_eq s)
  | step s =>
    obtain ⟨hc, hs⟩ := h.ensureBegun s
    exact of_seated (hc.stepBegun _) (hs.stepBegun hp _)

theorem foldl_callOn (hp : inst.Proper) :
    ∀ (calls : List (Call σ)) {deeds : List Deed} {e : Engine}, Tallies inst deeds e →
      Tallies inst (calls.foldl callOn (deeds, e)).1 (calls.foldl callOn (deeds, e)).2
  | [], _, _, h => h
  | c :: calls, _, _, h => foldl_callOn hp calls (h.call hp c)

end Tallies

theorem length_foldl_callOn : ∀ (calls : List (Call σ)) (done : List Deed × Engine),
    (calls.foldl callOn done).1.length = done.1.length + calls.length
  | [], _ => rfl
  | c :: calls, done => by
    rw [List.foldl_cons, length_foldl_callOn]
    simp only [callOn, List.length_cons]
    omega

theorem callAll_eq_nil_iff (e : Engine) (calls : List (Call σ)) :
    (e.callAll calls).1 = [] ↔ calls = [] := by
  rw [← List.length_eq_zero_iff, ← List.length_eq_zero_iff, callAll, length_foldl_callOn]
  simp

theorem Fresh.tallies {inst : Instance} {t : Schedule} {e : Engine} (h : e.Fresh inst t)
    (c : Restarter) : Tallies inst [] (e.withRestarter c) := by
  obtain ⟨strategy, noise, rfl⟩ := h.exists_new
  exact ⟨rfl, ⟨rfl, rfl, rfl, rfl, rfl⟩, fun _ => rfl, fun hnil => absurd rfl hnil⟩

end Engine

/-- **An engine keeps account of the calls to it**, whichever they are and whatever streams they
draw from.  It is initializing before the first call only; afterwards its assignment has a value for
every index, behind a sentinel that is false, and its phase says whether all clauses are satisfied.
Its counters count the flips performed, in all and by their kinds, and the calls to restart since
the last beginning.  The restarter has no part in this and may be in any state. -/
theorem calls_keep_account {inst : Instance} (hi : inst.Obtainable) {t : Schedule} {e₀ : Engine}
    (h : e₀.Fresh inst t) (c : Restarter) (calls : List (Call σ)) :
    let deeds := ((e₀.withRestarter c).callAll calls).1
    let e := ((e₀.withRestarter c).callAll calls).2
    (e.phase = .initializing ↔ calls = []) ∧
    (calls ≠ [] →
      e.assignment.slots.size = inst.numVars + 1 ∧ e.assignment.slot? 0 = some false ∧
      (e.phase = .satisfied ↔ ∀ d ∈ inst.clauses, d.eval e.assignment.value = true) ∧
      (e.phase = .searching ↔ ∃ d ∈ inst.clauses, d.eval e.assignment.value = false)) ∧
    (e.iterations = (flipsSince deeds).length ∧ e.stats.flips = e.iterations ∧
      e.stats.noiseFlips + e.stats.greedyFlips = e.stats.flips ∧
      e.stats.noiseFlips = (flipsSince deeds).countP (·.kind = .noise) ∧
      e.stats.greedyFlips = (flipsSince deeds).countP (·.kind = .greedy)) ∧
    e.stats.restarts = restartsSince deeds := by
  intro deeds e
  have ht : Engine.Tallies inst deeds e :=
    Engine.Tallies.foldl_callOn hi.proper calls (h.tallies c)
  have hnil : deeds = [] ↔ calls = [] := Engine.callAll_eq_nil_iff _ calls
  refine ⟨⟨fun hp => ?_, fun hc => ht.untouched (hnil.mpr hc)⟩, fun hc => ?_, ?_,
    ht.counts.restarts⟩
  · by_contra hc
    exact (ht.seated (mt hnil.mp hc)).steady.begun hp
  · have hs := ht.seated (mt hnil.mp hc)
    exact ⟨hs.inst_eq ▸ hs.steady.size_slots, hs.sentinel, hs.satisfied_iff, hs.searching_iff⟩
  · have hcount := ht.counts
    have hkinds := (flipsSince deeds).length_eq_countP_add_countP (fun f => f.kind = .noise)
    refine ⟨hcount.iterations, hcount.flips.trans hcount.iterations.symm, ?_, hcount.noise,
      hcount.greedy⟩
    have hgreedy : (flipsSince deeds).countP (fun f => ¬ decide (f.kind = .noise) = true) =
        (flipsSince deeds).countP (·.kind = .greedy) := by
      refine List.countP_congr fun f _ => ?_
      cases f.kind <;> simp
    rw [hcount.noise, hcount.greedy, hcount.flips, hkinds, hgreedy]

/-- The engine that was begun anew and restarted once since. -/
theorem account_of_four_calls :
    let inst := Instance.ofClauses [[1, -2], [2]]
    let e₀ := Engine.new inst .walksat .never ⟨Noise.defaultThreshold⟩
    let calls : List (Call Seeded) := [.step ⟨0⟩, .restart ⟨1⟩, .begin ⟨2⟩, .restart ⟨3⟩]
    let e := ((e₀.withRestarter (.start (.fixed 2))).callAll calls).2
    inst.Obtainable ∧ e₀.Fresh inst .never ∧ e.phase ≠ .initializing ∧
      e.assignment.slots.size = inst.numVars + 1 ∧ e.iterations = 0 ∧ e.stats.restarts = 1 := by
  intro inst e₀ calls
  have hi : inst.Obtainable := Instance.obtainable_ofClauses (by decide)
  have h : e₀.Fresh inst .never := .new _ _
  obtain ⟨hphase, hseated, ⟨hiter, -⟩, hrestarts⟩ :=
    calls_keep_account hi h (.start (.fixed 2)) calls
  have hne : calls ≠ [] := List.cons_ne_nil _ _
  obtain ⟨deeds, hdeeds⟩ : ∃ deeds, ((e₀.withRestarter (.start (.fixed 2))).callAll calls).1 =
      .restarted :: .begun :: deeds := ⟨_, rfl⟩
  rw [hdeeds, flipsSince_restarted, flipsSince_begun] at hiter
  rw [hdeeds, restartsSince_restarted, restartsSince_begun] at hrestarts
  exact ⟨hi, h, mt hphase.mp hne, (hseated hne).1, hiter, hrestarts⟩

end StochasticSat
