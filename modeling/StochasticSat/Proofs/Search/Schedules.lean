import Mathlib.Order.Monotone.Basic
import StochasticSat.Proofs.Search.LubyBlocks
import StochasticSat.Proofs.Search.Passes
import StochasticSat.Proofs.Search.Proposals

/-!
# The tries of a run

A run counts its flips in the engine and the flips left in a try in the restarter, and it counts its
restarts in both.  `Schedule.Tracks` relates these counters to the events so far: as long as the run
goes on, the flips left in the try are those that complete the tries up to the current one
(`Schedule.flipsThrough`).  Every pass keeps this (`Schedule.Keeps`).

`Schedule.Allows` is what follows for a single event.  `tries_follow_schedule` collects what a whole
run does: where its tries begin, how long they last, and what it reports at the end.
-/

namespace StochasticSat

variable {σ ω : Type} [RandomStream σ]

/-! ### Lengths of tries -/

namespace Schedule

variable {t : Schedule}

theorem tryLength_pos (t : Schedule) {k : Nat} (h : 1 ≤ k) : 1 ≤ t.tryLength k := by
  cases t with
  | never => exact Nat.le_sub_of_add_le (by decide)
  | fixed interval => exact Nat.le_max_right _ _
  | luby unit =>
    have h1 : 1 ≤ StochasticSat.luby k * max unit 1 :=
      Nat.mul_pos (luby_pos h) (Nat.le_max_right _ _)
    exact Nat.le_min.mpr ⟨h1, by decide⟩

/-- The flips of the first `k` tries. -/
def flipsThrough (t : Schedule) : Nat → Nat
  | 0 => 0
  | k + 1 => t.flipsThrough k + t.tryLength (k + 1)

theorem flipsThrough_mono (t : Schedule) : Monotone t.flipsThrough :=
  monotone_nat_of_le_succ fun _ => Nat.le_add_right _ _

theorem flipsThrough_fixed (interval : Nat) :
    ∀ k, (fixed interval).flipsThrough k = k * max interval 1
  | 0 => (Nat.zero_mul _).symm
  | k + 1 => by
    rw [flipsThrough, flipsThrough_fixed interval k, Nat.succ_mul]
    rfl

/-- A flip belongs to one try only. -/
theorem flipsThrough_unique {n j k : Nat} (hj : t.flipsThrough j < n)
    (hj' : n ≤ t.flipsThrough (j + 1)) (hk : t.flipsThrough k < n)
    (hk' : n ≤ t.flipsThrough (k + 1)) : j = k := by
  rcases Nat.lt_trichotomy j k with h | h | h
  · have : t.flipsThrough (j + 1) ≤ t.flipsThrough k := t.flipsThrough_mono h
    omega
  · exact h
  · have : t.flipsThrough (k + 1) ≤ t.flipsThrough j := t.flipsThrough_mono h
    omega

end Schedule

/-! ### Counting events -/

namespace Event

def isFlip : Event → Bool
  | flip _ => true
  | _ => false

def isRestart : Event → Bool
  | restart .. => true
  | _ => false

end Event

/-- The number of flips among some events. -/
def flipsIn (events : List Event) : Nat := events.countP Event.isFlip

/-- The number of restarts among some events. -/
def restartsIn (events : List Event) : Nat := events.countP Event.isRestart

@[simp] theorem flipsIn_append (xs ys : List Event) :
    flipsIn (xs ++ ys) = flipsIn xs + flipsIn ys := List.countP_append

@[simp] theorem restartsIn_append (xs ys : List Event) :
    restartsIn (xs ++ ys) = restartsIn xs + restartsIn ys := List.countP_append

section Cons
variable (xs : List Event)

@[simp] theorem flipsIn_nil : flipsIn [] = 0 := rfl
@[simp] theorem restartsIn_nil : restartsIn [] = 0 := rfl

@[simp] theorem flipsIn_start (inst : Instance) (a : Assignment) :
    flipsIn (.start inst a :: xs) = flipsIn xs := rfl

@[simp] theorem restartsIn_start (inst : Instance) (a : Assignment) :
    restartsIn (.start inst a :: xs) = restartsIn xs := rfl

@[simp] theorem flipsIn_flip (f : FlipEvent) : flipsIn (.flip f :: xs) = flipsIn xs + 1 :=
  List.countP_cons_of_pos rfl

@[simp] theorem restartsIn_flip (f : FlipEvent) : restartsIn (.flip f :: xs) = restartsIn xs := rfl

@[simp] theorem flipsIn_restart (k : Nat) (a : Assignment) :
    flipsIn (.restart k a :: xs) = flipsIn xs := rfl

@[simp] theorem restartsIn_restart (k : Nat) (a : Assignment) :
    restartsIn (.restart k a :: xs) = restartsIn xs + 1 := List.countP_cons_of_pos rfl

@[simp] theorem flipsIn_finish (r : Report) : flipsIn (.finish r :: xs) = flipsIn xs := rfl

@[simp] theorem restartsIn_finish (r : Report) : restartsIn (.finish r :: xs) = restartsIn xs := rfl

end Cons

/-- A property of every event of a row and of the events before it. -/
def EachEvent (P : List Event → Event → Prop) (events : List Event) : Prop :=
  ∀ pre event post, events = pre ++ event :: post → P pre event

theorem eachEvent_nil {P : List Event → Event → Prop} : EachEvent P [] := by
  intro pre event post h
  simp at h

theorem EachEvent.concat {P : List Event → Event → Prop} {events : List Event} {event : Event}
    (h : EachEvent P events) (he : P events event) : EachEvent P (events ++ [event]) := by
  intro pre event' post hsplit
  rcases List.eq_nil_or_concat post with rfl | ⟨post, last, rfl⟩
  · obtain ⟨rfl, hlast⟩ := List.append_inj' hsplit rfl
    obtain rfl : event = event' := by simpa using hlast
    exact he
  · rw [List.concat_eq_append, ← List.cons_append, ← List.append_assoc] at hsplit
    exact h pre event' post (List.append_inj' hsplit rfl).1

/-! ### The counters along a run -/

namespace Schedule

variable (t : Schedule) (budget : Budget)

/-- A number of flips and a number of restarts that go together. -/
structure Fits (flips restarts : Nat) : Prop where
  endless : t.ends = false → restarts = 0
  begun : t.flipsThrough restarts ≤ flips
  left : t.ends = true → flips ≤ t.flipsThrough (restarts + 1)
  flips_le : ∀ m, budget.maxFlips = some m → flips ≤ m
  /-- No try begins once the limit on flips is reached. -/
  begun_lt : ∀ m, budget.maxFlips = some m → 1 ≤ m → t.flipsThrough restarts < m

/-- **What the counters say** about the events so far, as long as the run goes on. -/
structure Tracks (past : List Event) (e : Engine) : Prop where
  schedule : e.restarter.schedule = t
  iterations : e.iterations = flipsIn past
  restarts : e.stats.restarts = restartsIn past
  /-- No flip is counted against a try without end. -/
  endless : t.ends = false → e.restarter.remaining = maxWord
  /-- The flips left complete the current try. -/
  left : t.ends = true → e.restarter.restarts = restartsIn past ∧
    flipsIn past + e.restarter.remaining = t.flipsThrough (restartsIn past + 1)
  fits : t.Fits budget (flipsIn past) (restartsIn past)

/-- What an event says about the events before it. -/
def Allows (past : List Event) : Event → Prop
  | .flip f => f.iteration = flipsIn past + 1 ∧ (t.ends = false → restartsIn past = 0) ∧
    t.flipsThrough (restartsIn past) < flipsIn past + 1 ∧
      (t.ends = true → flipsIn past + 1 ≤ t.flipsThrough (restartsIn past + 1))
  | .restart k _ => k = restartsIn past + 1 ∧ flipsIn past = t.flipsThrough k
  | _ => True

/-- **What the end of a run says** about its events. -/
structure Closes (past : List Event) (report : Report) : Prop where
  iterations : report.outcome.iterations = flipsIn past
  restarts : report.stats.restarts = restartsIn past
  fits : t.Fits budget (flipsIn past) (restartsIn past)

variable {t budget} {past : List Event} {e : Engine} {elapsed : Duration}

theorem lt_of_flipsLeft {n m : Nat} (h : budget.flipsUsedUp n = false)
    (hm : budget.maxFlips = some m) : n < m := by
  simpa [Budget.flipsUsedUp, hm] using h

/-- A try without end is never used up. -/
theorem Tracks.ends_of_due (h : t.Tracks budget past e) (hd : e.restarter.remaining = 0) :
    t.ends = true := by
  by_contra hends
  rw [Bool.not_eq_true] at hends
  have := h.endless hends
  rw [hd] at this
  exact absurd this (by decide)

theorem Tracks.allows_flip (h : t.Tracks budget past e) (hd : e.restarter.remaining ≠ 0)
    (f : Flip) : t.Allows past (.flip (e.flipEvent f)) := by
  refine ⟨congrArg (· + 1) h.iterations, h.fits.endless, Nat.lt_succ_of_le h.fits.begun, ?_⟩
  intro hends
  obtain ⟨-, hleft⟩ := h.left hends
  omega

theorem Tracks.allows_restart (h : t.Tracks budget past e) (hd : e.restarter.remaining = 0)
    (a : Assignment) : t.Allows past (.restart (e.stats.restarts + 1) a) := by
  obtain ⟨-, hleft⟩ := h.left (h.ends_of_due hd)
  rw [hd, Nat.add_zero] at hleft
  exact ⟨congrArg (· + 1) h.restarts, by rw [h.restarts, hleft]⟩

theorem Tracks.flipped (h : t.Tracks budget past e) (hg : GoesOn budget elapsed e)
    (hd : e.restarter.remaining ≠ 0) (f : Flip) :
    t.Tracks budget (past ++ [.flip (e.flipEvent f)]) (e.counted.apply f) := by
  have hm : ∀ m, budget.maxFlips = some m → flipsIn past + 1 ≤ m := fun m hm => by
    have := lt_of_flipsLeft hg.flipsLeft hm
    rw [h.iterations] at this
    exact this
  have hflips : flipsIn (past ++ [.flip (e.flipEvent f)]) = flipsIn past + 1 := by simp
  have hrestarts : restartsIn (past ++ [.flip (e.flipEvent f)]) = restartsIn past := by simp
  constructor
  case schedule =>
    rw [Engine.apply_restarter, Engine.counted_restarter, Restarter.count]
    split_ifs <;> exact h.schedule
  case iterations =>
    rw [Engine.apply_iterations, Engine.counted_iterations, h.iterations, hflips]
  case restarts =>
    rw [Engine.apply_stats, Engine.afterFlip_restarts, Engine.counted_stats, h.restarts, hrestarts]
  case endless =>
    intro hends
    rw [Engine.apply_restarter, Engine.counted_restarter, Restarter.count, h.schedule,
      if_neg (by simp [hends])]
    exact h.endless hends
  case left =>
    intro hends
    obtain ⟨h1, h2⟩ := h.left hends
    rw [Engine.apply_restarter, Engine.counted_restarter, Restarter.count, h.schedule,
      if_pos hends, hflips, hrestarts]
    exact ⟨h1, by rw [← h2]; show _ + (e.restarter.remaining - 1) = _; omega⟩
  case fits =>
    rw [hflips, hrestarts]
    refine ⟨h.fits.endless, Nat.le_succ_of_le h.fits.begun, fun hends => ?_, hm, h.fits.begun_lt⟩
    obtain ⟨-, h2⟩ := h.left hends
    omega

theorem Tracks.retried (h : t.Tracks budget past e) (hg : GoesOn budget elapsed e)
    (hd : e.restarter.remaining = 0) (s : σ) :
    t.Tracks budget (past ++
      [.restart (e.stats.restarts + 1) (e.rearmed.restart s).1.assignment])
      (e.rearmed.restart s).1 := by
  have hends := h.ends_of_due hd
  obtain ⟨h1, h2⟩ := h.left hends
  rw [hd, Nat.add_zero] at h2
  have hrearm : e.rearmed.restarter =
      ⟨t, restartsIn past + 1, t.tryLength (restartsIn past + 2)⟩ := by
    rw [Engine.rearmed_restarter, Restarter.restart, h.schedule, if_pos hends, h1]
  have hnext : t.flipsThrough (restartsIn past + 1 + 1) =
      flipsIn past + t.tryLength (restartsIn past + 2) := by rw [h2]; rfl
  constructor
  case schedule => rw [Engine.restart_restarter, hrearm]
  case iterations =>
    rw [Engine.restart_iterations, Engine.rearmed_iterations, h.iterations]
    simp
  case restarts =>
    rw [Engine.restart_stats, Engine.afterRestart_restarts, Engine.rearmed_stats, h.restarts]
    simp
  case endless => exact fun hends' => absurd hends (by simp [hends'])
  case left =>
    intro _
    rw [Engine.restart_restarter, hrearm]
    simpa using hnext.symm
  case fits =>
    simp only [flipsIn_append, restartsIn_append, flipsIn_restart, restartsIn_restart, flipsIn_nil,
      restartsIn_nil, Nat.add_zero, Nat.zero_add]
    refine ⟨fun hends' => absurd hends (by simp [hends']), h2.ge, fun _ => ?_, h.fits.flips_le,
      fun m hm _ => ?_⟩
    · omega
    · have := lt_of_flipsLeft hg.flipsLeft hm
      rw [h.iterations] at this
      omega

theorem Tracks.closes (h : t.Tracks budget past e) {report : Report}
    (ho : report.outcome.iterations = e.iterations) (hs : report.stats = e.stats) :
    t.Closes budget (past ++ [.finish report]) report :=
  ⟨by simpa using ho.trans h.iterations, by simpa [hs] using h.restarts, by simpa using h.fits⟩

end Schedule

/-! ### The events along a run -/

/-- What holds of a run and the events so far, whether it goes on or has ended. -/
structure Schedule.Keeps (t : Schedule) (budget : Budget) (past : List Event) (r : Run σ ω) :
    Prop where
  told : EachEvent t.Allows past
  running : r.report = none → t.Tracks budget past r.engine
  ended : ∀ report, r.report = some report → t.Closes budget past report

section Course
variable {t : Schedule} {o : Observer ω} {budget : Budget} {elapsed : Duration}
  {log past new : List Event} {r r₁ : Run σ ω}

theorem Passed.keeps (hp : Passed o budget elapsed r new r₁) (hr : r.report = none)
    (h : t.Keeps budget past r) : t.Keeps budget (past ++ new) r₁ := by
  have ht := h.running hr
  have hfinish {past : List Event} (hpast : EachEvent t.Allows past) (report : Report) :
      EachEvent t.Allows (past ++ [.finish report]) := hpast.concat trivial
  cases hp with
  | ended hends =>
    refine ⟨hfinish h.told _, fun h' => by simp [Run.finish] at h', fun report h' => ?_⟩
    obtain rfl := Option.some.inj h'
    exact ht.closes (by cases hends <;> rfl) rfl
  | retried hg hd =>
    refine ⟨h.told.concat (ht.allows_restart hd _), fun _ => ht.retried hg hd _,
      fun report h' => ?_⟩
    exact absurd (hr.symm.trans h') (by simp)
  | stalled hg hd hp =>
    refine ⟨hfinish h.told _, fun h' => by simp [Run.giveUp, Run.finish] at h', fun report h' => ?_⟩
    obtain rfl := Option.some.inj h'
    exact ht.closes rfl rfl
  | flipped hg hd hp hw =>
    refine ⟨h.told.concat (ht.allows_flip hd _), fun _ => ht.flipped hg hd _, fun report h' => ?_⟩
    exact absurd (hr.symm.trans h') (by simp)
  | @cancelled f s w hg hd hp hw =>
    have hflip := h.told.concat (ht.allows_flip hd f)
    rw [List.append_cons]
    refine ⟨hfinish hflip _, fun h' => by simp [Run.giveUp, Run.finish] at h', fun report h' => ?_⟩
    obtain rfl := Option.some.inj h'
    exact (ht.flipped hg hd _).closes rfl rfl

theorem Course.keeps (hc : Course o budget r past r₁) (h : t.Keeps budget log r) :
    t.Keeps budget (log ++ past) r₁ := by
  induction hc with
  | start => simpa using h
  | pass _ hr hp ih =>
    rw [← List.append_assoc]
    exact hp.keeps hr ih

theorem Schedule.Keeps.start (o : Observer ω) (budget : Budget) (inst : Instance)
    (strategy : Strategy) (noise : Noise) (a : Assignment) (s : σ) (w : ω) :
    t.Keeps budget [.start inst a] (Run.start o (Engine.new inst strategy t noise) s w) := by
  refine ⟨?_, fun _ => ⟨rfl, rfl, rfl, fun h => ?_, fun _ => ⟨rfl, ?_⟩, ?_⟩, fun _ h => by cases h⟩
  · exact EachEvent.concat eachEvent_nil trivial
  · show t.tryLength 1 = maxWord
    cases t <;> first | rfl | cases h
  · show 0 + t.tryLength 1 = 0 + t.tryLength 1
    rfl
  · exact ⟨fun _ => rfl, Nat.le_refl 0, fun _ => Nat.zero_le _, fun _ _ => Nat.zero_le _,
      fun _ _ h => h⟩

/-- A run that has ended has made a last pass. -/
theorem Course.exists_last (hc : Course o budget r past r₁) (hr : r.report = none)
    {report : Report} (h : r₁.report = some report) :
    ∃ (before new : List Event) (r₀ : Run σ ω) (elapsed : Duration), Course o budget r before r₀ ∧
      r₀.report = none ∧ Passed o budget elapsed r₀ new r₁ := by
  cases hc with
  | start => rw [hr] at h; cases h
  | pass hc hr₀ hp => exact ⟨_, _, _, _, hc, hr₀, hp⟩

/-- The limit on flips is the reason for the end only if it is reached. -/
theorem Passed.flipsUsedUp (hp : Passed o budget elapsed r new r₁) (hr : r.report = none)
    (hs : r.engine.Steady) (hi : r.engine.inst.Proper) {report : Report} {n : Nat}
    (h : r₁.report = some report) (ho : report.outcome = .exhausted n .flipLimit) :
    budget.flipsUsedUp n = true := by
  cases hp with
  | ended hends =>
    obtain rfl := Option.some.inj h
    cases hends with
    | satisfied _ => cases ho
    | flipLimit _ hf => cases ho; exact hf
    | timeLimit _ _ _ => cases ho
  | retried _ _ => exact absurd (hr.symm.trans h) (by simp)
  | stalled hg hd hp =>
    obtain ⟨f, s', hf⟩ := hs.exists_propose hi hg.unsatisfied r.stream
    rw [hp] at hf
    cases hf
  | flipped _ _ _ _ => exact absurd (hr.symm.trans h) (by simp)
  | cancelled _ _ _ _ =>
    obtain rfl := Option.some.inj h
    cases ho

end Course

/-! ### The tries of a run -/

namespace Schedule

/-- **How many restarts come before flip `n`.** -/
def RestartsBefore : Schedule → Nat → Nat → Prop
  | never, _, k => k = 0
  | fixed interval, n, k => k = (n - 1) / max interval 1
  | luby unit, n, k =>
    ∀ j, (luby unit).flipsThrough j < n ∧ n ≤ (luby unit).flipsThrough (j + 1) ↔ j = k

/-- **What the events of a run say about its tries**, which are the parts between restarts. -/
structure Governs (t : Schedule) (events : List Event) : Prop where
  /-- Flips are numbered through, whatever restarts there are. -/
  flip : ∀ pre f post, events = pre ++ .flip f :: post →
    f.iteration = flipsIn pre + 1 ∧ t.RestartsBefore (flipsIn pre + 1) (restartsIn pre)
  /-- Restarts are numbered through. -/
  restart : ∀ pre k a post, events = pre ++ .restart k a :: post → k = restartsIn pre + 1
  /-- The first try has its length when the second begins. -/
  first : ∀ pre k a post, events = pre ++ .restart k a :: post → restartsIn pre = 0 →
    flipsIn pre = t.tryLength 1
  /-- So has every other try, and none is empty. -/
  between : ∀ pre j a mid k b post,
    events = pre ++ .restart j a :: mid ++ .restart k b :: post →
      1 ≤ flipsIn mid ∧ (restartsIn mid = 0 → flipsIn mid = t.tryLength (j + 1))
  /-- A try in which the run ends is no longer than that. -/
  last : ∀ pre j a post, events = pre ++ .restart j a :: post → restartsIn post = 0 →
    flipsIn post ≤ t.tryLength (j + 1)
  /-- The same of a run without restarts. -/
  only : restartsIn events = 0 → t.ends = true → flipsIn events ≤ t.tryLength 1

variable {t : Schedule} {budget : Budget} {events : List Event}

theorem div_eq_of_flipsThrough {interval n k : Nat}
    (h : (fixed interval).flipsThrough k < n) (h' : n ≤ (fixed interval).flipsThrough (k + 1)) :
    k = (n - 1) / max interval 1 := by
  rw [flipsThrough_fixed] at h h'
  exact (Nat.div_eq_of_lt_le (by omega) (by omega)).symm

theorem Allows.restartsBefore {past : List Event} {f : FlipEvent} (h : t.Allows past (.flip f)) :
    t.RestartsBefore (flipsIn past + 1) (restartsIn past) := by
  obtain ⟨-, hnever, hbegun, hleft⟩ := h
  cases t with
  | never => exact hnever rfl
  | fixed interval => exact div_eq_of_flipsThrough hbegun (hleft rfl)
  | luby unit =>
    intro j
    constructor
    · rintro ⟨h1, h2⟩
      exact flipsThrough_unique h1 h2 hbegun (hleft rfl)
    · rintro rfl
      exact ⟨hbegun, hleft rfl⟩

theorem governs (htold : EachEvent t.Allows events)
    (hfits : t.Fits budget (flipsIn events) (restartsIn events)) : t.Governs events := by
  constructor
  case flip =>
    intro pre f post h
    have hf := htold pre _ post h
    exact ⟨hf.1, hf.restartsBefore⟩
  case restart => exact fun pre k a post h => (htold pre _ post h).1
  case first =>
    intro pre k a post h h0
    obtain ⟨rfl, hk⟩ := htold pre _ post h
    rw [hk, h0]
    exact Nat.zero_add _
  case between =>
    intro pre j a mid k b post h
    obtain ⟨hj, hpre⟩ := htold pre (.restart j a) (mid ++ .restart k b :: post) (by simpa using h)
    obtain ⟨hk, hmid⟩ := htold (pre ++ .restart j a :: mid) _ post h
    simp only [flipsIn_append, flipsIn_restart, restartsIn_append, restartsIn_restart] at hmid hk
    have hstep : t.flipsThrough (j + 1) = t.flipsThrough j + t.tryLength (j + 1) := rfl
    refine ⟨?_, fun h0 => ?_⟩
    · have hle : t.flipsThrough (j + 1) ≤ t.flipsThrough k := t.flipsThrough_mono (by omega)
      have := t.tryLength_pos (Nat.le_add_left 1 j)
      omega
    · obtain rfl : k = j + 1 := by omega
      omega
  case last =>
    intro pre j a post h h0
    obtain ⟨hj, hpre⟩ := htold pre _ post h
    have hstep : t.flipsThrough (j + 1) = t.flipsThrough j + t.tryLength (j + 1) := rfl
    subst h
    simp only [flipsIn_append, flipsIn_restart, restartsIn_append, restartsIn_restart, h0,
      Nat.zero_add, ← hj] at hfits
    have hends : t.ends = true := by
      by_contra hends
      have := hfits.endless (by simpa using hends)
      omega
    have := hfits.left hends
    omega
  case only =>
    intro h0 hends
    rw [h0] at hfits
    simpa [flipsThrough] using hfits.left hends

end Schedule

omit [RandomStream σ] in
theorem Schedule.Keeps.fits {t : Schedule} {budget : Budget} {events : List Event} {r : Run σ ω}
    (h : t.Keeps budget events r) : t.Fits budget (flipsIn events) (restartsIn events) := by
  cases hr : r.report with
  | none => exact (h.running hr).fits
  | some report => exact (h.ended report hr).fits

/-- **The restart schedule of a run** of a fresh engine: the events that any observer is told, in
any number of passes, follow the schedule, and the report agrees with them.  A run that uses up its
limit on flips under a schedule of equal tries has made one restart for every whole try before the
last flip. -/
theorem tries_follow_schedule {inst : Instance} {t : Schedule} {e : Engine} (h : e.Fresh inst t)
    (o : Observer ω) (budget : Budget) (clock : Nat → Duration) (n : Nat) (s : σ) (w : ω) :
    t.Governs (e.told o budget clock n s w) ∧
    ∀ report, ((Run.start o e s w).advance o budget clock n).report = some report →
      report.outcome.iterations = flipsIn (e.told o budget clock n s w) ∧
      report.stats.restarts = restartsIn (e.told o budget clock n s w) ∧
      ∀ m interval i, inst.Obtainable → t = .fixed interval → budget.maxFlips = some m → 1 ≤ m →
        report.outcome = .exhausted i .flipLimit →
          i = m ∧ report.stats.restarts = (m - 1) / max interval 1 := by
  obtain ⟨strategy, noise, rfl⟩ := h.exists_new
  have hnew : (Engine.new inst strategy t noise).phase = .initializing := rfl
  obtain ⟨past, hc, htold⟩ := Engine.told_eq (Or.inl hnew) o budget clock n s w
  have hk := hc.keeps (Schedule.Keeps.start o budget inst strategy noise
    ((Engine.new inst strategy t noise).ensureBegun s).1.assignment s w)
  rw [htold]
  refine ⟨Schedule.governs hk.told hk.fits, fun report hr => ?_⟩
  have hclose := hk.ended report hr
  refine ⟨hclose.iterations, hclose.restarts, fun m interval i hi ht hm hpos ho => ?_⟩
  subst ht
  -- The last pass ended for the limit on flips, so there are `m` of them.
  obtain ⟨before, new, r₀, elapsed, hc₀, hr₀, hlast⟩ := hc.exists_last rfl hr
  obtain ⟨hs₀, hi₀⟩ := hc₀.steady (Engine.steady_ensureBegun (Or.inl hnew) s).1
  have hi₀' : r₀.engine.inst = inst := hi₀
  have hused := hlast.flipsUsedUp hr₀ hs₀ (hi₀' ▸ hi.proper) hr ho
  have hle : m ≤ i := by simpa [Budget.flipsUsedUp, hm] using hused
  have hflips : i = _ := (congrArg Outcome.iterations ho).symm.trans hclose.iterations
  obtain rfl : i = m := Nat.le_antisymm (hflips ▸ hclose.fits.flips_le m hm) hle
  refine ⟨rfl, ?_⟩
  rw [hclose.restarts]
  exact Schedule.div_eq_of_flipsThrough (hclose.fits.begun_lt i hm hpos)
    (hflips.le.trans (hclose.fits.left rfl))

/-- A formula without a model, searched for five flips in tries of two. -/
theorem tries_of_contradiction :
    let inst := Instance.ofClauses [[1], [-1]]
    let e := Engine.new inst .walksat (.fixed 2) ⟨Noise.defaultThreshold⟩
    e.Fresh inst (.fixed 2) ∧
      (Schedule.fixed 2).Governs
        (e.told .silent (.flips 5) (fun _ => .zero) 11 (⟨0⟩ : Seeded) ()) :=
  ⟨.new _ _, (tries_follow_schedule (.new _ _) _ _ _ _ _ _).1⟩

end StochasticSat
