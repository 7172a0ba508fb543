import StochasticSat.Proofs.Search.Countdowns

/-!
# Restarters in words

A restarter may count in words of 64 bits: the number of restarts wraps around, the flips left in a
try stop at zero, and lengths stop at the largest word.  The length of a try comes from the loops
for the Luby sequence, which have a result for the terms up to `2 ^ 63 - 1` (`wordLuby?_eq`).

As long as there are fewer than `2 ^ 63 - 1` restarts, such a restarter and one that counts in
numbers answer every row of calls in the same way and have the same counters
(`WordRestarter.Mirrors`).  `restarters_keep_schedule` says what these are.
-/

namespace StochasticSat

/-! ### Arithmetic that saturates -/

/-- The product of two words, or the largest word if that is less. -/
def saturatedProduct (x y : UInt64) : UInt64 :=
  if x.toNat * y.toNat ≤ maxWord then x * y else UInt64.ofNat maxWord

/-- The difference of two words, or zero. -/
def saturatedDifference (x y : UInt64) : UInt64 := if y ≤ x then x - y else 0

theorem toNat_saturatedProduct (x y : UInt64) :
    (saturatedProduct x y).toNat = min (x.toNat * y.toNat) maxWord := by
  have hmax : maxWord = 2 ^ 64 - 1 := rfl
  unfold saturatedProduct
  split_ifs with h
  · rw [UInt64.toNat_mul, Nat.mod_eq_of_lt (by omega), Nat.min_eq_left h]
  · rw [UInt64.toNat_ofNat_of_lt' (by decide), Nat.min_eq_right (by omega)]

theorem toNat_saturatedDifference (x y : UInt64) :
    (saturatedDifference x y).toNat = x.toNat - y.toNat := by
  unfold saturatedDifference
  split_ifs with h
  · exact UInt64.toNat_sub_of_le x y h
  · rw [UInt64.le_iff_toNat_le] at h
    rw [UInt64.toNat_zero]
    omega

/-! ### Schedules in words -/

/-- A schedule of tries that have an end. -/
inductive WordSchedule where
  | fixed (interval : UInt64)
  | luby (unit : UInt64)
deriving DecidableEq

namespace WordSchedule

/-- The schedule with numbers for words. -/
def toSchedule : WordSchedule → Schedule
  | fixed interval => .fixed interval.toNat
  | luby unit => .luby unit.toNat

/-- The length of the first try: the interval or the unit, which are at least 1. -/
def firstLength : WordSchedule → UInt64
  | fixed interval => max interval 1
  | luby unit => max unit 1

/-- The length of try `k`, if the loops come to a result. -/
def tryLength? (w : WordSchedule) (k : UInt64) : Option UInt64 :=
  match w with
  | fixed interval => some (max interval 1)
  | luby unit => (wordLuby? k).map (saturatedProduct · (max unit 1))

variable (w : WordSchedule)

theorem ends_toSchedule : w.toSchedule.ends = true := by cases w <;> rfl

theorem toNat_firstLength : w.firstLength.toNat = w.toSchedule.tryLength 1 := by
  cases w with
  | fixed interval => exact UInt64.toNat_max interval 1
  | luby unit =>
    have hle : (max unit 1).toNat ≤ maxWord := Nat.le_sub_one_of_lt (UInt64.toNat_lt _)
    rw [UInt64.toNat_max] at hle
    rw [firstLength, UInt64.toNat_max, toSchedule, Schedule.tryLength, luby_one, Nat.one_mul]
    exact (Nat.min_eq_left hle).symm

theorem tryLength?_eq {k : UInt64} (h : 1 ≤ k.toNat) (hk : k.toNat ≤ 2 ^ 63 - 1) :
    ∃ n, w.tryLength? k = some n ∧ n.toNat = w.toSchedule.tryLength k.toNat := by
  cases w with
  | fixed interval => exact ⟨_, rfl, UInt64.toNat_max interval 1⟩
  | luby unit =>
    obtain ⟨term, hterm, hluby⟩ := wordLuby?_eq h hk
    refine ⟨saturatedProduct term (max unit 1), by rw [tryLength?, hterm, Option.map_some], ?_⟩
    rw [toNat_saturatedProduct, hluby, UInt64.toNat_max]
    rfl

end WordSchedule

/-! ### Restarters in words -/

/-- A restarter that counts in words. -/
structure WordRestarter where
  schedule : WordSchedule
  restarts : UInt64
  remaining : UInt64
deriving DecidableEq

namespace WordRestarter

/-- The beginning of the first try. -/
def start (w : WordSchedule) : WordRestarter := ⟨w, 0, w.firstLength⟩

/-- Counts one flip against the current try. -/
def count (v : WordRestarter) : WordRestarter :=
  { v with remaining := saturatedDifference v.remaining 1 }

/-- Begins the next try, if it has a length. -/
def restart? (v : WordRestarter) : Option WordRestarter := do
  let length ← v.schedule.tryLength? (v.restarts + 1 + 1)
  return { v with restarts := v.restarts + 1, remaining := length }

/-- What a call comes to, and the restarter after it. -/
def call? (v : WordRestarter) : Restarter.Call → Option (Restarter.Entry × WordRestarter)
  | .ask =>
    if v.remaining = 0 then v.restart?.map (.asked true, ·) else some (.asked false, v.count)
  | .count => some (.counted, v.count)
  | .restart => v.restart?.map (.restarted, ·)

/-- What some calls and one more came to, and the restarter after them. -/
def callOn? (done : List Restarter.Entry × WordRestarter) (c : Restarter.Call) :
    Option (List Restarter.Entry × WordRestarter) := do
  let (x, v) ← done.2.call? c
  return (x :: done.1, v)

/-- What a row of calls came to, the last first, and the restarter after them. -/
def callAll? (v : WordRestarter) (calls : List Restarter.Call) :
    Option (List Restarter.Entry × WordRestarter) := calls.foldlM callOn? ([], v)

/-- **A restarter in words and one in numbers with the same counters.** -/
structure Mirrors (v : WordRestarter) (r : Restarter) : Prop where
  schedule : r.schedule = v.schedule.toSchedule
  restarts : v.restarts.toNat = r.restarts
  remaining : v.remaining.toNat = r.remaining

namespace Mirrors

variable {v : WordRestarter} {r : Restarter}

theorem start (w : WordSchedule) : Mirrors (.start w) (.start w.toSchedule) :=
  ⟨rfl, rfl, w.toNat_firstLength⟩

theorem ends (h : Mirrors v r) : r.schedule.ends = true := h.schedule ▸ v.schedule.ends_toSchedule

theorem remaining_eq_zero_iff (h : Mirrors v r) : v.remaining = 0 ↔ r.remaining = 0 := by
  rw [← h.remaining, ← UInt64.toNat_inj]
  rfl

theorem count (h : Mirrors v r) : Mirrors v.count r.count := by
  rw [Restarter.count_of_ends h.ends]
  refine ⟨h.schedule, h.restarts, ?_⟩
  rw [WordRestarter.count, toNat_saturatedDifference, h.remaining]
  rfl

/-- The next try has a length, since its number is within reach of the loops. -/
theorem restart (h : Mirrors v r) (hr : r.restarts + 1 < 2 ^ 63 - 1) :
    ∃ v', v.restart? = some v' ∧ Mirrors v' r.restart := by
  have hone : (v.restarts + 1).toNat = r.restarts + 1 := by
    rw [UInt64.toNat_add, h.restarts, UInt64.toNat_one]
    omega
  have htwo : (v.restarts + 1 + 1).toNat = r.restarts + 2 := by
    rw [UInt64.toNat_add, hone, UInt64.toNat_one]
    omega
  obtain ⟨n, hn, hlength⟩ := v.schedule.tryLength?_eq (k := v.restarts + 1 + 1) (by omega)
    (by omega)
  refine ⟨{ v with restarts := v.restarts + 1, remaining := n }, by rw [restart?, hn]; rfl, ?_⟩
  rw [Restarter.restart_of_ends h.ends]
  refine ⟨h.schedule, hone, ?_⟩
  rw [hlength, htwo, ← h.schedule]

/-- **A call comes to the same** in words and in numbers. -/
theorem call (h : Mirrors v r) {c : Restarter.Call} (hr : (r.call c).2.restarts < 2 ^ 63 - 1) :
    ∃ v', v.call? c = some ((r.call c).1, v') ∧ Mirrors v' (r.call c).2 := by
  have hnext : r.restart.restarts = r.restarts + 1 := by rw [Restarter.restart_of_ends h.ends]
  cases c with
  | ask =>
    by_cases h0 : r.remaining = 0
    · rw [Restarter.call, Restarter.due_of_none_left h0] at hr ⊢
      obtain ⟨v', hv', hm⟩ := h.restart (hnext ▸ hr)
      exact ⟨v', by rw [call?, if_pos (h.remaining_eq_zero_iff.mpr h0), hv', Option.map_some], hm⟩
    · rw [Restarter.call, Restarter.due_of_left h0]
      exact ⟨v.count, if_neg (mt h.remaining_eq_zero_iff.mp h0), h.count⟩
  | count => exact ⟨v.count, rfl, h.count⟩
  | restart =>
    obtain ⟨v', hv', hm⟩ := h.restart (hnext ▸ hr)
    exact ⟨v', by rw [call?, hv', Option.map_some, Restarter.call], hm⟩

/-- The bound on the restarts at the end is one for every call. -/
theorem foldlM_callOn? : ∀ (calls : List Restarter.Call)
    {past : List Restarter.Entry} {v : WordRestarter} {r : Restarter}, Mirrors v r →
    (calls.foldl Restarter.callOn (past, r)).2.restarts < 2 ^ 63 - 1 →
    ∃ v', calls.foldlM callOn? (past, v) =
        some ((calls.foldl Restarter.callOn (past, r)).1, v') ∧
      Mirrors v' (calls.foldl Restarter.callOn (past, r)).2
  | [], _, v, _, h, _ => ⟨v, rfl, h⟩
  | c :: calls, past, v, r, h, hr => by
    have hfirst := Restarter.restarts_le_foldl_callOn calls (Restarter.callOn (past, r) c)
    have hrest : (calls.foldl Restarter.callOn ((r.call c).1 :: past, (r.call c).2)).2.restarts <
        2 ^ 63 - 1 := hr
    obtain ⟨v₁, hv₁, h₁⟩ := h.call (hfirst.trans_lt hr)
    obtain ⟨v', hv', h'⟩ := h₁.foldlM_callOn? calls hrest
    refine ⟨v', ?_, h'⟩
    rw [List.foldlM_cons, callOn?, hv₁]
    exact hv'

/-- **A row of calls comes to the same** in words and in numbers. -/
theorem callAll (w : WordSchedule) (calls : List Restarter.Call)
    (hr : ((Restarter.start w.toSchedule).callAll calls).2.restarts < 2 ^ 63 - 1) :
    ∃ v, (WordRestarter.start w).callAll? calls =
        some (((Restarter.start w.toSchedule).callAll calls).1, v) ∧
      Mirrors v ((Restarter.start w.toSchedule).callAll calls).2 :=
  (start w).foldlM_callOn? calls hr

end Mirrors

end WordRestarter

/-! ### Rows of calls -/

/-- **Restarters keep their schedule**, whatever calls are made to them in whatever order, and
whether the schedule is named or comes from a policy (`RestartPolicy.schedule`).  Their counters are
the number of the tries that were begun, on request or because none of the flips of the one before
was left, and the length of the current try without the flips that were counted since, at least
zero.  A new try is due if and only if that is zero, so never right after one was begun.  In words
of 64 bits all of this is the same as long as there are fewer than `2 ^ 63 - 1` restarts. -/
theorem restarters_keep_schedule {t : Schedule} (ht : t.ends = true)
    (calls : List Restarter.Call) :
    let past := ((Restarter.start t).callAll calls).1
    let r := ((Restarter.start t).callAll calls).2
    past.reverse.map Restarter.Entry.call = calls ∧
    r.restarts = Restarter.triesBegun past ∧
    r.remaining = t.tryLength (Restarter.triesBegun past + 1) - Restarter.countedSince past ∧
    (r.due.1 = true ↔
      t.tryLength (Restarter.triesBegun past + 1) ≤ Restarter.countedSince past) ∧
    past.IsChain (fun later earlier => later = .asked true → earlier.begins = false) ∧
    ∀ w : WordSchedule, w.toSchedule = t → Restarter.triesBegun past < 2 ^ 63 - 1 →
      ∃ v, (WordRestarter.start w).callAll? calls = some (past, v) ∧
        v.restarts.toNat = r.restarts ∧ v.remaining.toNat = r.remaining := by
  intro past r
  have h : Restarter.Tallies t past r := .callAll ht calls
  refine ⟨?_, h.restarts, h.remaining, ?_, h.apart, ?_⟩
  · rw [List.map_reverse, Restarter.map_call_callAll, List.reverse_reverse]
  · rw [Restarter.due_iff, h.remaining, Nat.sub_eq_zero_iff_le]
  · rintro w rfl hlt
    obtain ⟨v, hv, hm⟩ := WordRestarter.Mirrors.callAll w calls (h.restarts ▸ hlt)
    exact ⟨v, hv, hm.restarts, hm.remaining⟩

/-- More flips than the first try has, so the second is due, once; and the third begun before the
second is used up. -/
theorem schedule_kept_past_zero :
    let calls : List Restarter.Call := [.count, .count, .count, .ask, .ask, .restart, .ask]
    let past := ((Restarter.start (.luby 2)).callAll calls).1
    let r := ((Restarter.start (.luby 2)).callAll calls).2
    (Schedule.luby 2).ends = true ∧ (WordSchedule.luby 2).toSchedule = .luby 2 ∧
      past = [.asked false, .restarted, .asked false, .asked true, .counted, .counted, .counted] ∧
      Restarter.triesBegun past < 2 ^ 63 - 1 ∧ r.restarts = 2 ∧ r.remaining = 3 ∧
      ∃ v, (WordRestarter.start (.luby 2)).callAll? calls = some (past, v) ∧
        v.restarts.toNat = 2 ∧ v.remaining.toNat = 3 := by
  intro calls past r
  have htwo : luby 2 = 1 := luby_eq_of_getElem? (k := 2) (by decide) (by decide) rfl
  have hthree : luby 3 = 2 := luby_eq_of_getElem? (k := 2) (by decide) (by decide) rfl
  have hpast : past = [.asked false, .restarted, .asked false, .asked true, .counted, .counted,
      .counted] := by
    simp [past, calls, Restarter.callAll, Restarter.callOn, Restarter.call, Restarter.due,
      Restarter.start, Restarter.count, Restarter.restart, Schedule.ends, Schedule.tryLength,
      luby_one, htwo, hthree, maxWord]
  have hbegun : Restarter.triesBegun past = 2 := by rw [hpast]; rfl
  have hcounted : Restarter.countedSince past = 1 := by rw [hpast]; rfl
  have hlength : (Schedule.luby 2).tryLength 3 = 4 := by rw [Schedule.tryLength, hthree]; rfl
  have hlt : Restarter.triesBegun past < 2 ^ 63 - 1 := by rw [hbegun]; decide
  obtain ⟨-, hrestarts, hremaining, -, -, hwords⟩ :=
    restarters_keep_schedule (t := .luby 2) rfl calls
  have hr : r.restarts = 2 := hrestarts.trans hbegun
  have hr' : r.remaining = 3 := by
    refine hremaining.trans ?_
    show (Schedule.luby 2).tryLength (Restarter.triesBegun past + 1) -
      Restarter.countedSince past = 3
    rw [hbegun, hcounted, hlength]
  obtain ⟨v, hv, hvr, hvl⟩ := hwords (.luby 2) rfl hlt
  exact ⟨rfl, rfl, hpast, hlt, hr, hr', v, hv, hvr.trans hr, hvl.trans hr'⟩

end StochasticSat
