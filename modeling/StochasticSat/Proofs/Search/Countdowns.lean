import Mathlib.Data.List.Chain
import StochasticSat.Proofs.Search.Schedules

/-!
# Restarters driven by hand

Whoever holds a restarter may ask it, count flips and begin tries in any order: more flips than a
try has, or a new try before the current one is used up.  `Restarter.callAll` plays a row of such
calls and notes what each came to.  Whatever the call, it either begins a try or counts a flip
(`Restarter.call_cases`).

`Restarter.Tallies` is what the restarter and these notes have to do with each other: it has begun
as many tries as are noted, and what is left of the current one is its length without the flips
noted since it began.  Every call keeps this (`Restarter.Tallies.call`).
-/

namespace StochasticSat

namespace Restarter

/-! ### Calls -/

/-- A call to a restarter. -/
inductive Call where
  | ask
  | count
  | restart
deriving DecidableEq

/-- What a call came to. -/
inductive Entry where
  /-- The answer whether a new try begins. -/
  | asked (due : Bool)
  | counted
  | restarted
deriving DecidableEq

namespace Entry

/-- The call that was made. -/
def call : Entry → Call
  | asked _ => .ask
  | counted => .count
  | restarted => .restart

/-- Whether a try was begun; otherwise a flip was counted. -/
def begins : Entry → Bool
  | asked due => due
  | counted => false
  | restarted => true

end Entry

/-- What a call comes to, and the restarter after it. -/
def call (r : Restarter) : Call → Entry × Restarter
  | .ask => (.asked r.due.1, r.due.2)
  | .count => (.counted, r.count)
  | .restart => (.restarted, r.restart)

/-- What some calls and one more came to, and the restarter after them. -/
def callOn (done : List Entry × Restarter) (c : Call) : List Entry × Restarter :=
  ((done.2.call c).1 :: done.1, (done.2.call c).2)

/-- What a row of calls came to, the last first, and the restarter after them. -/
def callAll (r : Restarter) (calls : List Call) : List Entry × Restarter :=
  calls.foldl callOn ([], r)

/-- The number of tries that were begun. -/
def triesBegun (past : List Entry) : Nat := past.countP Entry.begins

/-- The number of flips that were counted since a try was begun last, where the last entry comes
first. -/
def countedSince (past : List Entry) : Nat := (past.takeWhile (!·.begins)).length

section Entries
variable {x : Entry} (past : List Entry)

theorem triesBegun_of_begins (h : x.begins = true) :
    triesBegun (x :: past) = triesBegun past + 1 := List.countP_cons_of_pos h

theorem triesBegun_of_counts (h : x.begins = false) : triesBegun (x :: past) = triesBegun past :=
  List.countP_cons_of_neg (by simp [h])

theorem countedSince_of_begins (h : x.begins = true) : countedSince (x :: past) = 0 := by
  rw [countedSince, List.takeWhile_cons_of_neg (by simp [h]), List.length_nil]

theorem countedSince_of_counts (h : x.begins = false) :
    countedSince (x :: past) = countedSince past + 1 := by
  rw [countedSince, List.takeWhile_cons_of_pos (by simp [h]), List.length_cons, countedSince]

end Entries

section Steps
variable {r : Restarter}

theorem due_of_left (h : r.remaining ≠ 0) : r.due = (false, r.count) := if_neg h

theorem due_of_none_left (h : r.remaining = 0) : r.due = (true, r.restart) := if_pos h

theorem due_iff : r.due.1 = true ↔ r.remaining = 0 := by
  by_cases h : r.remaining = 0
  · simp [due_of_none_left h, h]
  · simp [due_of_left h, h]

theorem count_of_ends (h : r.schedule.ends = true) :
    r.count = { r with remaining := r.remaining - 1 } := if_pos h

theorem restart_of_ends (h : r.schedule.ends = true) :
    r.restart = { r with
      restarts := r.restarts + 1, remaining := r.schedule.tryLength (r.restarts + 2) } := if_pos h

/-- **A call begins a try or counts a flip.**  A try is begun on request, or because none of its
flips is left. -/
theorem call_cases (r : Restarter) (c : Call) :
    ((r.call c).1.begins = true ∧ (r.call c).2 = r.restart ∧
      ((r.call c).1 = .asked true → r.remaining = 0)) ∨
    ((r.call c).1.begins = false ∧ (r.call c).2 = r.count) := by
  cases c with
  | ask =>
    by_cases h0 : r.remaining = 0
    · rw [call, due_of_none_left h0]
      exact Or.inl ⟨rfl, rfl, fun _ => h0⟩
    · rw [call, due_of_left h0]
      exact Or.inr ⟨rfl, rfl⟩
  | count => exact Or.inr ⟨rfl, rfl⟩
  | restart => exact Or.inl ⟨rfl, rfl, fun h => Entry.noConfusion h⟩

theorem call_call (r : Restarter) (c : Call) : (r.call c).1.call = c := by cases c <;> rfl

theorem restarts_le_call (r : Restarter) (c : Call) : r.restarts ≤ (r.call c).2.restarts := by
  rcases r.call_cases c with ⟨-, h, -⟩ | ⟨-, h⟩
  · rw [h, restart]
    split_ifs <;> simp
  · rw [h, count]
    split_ifs <;> simp

/-- Restarts are never taken back. -/
theorem restarts_le_foldl_callOn : ∀ (calls : List Call) (done : List Entry × Restarter),
    done.2.restarts ≤ (calls.foldl callOn done).2.restarts
  | [], _ => Nat.le_refl _
  | c :: calls, done =>
    (done.2.restarts_le_call c).trans (restarts_le_foldl_callOn calls (callOn done c))

end Steps

/-! ### The counters -/

/-- **What a restarter has to do with the calls so far.** -/
structure Tallies (t : Schedule) (past : List Entry) (r : Restarter) : Prop where
  schedule : r.schedule = t
  restarts : r.restarts = triesBegun past
  remaining : r.remaining = t.tryLength (triesBegun past + 1) - countedSince past
  /-- No try is due right after one was begun. -/
  apart : past.IsChain fun later earlier => later = .asked true → earlier.begins = false

namespace Tallies

variable {t : Schedule} {past : List Entry} {r : Restarter} {x : Entry}

theorem start (t : Schedule) : Tallies t [] (Restarter.start t) := ⟨rfl, rfl, rfl, .nil⟩

/-- Flips that are counted when none is left do not change the counter. -/
theorem counted (h : Tallies t past r) (ht : t.ends = true) (hx : x.begins = false) :
    Tallies t (x :: past) r.count := by
  rw [count_of_ends (h.schedule ▸ ht)]
  refine ⟨h.schedule, ?_, ?_, h.apart.cons ?_⟩
  · rw [triesBegun_of_counts past hx, ← h.restarts]
  · rw [triesBegun_of_counts past hx, countedSince_of_counts past hx, ← Nat.sub_sub, ← h.remaining]
  · rintro y - rfl
    cases hx

/-- Every try has a flip, so none is used up when it begins. -/
theorem counts_of_none_left (h : Tallies t past r) (h0 : r.remaining = 0) {y : Entry}
    (hy : y ∈ past.head?) : y.begins = false := by
  obtain ⟨earlier, rfl⟩ := List.head?_eq_some_iff.mp hy
  by_contra hbegins
  rw [Bool.not_eq_false] at hbegins
  have hpos := t.tryLength_pos (Nat.le_add_left 1 (triesBegun (y :: earlier)))
  have hleft := h.remaining
  rw [countedSince_of_begins earlier hbegins] at hleft
  omega

theorem begun (h : Tallies t past r) (ht : t.ends = true) (hx : x.begins = true)
    (h0 : x = .asked true → r.remaining = 0) : Tallies t (x :: past) r.restart := by
  rw [restart_of_ends (h.schedule ▸ ht)]
  refine ⟨h.schedule, ?_, ?_, h.apart.cons fun y hy hdue => h.counts_of_none_left (h0 hdue) hy⟩
  · rw [triesBegun_of_begins past hx, ← h.restarts]
  · rw [triesBegun_of_begins past hx, countedSince_of_begins past hx, ← h.restarts, h.schedule]
    rfl

/-- **Every call keeps the account.** -/
theorem call (h : Tallies t past r) (ht : t.ends = true) (c : Call) :
    Tallies t ((r.call c).1 :: past) (r.call c).2 := by
  rcases r.call_cases c with ⟨hx, hr, h0⟩ | ⟨hx, hr⟩
  · rw [hr]
    exact h.begun ht hx h0
  · rw [hr]
    exact h.counted ht hx

theorem foldl_callOn (ht : t.ends = true) :
    ∀ (calls : List Call) {past : List Entry} {r : Restarter}, Tallies t past r →
      Tallies t (calls.foldl callOn (past, r)).1 (calls.foldl callOn (past, r)).2
  | [], _, _, h => h
  | c :: calls, _, _, h => foldl_callOn ht calls (h.call ht c)

/-- **What a row of calls keeps.** -/
theorem callAll (ht : t.ends = true) (calls : List Call) :
    Tallies t ((Restarter.start t).callAll calls).1 ((Restarter.start t).callAll calls).2 :=
  foldl_callOn ht calls (.start t)

end Tallies

theorem map_call_foldl_callOn : ∀ (calls : List Call) (done : List Entry × Restarter),
    (calls.foldl callOn done).1.map Entry.call = calls.reverse ++ done.1.map Entry.call
  | [], _ => rfl
  | c :: calls, done => by
    rw [List.foldl_cons, map_call_foldl_callOn, callOn, List.map_cons, call_call,
      List.reverse_cons, List.append_assoc, List.singleton_append]

theorem map_call_callAll (r : Restarter) (calls : List Call) :
    (r.callAll calls).1.map Entry.call = calls.reverse :=
  (map_call_foldl_callOn calls ([], r)).trans (List.append_nil _)

end Restarter

end StochasticSat
