import Mathlib.Data.List.Forall2
import Mathlib.Tactic.Common

/-!
# Rows of computations

A row of computations that may fail succeeds if each of them does, with the row of their results
(`mapM_eq_ok_iff`), and otherwise fails as the first one that fails (`mapM_eq_error_iff`).  A fold
over such results may wait until all of them are there (`foldlM_eq_map_mapM`).
-/

namespace StochasticSat

/-! ### Rows that succeed -/

theorem anyM_eq_some_any {α : Type} {p : α → Option Bool} {q : α → Bool} :
    ∀ {xs : List α}, (∀ x ∈ xs, p x = some (q x)) → xs.anyM p = some (xs.any q)
  | [], _ => rfl
  | x :: xs, h => by
    have ih := anyM_eq_some_any fun y hy => h y (List.mem_cons_of_mem x hy)
    rw [List.anyM_cons, h x (by simp), ih]
    cases hx : q x <;> simp [hx]

theorem anyM_eq_some_false_iff {α : Type} {p : α → Option Bool} {xs : List α} :
    xs.anyM p = some false ↔ ∀ x ∈ xs, p x = some false := by
  induction xs with
  | nil => simp
  | cons x xs ih =>
    rw [List.anyM_cons, List.forall_mem_cons, ← ih]
    rcases p x with _ | _ | _ <;> simp

theorem allM_eq_some_all {α : Type} {p : α → Option Bool} {q : α → Bool} :
    ∀ {xs : List α}, (∀ x ∈ xs, p x = some (q x)) → xs.allM p = some (xs.all q)
  | [], _ => rfl
  | x :: xs, h => by
    have ih := allM_eq_some_all fun y hy => h y (List.mem_cons_of_mem x hy)
    rw [List.allM_cons, h x (by simp), ih]
    cases hx : q x <;> simp [hx]

theorem mapM_eq_pure_map {m : Type → Type} [Monad m] [LawfulMonad m] {α β : Type} {f : α → m β}
    {g : α → β} : ∀ {xs : List α}, (∀ x ∈ xs, f x = pure (g x)) → xs.mapM f = pure (xs.map g)
  | [], _ => by simp
  | x :: xs, h => by
    have ih := mapM_eq_pure_map fun y hy => h y (List.mem_cons_of_mem x hy)
    rw [List.mapM_cons, h x (by simp), ih]
    simp

theorem exists_mapM_eq_some {α β : Type} {f : α → Option β} :
    ∀ {xs : List α}, (∀ x ∈ xs, ∃ y, f x = some y) →
      ∃ ys, xs.mapM f = some ys ∧ ys.length = xs.length ∧ ∀ k : Nat, ys[k]? = xs[k]?.bind f
  | [], _ => ⟨[], rfl, rfl, fun k => by simp⟩
  | x :: xs, h => by
    obtain ⟨y, hy⟩ := h x List.mem_cons_self
    obtain ⟨ys, hys, hlen, hk⟩ := exists_mapM_eq_some fun z hz => h z (List.mem_cons_of_mem x hz)
    refine ⟨y :: ys, by simp [List.mapM_cons, hy, hys], congrArg (· + 1) hlen, fun k => ?_⟩
    cases k with
    | zero => simp [hy]
    | succ k => simpa using hk k

theorem getElem?_of_mapM_eq_some {α β : Type} {f : α → Option β} :
    ∀ {xs : List α} {ys : List β}, xs.mapM f = some ys → ∀ k : Nat, ys[k]? = xs[k]?.bind f
  | [], ys, h, k => by
    cases h
    simp
  | x :: xs, ys, h, k => by
    rw [List.mapM_cons] at h
    obtain ⟨z, hz, h⟩ := Option.bind_eq_some_iff.mp h
    obtain ⟨zs, hzs, h⟩ := Option.bind_eq_some_iff.mp h
    cases h
    cases k with
    | zero => simp [hz]
    | succ k => simpa using getElem?_of_mapM_eq_some hzs k

theorem mem_of_mapM_eq_some {α β : Type} {f : α → Option β} :
    ∀ {xs : List α} {ys : List β}, xs.mapM f = some ys → ∀ y ∈ ys, ∃ x ∈ xs, f x = some y
  | [], ys, h, y, hy => by
    cases h
    simp at hy
  | x :: xs, ys, h, y, hy => by
    rw [List.mapM_cons] at h
    obtain ⟨z, hz, h⟩ := Option.bind_eq_some_iff.mp h
    obtain ⟨zs, hzs, h⟩ := Option.bind_eq_some_iff.mp h
    cases h
    rcases List.mem_cons.mp hy with rfl | hy
    · exact ⟨x, List.mem_cons_self, hz⟩
    · obtain ⟨x', hx', hf⟩ := mem_of_mapM_eq_some hzs y hy
      exact ⟨x', List.mem_cons_of_mem x hx', hf⟩

/-- A row of computations has the row of their results. -/
theorem mapM_eq_ok_iff {α β ε : Type} {f : α → Except ε β} {xs : List α} {ys : List β} :
    xs.mapM f = .ok ys ↔ List.Forall₂ (fun x y => f x = .ok y) xs ys := by
  induction xs generalizing ys with
  | nil => simp [List.forall₂_nil_left_iff, pure, Except.pure, eq_comm]
  | cons x xs ih =>
    rw [List.mapM_cons, List.forall₂_cons_left_iff]
    simp only [← ih]
    cases f x with
    | error e => simp [bind, Except.bind]
    | ok y => cases xs.mapM f <;> simp [bind, Except.bind, pure, Except.pure, eq_comm]

/-! ### Rows that fail -/

/-- A row of computations fails as the first one that fails. -/
theorem mapM_eq_error_iff {α β ε : Type} {f : α → Except ε β} {xs : List α} {err : ε} :
    xs.mapM f = .error err ↔ ∃ before x after, xs = before ++ x :: after ∧
      (∀ u ∈ before, ∃ y, f u = .ok y) ∧ f x = .error err := by
  induction xs with
  | nil => simp [pure, Except.pure]
  | cons x xs ih =>
    rw [List.mapM_cons]
    cases hx : f x with
    | error e =>
      simp only [bind, Except.bind, Except.error.injEq]
      constructor
      · rintro rfl
        exact ⟨[], x, xs, rfl, by simp, hx⟩
      · rintro ⟨_ | ⟨u, before⟩, y, after, hsplit, hbefore, hy⟩
        · obtain ⟨rfl, -⟩ := List.cons.inj hsplit
          exact Except.error.inj (hx.symm.trans hy)
        · obtain ⟨rfl, -⟩ := List.cons.inj hsplit
          obtain ⟨v, hv⟩ := hbefore x List.mem_cons_self
          rw [hx] at hv
          cases hv
    | ok v =>
      have hrest : (Except.ok v >>= fun v => xs.mapM f >>= fun vs => pure (v :: vs)) = .error err ↔
          xs.mapM f = .error err := by
        cases xs.mapM f <;> simp [bind, Except.bind, pure, Except.pure]
      rw [hrest, ih]
      constructor
      · rintro ⟨before, y, after, rfl, hbefore, hy⟩
        exact ⟨x :: before, y, after, rfl, List.forall_mem_cons.mpr ⟨⟨v, hx⟩, hbefore⟩, hy⟩
      · rintro ⟨_ | ⟨u, before⟩, y, after, hsplit, hbefore, hy⟩
        · obtain ⟨rfl, -⟩ := List.cons.inj hsplit
          rw [hx] at hy
          cases hy
        · exact ⟨before, y, after, (List.cons.inj hsplit).2,
            (List.forall_mem_cons.mp hbefore).2, hy⟩

/-- If each computation is another one with its errors renamed, so is the row of them. -/
theorem mapM_eq_mapError {α β ε : Type} {f g : α → Except ε β} {rename : ε → ε} :
    ∀ {xs : List α}, (∀ x ∈ xs, f x = (g x).mapError rename) →
      xs.mapM f = (xs.mapM g).mapError rename
  | [], _ => rfl
  | x :: xs, h => by
    have ih := mapM_eq_mapError fun y hy => h y (List.mem_cons_of_mem x hy)
    rw [List.mapM_cons, List.mapM_cons, h x List.mem_cons_self, ih]
    cases g x with
    | error e => rfl
    | ok y => cases xs.mapM g <;> rfl

/-! ### Folds over rows -/

theorem foldlM_eq_error {α β ε : Type} {f : α → β → Except ε α} {before after : List β} {x : β}
    {start last : α} {err : ε} (hbefore : before.foldlM f start = .ok last)
    (hx : f last x = .error err) : (before ++ x :: after).foldlM f start = .error err := by
  rw [List.foldlM_append, hbefore]
  simp only [bind, Except.bind, List.foldlM_cons, hx]

/-- A fold over results is a fold over the row of them. -/
theorem foldlM_eq_map_mapM {m : Type → Type} [Monad m] [LawfulMonad m] {α β γ : Type}
    (g : γ → β → γ) (f : α → m β) (xs : List α) (start : γ) :
    xs.foldlM (fun y x => return g y (← f x)) start = (·.foldl g start) <$> xs.mapM f := by
  induction xs generalizing start with
  | nil => simp
  | cons x xs ih =>
    rw [List.foldlM_cons, List.mapM_cons, bind_assoc, map_bind]
    refine congrArg _ (funext fun v => ?_)
    rw [pure_bind, ih, map_bind]
    simp

end StochasticSat
