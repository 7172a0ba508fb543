import Mathlib.Algebra.BigOperators.Group.List.Basic
import Mathlib.Algebra.Ring.Nat
import StochasticSat.Search.Restart

/-!
# The blocks of the Luby sequence

The Luby sequence grows in blocks: block 1 is `[1]`, and block `k + 1` is block `k` twice, followed
by `2 ^ k` (`lubyBlock`).  `getElem?_lubyBlock` reads `luby` off the blocks, so what is true of
every block by its construction is true of the sequence: how often a power of two occurs among its
first `2 ^ k - 1` terms, and what these terms add up to.

`wordLuby?` computes a term by two loops over words of 64 bits.  It has no result if a loop goes on
forever, if a shift amount reaches 64, or if a difference is negative.  None of this happens for the
terms up to `2 ^ 63 - 1`, and the result is the term (`luby_terms_fill_blocks`).
-/

namespace StochasticSat

/-! ### Blocks -/

/-- **A block of the Luby sequence.**  Block 1 is `[1]`. -/
def lubyBlock : Nat → List Nat
  | 0 => []
  | k + 1 => lubyBlock k ++ lubyBlock k ++ [2 ^ k]

@[simp] theorem length_lubyBlock (k : Nat) : (lubyBlock k).length = 2 ^ k - 1 := by
  induction k with
  | zero => rfl
  | succ k ih =>
    have hpos : 0 < 2 ^ k := Nat.two_pow_pos k
    simp only [lubyBlock, List.length_append, List.length_singleton, ih, Nat.pow_succ]
    omega

/-- A block begins with every block before it. -/
theorem getElem?_lubyBlock_of_le {n k p : Nat} (h : n ≤ k) (hp : p < 2 ^ n - 1) :
    (lubyBlock k)[p]? = (lubyBlock n)[p]? := by
  induction k, h using Nat.le_induction with
  | base => rfl
  | succ k hk ih =>
    have hnk : 2 ^ n ≤ 2 ^ k := Nat.pow_le_pow_right (by omega) hk
    have hlt : p < (lubyBlock k).length := by
      rw [length_lubyBlock]
      omega
    rw [lubyBlock, List.append_assoc, List.getElem?_append_left hlt, ih]

/-- The second copy of the block before. -/
theorem getElem?_lubyBlock_add {k p : Nat} (hp : p < 2 ^ k - 1) :
    (lubyBlock (k + 1))[2 ^ k - 1 + p]? = (lubyBlock k)[p]? := by
  have hlt : p < (lubyBlock k).length := by rwa [length_lubyBlock]
  rw [lubyBlock, List.append_assoc, ← length_lubyBlock, List.getElem?_append_right (by omega),
    Nat.add_sub_cancel_left, List.getElem?_append_left hlt]

theorem getElem?_lubyBlock_last (k : Nat) :
    (lubyBlock (k + 1))[2 ^ (k + 1) - 1 - 1]? = some (2 ^ k) := by
  have hpos : 0 < 2 ^ k := Nat.two_pow_pos k
  have hlen : (lubyBlock k ++ lubyBlock k).length = 2 ^ (k + 1) - 1 - 1 := by
    rw [List.length_append, length_lubyBlock, Nat.pow_succ]
    omega
  rw [lubyBlock, ← hlen, List.getElem?_concat_length]

theorem count_lubyBlock_succ (j k : Nat) :
    (lubyBlock (k + 1)).count (2 ^ j) =
      2 * (lubyBlock k).count (2 ^ j) + if k = j then 1 else 0 := by
  have hinj : 2 ^ k = 2 ^ j ↔ k = j := Nat.pow_right_inj (by omega)
  simp only [lubyBlock, List.count_append, List.count_singleton, beq_iff_eq, hinj]
  omega

theorem count_lubyBlock_of_le {j k : Nat} (h : k ≤ j) : (lubyBlock k).count (2 ^ j) = 0 := by
  induction k with
  | zero => rfl
  | succ k ih =>
    have hne : k ≠ j := by omega
    rw [count_lubyBlock_succ, ih (by omega), if_neg hne]

theorem count_lubyBlock {j k : Nat} (h : j < k) :
    (lubyBlock k).count (2 ^ j) = 2 ^ (k - 1 - j) := by
  induction k, h using Nat.le_induction with
  | base => simp [count_lubyBlock_succ, count_lubyBlock_of_le (Nat.le_refl j)]
  | succ k hk ih =>
    have hne : k ≠ j := by omega
    have hexp : k + 1 - 1 - j = k - 1 - j + 1 := by omega
    rw [count_lubyBlock_succ, ih, if_neg hne, hexp, Nat.pow_succ]
    omega

theorem sum_lubyBlock (k : Nat) : (lubyBlock k).sum = k * 2 ^ (k - 1) := by
  induction k with
  | zero => rfl
  | succ k ih =>
    have htwice : 2 * (k * 2 ^ (k - 1)) = k * 2 ^ k := by
      cases k with
      | zero => rfl
      | succ m =>
        rw [Nat.add_sub_cancel, Nat.pow_succ, Nat.mul_left_comm, Nat.mul_comm 2]
    calc (lubyBlock (k + 1)).sum
      _ = 2 * (k * 2 ^ (k - 1)) + 2 ^ k := by simp [lubyBlock, ih]; omega
      _ = (k + 1) * 2 ^ (k + 1 - 1) := by rw [htwice, Nat.add_sub_cancel, Nat.succ_mul]

/-! ### The terms of the sequence -/

theorem blockOrder_eq (i k : Nat) :
    blockOrder i k = if 2 ^ k - 1 < i then blockOrder i (k + 1) else k := blockOrder.eq_def i k

theorem le_blockOrder (i k : Nat) : k ≤ blockOrder i k := by
  fun_induction blockOrder i k with
  | case1 k _ ih => omega
  | case2 k _ => exact Nat.le_refl k

theorem one_lt_blockOrder {i : Nat} (h : 1 ≤ i) (hne : 2 ^ blockOrder i 1 - 1 ≠ i) :
    1 < blockOrder i 1 := by
  have hle : i ≤ 2 ^ blockOrder i 1 - 1 := le_two_pow_blockOrder i 1
  have hpos : 1 ≤ blockOrder i 1 := le_blockOrder i 1
  by_contra h1
  have heq : blockOrder i 1 = 1 := by omega
  rw [heq] at hle hne
  omega

/-- A term that does not end its block lies beyond the block before, and that one is not empty. -/
theorem beyond_of_not_last {i : Nat} (h : 1 ≤ i) (hne : 2 ^ blockOrder i 1 - 1 ≠ i) :
    2 ≤ 2 ^ (blockOrder i 1 - 1) ∧ 2 ^ (blockOrder i 1 - 1) - 1 < i := by
  have hn := one_lt_blockOrder h hne
  refine ⟨Nat.le_self_pow (by omega) 2, ?_⟩
  by_contra hle
  have hmin : blockOrder i 1 ≤ blockOrder i 1 - 1 :=
    blockOrder_minimal (by omega) (Nat.le_of_not_lt hle)
  omega

theorem luby_of_last {i : Nat} (h : 2 ^ blockOrder i 1 - 1 = i) :
    luby i = 2 ^ (blockOrder i 1 - 1) := by
  rw [luby]
  exact if_pos h

theorem luby_of_not_last {i : Nat} (h : 1 ≤ i) (hne : 2 ^ blockOrder i 1 - 1 ≠ i) :
    luby i = luby (i - (2 ^ (blockOrder i 1 - 1) - 1)) := by
  rw [luby]
  exact (if_neg hne).trans (dif_pos ⟨h, one_lt_blockOrder h hne⟩)

theorem luby_pos {i : Nat} (h : 1 ≤ i) : 1 ≤ luby i := by
  by_cases hlast : 2 ^ blockOrder i 1 - 1 = i
  · rw [luby_of_last hlast]
    exact Nat.two_pow_pos _
  · have hbeyond := beyond_of_not_last h hlast
    rw [luby_of_not_last h hlast]
    exact luby_pos (by omega)
termination_by i
decreasing_by omega

/-- **The sequence read off its blocks.** -/
theorem getElem?_lubyBlock {i k : Nat} (h : 1 ≤ i) (hk : i ≤ 2 ^ k - 1) :
    (lubyBlock k)[i - 1]? = some (luby i) := by
  have hk1 : 1 ≤ k := by
    by_contra h0
    obtain rfl : k = 0 := by omega
    omega
  have hnk : blockOrder i 1 ≤ k := blockOrder_minimal hk1 hk
  have hin : i ≤ 2 ^ blockOrder i 1 - 1 := le_two_pow_blockOrder i 1
  obtain ⟨m, hm⟩ : ∃ m, blockOrder i 1 = m + 1 := Nat.exists_eq_add_of_le' (le_blockOrder i 1)
  rw [getElem?_lubyBlock_of_le hnk (by omega)]
  by_cases hlast : 2 ^ blockOrder i 1 - 1 = i
  · rw [luby_of_last hlast, hm, Nat.add_sub_cancel, ← hlast, hm]
    exact getElem?_lubyBlock_last m
  · -- Term `i` is in the second copy of the block before.
    have hbeyond : 2 ≤ 2 ^ m ∧ 2 ^ m - 1 < i := by
      have h' := beyond_of_not_last h hlast
      rwa [hm, Nat.add_sub_cancel] at h'
    rw [luby_of_not_last h hlast, hm, Nat.add_sub_cancel]
    rw [hm, Nat.pow_succ] at hin hlast
    have hplace : i - 1 = 2 ^ m - 1 + (i - (2 ^ m - 1) - 1) := by omega
    rw [hplace, getElem?_lubyBlock_add (by omega)]
    exact getElem?_lubyBlock (by omega) (by omega)
termination_by i
decreasing_by omega

theorem luby_eq_of_getElem? {i k n : Nat} (h : 1 ≤ i) (hk : i ≤ 2 ^ k - 1)
    (hn : (lubyBlock k)[i - 1]? = some n) : luby i = n :=
  Option.some_inj.mp ((getElem?_lubyBlock h hk).symm.trans hn)

theorem luby_one : luby 1 = 1 := luby_eq_of_getElem? (k := 1) (by decide) (by decide) rfl

/-! ### The terms in words -/

/-- `2 ^ k`, by a shift that has to be less than 64. -/
def shiftedOne? (k : UInt64) : Option UInt64 := if k < 64 then some (1 <<< k) else none

/-- The difference of two words, if it is one. -/
def difference? (x y : UInt64) : Option UInt64 := if y ≤ x then some (x - y) else none

/-- The length of block `k`. -/
def wordLength? (k : UInt64) : Option UInt64 := do difference? (← shiftedOne? k) 1

theorem toNat_lt_of_wordLength? {k w : UInt64} (h : wordLength? k = some w) : k.toNat < 64 := by
  by_contra hge
  have hnone : shiftedOne? k = none := if_neg (mt UInt64.lt_iff_toNat_lt.mp hge)
  simp [wordLength?, hnone] at h

theorem toNat_add_one {k : UInt64} (h : k.toNat < 64) : (k + 1).toNat = k.toNat + 1 := by
  rw [UInt64.toNat_add, UInt64.toNat_one]
  omega

/-- The first block from `k` on that reaches term `i`. -/
def wordOrder? (i k : UInt64) : Option UInt64 :=
  match _h : wordLength? k with
  | none => none
  | some w => if w < i then wordOrder? i (k + 1) else some k
termination_by 64 - k.toNat
decreasing_by
  have hlt := toNat_lt_of_wordLength? _h
  rw [toNat_add_one hlt]
  omega

theorem wordOrder?_of_length {i k w : UInt64} (h : wordLength? k = some w) :
    wordOrder? i k = if w < i then wordOrder? i (k + 1) else some k := by
  rw [wordOrder?]
  split
  case h_1 hnone =>
    rw [h] at hnone
    cases hnone
  case h_2 w' hw =>
    obtain rfl : w = w' := Option.some_inj.mp (h.symm.trans hw)
    rfl

/-- **Term `i` of the Luby sequence** in words: while `i` is not the last term of its block, it is
counted from the end of the first copy of the block before.  A count that does not get smaller would
stay the same forever. -/
def wordLuby? (i : UInt64) : Option UInt64 := do
  let k ← wordOrder? i 1
  if (← wordLength? k) = i then shiftedOne? (← difference? k 1)
  else
    let j ← difference? i (← wordLength? (← difference? k 1))
    if j < i then wordLuby? j else none
termination_by i.toNat
decreasing_by exact UInt64.lt_iff_toNat_lt.mp ‹_›

theorem shiftedOne?_eq {k : UInt64} (h : k.toNat < 64) :
    ∃ w, shiftedOne? k = some w ∧ w.toNat = 2 ^ k.toNat := by
  have hlt : k < 64 := UInt64.lt_iff_toNat_lt.mpr h
  refine ⟨1 <<< k, if_pos hlt, ?_⟩
  have hpow : 2 ^ k.toNat < 2 ^ 64 := Nat.pow_lt_pow_right (by omega) h
  rw [UInt64.toNat_shiftLeft, Nat.mod_eq_of_lt h, Nat.shiftLeft_eq, UInt64.toNat_one, Nat.one_mul,
    Nat.mod_eq_of_lt hpow]

theorem difference?_eq {x y : UInt64} (h : y.toNat ≤ x.toNat) :
    ∃ w, difference? x y = some w ∧ w.toNat = x.toNat - y.toNat :=
  ⟨x - y, if_pos h, UInt64.toNat_sub_of_le x y h⟩

theorem wordLength?_eq {k : UInt64} (h : k.toNat < 64) :
    ∃ w, wordLength? k = some w ∧ w.toNat = 2 ^ k.toNat - 1 := by
  obtain ⟨p, hp, hpn⟩ := shiftedOne?_eq h
  have hpos : (1 : UInt64).toNat ≤ p.toNat := by
    rw [hpn]
    exact Nat.two_pow_pos _
  obtain ⟨w, hw, hwn⟩ := difference?_eq hpos
  refine ⟨w, by simp [wordLength?, hp, hw], ?_⟩
  rw [hwn, hpn]
  rfl

/-- The search for a block ends, since block 63 reaches every term up to `2 ^ 63 - 1`. -/
theorem wordOrder?_eq {i k : UInt64} (hi : i.toNat ≤ 2 ^ 63 - 1) (hk : k.toNat ≤ 63) :
    ∃ n, wordOrder? i k = some n ∧ n.toNat = blockOrder i.toNat k.toNat ∧ n.toNat ≤ 63 := by
  obtain ⟨w, hw, hwn⟩ := wordLength?_eq (k := k) (by omega)
  rw [wordOrder?_of_length hw, blockOrder_eq]
  by_cases hlt : w < i
  · have hlt' : 2 ^ k.toNat - 1 < i.toNat := hwn ▸ UInt64.lt_iff_toNat_lt.mp hlt
    have hne : k.toNat ≠ 63 := fun h => by
      rw [h] at hlt'
      omega
    have hsucc : (k + 1).toNat = k.toNat + 1 := toNat_add_one (by omega)
    rw [if_pos hlt, if_pos hlt', ← hsucc]
    exact wordOrder?_eq hi (by omega)
  · have hlt' : ¬ 2 ^ k.toNat - 1 < i.toNat := hwn ▸ fun h => hlt (UInt64.lt_iff_toNat_lt.mpr h)
    rw [if_neg hlt, if_neg hlt']
    exact ⟨k, rfl, rfl, hk⟩
termination_by 63 - k.toNat
decreasing_by omega

theorem wordLuby?_eq {i : UInt64} (h : 1 ≤ i.toNat) (hi : i.toNat ≤ 2 ^ 63 - 1) :
    ∃ r, wordLuby? i = some r ∧ r.toNat = luby i.toNat := by
  obtain ⟨n, hn, hni, hn63⟩ :
      ∃ n, wordOrder? i 1 = some n ∧ n.toNat = blockOrder i.toNat 1 ∧ n.toNat ≤ 63 :=
    wordOrder?_eq hi (by decide)
  have hn1 : (1 : UInt64).toNat ≤ n.toNat := hni ▸ le_blockOrder i.toNat 1
  obtain ⟨w, hw, hwn⟩ := wordLength?_eq (k := n) (by omega)
  obtain ⟨m, hm, hmn⟩ : ∃ m, difference? n 1 = some m ∧ m.toNat = n.toNat - 1 :=
    difference?_eq hn1
  rw [wordLuby?, hn]
  simp only [Option.bind_eq_bind, Option.bind_some, hw, hm]
  by_cases hlast : w = i
  · obtain ⟨r, hr, hrn⟩ := shiftedOne?_eq (k := m) (by omega)
    have hlast' : 2 ^ blockOrder i.toNat 1 - 1 = i.toNat := by rw [← hni, ← hwn, hlast]
    rw [if_pos hlast]
    exact ⟨r, hr, by rw [hrn, hmn, hni, luby_of_last hlast']⟩
  · have hlast' : 2 ^ blockOrder i.toNat 1 - 1 ≠ i.toNat := by
      rw [← hni, ← hwn]
      exact fun heq => hlast (UInt64.toNat_inj.mp heq)
    have hbeyond := beyond_of_not_last h hlast'
    obtain ⟨d, hd, hdn⟩ := wordLength?_eq (k := m) (by omega)
    have hdn' : d.toNat = 2 ^ (blockOrder i.toNat 1 - 1) - 1 := by rw [hdn, hmn, hni]
    obtain ⟨j, hj, hji⟩ := difference?_eq (x := i) (y := d) (by omega)
    have hdec : j.toNat < i.toNat := by omega
    rw [if_neg hlast, hd, Option.bind_some, hj, Option.bind_some,
      if_pos (UInt64.lt_iff_toNat_lt.mpr hdec), luby_of_not_last h hlast', ← hdn', ← hji]
    exact wordLuby?_eq (by omega) (by omega)
termination_by i.toNat
decreasing_by omega

/-- What the loops compute on the first `2 ^ k - 1` words is block `k`. -/
theorem map_wordLuby?_range' {k : Nat} (hk : k ≤ 63) :
    (List.range' 1 (2 ^ k - 1)).map (fun i => (wordLuby? (UInt64.ofNat i)).map UInt64.toNat) =
      (lubyBlock k).map some := by
  have hpow : 2 ^ k ≤ 2 ^ 63 := Nat.pow_le_pow_right (by omega) hk
  refine List.ext_getElem? fun p => ?_
  by_cases hp : p < 2 ^ k - 1
  · have hword : (UInt64.ofNat (1 + p)).toNat = 1 + p :=
      UInt64.toNat_ofNat_of_lt' (by simp only [UInt64.size]; omega)
    obtain ⟨r, hr, hrn⟩ := wordLuby?_eq (i := UInt64.ofNat (1 + p)) (by omega) (by omega)
    have hterm : (lubyBlock k)[p]? = some (luby (1 + p)) := by
      have h := getElem?_lubyBlock (i := 1 + p) (by omega) (by omega : 1 + p ≤ 2 ^ k - 1)
      rwa [Nat.add_sub_cancel_left] at h
    rw [hword] at hrn
    rw [List.getElem?_map, List.getElem?_map, List.getElem?_range' hp, Nat.one_mul, hterm,
      Option.map_some, Option.map_some, hr, Option.map_some, hrn]
  · simp [hp]

/-- **The loops compute the Luby sequence.**  Their result on every word from 1 to `2 ^ 63 - 1` is
that term of every block that has it; and each power of two below `2 ^ k` occurs half as often among
the first `2 ^ k - 1` terms as the one before it, so that each of them contributes the same to their
sum. -/
theorem luby_terms_fill_blocks :
    (∀ i : UInt64, 1 ≤ i.toNat → i.toNat ≤ 2 ^ 63 - 1 →
      ∃ r, wordLuby? i = some r ∧ r.toNat = luby i.toNat ∧
        ∀ k, i.toNat ≤ 2 ^ k - 1 → (lubyBlock k)[i.toNat - 1]? = some r.toNat) ∧
    ∀ k ≤ 63,
      (List.range' 1 (2 ^ k - 1)).map (fun i => (wordLuby? (UInt64.ofNat i)).map UInt64.toNat) =
        (lubyBlock k).map some ∧
      (∀ j < k, (lubyBlock k).count (2 ^ j) = 2 ^ (k - 1 - j)) ∧
      (lubyBlock k).sum = k * 2 ^ (k - 1) := by
  constructor
  · intro i h hi
    obtain ⟨r, hr, hrn⟩ := wordLuby?_eq h hi
    refine ⟨r, hr, hrn, fun k hik => ?_⟩
    rw [hrn]
    exact getElem?_lubyBlock h hik
  · intro k hk
    exact ⟨map_wordLuby?_range' hk, fun j hj => count_lubyBlock hj, sum_lubyBlock k⟩

/-- The sixth term ends the second copy of block 2, and the last term within reach ends block 63;
the first 15 terms add up to 32. -/
theorem luby_terms_at_both_ends :
    (∃ r, wordLuby? 6 = some r ∧ r.toNat = 2) ∧
    (∃ r, wordLuby? (UInt64.ofNat (2 ^ 63 - 1)) = some r ∧
      (lubyBlock 63)[2 ^ 63 - 2]? = some r.toNat) ∧
    (lubyBlock 4).count 2 = 4 ∧ (lubyBlock 4).sum = 32 := by
  obtain ⟨r, hr, -, hsix⟩ := luby_terms_fill_blocks.1 6 (by decide) (by decide)
  have htwo : (2 : Nat) = r.toNat := Option.some_inj.mp (hsix 3 (by decide))
  obtain ⟨w, hw, -, hlast⟩ :=
    luby_terms_fill_blocks.1 (UInt64.ofNat (2 ^ 63 - 1)) (by decide) (by decide)
  obtain ⟨-, hcount, hsum⟩ := luby_terms_fill_blocks.2 4 (by decide)
  exact ⟨⟨r, hr, htwo.symm⟩, ⟨w, hw, hlast 63 (by decide)⟩, hcount 1 (by decide), hsum⟩

end StochasticSat
