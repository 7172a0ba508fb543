import Mathlib.Algebra.Ring.Int.Defs
import Mathlib.Algebra.Ring.Nat
import StochasticSat.Proofs.Text.Lines
import StochasticSat.Text.Dialect

/-!
# Numerals

Integers are written in decimal digits, most significant digit first, after a minus sign if they are
negative.  Reading the digits of a number gives the number (`ofDigits_digits`), so reading what was
written of an integer gives the integer (`readInt?_intDigits`), and every signed literal, `0` and
the least one included, is read back from its token (`ofToken?_token`).

More is read than is written: a plus sign and zeros in front are let through.  `Numeral` says which
rows of characters write which integer, and that is what is read (`readInt?_eq_some_iff`).
-/

namespace StochasticSat

open Decimal Text

namespace Decimal

/-! ### Digits -/

theorem toNat_digitChar {d : Nat} (h : d < 10) : (digitChar d).toNat = '0'.toNat + d := by
  have hvalid : ('0'.toNat + d).isValidChar := Or.inl (by simp; omega)
  rw [digitChar, Char.ofNat, dif_pos hvalid]
  rfl

theorem isDigit_iff {c : Char} : isDigit c = true ↔ 48 ≤ c.toNat ∧ c.toNat ≤ 57 := by
  simp [isDigit]

theorem isDigit_digitChar {d : Nat} (h : d < 10) : isDigit (digitChar d) = true := by
  have hzero : '0'.toNat = 48 := rfl
  rw [isDigit_iff, toNat_digitChar h]
  omega

theorem digitValue_digitChar {d : Nat} (h : d < 10) : digitValue (digitChar d) = d := by
  rw [digitValue, toNat_digitChar h, Nat.add_sub_cancel_left]

theorem digitsOnto_eq_append (tail : List Char) (n : Nat) :
    digitsOnto tail n = digits n ++ tail := by
  unfold digits
  induction n using Nat.strong_induction_on generalizing tail with
  | _ n ih =>
    by_cases h : n < 10
    · rw [digitsOnto, digitsOnto.eq_def [], if_pos h, if_pos h, List.singleton_append]
    · rw [digitsOnto, digitsOnto.eq_def [], if_neg h, if_neg h, ih (n / 10) (by omega),
        ih (n / 10) (by omega) [digitChar (n % 10)], List.append_assoc, List.singleton_append]

theorem digits_of_lt {n : Nat} (h : n < 10) : digits n = [digitChar n] := by
  rw [digits, digitsOnto, if_pos h]

/-- The last digit stands behind the digits of a tenth. -/
theorem digits_of_le {n : Nat} (h : 10 ≤ n) :
    digits n = digits (n / 10) ++ [digitChar (n % 10)] := by
  rw [digits, digitsOnto, if_neg (by omega), digitsOnto_eq_append]

theorem digits_ne_nil (n : Nat) : digits n ≠ [] := by
  by_cases h : n < 10
  · simp [digits_of_lt h]
  · simp [digits_of_le (Nat.le_of_not_lt h)]

theorem isDigit_of_mem_digits {n : Nat} {c : Char} (hc : c ∈ digits n) : isDigit c = true := by
  induction n using Nat.strong_induction_on with
  | _ n ih =>
    by_cases h : n < 10
    · rw [digits_of_lt h, List.mem_singleton] at hc
      exact hc ▸ isDigit_digitChar h
    · rw [digits_of_le (Nat.le_of_not_lt h), List.mem_append, List.mem_singleton] at hc
      rcases hc with hc | rfl
      · exact ih (n / 10) (by omega) hc
      · exact isDigit_digitChar (Nat.mod_lt n (by decide))

theorem ofDigits_concat (cs : List Char) (c : Char) :
    ofDigits (cs ++ [c]) = 10 * ofDigits cs + digitValue c := by simp [ofDigits]

/-- **The digits of a number write that number.** -/
theorem ofDigits_digits (n : Nat) : ofDigits (digits n) = n := by
  induction n using Nat.strong_induction_on with
  | _ n ih =>
    by_cases h : n < 10
    · rw [digits_of_lt h, ← List.nil_append [digitChar n], ofDigits_concat,
        digitValue_digitChar h]
      exact Nat.zero_add n
    · rw [digits_of_le (Nat.le_of_not_lt h), ofDigits_concat, ih (n / 10) (by omega),
        digitValue_digitChar (Nat.mod_lt n (by decide)), Nat.div_add_mod]

end Decimal

/-! ### Integers -/

/-- Digits are taken as they are: none of them is a sign. -/
theorem splitSign_of_isDigit {ds : List Char} (h : ∀ c ∈ ds, isDigit c = true) :
    splitSign ds = (false, ds) := by
  unfold splitSign
  split
  · exact absurd (h '-' (by simp)) (by decide)
  · exact absurd (h '+' (by simp)) (by decide)
  · rfl

/-- **What is written of an integer is read as that integer.** -/
theorem readInt?_intDigits (z : Int) : readInt? (intDigits z) = some z := by
  have hds : ∀ c ∈ digits z.natAbs, isDigit c = true := fun c hc => isDigit_of_mem_digits hc
  have hok : ((digits z.natAbs).isEmpty || !(digits z.natAbs).all isDigit) = false := by
    simpa [digits_ne_nil] using hds
  unfold readInt? intDigits
  by_cases hz : z < 0
  · simp only [if_pos hz, splitSign, hok, ofDigits_digits, Bool.false_eq_true, if_false, if_true,
      Option.some.injEq]
    omega
  · simp only [if_neg hz, splitSign_of_isDigit hds, hok, ofDigits_digits, Bool.false_eq_true,
      if_false, Option.some.injEq]
    omega

/-! ### What numerals are -/

/-- A row of digits, after a sign or none, with the integer that it writes. -/
inductive Numeral : List Char → Int → Prop
  | unsigned {ds : List Char} (hne : ds ≠ []) (hds : ∀ c ∈ ds, isDigit c = true) :
    Numeral ds (ofDigits ds)
  | plus {ds : List Char} (hne : ds ≠ []) (hds : ∀ c ∈ ds, isDigit c = true) :
    Numeral ('+' :: ds) (ofDigits ds)
  | minus {ds : List Char} (hne : ds ≠ []) (hds : ∀ c ∈ ds, isDigit c = true) :
    Numeral ('-' :: ds) (-(ofDigits ds : Int))

/-- **Numerals are exactly what is read as integers.** -/
theorem readInt?_eq_some_iff {t : List Char} {z : Int} : readInt? t = some z ↔ Numeral t z := by
  have hdigits {ds : List Char} :
      (ds.isEmpty || !ds.all isDigit) = false ↔ ds ≠ [] ∧ ∀ c ∈ ds, isDigit c = true := by simp
  constructor
  · intro h
    rcases hs : splitSign t with ⟨negative, ds⟩
    simp only [readInt?, hs, Option.ite_none_left_eq_some, Bool.not_eq_true, hdigits,
      Option.some.injEq] at h
    obtain ⟨⟨hne, hds⟩, rfl⟩ := h
    unfold splitSign at hs
    split at hs <;> cases hs
    · exact .minus hne hds
    · exact .plus hne hds
    · exact .unsigned hne hds
  · rintro (⟨hne, hds⟩ | ⟨hne, hds⟩ | ⟨hne, hds⟩)
    · rw [readInt?, splitSign_of_isDigit hds]
      simp [hdigits.mpr ⟨hne, hds⟩]
    · simp [readInt?, splitSign, hdigits.mpr ⟨hne, hds⟩]
    · simp [readInt?, splitSign, hdigits.mpr ⟨hne, hds⟩]

/-! ### Signed literals -/

namespace SignedLiteral

/-- What is written of a signed literal. -/
def token (l : SignedLiteral) : List Char := intDigits l.toInt

/-- **Every signed literal is read back from what is written of it.** -/
theorem ofToken?_token (l : SignedLiteral) : ofToken? l.token = some l := by
  rw [ofToken?, token, readInt?_intDigits]
  simp only [Int32.ofInt_toInt]
  exact if_pos ⟨l.minValue_le_toInt, l.toInt_le⟩

theorem token_ne_nil (l : SignedLiteral) : l.token ≠ [] := by
  unfold token intDigits
  split_ifs
  · exact List.cons_ne_nil _ _
  · exact digits_ne_nil _

/-- The characters of a numeral are digits or a minus sign. -/
theorem mem_token {l : SignedLiteral} {c : Char} (hc : c ∈ l.token) :
    c = '-' ∨ isDigit c = true := by
  unfold token intDigits at hc
  split_ifs at hc
  · rcases List.mem_cons.mp hc with rfl | hc
    · exact Or.inl rfl
    · exact Or.inr (isDigit_of_mem_digits hc)
  · exact Or.inr (isDigit_of_mem_digits hc)

theorem isToken_token (l : SignedLiteral) : IsToken l.token := by
  refine ⟨l.token_ne_nil, fun c hc => ?_⟩
  rcases mem_token hc with rfl | hc
  · decide
  · have := isDigit_iff.mp hc
    exact isBlank_of_printable (by omega) (by omega)

theorem ofToken?_eq_some_iff {t : List Char} {l : SignedLiteral} :
    ofToken? t = some l ↔ Numeral t l.toInt := by
  rw [← readInt?_eq_some_iff]
  unfold ofToken?
  cases readInt? t with
  | none => simp
  | some z =>
    have hmin : Int32.minValue.toInt = -2 ^ 31 := rfl
    have hmax : Int32.maxValue.toInt = 2 ^ 31 - 1 := rfl
    simp only [Option.ite_none_right_eq_some, Option.some.injEq, hmin, hmax]
    constructor
    · rintro ⟨⟨hlo, hhi⟩, rfl⟩
      exact (Int32.toInt_ofInt_of_le hlo (by omega)).symm
    · rintro rfl
      exact ⟨⟨l.le_toInt, by have := l.toInt_lt; omega⟩, Int32.ofInt_toInt l⟩

/-- **The tokens of signed literals** are the numerals of the integers in range. -/
theorem exists_ofToken?_iff {t : List Char} : (∃ l, ofToken? t = some l) ↔
    ∃ z, Numeral t z ∧ -2 ^ 31 ≤ z ∧ z < 2 ^ 31 := by
  simp only [ofToken?_eq_some_iff]
  constructor
  · rintro ⟨l, hl⟩
    exact ⟨l.toInt, hl, l.le_toInt, l.toInt_lt⟩
  · rintro ⟨z, hz, hlo, hhi⟩
    exact ⟨Int32.ofInt z, by rwa [Int32.toInt_ofInt_of_le hlo hhi]⟩

end SignedLiteral

theorem readLiteral_token (n : Nat) (l : SignedLiteral) : readLiteral n l.token = .ok l := by
  rw [readLiteral, SignedLiteral.ofToken?_token]

theorem toList_signedText (separator : String) (ls : List SignedLiteral) :
    (signedText separator ls).toList =
      separator.toList.intercalate (ls.map SignedLiteral.token) := by
  rw [signedText, String.toList_intercalate, List.map_map]
  congr 2
  funext l
  exact String.toList_ofList

end StochasticSat
