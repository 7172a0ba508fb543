import Mathlib.Data.List.Lex
import Mathlib.Tactic.Common

/-!
# The order of texts by their bytes

Texts are compared character by character, file systems compare names byte by byte.  Since the bytes
of a smaller character come before those of a greater one, whatever follows them
(`utf8EncodeChar_append_lt`), both orders are the same, on texts (`textBytes_lt`) and on rows of
texts (`rowBytes_lt`).
-/

namespace StochasticSat

/-- The bytes of a text. -/
def textBytes (text : String) : List UInt8 := text.toUTF8.data.toList

/-- The bytes of the texts of a row, text by text. -/
def rowBytes (row : List String) : List (List UInt8) := row.map textBytes

/-- **The bytes of a smaller character come first**, whatever follows. -/
theorem utf8EncodeChar_append_lt {c d : Char} (h : c < d) (r s : List UInt8) :
    String.utf8EncodeChar c ++ r < String.utf8EncodeChar d ++ s := by
  have hlt : c.val.toNat < d.val.toNat := h
  have hd : d.val.toNat < 0x110000 := by
    have hvalid := d.valid
    unfold UInt32.isValidChar Nat.isValidChar at hvalid
    omega
  unfold String.utf8EncodeChar
  generalize c.val.toNat = m at *
  generalize d.val.toNat = n at *
  -- between characters of the same length the digits to the base 64 decide
  have hdigits : m / 262144 < n / 262144 ∨ m / 262144 = n / 262144 ∧
      (m / 4096 % 64 < n / 4096 % 64 ∨ m / 4096 % 64 = n / 4096 % 64 ∧
        (m / 64 % 64 < n / 64 % 64 ∨ m / 64 % 64 = n / 64 % 64 ∧ m % 64 < n % 64)) := by
    omega
  dsimp only
  split_ifs <;>
    simp (disch := omega) only [List.cons_append, List.nil_append, List.cons_lt_cons_iff,
      UInt8.lt_iff_toNat_lt, ← UInt8.toNat_inj, UInt8.toNat_ofNat', Nat.mod_eq_of_lt] <;>
    omega

theorem flatMap_utf8EncodeChar_lt {cs ds : List Char} (h : cs < ds) :
    cs.flatMap String.utf8EncodeChar < ds.flatMap String.utf8EncodeChar := by
  induction h with
  | @nil d ds =>
    rw [List.flatMap_nil, List.flatMap_cons]
    obtain ⟨b, bs, hb⟩ := List.exists_cons_of_ne_nil (String.utf8EncodeChar_ne_nil (c := d))
    rw [hb]
    exact List.nil_lt_cons _ _
  | rel hlt =>
    rw [List.flatMap_cons, List.flatMap_cons]
    exact utf8EncodeChar_append_lt hlt _ _
  | cons _ ih =>
    rw [List.flatMap_cons, List.flatMap_cons]
    exact List.append_left_lt ih

theorem textBytes_eq (text : String) :
    textBytes text = text.toList.flatMap String.utf8EncodeChar := by
  rw [textBytes, String.toUTF8_eq_toByteArray, ← String.utf8Encode_toList, List.utf8Encode,
    List.data_toByteArray]

theorem textBytes_lt {s t : String} (h : s < t) : textBytes s < textBytes t := by
  rw [textBytes_eq, textBytes_eq]
  exact flatMap_utf8EncodeChar_lt h

theorem rowBytes_lt {row row' : List String} (h : row < row') : rowBytes row < rowBytes row' := by
  induction h with
  | nil => exact List.nil_lt_cons _ _
  | rel hlt => exact List.Lex.rel (textBytes_lt hlt)
  | cons _ ih => exact List.Lex.cons ih

end StochasticSat
