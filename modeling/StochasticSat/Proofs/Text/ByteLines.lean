import StochasticSat.Proofs.Text.ByteOrder
import StochasticSat.Proofs.Text.Lines

/-!
# The lines of bytes

A file is read line by line, and every line is taken for text by itself.  Since a line feed and a
carriage return are bytes that occur in no other character (`mem_utf8EncodeChar_iff`), the bytes of
a text are cut where the text is cut (`byteLines_utf8Bytes`).  So a text has the same lines as its
bytes (`Source.ofByteLines_toUTF8`), and a source always is what the lines of the bytes are
(`Source.ofBytes_eq`).
-/

namespace StochasticSat.Text

/-! ### The bytes of characters -/

/-- **An ASCII character is a byte that occurs in no other character.** -/
theorem mem_utf8EncodeChar_iff {c d : Char} (hd : d.toNat < 0x80) :
    UInt8.ofNat d.toNat ∈ String.utf8EncodeChar c ↔ c = d := by
  rw [← Char.toNat_inj]
  have hc : c.val.toNat = c.toNat := rfl
  unfold String.utf8EncodeChar
  rw [hc]
  generalize c.toNat = m at *
  generalize d.toNat = n at *
  dsimp only
  -- a character of several bytes has none below 128
  split_ifs <;> simp [← UInt8.toNat_inj] <;> omega

/-- The bytes of a row of characters. -/
def utf8Bytes (cs : List Char) : List UInt8 := cs.flatMap String.utf8EncodeChar

theorem utf8Bytes_append (cs ds : List Char) :
    utf8Bytes (cs ++ ds) = utf8Bytes cs ++ utf8Bytes ds := List.flatMap_append

theorem utf8Bytes_eq_nil_iff {cs : List Char} : utf8Bytes cs = [] ↔ cs = [] := by
  cases cs with
  | nil => simp [utf8Bytes]
  | cons c cs => simp [utf8Bytes, String.utf8EncodeChar_ne_nil]

theorem mem_utf8Bytes_iff {d : Char} (hd : d.toNat < 0x80) {cs : List Char} :
    UInt8.ofNat d.toNat ∈ utf8Bytes cs ↔ d ∈ cs := by
  simp [utf8Bytes, List.mem_flatMap, mem_utf8EncodeChar_iff hd]

theorem feed_notMem_utf8Bytes {cs : List Char} (h : '\n' ∉ cs) : 10 ∉ utf8Bytes cs :=
  mt (mem_utf8Bytes_iff (d := '\n') (by decide)).mp h

/-! ### Cutting bytes -/

/-- The last byte is a carriage return if the last character is one. -/
theorem dropReturn_utf8Bytes (cs : List Char) : (dropReturn 13 (utf8Bytes cs).reverse).reverse =
    utf8Bytes (dropReturn '\r' cs.reverse).reverse := by
  rcases List.eq_nil_or_concat cs with rfl | ⟨cs, c, rfl⟩
  · rfl
  rw [List.concat_eq_append, utf8Bytes_append, List.reverse_append, List.reverse_append]
  by_cases hc : c = '\r'
  · have hbytes : utf8Bytes ['\r'] = [13] := rfl
    rw [hc, hbytes]
    simp [dropReturn]
  · have hne : utf8Bytes [c] ≠ [] := mt utf8Bytes_eq_nil_iff.mp (List.cons_ne_nil c [])
    have hret : 13 ∉ utf8Bytes [c] :=
      mt (mem_utf8Bytes_iff (d := '\r') (by decide)).mp (by simpa using Ne.symm hc)
    obtain ⟨bs, b, hb⟩ := (List.eq_nil_or_concat (utf8Bytes [c])).resolve_left hne
    rw [hb, List.concat_eq_append, List.mem_append, List.mem_singleton] at hret
    have hlast : b ≠ 13 := fun h => hret (Or.inr h.symm)
    simp [dropReturn, hc, hlast, utf8Bytes_append, hb]

/-- **Bytes are cut into lines where their text is.** -/
theorem byteLines_utf8Bytes (cs : List Char) :
    byteLines (utf8Bytes cs) = (lines cs).map utf8Bytes := by
  unfold byteLines lines
  induction cs using line_induction '\n' with
  | last l h =>
    rw [toList_linesOnto_of_notMem (feed_notMem_utf8Bytes h), toList_linesOnto_of_notMem h]
    simp only [utf8Bytes_eq_nil_iff]
    split_ifs <;> rfl
  | line l rest h ih =>
    have hfeed : utf8Bytes ('\n' :: rest) = 10 :: utf8Bytes rest := rfl
    rw [utf8Bytes_append, hfeed, toList_linesOnto_append_feed (feed_notMem_utf8Bytes h),
      toList_linesOnto_append_feed h, List.map_cons, ih, dropReturn_utf8Bytes]

/-! ### Reading lines of bytes -/

theorem toList_loop_eq (bytes : ByteArray) (i : Nat) (bs : List UInt8) :
    ByteArray.toList.loop bytes i bs = bs.reverse ++ bytes.data.toList.drop i := by
  fun_induction ByteArray.toList.loop bytes i bs with
  | case1 i bs h ih =>
    have hi : i < bytes.data.toList.length := by simpa using h
    rw [ih, List.drop_eq_getElem_cons hi]
    simp [ByteArray.get!, h]
  | case2 i bs h =>
    rw [List.drop_eq_nil_of_le (by simpa using Nat.le_of_not_lt h), List.append_nil]

theorem toList_toUTF8 (text : String) : text.toUTF8.toList = utf8Bytes text.toList := by
  rw [ByteArray.toList, toList_loop_eq]
  exact textBytes_eq text

theorem fromUTF8?_utf8Bytes (cs : List Char) :
    String.fromUTF8? ⟨(utf8Bytes cs).toArray⟩ = some (String.ofList cs) := by
  have htext : textBytes (String.ofList cs) = utf8Bytes cs := by
    rw [textBytes_eq, String.toList_ofList, utf8Bytes]
  have hbytes : (⟨(utf8Bytes cs).toArray⟩ : ByteArray) = (String.ofList cs).toUTF8 :=
    ByteArray.ext (Array.toList_inj.mp htext.symm)
  rw [hbytes, fromUTF8?_toUTF8]

theorem eq_toUTF8_of_fromUTF8? {bytes : ByteArray} {text : String}
    (h : String.fromUTF8? bytes = some text) : bytes = text.toUTF8 := by
  unfold String.fromUTF8? at h
  split at h
  · cases h
    rfl
  · cases h

namespace Source

/-- The lines of a row of bytes, each of them read as text by itself. -/
def ofByteLines (bytes : ByteArray) : Source :=
  (byteLines bytes.toList).map fun line => (String.fromUTF8? ⟨line.toArray⟩).map (·.toList)

/-- **The lines of the bytes of a text are the lines of the text.** -/
theorem ofByteLines_toUTF8 (text : String) : ofByteLines text.toUTF8 = .ofText text := by
  rw [ofByteLines, toList_toUTF8, byteLines_utf8Bytes, List.map_map, ofText]
  refine List.map_congr_left fun line _ => ?_
  rw [Function.comp_apply, fromUTF8?_utf8Bytes, Option.map_some, String.toList_ofList]

/-- **Bytes are cut into lines before they are read as text**, whether or not all of them are. -/
theorem ofBytes_eq (bytes : ByteArray) : ofBytes bytes = ofByteLines bytes := by
  cases h : String.fromUTF8? bytes with
  | none =>
    rw [ofBytes, h]
    rfl
  | some text => rw [eq_toUTF8_of_fromUTF8? h, ofBytes_toUTF8, ofByteLines_toUTF8]

end Source

end StochasticSat.Text
