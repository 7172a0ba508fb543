import Mathlib.Data.List.Basic
import Mathlib.Tactic.Common
import StochasticSat.Text.Line

/-!
# What lines and tokens are

Lines are split off the front of a text: a line goes to the first line feed (`lines_append_feed`).
So a text that puts a line feed behind every line has these lines (`lines_flatMap_feed`).  What is
true of all lines is shown line by line (`line_induction`), for characters and for bytes.

Any text may be cut at all its line feeds and blank characters at once: the pieces that are left are
its tokens, line by line (`tokens_eq_splitOnP`, `map_tokens_lines`).  A carriage return is blank, so
it does not matter whether it belongs to the line end.  A blank character separates tokens
(`tokens_append_cons`), so a line that puts a blank between tokens has these tokens
(`tokens_intercalate`).
-/

namespace StochasticSat.Text

/-! ### Lines -/

section Lines
variable {α : Type} [DecidableEq α] {feed ret : α}

theorem toList_linesOnto (done : Array (List α)) (line cs : List α) :
    (linesOnto feed ret done line cs).toList =
      done.toList ++ (linesOnto feed ret #[] line cs).toList := by
  induction cs generalizing done line with
  | nil =>
    unfold linesOnto
    split_ifs <;> simp
  | cons c cs ih =>
    unfold linesOnto
    split_ifs
    · rw [ih (done.push _), ih (#[].push _)]
      simp
    · exact ih done (c :: line)

/-- Symbols that are no line feeds go on the current line. -/
theorem linesOnto_append {done : Array (List α)} {l : List α} (h : feed ∉ l) (line cs : List α) :
    linesOnto feed ret done line (l ++ cs) = linesOnto feed ret done (l.reverse ++ line) cs := by
  induction l generalizing line with
  | nil => rfl
  | cons c l ih =>
    obtain ⟨hc, hl⟩ := not_or.mp (mt List.mem_cons.mpr h)
    rw [List.cons_append, linesOnto, if_neg (Ne.symm hc), ih hl, List.reverse_cons,
      List.append_assoc, List.singleton_append]

theorem dropReturn_of_notMem {line : List α} (h : ret ∉ line) : dropReturn ret line = line := by
  cases line with
  | nil => rfl
  | cons c line => exact if_neg (Ne.symm (List.ne_of_not_mem_cons h))

/-- **The first line ends at the first line feed**, together with one carriage return. -/
theorem toList_linesOnto_append_feed {l : List α} (h : feed ∉ l) (rest : List α) :
    (linesOnto feed ret #[] [] (l ++ feed :: rest)).toList =
      (dropReturn ret l.reverse).reverse :: (linesOnto feed ret #[] [] rest).toList := by
  rw [linesOnto_append h, linesOnto, if_pos rfl, toList_linesOnto, List.append_nil]
  rfl

/-- What has no line feed in it is one line, unless it is empty. -/
theorem toList_linesOnto_of_notMem {l : List α} (h : feed ∉ l) :
    (linesOnto feed ret #[] [] l).toList = if l = [] then [] else [l] := by
  have hend : linesOnto feed ret #[] [] (l ++ []) = linesOnto feed ret #[] (l.reverse ++ []) [] :=
    linesOnto_append h [] []
  rw [List.append_nil, List.append_nil] at hend
  rw [hend, linesOnto]
  by_cases hl : l = [] <;> simp [hl]

/-- Induction on the lines of a row, up to what is behind the last line feed. -/
@[elab_as_elim]
theorem line_induction (feed : α) {P : List α → Prop} (last : ∀ l, feed ∉ l → P l)
    (line : ∀ l rest, feed ∉ l → P rest → P (l ++ feed :: rest)) (cs : List α) : P cs := by
  by_cases h : feed ∈ cs
  · obtain ⟨l, rest, hcs, hl⟩ := List.eq_append_cons_of_mem h
    rw [hcs]
    exact line l rest hl (line_induction feed last line rest)
  · exact last cs h
termination_by cs.length
decreasing_by
  rw [hcs, List.length_append, List.length_cons]
  omega

end Lines

theorem lines_append_feed {line : List Char} (h : '\n' ∉ line) (rest : List Char) :
    lines (line ++ '\n' :: rest) = (dropReturn '\r' line.reverse).reverse :: lines rest :=
  toList_linesOnto_append_feed h rest

/-- **The lines of a text that ends each of them with a line feed.** -/
theorem lines_flatMap_feed {ls : List (List Char)} (h : ∀ l ∈ ls, '\n' ∉ l ∧ '\r' ∉ l) :
    lines (ls.flatMap (· ++ ['\n'])) = ls := by
  induction ls with
  | nil => rfl
  | cons l ls ih =>
    obtain ⟨⟨hfeed, hret⟩, hls⟩ := List.forall_mem_cons.mp h
    rw [List.flatMap_cons, List.append_assoc, List.singleton_append, lines_append_feed hfeed,
      dropReturn_of_notMem (by simpa using hret), List.reverse_reverse, ih hls]

/-! ### Tokens -/

/-- What tokens are: rows of characters that are not blank. -/
structure IsToken (t : List Char) : Prop where
  nonempty : t ≠ []
  not_blank : ∀ c ∈ t, isBlank c = false

/-- The printable characters after the space are not blank. -/
theorem isBlank_of_printable {c : Char} (h : 0x20 < c.toNat) (h' : c.toNat < 0x7f) :
    isBlank c = false := by
  simp [isBlank, blankRanges]
  omega

theorem toList_tokensOnto (done : Array (List Char)) (token line : List Char) :
    (tokensOnto done token line).toList = done.toList ++ (tokensOnto #[] token line).toList := by
  induction line generalizing done token with
  | nil =>
    unfold tokensOnto pushToken
    split_ifs <;> simp
  | cons c line ih =>
    unfold tokensOnto
    split_ifs
    · rw [ih (pushToken done token), ih (pushToken #[] token)]
      unfold pushToken
      split_ifs <;> simp
    · exact ih done (c :: token)

theorem mem_of_mem_intercalate {α : Type} {separator : List α} {x : α} :
    ∀ {ls : List (List α)}, x ∈ separator.intercalate ls → x ∈ separator ∨ ∃ l ∈ ls, x ∈ l
  | [], h => by simp at h
  | [l], h => Or.inr ⟨l, List.mem_cons_self, by rwa [List.intercalate_singleton] at h⟩
  | l :: l' :: ls, h => by
    rw [List.intercalate_cons_cons, List.mem_append, List.mem_append] at h
    rcases h with (h | h) | h
    · exact Or.inr ⟨l, List.mem_cons_self, h⟩
    · exact Or.inl h
    · exact (mem_of_mem_intercalate h).imp_right fun ⟨k, hk, hx⟩ =>
        ⟨k, List.mem_cons_of_mem l hk, hx⟩

/-! ### Cutting a text at its separators -/

theorem toList_tokensOnto_eq_splitOnP {token : List Char} (h : ∀ c ∈ token, isBlank c = false)
    (line : List Char) : (tokensOnto #[] token line).toList =
      ((token.reverse ++ line).splitOnP isBlank).filter (!·.isEmpty) := by
  induction line generalizing token with
  | nil =>
    rw [List.append_nil, List.splitOnP_eq_singleton (by simpa using h)]
    unfold tokensOnto pushToken
    split_ifs with ht <;> simp_all
  | cons c line ih =>
    unfold tokensOnto
    split_ifs with hc
    · rw [List.splitOnP_append_cons_of_forall_mem (by simpa using h) c hc, toList_tokensOnto,
        ih (List.forall_mem_nil _)]
      unfold pushToken
      split_ifs with ht <;> simp_all
    · rw [ih (List.forall_mem_cons.mpr ⟨by simpa using hc, h⟩), List.reverse_cons,
        List.append_assoc, List.singleton_append]

/-- **The tokens of a line** are what is left between its blank characters. -/
theorem tokens_eq_splitOnP (line : List Char) :
    tokens line = (line.splitOnP isBlank).filter (!·.isEmpty) :=
  toList_tokensOnto_eq_splitOnP (by simp) line

theorem tokens_of_isToken {t : List Char} (ht : IsToken t) : tokens t = [t] := by
  rw [tokens_eq_splitOnP, List.splitOnP_eq_singleton (by simpa using ht.not_blank)]
  simp [ht.nonempty]

/-- **A blank character separates tokens.** -/
theorem tokens_append_cons {b : Char} (hb : isBlank b = true) (line line' : List Char) :
    tokens (line ++ b :: line') = tokens line ++ tokens line' := by
  simp only [tokens_eq_splitOnP]
  rw [List.splitOnP_append_cons line line' hb, List.filter_append]

/-- **The tokens of rows with one blank character between them** are those of the rows. -/
theorem tokens_intercalate_eq {b : Char} (hb : isBlank b = true) :
    ∀ ls : List (List Char), tokens ([b].intercalate ls) = ls.flatMap tokens
  | [] => rfl
  | [l] => by rw [List.intercalate_singleton, List.flatMap_singleton]
  | l :: l' :: ls => by
    rw [List.intercalate_cons_cons, List.append_assoc, List.singleton_append,
      tokens_append_cons hb, tokens_intercalate_eq hb]
    rfl

/-- **The tokens of a line that puts one blank character between them.** -/
theorem tokens_intercalate {b : Char} (hb : isBlank b = true) {ts : List (List Char)}
    (h : ∀ t ∈ ts, IsToken t) : tokens ([b].intercalate ts) = ts := by
  have htokens : ts.flatMap tokens = ts.flatMap ([·]) :=
    List.flatMap_congr fun t ht => tokens_of_isToken (h t ht)
  rw [tokens_intercalate_eq hb, htokens]
  simp

/-- Blank characters at the end of a line are no part of a token. -/
theorem tokens_concat_blank {c : Char} (hc : isBlank c = true) (line : List Char) :
    tokens (line ++ [c]) = tokens line := by
  rw [tokens_append_cons hc]
  exact List.append_nil _

theorem tokens_dropReturn (line : List Char) :
    tokens (dropReturn '\r' line).reverse = tokens line.reverse := by
  cases line with
  | nil => rfl
  | cons c line =>
    rw [dropReturn]
    split_ifs with hc
    · rw [hc, List.reverse_cons, tokens_concat_blank (by decide)]
    · rfl

theorem map_tokens_linesOnto {line : List Char} (h : '\n' ∉ line) (cs : List Char) :
    ∃ last, (last = [] ∨ last = [[]]) ∧ ((line.reverse ++ cs).splitOn '\n').map tokens =
      (linesOnto '\n' '\r' #[] line cs).toList.map tokens ++ last := by
  induction cs generalizing line with
  | nil =>
    rw [List.append_nil, List.splitOn_eq_singleton (by simpa using h)]
    unfold linesOnto
    split_ifs with hl
    · exact ⟨[[]], Or.inr rfl, by simp_all [tokens, tokensOnto, pushToken]⟩
    · exact ⟨[], Or.inl rfl, by simp⟩
  | cons c cs ih =>
    unfold linesOnto
    split_ifs with hc
    · obtain ⟨last, hlast, hrest⟩ := ih List.not_mem_nil
      refine ⟨last, hlast, ?_⟩
      rw [hc, List.splitOn_append_cons_self_of_not_mem (by simpa using h), toList_linesOnto,
        List.map_append, List.append_assoc, ← hrest]
      simp [tokens_dropReturn]
    · have hline := List.not_mem_cons_of_ne_of_not_mem (Ne.symm hc) h
      obtain ⟨last, hlast, hrest⟩ := ih hline
      refine ⟨last, hlast, ?_⟩
      rw [← hrest, List.reverse_cons, List.append_assoc, List.singleton_append]

/-- **The tokens of the lines of a text** are those of what stands between its line feeds, where
nothing stands behind the last one if it ends the text. -/
theorem map_tokens_lines (cs : List Char) : ∃ last, (last = [] ∨ last = [[]]) ∧
    (cs.splitOn '\n').map tokens = (lines cs).map tokens ++ last :=
  map_tokens_linesOnto List.not_mem_nil cs

/-! ### Sources -/

theorem fromUTF8?_toUTF8 (text : String) : String.fromUTF8? text.toUTF8 = some text :=
  dif_pos text.isValidUTF8

/-- The bytes of a text are read as that text. -/
theorem Source.ofBytes_toUTF8 (text : String) : ofBytes text.toUTF8 = .ofText text := by
  rw [ofBytes, fromUTF8?_toUTF8]

end StochasticSat.Text
