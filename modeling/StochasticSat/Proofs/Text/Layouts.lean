import StochasticSat.Proofs.Text.TokenRows

/-!
# Layouts of the same clauses

A plain text becomes a DIMACS text of the same clauses if a zero is put behind every line that is
not blank (`zeroEnded`), as long as none of its literals is zero (`readClauses_zeroEnded`).  Further
blank lines, comments and headers, and anything behind a line that ends the data, make another
layout (`Layout`) of a DIMACS text, with the same clauses (`Layout.readClauses_eq_ok_iff`).  So the
two dialects agree on clauses that end in zeros (`dialects_agree`).
-/

namespace StochasticSat

open Text

/-! ### Layouts -/

/-- **The second row of lines is a layout of the data on the first.**  Lines may be set differently
with the same tokens, and blank lines, comments and headers may be put between them; all lines may
be followed by one that ends the data, and by any others behind it. -/
inductive Layout : List (List Char) → List (List Char) → Prop where
  | nil : Layout [] []
  | keep {line line' : List Char} {ls ms : List (List Char)} :
      tokens line' = tokens line → Layout ls ms → Layout (line :: ls) (line' :: ms)
  | insert {line : List Char} {ls ms : List (List Char)} :
      isSilent (tokens line) = true → Layout ls ms → Layout ls (line :: ms)
  | mark {line : List Char} {rest : List (List Char)} :
      endsData (tokens line) = true → Layout [] (line :: rest)

/-- **Layouts have the same data tokens**, on other lines. -/
theorem Layout.dataTokensFrom_eq {ls ms : List (List Char)} (h : Layout ls ms) (n m : Nat) :
    (dataTokensFrom m (ms.map tokens)).map (·.chars) =
      (dataTokensFrom n (ls.map tokens)).map (·.chars) := by
  induction h generalizing n m with
  | nil => rfl
  | keep htokens h ih =>
    rw [List.map_cons, List.map_cons, dataTokensFrom_cons, dataTokensFrom_cons, htokens]
    split_ifs
    · rfl
    · exact ih (n + 1) (m + 1)
    · rw [List.map_append, List.map_append, map_chars_map_mk, map_chars_map_mk,
        ih (n + 1) (m + 1)]
  | insert hsilent h ih =>
    rw [List.map_cons, dataTokensFrom_cons_of_isSilent hsilent]
    exact ih n (m + 1)
  | mark hends =>
    rw [List.map_cons, dataTokensFrom_cons, if_pos hends]
    rfl

/-- **Layouts have the same clauses.** -/
theorem Layout.readClauses_eq_ok_iff {text text' : String} {cs : List SignedClause}
    (h : Layout (lines text.toList) (lines text'.toList)) :
    readClauses .dimacs (.ofText text') = .ok cs ↔ readClauses .dimacs (.ofText text) = .ok cs := by
  simp only [readClauses_dimacs_eq_ok_iff, values_iff_chars, dataTokens_eq,
    h.dataTokensFrom_eq 1 1]

/-! ### Zeros behind lines -/

/-- A line with a zero behind it, unless it is blank. -/
def endClause (line : List Char) : List Char :=
  if (tokens line).isEmpty then line else line ++ [' ', '0']

/-- **The text with a zero behind every line that is not blank.** -/
def zeroEnded (text : String) : String := joinLines ((text.toList.splitOn '\n').map endClause)

theorem tokens_endClause (line : List Char) : tokens (endClause line) =
    if (tokens line).isEmpty then tokens line else tokens line ++ [['0']] := by
  rw [endClause]
  split_ifs
  · rfl
  · rw [tokens_append_cons (by decide)]
    rfl

theorem notMem_endClause {line : List Char} (h : '\n' ∉ line) : '\n' ∉ endClause line := by
  rw [endClause]
  split_ifs
  · exact h
  · simpa using h

/-- A line that begins with a literal holds data. -/
theorem isData_of_isLiteral {n : Nat} {t : List Char} (h : LineToken.IsLiteral ⟨n, t⟩)
    (ts : List (List Char)) : endsData (t :: ts) = false ∧ isAside (t :: ts) = false := by
  have hmark : ¬ (t = ['c'] ∨ t = ['p'] ∨ t = ['%']) := fun hmark => not_isLiteral_of_mark hmark n h
  simp only [not_or] at hmark
  simpa [endsData, isAside] using ⟨hmark.2.2, hmark.1, hmark.2.1⟩

/-- The data tokens of lines with zeros behind them have the values of the lines, and the zeros. -/
theorem values_endClause {ls : List (List Char)} {cs : List SignedClause} {n : Nat}
    (h : List.Forall₂ Values (clauseRows (numbered n (ls.map tokens))) cs) :
    Values (dataTokensFrom n ((ls.map endClause).map tokens)) (cs.flatMap (· ++ [0])) := by
  induction ls generalizing n cs with
  | nil =>
    cases h
    exact .nil
  | cons line ls ih =>
    rw [List.map_cons, numbered_cons, clauseRows, List.filter_cons] at h
    rw [List.map_cons, List.map_cons, tokens_endClause]
    cases hline : tokens line with
    | nil =>
      rw [hline] at h
      exact ih h
    | cons t ts =>
      rw [hline] at h
      obtain ⟨c, cs, hc, hcs, rfl⟩ := List.forall₂_cons_left_iff.mp h
      -- the line begins with a literal, so it is no comment and does not end the data
      have ht : LineToken.IsLiteral ⟨n, t⟩ :=
        LineToken.exists_values_iff.mp ⟨c, hc⟩ _ List.mem_cons_self
      obtain ⟨hends, haside⟩ := isData_of_isLiteral ht (ts ++ [['0']])
      have hzero : Values [⟨n, ['0']⟩] [0] := .cons (LineToken.read_eq_ok_iff.mp rfl) .nil
      have hrow : Values ((t :: (ts ++ [['0']])).map fun t => ⟨n, t⟩) (c ++ [0]) := by
        rw [← List.cons_append, List.map_append]
        exact List.rel_append hc hzero
      rw [List.flatMap_cons, List.isEmpty_cons, if_neg Bool.false_ne_true, List.cons_append,
        dataTokensFrom_cons, hends, haside, if_neg Bool.false_ne_true, if_neg Bool.false_ne_true]
      exact List.rel_append hrow (ih hcs)

/-- **With a zero behind every line that is not blank, the clauses are the same.** -/
theorem readClauses_zeroEnded {text : String} {cs : List SignedClause}
    (h : readClauses .plain (.ofText text) = .ok cs) (h0 : ∀ c ∈ cs, 0 ∉ c) :
    readClauses .dimacs (.ofText (zeroEnded text)) = .ok cs := by
  rw [readClauses_plain, mapM_eq_ok_iff] at h
  simp only [LineToken.mapM_read_eq_ok_iff] at h
  have hlines : ∀ line ∈ (text.toList.splitOn '\n').map endClause, '\n' ∉ line :=
    List.forall_mem_map.mpr fun line hline => notMem_endClause (notMem_of_mem_splitOn hline)
  refine readClauses_dimacs_eq_ok_iff.mpr ⟨cs.flatMap (· ++ [0]), ?_, ?_⟩
  · rw [dataTokens_eq_tokenRows, zeroEnded, dataTokensFrom_joinLines hlines]
    exact values_endClause h
  · simpa using clausesOf_flatMap h0 (List.not_mem_nil : 0 ∉ ([] : SignedClause))

/-! ### The dialects -/

theorem readInstance_of_ok {d : Dialect} {source : Source} {cs : List SignedClause}
    (h : readClauses d source = .ok cs) : readInstance d source = Instance.buildLogged cs := by
  rw [readInstance, h]

/-- **The dialects agree on clauses that end in zeros.**  If a text can be read as a plain one and
none of its literals is zero, then with a zero behind every line that is not blank it is a DIMACS
text of the same clauses.  From both the same instance is built, or the same clause is refused.  So
it is from every other layout of the DIMACS text. -/
theorem dialects_agree {text : String} {cs : List SignedClause}
    (h : readClauses .plain (.ofText text) = .ok cs) (h0 : ∀ c ∈ cs, 0 ∉ c) :
    (readClauses .dimacs (.ofText (zeroEnded text)) = .ok cs ∧
      readInstance .dimacs (.ofText (zeroEnded text)) = readInstance .plain (.ofText text)) ∧
    ∀ text', Layout (lines (zeroEnded text).toList) (lines text'.toList) →
      readClauses .dimacs (.ofText text') = .ok cs ∧
      readInstance .dimacs (.ofText text') = readInstance .plain (.ofText text) := by
  have hzero := readClauses_zeroEnded h h0
  have hinstance {text' : String} (h' : readClauses .dimacs (.ofText text') = .ok cs) :
      readInstance .dimacs (.ofText text') = readInstance .plain (.ofText text) :=
    (readInstance_of_ok h').trans (readInstance_of_ok h).symm
  refine ⟨⟨hzero, hinstance hzero⟩, fun text' hlayout => ?_⟩
  have h' := hlayout.readClauses_eq_ok_iff.mpr hzero
  exact ⟨h', hinstance h'⟩

/-- Two clauses with a blank line between them, and a layout of them with a comment, a header and
something behind the data. -/
theorem dialects_agree_on_two_clauses :
    let text := "1 -2\n\n+3"
    let text' := "p cnf 0\n1 -2 0\n\nc 4\n+3  0\n%\n0 x"
    readClauses .dimacs (.ofText (zeroEnded text)) = .ok [[1, -2], [3]] ∧
      readInstance .dimacs (.ofText text') = readInstance .plain (.ofText text) := by
  intro text text'
  have hplain : readClauses .plain (.ofText text) = .ok [[1, -2], [3]] := by
    rw [Source.ofText, String.toList_ofList]
    rfl
  have hlayout : Layout (lines (zeroEnded text).toList) (lines text'.toList) := by
    rw [zeroEnded, String.toList_ofList, String.toList_ofList]
    exact .insert rfl (.keep rfl (.keep rfl (.insert rfl (.keep rfl (.mark rfl)))))
  obtain ⟨⟨hzero, -⟩, hlayouts⟩ := dialects_agree hplain (by decide)
  exact ⟨hzero, (hlayouts text' hlayout).2⟩

end StochasticSat
