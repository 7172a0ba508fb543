import StochasticSat.Proofs.Text.DataTokens

/-!
# Texts as rows of tokens

No reader looks at anything but the tokens of the lines and the numbers of the lines
(`lineRows`).  The clauses of a plain text are the values of its lines that are not blank
(`readClauses_plain`).  Lines without data at the beginning of a DIMACS text only move the others
down (`dataTokensFrom_append_of_isSilent`).
-/

namespace StochasticSat

open Text

/-! ### Rows -/

/-- The tokens of what stands between the line feeds of a text. -/
def tokenRows (text : String) : List (List (List Char)) :=
  (text.toList.splitOn '\n').map tokens

/-- Rows of tokens with the numbers of their lines, where the first line has the number `n`. -/
def numbered (n : Nat) (rows : List (List (List Char))) : List (List LineToken) :=
  (rows.zipIdx n).map fun (ts, i) => ts.map fun t => ⟨i, t⟩

/-- Lines, joined to a text by line feeds. -/
def joinLines (ls : List (List Char)) : String := String.ofList (['\n'].intercalate ls)

/-- **The tokens of a text, line by line.** -/
def lineRows (text : String) : List (List LineToken) := numbered 1 (tokenRows text)

theorem notMem_of_mem_splitOn {α : Type} [BEq α] [LawfulBEq α] {a : α} :
    ∀ {xs l : List α}, l ∈ xs.splitOn a → a ∉ l
  | [], l, h => by
    obtain rfl : l = [] := by simpa using h
    exact List.not_mem_nil
  | x :: xs, l, h => by
    rw [List.splitOn_cons_eq_if_modifyHead] at h
    split_ifs at h with hx
    · rcases List.mem_cons.mp h with rfl | h
      · exact List.not_mem_nil
      · exact notMem_of_mem_splitOn h
    · obtain ⟨first, rest, hsplit⟩ := List.exists_cons_of_ne_nil (List.splitOn_ne_nil a xs)
      rw [hsplit, List.modifyHead_cons] at h
      rcases List.mem_cons.mp h with rfl | h
      · have hfirst := notMem_of_mem_splitOn (hsplit ▸ List.mem_cons_self : first ∈ xs.splitOn a)
        exact List.not_mem_cons_of_ne_of_not_mem (fun h => hx (beq_iff_eq.mpr h.symm)) hfirst
      · exact notMem_of_mem_splitOn (hsplit ▸ List.mem_cons_of_mem first h)

theorem splitOn_joinLines {ls : List (List Char)} (h : ∀ l ∈ ls, '\n' ∉ l) (hne : ls ≠ []) :
    (joinLines ls).toList.splitOn '\n' = ls := by
  rw [joinLines, String.toList_ofList, List.splitOn_intercalate '\n' h hne]

theorem numbered_cons (n : Nat) (ts : List (List Char)) (rows : List (List (List Char))) :
    numbered n (ts :: rows) = (ts.map fun t => ⟨n, t⟩) :: numbered (n + 1) rows := rfl

theorem numbered_append (n : Nat) (rows rows' : List (List (List Char))) :
    numbered n (rows ++ rows') = numbered n rows ++ numbered (n + rows.length) rows' := by
  rw [numbered, List.zipIdx_append, List.map_append, Nat.add_comm]
  rfl

/-- The rows of a text are those of its lines, and one without tokens if a line feed ends it. -/
theorem exists_tokenRows_eq (text : String) :
    ∃ last, (last = [] ∨ last = [[]]) ∧ tokenRows text = (lines text.toList).map tokens ++ last :=
  map_tokens_lines text.toList

theorem dataTokens_eq_tokenRows (text : String) :
    dataTokens text = dataTokensFrom 1 (tokenRows text) := by
  unfold dataTokens tokenRows
  exact congrArg _ (List.map_congr_left fun line _ => (tokens_eq_splitOnP line).symm)

theorem mapM_read_map (n : Nat) (ts : List (List Char)) :
    (ts.map fun t => (⟨n, t⟩ : LineToken)).mapM LineToken.read = ts.mapM (readLiteral n) := by
  rw [List.mapM_map]
  rfl

theorem map_chars_map_mk (n : Nat) (ts : List (List Char)) :
    (ts.map fun t => (⟨n, t⟩ : LineToken)).map (·.chars) = ts := by
  rw [List.map_map]
  exact List.map_id ts

/-- Values do not depend on the lines of the tokens. -/
theorem values_iff_chars {ts : List LineToken} {vs : List SignedLiteral} :
    Values ts vs ↔ List.Forall₂ (fun t l => Numeral t l.toInt) (ts.map (·.chars)) vs := by
  rw [Values, List.forall₂_map_left_iff]

/-! ### Lines without data -/

/-- Whether a line with these tokens adds nothing to the data of a DIMACS text. -/
def isSilent (ts : List (List Char)) : Bool := ts.isEmpty || isAside ts

theorem endsData_of_isSilent {ts : List (List Char)} (h : isSilent ts = true) :
    endsData ts = false := by
  rcases ts with _ | ⟨t, ts⟩
  · rfl
  · obtain rfl | rfl : t = ['c'] ∨ t = ['p'] := by simpa [isSilent, isAside] using h
    · rfl
    · rfl

theorem dataTokensFrom_cons_of_isSilent {ts : List (List Char)} (h : isSilent ts = true) (n : Nat)
    (rows : List (List (List Char))) :
    dataTokensFrom n (ts :: rows) = dataTokensFrom (n + 1) rows := by
  rw [dataTokensFrom_cons, if_neg (by simp [endsData_of_isSilent h])]
  rcases ts with _ | ⟨t, ts⟩
  · rfl
  · rw [if_pos (show isAside (t :: ts) = true from h), List.nil_append]

/-- Lines that add nothing only move the others down. -/
theorem dataTokensFrom_append_of_isSilent {silent : List (List (List Char))}
    (h : ∀ ts ∈ silent, isSilent ts = true) (n : Nat) (rows : List (List (List Char))) :
    dataTokensFrom n (silent ++ rows) = dataTokensFrom (n + silent.length) rows := by
  induction silent generalizing n with
  | nil => rfl
  | cons ts silent ih =>
    obtain ⟨hts, hsilent⟩ := List.forall_mem_cons.mp h
    rw [List.cons_append, dataTokensFrom_cons_of_isSilent hts, ih hsilent, List.length_cons,
      Nat.add_assoc, Nat.add_comm 1]

theorem dataTokensFrom_joinLines {ls : List (List Char)} (h : ∀ l ∈ ls, '\n' ∉ l) (n : Nat) :
    dataTokensFrom n (tokenRows (joinLines ls)) = dataTokensFrom n (ls.map tokens) := by
  rcases ls with _ | ⟨l, ls⟩
  · rfl
  · rw [tokenRows, splitOn_joinLines h (List.cons_ne_nil l ls)]

/-- The words that make a comment, a header or the end of the data are no literals. -/
theorem not_isLiteral_of_mark {word : List Char} (h : word = ['c'] ∨ word = ['p'] ∨ word = ['%'])
    (n : Nat) : ¬ LineToken.IsLiteral ⟨n, word⟩ := by
  rw [LineToken.isLiteral_iff]
  rintro ⟨l, hl⟩
  obtain rfl | rfl | rfl := h <;> cases hl

/-! ### Plain texts -/

/-- The rows that are not blank. -/
def clauseRows (rows : List (List LineToken)) : List (List LineToken) := rows.filter (!·.isEmpty)

theorem plainOnto_some (done : Array SignedClause) (n : Nat) (line : List Char) (rest : Source) :
    plainOnto done n (some line :: rest) =
      if (tokens line).isEmpty then plainOnto done (n + 1) rest
      else (tokens line).mapM (readLiteral n) >>= fun c =>
        plainOnto (done.push c) (n + 1) rest := by
  rw [plainOnto]
  split
  · next h => rw [h]; rfl
  · next h => rw [if_neg (by simpa using h)]

/-- **Going through the lines is reading the rows that are not blank.** -/
theorem plainOnto_map_some (ls : List (List Char)) (done : Array SignedClause) (n : Nat) :
    plainOnto done n (ls.map some) = (fun cs => done ++ cs.toArray) <$>
      (clauseRows (numbered n (ls.map tokens))).mapM (·.mapM LineToken.read) := by
  induction ls generalizing done n with
  | nil => simp [plainOnto, numbered, clauseRows, pure, Except.pure, Functor.map, Except.map]
  | cons line ls ih =>
    rw [List.map_cons, List.map_cons, numbered_cons, clauseRows, List.filter_cons, plainOnto_some]
    cases hblank : (tokens line).isEmpty with
    | true => simpa [hblank, clauseRows] using ih done (n + 1)
    | false =>
      simp only [List.isEmpty_map, hblank, Bool.not_false, Bool.false_eq_true, if_false, if_true]
      rw [List.mapM_cons, mapM_read_map, map_bind]
      refine congrArg _ (funext fun c => ?_)
      rw [ih, map_bind]
      simp [clauseRows]

/-- **The clauses of a plain text** are the values of its lines that are not blank. -/
theorem readClauses_plain (text : String) : readClauses .plain (.ofText text) =
    (clauseRows (lineRows text)).mapM (·.mapM LineToken.read) := by
  have hrows : clauseRows (lineRows text) =
      clauseRows (numbered 1 ((lines text.toList).map tokens)) := by
    obtain ⟨last, rfl | rfl, hlast⟩ := exists_tokenRows_eq text
    · rw [lineRows, hlast, List.append_nil]
    · rw [lineRows, hlast, numbered_append, clauseRows, List.filter_append]
      exact List.append_nil _
  rw [readClauses, Source.ofText, plainOnto_map_some, hrows]
  simp

end StochasticSat
