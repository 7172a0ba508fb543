import StochasticSat.Proofs.Rows
import StochasticSat.Proofs.Text.Numerals

/-!
# The data of a DIMACS text

What a DIMACS text says is in its data tokens alone (`dataTokens`): the tokens of its lines up to
the one that ends the data, without those of comments and headers.  The text is read if each of
them is the numeral of a signed literal; otherwise the first that is not is named, with the number
of its line.  The clauses are what stands between the zeros (`clausesOf`), wherever the lines break.

The reader keeps the clauses that are complete and the beginning of the next one.  This state is the
clauses of the values read so far (`OpenClauses.close_foldl_push`), and going through the lines is
going through the data tokens (`dimacsOnto_map_some`), so the clauses of a text are the clauses of
the values of its data tokens (`readClauses_dimacs`).
-/

namespace StochasticSat

open Text

/-! ### Data tokens -/

/-- A token together with the number of its line. -/
structure LineToken where
  line : Nat
  chars : List Char
deriving DecidableEq

/-- Whether a line with these tokens ends the data. -/
def endsData (ts : List (List Char)) : Bool := ts.head? == some ['%']

/-- Whether a line with these tokens is a comment or a header. -/
def isAside (ts : List (List Char)) : Bool := ts.head? == some ['c'] || ts.head? == some ['p']

/-- The data tokens of lines of tokens, where the first line has the number `n`. -/
def dataTokensFrom (n : Nat) (rows : List (List (List Char))) : List LineToken :=
  let data := (rows.zipIdx n).takeWhile fun (ts, _) => !endsData ts
  (data.filter fun (ts, _) => !isAside ts).flatMap fun (ts, i) => ts.map fun t => ⟨i, t⟩

/-- **The data tokens of a text**: it is cut at the line feeds, and every line at its blanks. -/
def dataTokens (text : String) : List LineToken :=
  dataTokensFrom 1 <| (text.toList.splitOn '\n').map fun line =>
    (line.splitOnP isBlank).filter (!·.isEmpty)

/-- The token is the numeral of an integer of 32 bits. -/
def LineToken.IsLiteral (t : LineToken) : Prop :=
  ∃ z, Numeral t.chars z ∧ -2 ^ 31 ≤ z ∧ z < 2 ^ 31

/-- The literal that a token writes. -/
def LineToken.read (t : LineToken) : Except Error SignedLiteral := readLiteral t.line t.chars

section Rows
variable (n : Nat) (rows : List (List (List Char)))

theorem dataTokensFrom_cons (ts : List (List Char)) : dataTokensFrom n (ts :: rows) =
    if endsData ts then []
    else (if isAside ts then [] else ts.map fun t => ⟨n, t⟩) ++ dataTokensFrom (n + 1) rows := by
  unfold dataTokensFrom
  rw [List.zipIdx_cons]
  cases he : endsData ts <;> cases ha : isAside ts <;> simp [he, ha]

/-- A line without tokens at the end adds nothing. -/
theorem dataTokensFrom_concat_nil : dataTokensFrom n (rows ++ [[]]) = dataTokensFrom n rows := by
  induction rows generalizing n with
  | nil => rfl
  | cons ts rows ih => rw [List.cons_append, dataTokensFrom_cons, dataTokensFrom_cons, ih]

end Rows

theorem dataTokens_eq (text : String) :
    dataTokens text = dataTokensFrom 1 ((lines text.toList).map tokens) := by
  have hcut : (fun line => (line.splitOnP isBlank).filter (!·.isEmpty)) = tokens :=
    funext fun line => (tokens_eq_splitOnP line).symm
  unfold dataTokens
  rw [hcut]
  obtain ⟨last, rfl | rfl, hlast⟩ := map_tokens_lines text.toList
  · rw [hlast, List.append_nil]
  · rw [hlast, dataTokensFrom_concat_nil]

/-! ### Clauses between zeros -/

/-- **The clauses of a row of values**: one for every zero, and one more of the values behind the
last zero if there are any. -/
def clausesOf (vs : List SignedLiteral) : List SignedClause :=
  (vs.splitOn 0).dropLast ++ (vs.splitOn 0).getLast?.toList.filter (!·.isEmpty)

theorem clausesOf_append_zero {c : SignedClause} (h : 0 ∉ c) (vs : List SignedLiteral) :
    clausesOf (c ++ 0 :: vs) = c :: clausesOf vs := by
  have hne := List.splitOn_ne_nil 0 vs
  rw [clausesOf, List.splitOn_append_cons_self_of_not_mem h, List.dropLast_cons_of_ne_nil hne,
    List.getLast?_cons_of_ne_nil hne]
  rfl

theorem clausesOf_of_notMem {c : SignedClause} (h : 0 ∉ c) :
    clausesOf c = if c = [] then [] else [c] := by
  rw [clausesOf, List.splitOn_eq_singleton h]
  split_ifs with hc <;> simp [hc]

namespace OpenClauses

theorem close_of_notMem {o : OpenClauses} (h : 0 ∉ o.pending.toList) :
    o.close.toList = o.done.toList ++ clausesOf o.pending.toList := by
  rw [clausesOf_of_notMem h, close]
  by_cases hp : o.pending = #[] <;> simp [hp]

/-- **What is read is the clauses of the values so far.** -/
theorem close_foldl_push (vs : List SignedLiteral) {o : OpenClauses} (h : 0 ∉ o.pending.toList) :
    (vs.foldl push o).close.toList = o.done.toList ++ clausesOf (o.pending.toList ++ vs) := by
  induction vs generalizing o with
  | nil => rw [List.append_nil]; exact close_of_notMem h
  | cons l vs ih =>
    rw [List.foldl_cons, push]
    split_ifs with hl
    · rw [ih (by simp), hl, clausesOf_append_zero h]
      simp
    · rw [ih (by simpa using ⟨by simpa using h, Ne.symm hl⟩)]
      simp

end OpenClauses

theorem clausesOf_eq (vs : List SignedLiteral) :
    clausesOf vs = (vs.foldl OpenClauses.push ⟨#[], #[]⟩).close.toList := by
  rw [OpenClauses.close_foldl_push vs (by simp)]
  rfl

/-- **Clauses are had back from their values**, with a zero behind each of them or behind all but
the last. -/
theorem clausesOf_flatMap {cs : List SignedClause} (hcs : ∀ c ∈ cs, 0 ∉ c) {last : SignedClause}
    (hlast : 0 ∉ last) :
    clausesOf (cs.flatMap (· ++ [0]) ++ last) = cs ++ if last = [] then [] else [last] := by
  induction cs with
  | nil => exact clausesOf_of_notMem hlast
  | cons c cs ih =>
    obtain ⟨hc, hcs⟩ := List.forall_mem_cons.mp hcs
    rw [List.flatMap_cons, List.append_assoc, List.append_assoc, List.singleton_append,
      clausesOf_append_zero hc, ih hcs, List.cons_append]

/-! ### Reading -/

theorem OpenClauses.readLine_eq (n : Nat) (o : OpenClauses) (ts : List (List Char)) :
    o.readLine n ts =
      (·.foldl push o) <$> (ts.map fun t => (⟨n, t⟩ : LineToken)).mapM LineToken.read := by
  rw [List.mapM_map]
  exact foldlM_eq_map_mapM push (readLiteral n) ts o

/-- What becomes of a line of tokens. -/
theorem dimacsOnto_some (o : OpenClauses) (n : Nat) (line : List Char) (rest : Source) :
    dimacsOnto o n (some line :: rest) =
      if endsData (tokens line) then .ok o.close
      else if isAside (tokens line) then dimacsOnto o (n + 1) rest
      else o.readLine n (tokens line) >>= fun o => dimacsOnto o (n + 1) rest := by
  rw [dimacsOnto]
  split
  · next h => rw [h]; rfl
  · next h => rw [h]; rfl
  · next h => rw [h]; rfl
  · next h => rw [h]; rfl
  · next hc hp he =>
    have hends : endsData (tokens line) = false := by
      simpa [endsData, List.head?_eq_some_iff] using he
    have haside : isAside (tokens line) = false := by
      simpa [isAside, List.head?_eq_some_iff] using ⟨hc, hp⟩
    rw [hends, haside]
    rfl

/-- **Going through the lines is going through the data tokens.** -/
theorem dimacsOnto_map_some (ls : List (List Char)) (o : OpenClauses) (n : Nat) :
    dimacsOnto o n (ls.map some) = (fun vs => (vs.foldl OpenClauses.push o).close) <$>
      (dataTokensFrom n (ls.map tokens)).mapM LineToken.read := by
  induction ls generalizing o n with
  | nil => rfl
  | cons line ls ih =>
    rw [List.map_cons, List.map_cons, dataTokensFrom_cons, dimacsOnto_some]
    split_ifs with hends haside
    · rfl
    · exact ih o (n + 1)
    · rw [OpenClauses.readLine_eq, List.mapM_append, bind_map_left, map_bind]
      refine congrArg _ (funext fun vs => ?_)
      rw [ih, map_bind]
      simp

/-- **The clauses of a DIMACS text are the clauses of the values of its data tokens.** -/
theorem readClauses_dimacs (text : String) : readClauses .dimacs (.ofText text) =
    clausesOf <$> (dataTokens text).mapM LineToken.read := by
  rw [readClauses, Source.ofText, dimacsOnto_map_some, ← dataTokens_eq, Functor.map_map]
  refine congrArg (· <$> _) (funext fun vs => ?_)
  exact (clausesOf_eq vs).symm

/-! ### Values -/

/-- The values that data tokens write. -/
def Values (ts : List LineToken) (vs : List SignedLiteral) : Prop :=
  List.Forall₂ (fun t l => Numeral t.chars l.toInt) ts vs

namespace LineToken

variable {t : LineToken} {ts : List LineToken}

theorem read_eq_ok_iff {l : SignedLiteral} : t.read = .ok l ↔ Numeral t.chars l.toInt := by
  rw [← SignedLiteral.ofToken?_eq_some_iff, read, readLiteral]
  cases SignedLiteral.ofToken? t.chars <;> simp

theorem isLiteral_iff : t.IsLiteral ↔ ∃ l, t.read = .ok l := by
  simp only [read_eq_ok_iff, ← SignedLiteral.ofToken?_eq_some_iff]
  exact SignedLiteral.exists_ofToken?_iff.symm

theorem read_eq_error_iff {e : Error} :
    t.read = .error e ↔ ¬ t.IsLiteral ∧ e = .badToken t.line (String.ofList t.chars) := by
  rw [isLiteral_iff, read, readLiteral]
  cases SignedLiteral.ofToken? t.chars <;> simp [eq_comm]

theorem mapM_read_eq_ok_iff {vs : List SignedLiteral} :
    ts.mapM read = .ok vs ↔ Values ts vs := by
  rw [mapM_eq_ok_iff, Values]
  simp only [read_eq_ok_iff]

/-- Tokens have values if each of them is a literal. -/
theorem exists_values_iff : (∃ vs, Values ts vs) ↔ ∀ t ∈ ts, t.IsLiteral := by
  induction ts with
  | nil => simp [Values]
  | cons t ts ih =>
    rw [List.forall_mem_cons, ← ih, isLiteral_iff]
    simp only [Values, read_eq_ok_iff, List.forall₂_cons_left_iff]
    constructor
    · rintro ⟨_, l, vs, hl, hvs, -⟩
      exact ⟨⟨l, hl⟩, vs, hvs⟩
    · rintro ⟨⟨l, hl⟩, vs, hvs⟩
      exact ⟨l :: vs, l, vs, hl, hvs, rfl⟩

end LineToken

section Text
variable {text : String}

theorem readClauses_dimacs_eq_ok_iff {cs : List SignedClause} :
    readClauses .dimacs (.ofText text) = .ok cs ↔
      ∃ vs, Values (dataTokens text) vs ∧ clausesOf vs = cs := by
  rw [readClauses_dimacs]
  simp only [← LineToken.mapM_read_eq_ok_iff]
  cases (dataTokens text).mapM LineToken.read <;> simp [Functor.map, Except.map]

theorem readClauses_dimacs_eq_error_iff {e : Error} :
    readClauses .dimacs (.ofText text) = .error e ↔
      ∃ before t after, dataTokens text = before ++ t :: after ∧
        (∀ u ∈ before, LineToken.IsLiteral u) ∧ ¬ t.IsLiteral ∧
        e = .badToken t.line (String.ofList t.chars) := by
  have hmap : clausesOf <$> (dataTokens text).mapM LineToken.read = .error e ↔
      (dataTokens text).mapM LineToken.read = .error e := by
    cases (dataTokens text).mapM LineToken.read <;> simp [Functor.map, Except.map]
  rw [readClauses_dimacs, hmap, mapM_eq_error_iff]
  simp only [LineToken.isLiteral_iff, LineToken.read_eq_error_iff]

end Text

/-- **A DIMACS text says what its data tokens say**, given as a text or as the bytes of one.  It has
clauses if and only if every data token is the numeral of a signed literal; otherwise the first that
is not is named, with its line.  The clauses are those of the values of the data tokens.  So every
layout of the same clauses gives these clauses, whether or not a zero stands behind the last one. -/
theorem dimacs_says_data_tokens (text : String) :
    ((∃ cs, readClauses .dimacs (.ofText text) = .ok cs) ↔ ∀ t ∈ dataTokens text, t.IsLiteral) ∧
    (∀ e, readClauses .dimacs (.ofText text) = .error e ↔
      ∃ before t after, dataTokens text = before ++ t :: after ∧
        (∀ u ∈ before, LineToken.IsLiteral u) ∧ ¬ t.IsLiteral ∧
        e = .badToken t.line (String.ofList t.chars)) ∧
    (∀ cs, readClauses .dimacs (.ofText text) = .ok cs ↔
      ∃ vs, Values (dataTokens text) vs ∧ clausesOf vs = cs) ∧
    (∀ (cs : List SignedClause) (last : SignedClause), (∀ c ∈ cs, 0 ∉ c) → 0 ∉ last →
      Values (dataTokens text) (cs.flatMap (· ++ [0]) ++ last) →
        readClauses .dimacs (.ofText text) = .ok (cs ++ if last = [] then [] else [last])) ∧
    readClauses .dimacs (.ofBytes text.toUTF8) = readClauses .dimacs (.ofText text) := by
  refine ⟨?_, fun e => readClauses_dimacs_eq_error_iff, fun cs => readClauses_dimacs_eq_ok_iff,
    fun cs last hcs hlast h => ?_, ?_⟩
  · rw [← LineToken.exists_values_iff]
    simp only [readClauses_dimacs_eq_ok_iff]
    exact ⟨fun ⟨_, vs, hvs, _⟩ => ⟨vs, hvs⟩, fun ⟨vs, hvs⟩ => ⟨_, vs, hvs, rfl⟩⟩
  · exact readClauses_dimacs_eq_ok_iff.mpr ⟨_, h, clausesOf_flatMap hcs hlast⟩
  · rw [Source.ofBytes_toUTF8]

/-- Two clauses with comments, a blank line and line breaks in them, and no zero at the end. -/
theorem data_of_broken_lines :
    let text := "c 0\n1\n\np 0\n-2 0 +3\nc\n4 \n% 5\nx"
    Values (dataTokens text) [1, -2, 0, 3, 4] ∧
      readClauses .dimacs (.ofText text) = .ok [[1, -2], [3, 4]] := by
  intro text
  have hvalues : Values (dataTokens text) [1, -2, 0, 3, 4] := by
    rw [← LineToken.mapM_read_eq_ok_iff, dataTokens, String.toList_ofList]
    rfl
  exact ⟨hvalues, (dimacs_says_data_tokens text).2.2.2.1 [[1, -2]] [3, 4] (by decide) (by decide)
    hvalues⟩

end StochasticSat
