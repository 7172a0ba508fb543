import StochasticSat.Proofs.Text.TokenRows
import StochasticSat.Tree.InstanceFiles

/-!
# Detecting the dialect

A text is taken for a DIMACS text if its first line that is neither blank nor a comment begins with
`p cnf` (`detect_eq_dimacs_iff`).  No such text can be read as a plain one, since its first line
that is not blank begins with a letter (`exists_refusal`).  Read as a DIMACS text it says what the
lines behind the header say (`readClauses_dimacs_of_headed`).  So detection never sends a text to
the wrong reader (`detection_never_misroutes`).
-/

namespace StochasticSat

open Text

/-! ### Headers -/

/-- Whether a line with these tokens says nothing about the dialect. -/
def isPreface (ts : List (List Char)) : Bool := ts.isEmpty || ts.head? == some ['c']

/-- Whether a line with these tokens is the header of a DIMACS text. -/
def isHeader (ts : List (List Char)) : Bool := ts.take 2 == [['p'], ['c', 'n', 'f']]

/-- **The lines of a text with a header**: blank lines and comments, the header, and the lines
behind it. -/
structure Headed (text : String) (before : List (List Char)) (header : List Char)
    (after : List (List Char)) : Prop where
  lines_eq : text.toList.splitOn '\n' = before ++ header :: after
  preface : ∀ line ∈ before, isPreface (tokens line) = true
  header : isHeader (tokens header) = true

section Tokens
variable {ts : List (List Char)}

theorem isPreface_iff : isPreface ts = true ↔ ts = [] ∨ ∃ more, ts = ['c'] :: more := by
  cases ts <;> simp [isPreface]

theorem isHeader_iff : isHeader ts = true ↔ ∃ more, ts = ['p'] :: ['c', 'n', 'f'] :: more := by
  rcases ts with _ | ⟨t, _ | ⟨u, ts⟩⟩ <;> simp [isHeader]

theorem isSilent_of_isPreface (h : isPreface ts = true) : isSilent ts = true := by
  obtain rfl | ⟨more, rfl⟩ := isPreface_iff.mp h <;> rfl

theorem isSilent_of_isHeader (h : isHeader ts = true) : isSilent ts = true := by
  obtain ⟨more, rfl⟩ := isHeader_iff.mp h
  rfl

end Tokens

theorem detectLines_eq (ls : List (List Char)) : detectLines ls =
    if ((ls.map tokens).find? (!isPreface ·)).any isHeader then .dimacs else .plain := by
  induction ls with
  | nil => rfl
  | cons line ls ih =>
    rw [detectLines, List.map_cons, List.find?_cons]
    split
    · next h => rw [h]; exact ih
    · next h => rw [h]; exact ih
    · next h => rw [h]; rfl
    · next hnil hc hp =>
      have hpreface : isPreface (tokens line) = false := by
        rw [Bool.eq_false_iff, ne_eq, isPreface_iff]
        rintro (h | ⟨more, h⟩)
        · exact hnil h
        · exact hc more h
      have hheader : isHeader (tokens line) = false := by
        rw [Bool.eq_false_iff, ne_eq, isHeader_iff]
        rintro ⟨more, h⟩
        exact hp more h
      rw [hpreface]
      simp [hheader]

theorem detect_eq (text : String) : Dialect.detect text =
    if ((tokenRows text).find? (!isPreface ·)).any isHeader then .dimacs else .plain := by
  rw [Dialect.detect, detectLines_eq]
  obtain ⟨last, rfl | rfl, hlast⟩ := exists_tokenRows_eq text
  · rw [hlast, List.append_nil]
  · rw [hlast, List.find?_append]
    simp [isPreface]

/-- **A text is taken for a DIMACS text if and only if it has a header.** -/
theorem detect_eq_dimacs_iff {text : String} :
    Dialect.detect text = .dimacs ↔ ∃ before header after, Headed text before header after := by
  have hite {p : Bool} : (if p then Dialect.dimacs else .plain) = .dimacs ↔ p = true := by
    cases p <;> simp
  rw [detect_eq, hite, Option.any_eq_true]
  simp only [List.find?_eq_some_iff_append, tokenRows, List.map_eq_append_iff, List.map_eq_cons_iff]
  constructor
  · rintro ⟨_, ⟨-, _, _, ⟨before, _, hsplit, rfl, header, after, rfl, rfl, rfl⟩, hbefore⟩, hheader⟩
    exact ⟨before, header, after, hsplit, by simpa using hbefore, hheader⟩
  · rintro ⟨before, header, after, hsplit, hbefore, hheader⟩
    have hpreface : isPreface (tokens header) = false := by
      obtain ⟨more, h⟩ := isHeader_iff.mp hheader
      rw [h]
      rfl
    exact ⟨_, ⟨by simp [hpreface], _, _, ⟨before, _, hsplit, rfl, header, after, rfl, rfl, rfl⟩,
      by simpa using hbefore⟩, hheader⟩

/-! ### The plain reader -/

theorem clauseRows_append (rows rows' : List (List LineToken)) :
    clauseRows (rows ++ rows') = clauseRows rows ++ clauseRows rows' :=
  List.filter_append rows rows'

theorem clauseRows_of_blank {rows : List (List (List Char))} (h : ∀ ts ∈ rows, ts = []) (n : Nat) :
    clauseRows (numbered n rows) = [] := by
  induction rows generalizing n with
  | nil => rfl
  | cons ts rows ih =>
    obtain ⟨rfl, hrows⟩ := List.forall_mem_cons.mp h
    exact ih hrows (n + 1)

/-- **A plain text is refused at its first line that is not blank**, if that line begins with
something else than a literal. -/
theorem readClauses_plain_of_first {text : String} {blanks rest more : List (List Char)}
    {first word : List Char} (hlines : text.toList.splitOn '\n' = blanks ++ first :: rest)
    (hblank : ∀ line ∈ blanks, tokens line = []) (hfirst : tokens first = word :: more)
    (hword : ¬ LineToken.IsLiteral ⟨blanks.length + 1, word⟩) :
    readClauses .plain (.ofText text) = .error (.badToken (blanks.length + 1) (.ofList word)) := by
  have hread : LineToken.read ⟨blanks.length + 1, word⟩ =
      .error (.badToken (blanks.length + 1) (.ofList word)) :=
    LineToken.read_eq_error_iff.mpr ⟨hword, rfl⟩
  have hrows : clauseRows (lineRows text) =
      (⟨blanks.length + 1, word⟩ :: more.map fun t => ⟨blanks.length + 1, t⟩) ::
        clauseRows (numbered (blanks.length + 2) (rest.map tokens)) := by
    rw [lineRows, tokenRows, hlines, List.map_append, numbered_append, clauseRows_append,
      clauseRows_of_blank (by simpa using hblank), List.map_cons, numbered_cons, hfirst,
      List.length_map, Nat.add_comm 1]
    rfl
  rw [readClauses_plain, hrows, List.mapM_cons, List.mapM_cons, hread]
  rfl

/-- Behind blank lines and comments, with a header at the end of them, the first line that is not
blank begins with a letter. -/
theorem exists_first_of_header {before : List (List Char)} {header : List Char}
    (hbefore : ∀ line ∈ before, isPreface (tokens line) = true)
    (hheader : isHeader (tokens header) = true) (after : List (List Char)) :
    ∃ blanks first rest word more, before ++ header :: after = blanks ++ first :: rest ∧
      (∀ line ∈ blanks, tokens line = []) ∧ tokens first = word :: more ∧
      (word = ['c'] ∨ word = ['p']) := by
  induction before with
  | nil =>
    obtain ⟨more, hmore⟩ := isHeader_iff.mp hheader
    exact ⟨[], header, after, _, _, rfl, List.forall_mem_nil _, hmore, Or.inr rfl⟩
  | cons line before ih =>
    obtain ⟨hline, hbefore⟩ := List.forall_mem_cons.mp hbefore
    -- a comment is the first line that is not blank, and the header is not reached
    obtain hblank | ⟨more, hmore⟩ := isPreface_iff.mp hline
    · obtain ⟨blanks, first, rest, word, more, hlines, hblanks, hfirst⟩ := ih hbefore
      exact ⟨line :: blanks, first, rest, word, more, congrArg (line :: ·) hlines,
        List.forall_mem_cons.mpr ⟨hblank, hblanks⟩, hfirst⟩
    · exact ⟨[], line, _, _, _, rfl, List.forall_mem_nil _, hmore, Or.inl rfl⟩

/-- **No text with a header can be read as a plain one.** -/
theorem exists_refusal {text : String} (h : Dialect.detect text = .dimacs) :
    ∃ blanks first rest word more, text.toList.splitOn '\n' = blanks ++ first :: rest ∧
      (∀ line ∈ blanks, tokens line = []) ∧ tokens first = word :: more ∧
      readClauses .plain (.ofText text) =
        .error (.badToken (blanks.length + 1) (.ofList word)) := by
  obtain ⟨before, header, after, hheaded⟩ := detect_eq_dimacs_iff.mp h
  obtain ⟨blanks, first, rest, word, more, hlines, hblanks, hfirst, hword⟩ :=
    exists_first_of_header hheaded.preface hheaded.header after
  rw [← hheaded.lines_eq] at hlines
  have hmark := not_isLiteral_of_mark (hword.imp_right Or.inl) (blanks.length + 1)
  exact ⟨blanks, first, rest, word, more, hlines, hblanks, hfirst,
    readClauses_plain_of_first hlines hblanks hfirst hmark⟩

theorem detect_eq_plain {text : String} {cs : List SignedClause}
    (h : readClauses .plain (.ofText text) = .ok cs) : Dialect.detect text = .plain := by
  cases hdetect : Dialect.detect text with
  | plain => rfl
  | dimacs =>
    obtain ⟨_, _, _, _, _, -, -, -, herror⟩ := exists_refusal hdetect
    rw [h] at herror
    cases herror

theorem instanceOfBytes_toUTF8 (dialect? : Option Dialect) (text : String) :
    instanceOfBytes dialect? text.toUTF8 = instanceOfText dialect? text := by
  rw [instanceOfBytes, fromUTF8?_toUTF8]

/-- What is taken for a plain text is read as one, unless the other dialect is asked for. -/
theorem loads_of_detect {text : String} (h : Dialect.detect text = .plain)
    (dialect? : Option Dialect) (hd : dialect? ≠ some .dimacs) :
    instanceOfText dialect? text = readInstance .plain (.ofText text) ∧
      instanceOfBytes dialect? text.toUTF8 = readInstance .plain (.ofText text) ∧
      ∀ (fs : FileSystem) (p : Path), fs.contentAt p = .ok text.toUTF8 →
        fs.loadInstance dialect? p = readInstance .plain (.ofText text) := by
  have hplain : dialect?.getD (.detect text) = .plain := by
    rw [h]
    rcases dialect? with _ | _ | _
    · rfl
    · rfl
    · exact absurd rfl hd
  have htext : instanceOfText dialect? text = readInstance .plain (.ofText text) := by
    rw [instanceOfText, hplain]
  have hbytes : instanceOfBytes dialect? text.toUTF8 = readInstance .plain (.ofText text) :=
    (instanceOfBytes_toUTF8 dialect? text).trans htext
  refine ⟨htext, hbytes, fun fs p hp => ?_⟩
  rw [FileSystem.loadInstance, hp]
  exact hbytes

/-! ### The DIMACS reader -/

/-- An error in a text, when `k` lines are put before the text. -/
def Error.below (k : Nat) : Error → Error
  | .badToken n token => .badToken (n + k) token
  | e => e

/-- A token of a text, when `k` lines are put before the text. -/
def LineToken.below (k : Nat) (t : LineToken) : LineToken := ⟨t.line + k, t.chars⟩

theorem LineToken.read_below (k : Nat) (t : LineToken) :
    (t.below k).read = t.read.mapError (·.below k) := by
  rw [read, read, readLiteral, readLiteral, below]
  cases SignedLiteral.ofToken? t.chars <;> rfl

theorem dataTokensFrom_add (n k : Nat) (rows : List (List (List Char))) :
    dataTokensFrom (n + k) rows = (dataTokensFrom n rows).map (·.below k) := by
  induction rows generalizing n with
  | nil => rfl
  | cons ts rows ih =>
    rw [dataTokensFrom_cons, dataTokensFrom_cons, Nat.add_right_comm, ih]
    split_ifs
    · rfl
    · rfl
    · rw [List.map_append, List.map_map]
      rfl

/-- **A DIMACS text says what stands behind its header**, where errors have their lines in the whole
text. -/
theorem readClauses_dimacs_of_headed {text : String} {before after : List (List Char)}
    {header : List Char} (h : Headed text before header after) :
    readClauses .dimacs (.ofText text) =
      (readClauses .dimacs (.ofText (joinLines after))).mapError (·.below (before.length + 1)) := by
  have hsilent : ∀ ts ∈ (before ++ [header]).map tokens, isSilent ts = true := by
    simp only [List.map_append, List.forall_mem_append, List.forall_mem_map, List.map_cons,
      List.map_nil, List.forall_mem_singleton]
    exact ⟨fun line hline => isSilent_of_isPreface (h.preface line hline),
      isSilent_of_isHeader h.header⟩
  have hrows : tokenRows text = (before ++ [header]).map tokens ++ after.map tokens := by
    rw [tokenRows, h.lines_eq, ← List.map_append, List.append_assoc, List.singleton_append]
  have hafter : ∀ line ∈ after, '\n' ∉ line := by
    intro line hline
    have hmem : line ∈ text.toList.splitOn '\n' := by simp [h.lines_eq, hline]
    exact notMem_of_mem_splitOn hmem
  have hdata : dataTokens text =
      (dataTokens (joinLines after)).map (·.below (before.length + 1)) := by
    rw [dataTokens_eq_tokenRows, dataTokens_eq_tokenRows, dataTokensFrom_joinLines hafter, hrows,
      dataTokensFrom_append_of_isSilent hsilent, dataTokensFrom_add, List.length_map,
      List.length_append, List.length_singleton]
  rw [readClauses_dimacs, readClauses_dimacs, hdata, List.mapM_map,
    mapM_eq_mapError fun t _ => t.read_below (before.length + 1)]
  cases (dataTokens (joinLines after)).mapM LineToken.read <;> rfl

/-! ### Detection and the readers -/

/-- **Detection never sends a text to the wrong reader.**  A text that is taken for a DIMACS text
has a header: as a plain text it is refused at its first line that is not blank, and as a DIMACS
text it says what stands behind the header.  So a text that can be read as a plain one is taken for
a plain one, and its instance is the same with and without the dialect. -/
theorem detection_never_misroutes (text : String) :
    (∀ dialect, readClauses dialect (.ofBytes text.toUTF8) = readClauses dialect (.ofText text)) ∧
    (∀ cs, readClauses .plain (.ofText text) = .ok cs → Dialect.detect text = .plain ∧
      instanceOfText none text = instanceOfText (some .plain) text ∧
      instanceOfBytes none text.toUTF8 = instanceOfBytes (some .plain) text.toUTF8 ∧
      ∀ (fs : FileSystem) (p : Path), fs.contentAt p = .ok text.toUTF8 →
        fs.loadInstance none p = fs.loadInstance (some .plain) p) ∧
    (Dialect.detect text = .dimacs ↔ ∃ before header after, Headed text before header after) ∧
    (Dialect.detect text = .dimacs →
      ∃ blanks first rest word more, text.toList.splitOn '\n' = blanks ++ first :: rest ∧
        (∀ line ∈ blanks, tokens line = []) ∧ tokens first = word :: more ∧
        readClauses .plain (.ofText text) =
          .error (.badToken (blanks.length + 1) (.ofList word))) ∧
    ∀ before header after, Headed text before header after →
      readClauses .dimacs (.ofText text) =
        (readClauses .dimacs (.ofText (joinLines after))).mapError
          (·.below (before.length + 1)) := by
  refine ⟨fun _ => by rw [Source.ofBytes_toUTF8], fun cs hcs => ?_, detect_eq_dimacs_iff,
    exists_refusal, fun _ _ _ => readClauses_dimacs_of_headed⟩
  have hplain := detect_eq_plain hcs
  obtain ⟨htext, hbytes, hload⟩ := loads_of_detect hplain none (by decide)
  obtain ⟨htext', hbytes', hload'⟩ := loads_of_detect hplain (some .plain) (by decide)
  exact ⟨hplain, htext.trans htext'.symm, hbytes.trans hbytes'.symm,
    fun fs p hp => (hload fs p hp).trans (hload' fs p hp).symm⟩

/-- A comment, a blank line and a header that is indented, with a bad token behind them; and a plain
text. -/
theorem detection_of_indented_header :
    let text := "c x\n\n  p cnf 9\n1 y"
    Dialect.detect text = .dimacs ∧
      readClauses .plain (.ofText text) = .error (.badToken 1 "c") ∧
      readClauses .dimacs (.ofText text) =
        (readClauses .dimacs (.ofText "1 y")).mapError (·.below 3) ∧
      Dialect.detect "+1 -2" = .plain := by
  intro text
  have hlines : text.toList.splitOn '\n' = [['c', ' ', 'x'], []] ++
      [' ', ' ', 'p', ' ', 'c', 'n', 'f', ' ', '9'] :: [['1', ' ', 'y']] := by
    rw [String.toList_ofList]
    rfl
  have hheaded : Headed text _ _ _ := ⟨hlines, by decide, by decide⟩
  have hplain : readClauses .plain (.ofText "+1 -2") = .ok [[1, -2]] := by
    rw [Source.ofText, String.toList_ofList]
    rfl
  obtain ⟨-, -, hiff, -, hdimacs⟩ := detection_never_misroutes text
  refine ⟨hiff.mpr ⟨_, _, _, hheaded⟩, ?_, hdimacs _ _ _ hheaded,
    ((detection_never_misroutes "+1 -2").2.1 _ hplain).1⟩
  rw [Source.ofText, String.toList_ofList]
  rfl

end StochasticSat
