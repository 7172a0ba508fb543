import Mathlib
import StochasticSat.Proofs.Formula.Rebuilding
import StochasticSat.Proofs.Text.Detection

/-!
# Reading an instance back from its text

The text of an instance has a line for each of its clauses, with the tokens of the signed literals
in their order (`lines_text`, `tokens_line`).  The plain reading of the lines gives the signed
clauses (`readClauses_text`), so the text is taken for a plain one.  Building from the clauses gives
the instance again, so what was printed is read back as the same instance, whichever way it is
loaded (`printed_is_read_back`).
-/

namespace StochasticSat

open Text

variable {cs : List SignedClause} {inst : Instance}

/-! ### The line of a clause -/

/-- The line that writes a clause. -/
def SignedClause.line (c : SignedClause) : List Char := [' '].intercalate (c.map (·.token))

theorem tokens_line (c : SignedClause) : tokens c.line = c.map (·.token) := by
  refine tokens_intercalate (by decide) fun t ht => ?_
  obtain ⟨l, -, rfl⟩ := List.mem_map.mp ht
  exact l.isToken_token

theorem mem_line {c : SignedClause} {x : Char} (hx : x ∈ c.line) :
    x = ' ' ∨ isBlank x = false := by
  obtain hx | ⟨t, ht, hx⟩ := mem_of_mem_intercalate hx
  · exact Or.inl (List.mem_singleton.mp hx)
  · obtain ⟨l, -, rfl⟩ := List.mem_map.mp ht
    exact Or.inr (l.isToken_token.not_blank x hx)

theorem notMem_line (c : SignedClause) : '\n' ∉ c.line ∧ '\r' ∉ c.line :=
  ⟨fun h => absurd (mem_line h) (by decide), fun h => absurd (mem_line h) (by decide)⟩

/-! ### Reading the lines -/

theorem mapM_readLiteral (n : Nat) (c : SignedClause) :
    (c.map (·.token)).mapM (readLiteral n) = .ok c := by
  induction c with
  | nil => rfl
  | cons l c ih =>
    rw [List.map_cons, List.mapM_cons, readLiteral_token, ih]
    rfl

/-- **Lines of clauses are read as these clauses**, in their order. -/
theorem plainOnto_map_line (h : ∀ c ∈ cs, c ≠ []) (done : Array SignedClause) (n : Nat) :
    plainOnto done n ((cs.map (·.line)).map some) = .ok (done ++ cs.toArray) := by
  induction cs generalizing done n with
  | nil => rw [Array.append_empty]; rfl
  | cons c cs ih =>
    obtain ⟨hc, hcs⟩ := List.forall_mem_cons.mp h
    have hblank : (c.map SignedLiteral.token).isEmpty = false := by simpa using hc
    rw [List.map_cons, List.map_cons, plainOnto_some, tokens_line, hblank, mapM_readLiteral,
      if_neg Bool.false_ne_true]
    show plainOnto (done.push c) (n + 1) _ = _
    rw [ih hcs]
    simp

namespace Instance

/-! ### The text of an instance -/

theorem toList_text (inst : Instance) :
    inst.text.toList = (inst.signedClauses.map (·.line)).flatMap (· ++ ['\n']) := by
  rw [text, String.toList_join, signedClauses, List.flatMap_map, List.flatMap_map, List.flatMap_map]
  refine List.flatMap_congr fun c _ => ?_
  rw [String.toList_append, toList_signedText]
  rfl

/-- **The lines of the text are those of the clauses.** -/
theorem lines_text (inst : Instance) :
    lines inst.text.toList = inst.signedClauses.map (·.line) := by
  rw [toList_text, lines_flatMap_feed]
  intro line hline
  obtain ⟨c, -, rfl⟩ := List.mem_map.mp hline
  exact notMem_line c

theorem readClauses_text (h : ∀ c ∈ inst.signedClauses, c ≠ []) :
    readClauses .plain (.ofText inst.text) = .ok inst.signedClauses := by
  rw [readClauses, Source.ofText, lines_text, plainOnto_map_line h]
  simp

end Instance

/-! ### Reading it back -/

theorem result_readInstance (dialect : Dialect) (source : Source) :
    (readInstance dialect source).result = readClauses dialect source >>= Instance.build := by
  unfold readInstance
  cases readClauses dialect source with
  | error e => rfl
  | ok cs =>
    cases hbuild : Instance.build cs <;> simp [Instance.buildLogged, hbuild, bind, Except.bind]

namespace Instance

/-- **A printed instance is read back as the same instance**: its text is taken for a plain one, and
reading it as plain clauses gives the instance with its clauses, its numbering and its occurrences.
So does loading it from a text or from a file with that text in it, unless the other dialect is
asked for, and what is read back is printed as the same text. -/
theorem printed_is_read_back (h : build cs = .ok inst) :
    Dialect.detect inst.text = .plain ∧
      (readInstance .plain (.ofText inst.text)).result = .ok inst ∧
      (∀ dialect?, dialect? ≠ some .dimacs →
        (instanceOfText dialect? inst.text).result = .ok inst ∧
        (instanceOfBytes dialect? inst.text.toUTF8).result = .ok inst ∧
        ∀ (fs : FileSystem) (p : Path), fs.contentAt p = .ok inst.text.toUTF8 →
          (fs.loadInstance dialect? p).result = .ok inst) ∧
      ∀ again, (readInstance .plain (.ofText inst.text)).result = .ok again →
        again.text = inst.text := by
  have hbuild := build_signedClauses h
  have hclauses : readClauses .plain (.ofText inst.text) = .ok inst.signedClauses :=
    readClauses_text fun c hc => ((build_eq_ok_iff_acceptable.mp hbuild).1 c hc).nonempty
  have hread : (readInstance .plain (.ofText inst.text)).result = .ok inst := by
    rw [result_readInstance, hclauses]
    exact hbuild
  have hdetect := detect_eq_plain hclauses
  refine ⟨hdetect, hread, fun dialect? hd => ?_, fun again hagain => ?_⟩
  · obtain ⟨htext, hbytes, hload⟩ := loads_of_detect hdetect dialect? hd
    exact ⟨by rw [htext, hread], by rw [hbytes, hread], fun fs p hp => by rw [hload fs p hp, hread]⟩
  · rw [Except.ok.inj (hread.symm.trans hagain)]

/-- A repeated literal is not printed, and its clause is read back without it. -/
theorem read_back_of_repeated :
    let inst := ofClauses [[7, -3, 7], [3, 5]]
    let fs : FileSystem := ⟨.directory [("two.cnf", .file inst.text.toUTF8)], []⟩
    inst.text = "7 -3\n3 5\n" ∧ (instanceOfText none inst.text).result = .ok inst ∧
      (fs.loadInstance none "two.cnf").result = .ok inst := by
  intro inst fs
  have h : build [[7, -3, 7], [3, 5]] = .ok inst := rfl
  have hfile : fs.contentAt "two.cnf" = .ok inst.text.toUTF8 := by
    have hpieces : Path.pieces "two.cnf" = ["two.cnf"] := by decide
    have hfault : FileSystem.pathFault? ["two.cnf"] = none := by decide
    have hsize : ¬ 255 < "two.cnf".utf8ByteSize := by decide
    simp [fs, FileSystem.contentAt, FileSystem.node, FileSystem.resolve, hpieces,
      FileSystem.resolvePieces, hfault, FileSystem.start, FileSystem.walk, Node.at?, Node.child?,
      Path.staysPut, FileSystem.maxNameBytes, hsize]
  obtain ⟨hload, -, hfiles⟩ := (printed_is_read_back h).2.2.1 none (by decide)
  exact ⟨by cbv, hload, hfiles fs "two.cnf" hfile⟩

end Instance

end StochasticSat
