import StochasticSat.Proofs.Command.Certification
import StochasticSat.Proofs.Text.SolutionTexts
import StochasticSat.Proofs.Tree.Writes

/-!
# Models in files

A solution that is written to a file is read back from it, whatever its literals are
(`FileSystem.loadSolution_of_saveSolution`).  A model that a search reports is certified, so what is
read back passes the check (`Outcome.Certified.readsBack`).

In a session only `saveModel` changes files.  A part of a session is judged by the files that it
leaves (`SessionT.Leaves`); one that only prints, logs and asks leaves those that it finds.  So a
session that was asked to write a model, and answers that there is one, leaves a file with a
solution that passes the check (`leaves_solveAndReport`).
-/

namespace StochasticSat

open Text

/-! ### Files -/

theorem FileSystem.loadSolution_of_saveSolution {fs fs' : FileSystem} {p : Path}
    {ls : List SignedLiteral} (h : fs.saveSolution p ls = .ok fs') :
    fs'.loadSolution p = .ok ls := by
  rw [loadSolution, contentAt_of_writeFile h]
  dsimp only
  rw [Source.ofBytes_toUTF8, readSolution_solutionText]

/-- **What is written of a model is read back**, and passes the check. -/
def Outcome.ReadsBack (inst : Instance) (outcome : Outcome) : Prop :=
  ∀ a n, outcome = .satisfied a n → ∃ ls, inst.toLiterals a = .ok ls ∧
    (∀ fs fs' p, FileSystem.saveSolution fs p ls = .ok fs' → fs'.loadSolution p = .ok ls) ∧
    inst.verify ls = .ok true

theorem Outcome.Certified.readsBack {inst : Instance} {cs : List SignedClause} {outcome : Outcome}
    (h : outcome.Certified inst cs) : outcome.ReadsBack inst := by
  intro a n heq
  obtain ⟨ls, hls, -, hverify⟩ := h a n heq
  exact ⟨ls, hls, fun _ _ _ => FileSystem.loadSolution_of_saveSolution, hverify⟩

namespace Command

/-! ### The files that a session leaves -/

namespace SessionT

/-- **A part of a session that leads from files of one kind to a result and files of another.** -/
def Leaves {α : Type} (x : SessionT Id α) (F : FileSystem → Prop) (Q : α → FileSystem → Prop) :
    Prop :=
  ∀ s a, F s.files → (x.outcomeOn s).1 = .ok a → Q a (x.outcomeOn s).2.files

section Leaves
variable {α β : Type} {F : FileSystem → Prop} {Q : α → FileSystem → Prop}
  {R : β → FileSystem → Prop} {x : SessionT Id α}

theorem Leaves.of_same (h : ∀ s, (x.outcomeOn s).2.files = s.files) : x.Leaves F fun _ => F := by
  intro s a hs _
  rw [h]
  exact hs

theorem Leaves.pure {a : α} (h : ∀ fs, F fs → Q a fs) :
    (Pure.pure a : SessionT Id α).Leaves F Q := by
  intro s b hs hb
  cases hb
  exact h _ hs

theorem Leaves.throw (stop : Stop) : (throw stop : SessionT Id α).Leaves F Q := by
  intro s a _ ha
  cases ha

theorem Leaves.bind {f : α → SessionT Id β} (hx : x.Leaves F Q) (hf : ∀ a, (f a).Leaves (Q a) R) :
    (x >>= f).Leaves F R := by
  intro s b hs hb
  rw [outcomeOn_bind] at hb ⊢
  rcases h : x.outcomeOn s with ⟨stop | a, s'⟩
  · rw [h] at hb
    cases hb
  · rw [h] at hb
    have hq := hx s a hs (by rw [h])
    rw [h] at hq
    exact hf a s' b hq hb

theorem Leaves.imp {Q' : α → FileSystem → Prop} (h : x.Leaves F Q) (hq : ∀ a fs, Q a fs → Q' a fs) :
    x.Leaves F Q' :=
  fun s a hs ha => hq _ _ (h s a hs ha)

/-- What is known of the results apart from the files. -/
theorem Leaves.of_harmless {P : α → Prop} (hp : x.Harmless P) (h : x.Leaves F Q) :
    x.Leaves F fun a fs => P a ∧ Q a fs :=
  fun s a hs ha => ⟨hp.returns s a ha, h s a hs ha⟩

theorem Leaves.of_and {p : Prop} (h : p → x.Leaves F Q) : x.Leaves (fun fs => p ∧ F fs) Q :=
  fun s a hs ha => h hs.1 s a hs.2 ha

theorem leaves_print (line : String) : (print line : SessionT Id Unit).Leaves F fun _ => F :=
  .of_same fun _ => rfl

theorem leaves_note (records : Log) : (note records : SessionT Id Unit).Leaves F fun _ => F :=
  .of_same fun _ => rfl

theorem leaves_say (level : Level) (message : String) :
    (say level message : SessionT Id Unit).Leaves F fun _ => F := leaves_note _

theorem leaves_ask (y : Id α) : (ask y).Leaves F fun _ => F := .of_same fun _ => rfl

theorem leaves_orFail (y : Except Error α) : (orFail y : SessionT Id α).Leaves F fun _ => F := by
  cases y with
  | ok a => exact .pure fun _ => id
  | error e => exact .throw _

theorem leaves_forM {f : α → SessionT Id Unit} (hf : ∀ a, (f a).Leaves F fun _ => F) :
    ∀ xs : List α, (xs.forM f).Leaves F fun _ => F
  | [] => .pure fun _ => id
  | x :: xs => by
    show (f x >>= fun _ => xs.forM f).Leaves F _
    exact (hf x).bind fun _ => leaves_forM hf xs

theorem leaves_changeFiles (change : FileSystem → Except FileFault FileSystem) :
    (changeFiles change : SessionT Id Unit).Leaves F fun _ fs' => ∃ fs, change fs = .ok fs' := by
  intro s a _ ha
  have hget : (get : SessionT Id Machine).outcomeOn s = (.ok s, s) := rfl
  rw [changeFiles, outcomeOn_bind, hget] at ha ⊢
  dsimp only at ha ⊢
  cases hfs : change s.files with
  | ok files => exact ⟨s.files, hfs⟩
  | error fault =>
    rw [hfs] at ha
    cases ha

end Leaves

end SessionT

/-! ### Solving an instance -/

section Solving
open SessionT
variable {σ : Type} [RandomStream σ] {host : Host Id} (hhost : host.Searches σ)
  {cs : List SignedClause} {inst : Instance} {F : FileSystem → Prop}

theorem leaves_runSearch (host : Host Id) (options : Options) (inst : Instance) (config : Config) :
    (runSearch host options inst config).Leaves F fun _ => F := by
  unfold runSearch
  refine (leaves_ask _).bind fun answer => ?_
  rcases answer with e | _ | result
  · exact .throw _
  · exact .throw _
  · exact (leaves_note _).bind fun _ => (leaves_note _).bind fun _ => .pure fun _ => id

theorem leaves_modelLiterals (inst : Instance) (outcome : Outcome) :
    (modelLiterals inst outcome : SessionT Id _).Leaves F fun _ => F := by
  unfold modelLiterals
  cases outcome.model? with
  | none => exact .pure fun _ => id
  | some a => exact (leaves_orFail _).bind fun ls => .pure fun _ => id

theorem leaves_checkModel (inst : Instance) (ls : List SignedLiteral) :
    (checkModel inst ls : SessionT Id Bool).Leaves F fun _ => F := by
  unfold checkModel
  refine (leaves_orFail _).bind fun ok => (leaves_print _).bind fun _ => ?_
  cases ok with
  | true => exact .pure fun _ => id
  | false => exact (leaves_say _ _).bind fun _ => .pure fun _ => id

theorem leaves_saveModel (p : Path) (ls : List SignedLiteral) :
    (saveModel p ls : SessionT Id Unit).Leaves F fun _ fs => fs.loadSolution p = .ok ls := by
  refine (leaves_changeFiles _).bind fun _ => (leaves_say _ _).imp fun _ fs' h => ?_
  obtain ⟨fs, hsave⟩ := h
  exact FileSystem.loadSolution_of_saveSolution hsave

/-- A model that is reported is in the file that it is written to. -/
theorem leaves_reportModel (options : Options) (inst : Instance) (p : Path)
    (ls : List SignedLiteral) : (reportModel options inst (some p) ls : SessionT Id Bool).Leaves F
      fun _ fs => fs.loadSolution p = .ok ls := by
  unfold reportModel
  extract_lets save
  have hsave : ∀ ok, (save ok).Leaves F fun _ fs => fs.loadSolution p = .ok ls :=
    fun ok => (leaves_saveModel p ls).bind fun _ => .pure fun _ => id
  split_ifs
  · exact (leaves_checkModel inst ls).bind hsave
  · exact Leaves.bind (.pure fun _ => id) hsave

include hhost in
/-- **A session that answers that there is a model leaves it in its file**: what is read from there
passes the check. -/
theorem leaves_solveAndReport (hinst : Instance.build cs = .ok inst) (options : Options)
    (label : Option Path) (parseTime : Duration) (p : Path) :
    (solveAndReport host options inst label parseTime (some p)).Leaves (fun _ => True)
      fun ok fs => ok = true → ∃ ls, fs.loadSolution p = .ok ls ∧ inst.verify ls = .ok true := by
  unfold solveAndReport
  extract_lets search
  have hsearch : ∀ u, (search u).Leaves (fun _ => True)
      fun ok fs => ok = true → ∃ ls, fs.loadSolution p = .ok ls ∧ inst.verify ls = .ok true := by
    intro u
    refine (leaves_say _ _).bind fun _ => ?_
    refine (Leaves.of_harmless (harmless_orFail fun e => toConfig_eq_error)
      (leaves_orFail _)).bind fun config => .of_and fun hc => ?_
    refine (Leaves.of_harmless (harmless_runSearch hhost hc)
      (leaves_runSearch _ _ _ _)).bind fun report => .of_and fun hreport => ?_
    refine (Leaves.of_harmless (harmless_modelLiterals (hreport.2.certified hinst))
      (leaves_modelLiterals _ _)).bind fun ls? => .of_and fun hls => ?_
    extract_lets tell
    -- what follows a written model only prints
    have htell : ∀ (F : FileSystem → Prop) ok,
        (tell ok).Leaves F fun ok' fs => ok' = ok ∧ F fs := by
      intro F ok
      unfold tell
      extract_lets finish showSolution
      have hfinish : ∀ u, (finish u).Leaves F fun ok' fs => ok' = ok ∧ F fs :=
        fun u => (leaves_print _).bind fun _ => .pure fun _ h => ⟨rfl, h⟩
      have hshow : ∀ u, (showSolution u).Leaves F fun ok' fs => ok' = ok ∧ F fs := by
        intro u
        unfold showSolution
        cases ls? with
        | none => exact hfinish ()
        | some ls =>
          dsimp only
          split_ifs
          · exact (leaves_print _).bind hfinish
          · exact hfinish ()
      split_ifs
      · refine (leaves_ask _).bind fun memory => ?_
        exact (leaves_forM leaves_print _).bind hshow
      · exact hshow ()
    cases ls? with
    | none =>
      refine Leaves.bind (Q := fun ok _ => ok = false) (.pure fun _ _ => rfl) fun ok => ?_
      refine (htell _ ok).imp fun ok' fs h hok => ?_
      obtain ⟨rfl, rfl⟩ := h
      cases hok
    | some ls =>
      refine (leaves_reportModel options inst p ls).bind fun ok => (htell _ ok).imp ?_
      exact fun _ fs h _ => ⟨ls, h.2, hls.2 ls rfl⟩
  cases label with
  | none => exact hsearch ()
  | some p => exact (leaves_print _).bind hsearch

end Solving

end Command

/-! ### From literals to files and back -/

/-- **Solutions are read back from their files.**  What is written of signed literals is read as
these literals, from its bytes and from the file that it is written to.  A text is read as a
solution if and only if each of the tokens between its blank characters is the numeral of a signed
literal, and says the values of all of them in their order; otherwise the first token that is none
is named, with its line.  What is written of any model that a search reports, whatever the
strategy, the budget, the observer and the number of its workers, is read back as literals that pass
the check; and a session that was asked to write its model, and answers that there is one, leaves
a file with such literals. -/
theorem solutions_are_read_back :
    (∀ ls, readSolution (.ofBytes (solutionText ls).toUTF8) = .ok ls ∧
      ∀ fs fs' p, FileSystem.saveSolution fs p ls = .ok fs' → fs'.loadSolution p = .ok ls) ∧
    (∀ text, (solutionTokens text).map (·.chars) = tokens text.toList ∧
      ((∃ ls, readSolution (.ofBytes text.toUTF8) = .ok ls) ↔
        ∀ t ∈ solutionTokens text, t.IsLiteral) ∧
      (∀ ls, readSolution (.ofBytes text.toUTF8) = .ok ls ↔ Values (solutionTokens text) ls) ∧
      ∀ e, readSolution (.ofBytes text.toUTF8) = .error e ↔
        ∃ before t after, solutionTokens text = before ++ t :: after ∧
          (∀ u ∈ before, LineToken.IsLiteral u) ∧ ¬ t.IsLiteral ∧
          e = .badToken t.line (String.ofList t.chars)) ∧
    ∀ cs inst, Instance.build cs = .ok inst →
      (∀ (σ ω : Type) [RandomStream σ] (o : Observer ω) (s : σ) (w : ω),
        (∀ config threads contest budget result,
          Contest.start inst config threads o s w = .ok contest →
          contest.Yields o budget result → result.report.outcome.ReadsBack inst) ∧
        ∀ e, Engine.Reachable σ inst e → ∀ budget clock n report,
          ((Run.start o e s w).advance o budget clock n).report = some report →
            report.outcome.ReadsBack inst) ∧
      ∀ (σ : Type) [RandomStream σ] (host : Command.Host Id), host.Searches σ →
        ∀ options label parseTime p,
          (Command.solveAndReport host options inst label parseTime (some p)).Leaves
            (fun _ => True) fun ok fs =>
              ok = true → ∃ ls, fs.loadSolution p = .ok ls ∧ inst.verify ls = .ok true := by
  refine ⟨fun ls => ⟨?_, fun _ _ _ => FileSystem.loadSolution_of_saveSolution⟩, fun text => ?_,
    fun cs inst h => ⟨fun σ ω _ o s w => ?_, fun σ _ host hhost options label parseTime p =>
      Command.leaves_solveAndReport hhost h options label parseTime p⟩⟩
  · rw [Source.ofBytes_toUTF8, readSolution_solutionText]
  · rw [Source.ofBytes_toUTF8]
    exact ⟨map_chars_solutionTokens text, exists_readSolution_iff,
      fun ls => readSolution_eq_ok_iff, fun e => readSolution_eq_error_iff⟩
  · refine ⟨fun config threads contest budget result hstart hyields => ?_,
      fun e he budget clock n report hr => ?_⟩
    · exact ((hyields.honest o.keeps_true trivial hstart).outcome.certified h).readsBack
    · obtain ⟨hi, hb⟩ := he.steady
      exact (Run.certified_of_advance h hi hb o budget clock n s w hr).readsBack

/-- The least and the greatest literal, written to a new file and read from it; and a bad token on
the third line of a text. -/
theorem extremes_are_read_back :
    let ls : List SignedLiteral := [Int32.minValue, 0, Int32.maxValue]
    (∃ fs, FileSystem.saveSolution ⟨.directory [], []⟩ "m" ls = .ok fs ∧
      fs.loadSolution "m" = .ok ls) ∧
    readSolution (.ofBytes "1 +2\n\n x3".toUTF8) = .error (.badToken 3 "x3") ∧
    ((Command.solveAndReport (Command.Host.still 0) .default (.ofClauses [[1, -2], [2]]) none .zero
        (some "m")).Leaves (fun _ => True) fun ok fs => ok = true → ∃ ls,
          fs.loadSolution "m" = .ok ls ∧
            (Instance.ofClauses [[1, -2], [2]]).verify ls = .ok true) := by
  intro ls
  obtain ⟨hback, hread, hmodels⟩ := solutions_are_read_back
  have hpieces : Path.pieces "m" = ["m"] := by decide
  have hsize : "m".utf8ByteSize ≤ FileSystem.maxNameBytes := by decide
  have hresolve : FileSystem.resolve ⟨.directory [], []⟩ .write "m" = .ok (.absent [] "m") := by
    refine (FileSystem.resolve_eq_ok_iff (by decide)).mpr ⟨by rw [hpieces]; decide, ?_⟩
    rw [hpieces]
    simp [FileSystem.walk, FileSystem.start, Node.at?, Path.staysPut, hsize]
  have hsave : FileSystem.saveSolution ⟨.directory [], []⟩ "m" ls =
      .ok ⟨.directory [("m", .file (solutionText ls).toUTF8)], []⟩ := by
    rw [FileSystem.saveSolution, FileSystem.writeFile, hresolve]
    rfl
  have hinst : Instance.build [[1, -2], [2]] = .ok (.ofClauses [[1, -2], [2]]) := by
    refine Instance.build_eq_ok_iff_acceptable.mpr ⟨fun c hc => ?_, rfl⟩
    rcases List.mem_pair.mp hc with rfl | rfl <;> constructor <;> decide
  refine ⟨⟨_, hsave, (hback ls).2 _ _ _ hsave⟩, ?_, ?_⟩
  · have htokens : solutionTokens "1 +2\n\n x3" =
        [⟨1, ['1']⟩, ⟨1, ['+', '2']⟩] ++ ⟨3, ['x', '3']⟩ :: [] := by
      rw [solutionTokens, lineRows, tokenRows, String.toList_ofList]
      rfl
    refine ((hread _).2.2.2 _).mpr ⟨_, _, _, htokens, ?_, ?_, rfl⟩
    · simp only [List.forall_mem_cons, LineToken.isLiteral_iff]
      exact ⟨⟨1, rfl⟩, ⟨2, rfl⟩, List.forall_mem_nil _⟩
    · rw [LineToken.isLiteral_iff]
      rintro ⟨l, hl⟩
      cases hl
  · exact (hmodels _ _ hinst).2 Seeded _ (Command.Host.still_searches 0) _ _ _ _

end StochasticSat
