import StochasticSat.Command.Program
import StochasticSat.Proofs.Command.Worlds
import StochasticSat.Proofs.Text.Printing
import StochasticSat.Proofs.Tree.Walks

/-!
# Runs of directories

A directory run is the runs of its files, one after the other (`directories_run_their_files`).  Each
file comes to what it comes to alone: the outcome of its instance, or the error for which it is none
(`FileRun`).  No file has a part in the result of another, since no state is kept between them but
the world of the host, in which every search repeats.

`exists_run` is the step: what a directory does with one file is the run of that file, and one more
in its tally.  `exists_runs` is the run over all files, and `exists_directoryRun` adds what comes
before and after them.
-/

namespace StochasticSat

/-- What a file is read as is built from clauses. -/
theorem FileSystem.exists_build_of_loadInstance {fs : FileSystem} {dialect? : Option Dialect}
    {p : Path} {inst : Instance} (h : (fs.loadInstance dialect? p).result = .ok inst) :
    ∃ cs, Instance.build cs = .ok inst := by
  unfold FileSystem.loadInstance at h
  split at h
  · unfold instanceOfBytes at h
    split at h
    · rw [instanceOfText, result_readInstance] at h
      cases hcs : readClauses _ _ with
      | error e => rw [hcs] at h; cases h
      | ok cs => rw [hcs] at h; exact ⟨cs, h⟩
    · cases h
  · cases h

namespace Command

open Decimal

variable {τ : Type} {host : Host (StateM τ)} {options : Options} {fs : FileSystem} {t t' : τ}
  {solve : Instance → Outcome}

/-! ### What runs come to -/

/-- **What the run of a file comes to**, by the outcomes of instances. -/
inductive FileRun (solve : Instance → Outcome) (options : Options) (fs : FileSystem) (p : Path)
    (run : Effect τ Bool) : Prop
  | solved {inst : Instance} {text : String}
    (load : (fs.loadInstance options.dialect p).result = .ok inst)
    (result : run.result = .ok (solve inst).isSatisfied)
    (text : run.text = text ++ outcomeText (solve inst) ++ "\n")
  | refused {error : Error} (load : (fs.loadInstance options.dialect p).result = .error error)
    (result : run.result = .error (.failed error)) (text : run.text = "")

/-- **Files that run one after the other**, each as if it were the only one, in the world that the
last one has left. -/
inductive InTurn (host : Host (StateM τ)) (options : Options) (fs : FileSystem) :
    τ → List (Path × Effect τ Bool) → τ → Prop
  | nil (t : τ) : InTurn host options fs t [] t
  | cons {t t' : τ} {p : Path} {run : Effect τ Bool} {runs : List (Path × Effect τ Bool)}
    (h : (solvePath host options p).Does fs t run)
    (hrest : InTurn host options fs run.world runs t') :
    InTurn host options fs t ((p, run) :: runs) t'

/-- Whether a run has answered that its instance is satisfied. -/
def Effect.isSuccess (run : Effect τ Bool) : Bool :=
  match run.result with
  | .ok satisfied => satisfied
  | .error _ => false

/-- What is logged on a file that is skipped. -/
def skipRecords (p : Path) : Except Stop Bool → Log
  | .error (.failed e) => [⟨.error, "skipping " ++ p ++ ": " ++ e.message⟩]
  | _ => []

/-- What a directory logs on a file. -/
def entryRecords (x : Path × Effect τ Bool) : Log := x.2.records ++ skipRecords x.1 x.2.result

/-- The last line of a directory run. -/
def summaryText (total : Nat) (tally : Tally) : String :=
  "\nSolved " ++ natText tally.solved ++ " of " ++ natText total ++ " instances (" ++
    natText tally.failed ++ " unreadable)"

/-- The number of paths at which there is no instance. -/
def unreadableCount (options : Options) (fs : FileSystem) (paths : List Path) : Nat :=
  paths.countP fun p => !(fs.loadInstance options.dialect p).result.isOk

/-- **What a directory run comes to** over some paths, by the runs of the files there. -/
structure DirectoryRun (host : Host (StateM τ)) (options : Options) (fs : FileSystem)
    (solve : Instance → Outcome) (root : Path) (paths : List Path) (t : τ)
    (runs : List (Path × Effect τ Bool)) (whole : Effect τ Bool) : Prop where
  does : (solveDirectory host options root).Does fs t whole
  attempts : runs.map Prod.fst = paths
  inTurn : InTurn host options fs t runs whole.world
  each : ∀ x ∈ runs, FileRun solve options fs x.1 x.2
  text : whole.text = String.join (runs.map fun x => x.2.text) ++
    summaryText paths.length
      ⟨runs.countP fun x => x.2.isSuccess, unreadableCount options fs paths⟩ ++ "\n"
  records : whole.records =
    ⟨.info, "found " ++ natText paths.length ++ " instance files under " ++ root⟩ ::
      runs.flatMap entryRecords
  unreadable : 0 < unreadableCount options fs paths → whole.result =
    .error (.failed (.unreadableInstances (unreadableCount options fs paths) paths.length))
  readable : unreadableCount options fs paths = 0 → ∃ satisfied, whole.result = .ok satisfied ∧
    (satisfied = true ↔ ∀ x ∈ runs, x.2.result = .ok true)

theorem Effect.isSuccess_iff {run : Effect τ Bool} :
    run.isSuccess = true ↔ run.result = .ok true := by
  unfold Effect.isSuccess
  cases run.result <;> simp

theorem FileRun.isOk_eq {p : Path} {run : Effect τ Bool} (h : FileRun solve options fs p run) :
    run.result.isOk = (fs.loadInstance options.dialect p).result.isOk := by
  cases h with
  | solved load result | refused load result => rw [load, result]; rfl

/-! ### Tallies -/

/-- The tally after the run of one more file. -/
def Tally.count (tally : Tally) : Except Stop Bool → Tally
  | .ok true => { tally with solved := tally.solved + 1 }
  | .ok false => tally
  | .error _ => { tally with failed := tally.failed + 1 }

theorem foldl_count (runs : List (Path × Effect τ Bool)) (tally : Tally) :
    runs.foldl (fun tally x => tally.count x.2.result) tally =
      ⟨tally.solved + runs.countP fun x => x.2.isSuccess,
        tally.failed + runs.countP fun x => !x.2.result.isOk⟩ := by
  induction runs generalizing tally with
  | nil => rfl
  | cons x runs ih =>
    rw [List.foldl_cons, ih, List.countP_cons, List.countP_cons]
    rcases hx : x.2.result with _ | _ | _ <;>
      simp [Tally.count, Effect.isSuccess, hx, Except.isOk, Except.toBool, Nat.add_assoc,
        Nat.add_comm]

/-- The end of a directory run with a tally. -/
def conclusion (total : Nat) (tally : Tally) : Except Stop Bool :=
  if 0 < tally.failed then .error (.failed (.unreadableInstances tally.failed total))
  else .ok (tally.solved = total)

theorem does_conclude (total : Nat) (tally : Tally) :
    (conclude total tally : SessionT (StateM τ) Bool).Does fs t
      ⟨conclusion total tally, summaryText total tally ++ "\n", [], t⟩ := by
  refine .of_eq (.bind (SessionT.does_print _) (e := ⟨conclusion total tally, "", [], t⟩) ?_) ?_
  · unfold conclusion
    by_cases hfailed : 0 < tally.failed
    · simp only [if_pos hfailed]
      exact (SessionT.does_throw _).stop
    · simp only [if_neg hfailed]
      exact SessionT.does_pure _
  · rw [String.append_empty, List.append_nil]
    rfl

/-! ### One file -/

theorem exists_timed_load (host : Host (StateM τ)) (dialect? : Option Dialect) (fs : FileSystem)
    (p : Path) (t : τ) : ∃ d t', (timed host (loadInstance dialect? p)).Does fs t
      ⟨.ok ((fs.loadInstance dialect? p).result, d), "", (fs.loadInstance dialect? p).log, t'⟩ := by
  have h : (timed host (loadInstance dialect? p)).Does fs t _ :=
    (SessionT.does_ask host.now).bind ((SessionT.does_loadInstance dialect? p).bind
      ((SessionT.does_ask host.now).bind (SessionT.does_pure _)))
  simp only [String.append_empty, List.nil_append, List.append_nil] at h
  exact ⟨_, _, h⟩

theorem does_solvePath {p : Path} (hdir : fs.isDirectory p = false) {e : Effect τ Bool}
    (h : (solveFile host options p).Does fs t e) : (solvePath host options p).Does fs t e :=
  SessionT.does_get fun s hs => by rw [hs, hdir]; exact h

theorem does_prepareOutput (hout : options.output = none) (names : List String) :
    (prepareOutput options.output names : SessionT (StateM τ) _).Does fs t
      ⟨.ok options.output, "", [], t⟩ := by
  rw [hout]
  exact SessionT.does_pure none

/-- Every instance that is in a file is solved with its outcome. -/
def Host.SolvesFiles (host : Host (StateM τ)) (options : Options) (fs : FileSystem)
    (solve : Instance → Outcome) : Prop :=
  ∀ p inst, (fs.loadInstance options.dialect p).result = .ok inst →
    ∀ d, (solveAndReport host options inst (some p) d none).Announces fs (solve inst)

/-- What a directory has done with a file whose run it has counted. -/
def entryEffect (tally : Tally) (p : Path) (run : Effect τ Bool) : Effect τ Tally :=
  ⟨.ok (tally.count run.result), run.text, entryRecords (p, run), run.world⟩

section Directories
variable (hout : options.output = none) (hsolve : host.SolvesFiles options fs solve) {root : Path}
include hout hsolve

/-- **A directory does with a file what its run does alone**, and counts it. -/
theorem exists_run {names : List String} (hdir : fs.isDirectory (Path.below root names) = false)
    (t : τ) :
    ∃ run, (solvePath host options (Path.below root names)).Does fs t run ∧
      FileRun solve options fs (Path.below root names) run ∧
      ∀ tally, (solveEntry host options root tally names).Does fs t
        (entryEffect tally (Path.below root names) run) := by
  obtain ⟨d, t₁, htimed⟩ := exists_timed_load host options.dialect fs (Path.below root names) t
  cases hload : (fs.loadInstance options.dialect (Path.below root names)).result with
  | error error =>
    rw [hload] at htimed
    have hfile : (solveFile host options (Path.below root names)).Does fs t _ :=
      htimed.bind (SessionT.does_orFail_error error).stop
    refine ⟨_, does_solvePath hdir hfile, .refused hload rfl rfl, fun tally => ?_⟩
    have hentry : (solveEntry host options root tally names).Does fs t _ :=
      htimed.bind ((SessionT.does_say _ _).bind (SessionT.does_pure _))
    simpa [entryEffect, entryRecords, Tally.count, skipRecords] using hentry
  | ok inst =>
    obtain ⟨text, records, t₂, hsolved⟩ := hsolve _ inst hload d t₁
    rw [hload] at htimed
    rw [← hout] at hsolved
    have hfile : (solveFile host options (Path.below root names)).Does fs t _ :=
      htimed.bind ((SessionT.does_orFail_ok inst).bind hsolved)
    simp only [String.empty_append, List.nil_append] at hfile
    refine ⟨_, does_solvePath hdir hfile, .solved hload rfl rfl, fun tally => ?_⟩
    have hentry : (solveEntry host options root tally names).Does fs t _ :=
      htimed.bind ((does_prepareOutput hout names).bind (hsolved.bind
        (e := ⟨.ok (tally.count (.ok (solve inst).isSatisfied)), "", [], t₂⟩) ?_))
    · simpa [entryEffect, entryRecords, skipRecords] using hentry
    · cases (solve inst).isSatisfied <;> exact SessionT.does_pure _

/-! ### All files -/

/-- A directory does with its files what their runs do one after the other, and counts them. -/
theorem exists_runs {files : List (List String)}
    (hdir : ∀ names ∈ files, fs.isDirectory (Path.below root names) = false) (t : τ) :
    ∃ runs t', runs.map Prod.fst = files.map (Path.below root) ∧
      InTurn host options fs t runs t' ∧ (∀ x ∈ runs, FileRun solve options fs x.1 x.2) ∧
      ∀ tally, (solveEntries host options root tally files).Does fs t
        ⟨.ok (runs.foldl (fun tally x => tally.count x.2.result) tally),
          String.join (runs.map fun x => x.2.text), runs.flatMap entryRecords, t'⟩ := by
  induction files generalizing t with
  | nil => exact ⟨[], t, rfl, .nil t, by simp, fun tally => SessionT.does_pure tally⟩
  | cons names files ih =>
    obtain ⟨hnames, hfiles⟩ := List.forall_mem_cons.mp hdir
    obtain ⟨run, hdoes, hrun, hcount⟩ := exists_run hout hsolve hnames t
    obtain ⟨runs, t', hpaths, hturn, hruns, hrest⟩ := ih hfiles run.world
    refine ⟨(_, run) :: runs, t', by rw [List.map_cons, hpaths]; rfl, .cons hdoes hturn,
      List.forall_mem_cons.mpr ⟨hrun, hruns⟩, fun tally => ?_⟩
    have h : (solveEntries host options root tally (names :: files)).Does fs t _ :=
      (hcount tally).bind (hrest _)
    simpa [entryEffect, String.join_cons] using h

omit hsolve in
theorem does_solveDirectory {files : List (List String)}
    (hfiles : fs.findInstances root = .ok files) {tally : Tally} {text : String} {records : Log}
    (h : (solveEntries host options root ⟨0, 0⟩ files).Does fs t ⟨.ok tally, text, records, t'⟩) :
    (solveDirectory host options root).Does fs t
      ⟨conclusion files.length tally, text ++ (summaryText files.length tally ++ "\n"),
        ⟨.info, "found " ++ natText files.length ++ " instance files under " ++ root⟩ :: records,
        t'⟩ := by
  refine SessionT.does_get fun s hs => ?_
  rw [hs, hfiles, hout]
  refine .of_eq (.bind (SessionT.does_orFail_ok files) (.bind (SessionT.does_say _ _)
    (.bind h (does_conclude _ _)))) ?_
  simp only [String.empty_append, List.nil_append, List.append_nil, List.singleton_append]

theorem exists_directoryRun (hroot : fs.root.Proper) {files : List (List String)}
    (hfiles : fs.findInstances root = .ok files) (t : τ) :
    ∃ runs whole,
      DirectoryRun host options fs solve root (files.map (Path.below root)) t runs whole := by
  obtain ⟨runs, t', hpaths, hturn, hruns, hentries⟩ := exists_runs hout hsolve
    (fun names => FileSystem.isDirectory_below hroot hfiles) t
  have hfailed : (runs.countP fun x => !x.2.result.isOk) =
      unreadableCount options fs (files.map (Path.below root)) := by
    rw [unreadableCount, ← hpaths, List.countP_map]
    exact List.countP_congr fun x hx => by simp [(hruns x hx).isOk_eq]
  have hcount := foldl_count runs ⟨0, 0⟩
  rw [Nat.zero_add, Nat.zero_add, hfailed] at hcount
  have hdoes := does_solveDirectory hout hfiles (hentries ⟨0, 0⟩)
  rw [hcount, ← List.length_map (Path.below root)] at hdoes
  refine ⟨runs, _, hdoes, hpaths, hturn, hruns, String.append_assoc.symm, rfl, fun h => if_pos h,
    fun h => ⟨_, if_neg (Nat.not_lt.mpr (Nat.le_of_eq h)), ?_⟩⟩
  rw [decide_eq_true_iff, ← hpaths, List.length_map, List.countP_eq_length]
  simp only [Effect.isSuccess_iff]

end Directories

/-! ### The exit status -/

/-- An invocation that asks for what is at a path to be solved. -/
def Invocation.Solves (i : Invocation) (p : Path) : Prop :=
  i.task = some (.file p) ∨ i.task = none ∧ i.path = some p

theorem Invocation.Solves.perform_eq {i : Invocation} {p : Path} (h : i.Solves p)
    (host : Host (StateM τ)) :
    perform host i = solvePath host i.options p ∧ asksCompletion i = false := by
  unfold perform asksCompletion
  rcases h with h | ⟨h, h'⟩
  · rw [h]; exact ⟨rfl, rfl⟩
  · rw [h, h']; exact ⟨rfl, rfl⟩

theorem status_runInvocation {i : Invocation} {e : Effect τ Bool}
    (h : (perform host i).Does fs t e) :
    ((runInvocation host i fs).run t).1.status = statusOf i e.result := by
  have hrun := h "" []
  show statusOf i ((perform host i).on ⟨fs, "", []⟩ t).1.1 = _
  rw [hrun]

theorem DirectoryRun.status {root : Path} {paths : List Path} {runs : List (Path × Effect τ Bool)}
    {whole : Effect τ Bool} (h : DirectoryRun host options fs solve root paths t runs whole)
    (hroot : fs.isDirectory root = true) {i : Invocation} (hi : i.options = options)
    (hsolves : i.Solves root) :
    ((runInvocation host i fs).run t).1.status =
      match whole.result with
      | .ok true => some 10
      | .ok false => some 0
      | .error _ => some 1 := by
  obtain ⟨hperform, hasks⟩ := hsolves.perform_eq host
  have hdoes : (perform host i).Does fs t whole := by
    rw [hperform, hi]
    refine SessionT.does_get fun s hs => ?_
    rw [hs, hroot]
    exact h.does
  rw [status_runInvocation hdoes]
  rcases Nat.eq_zero_or_pos (unreadableCount options fs paths) with hcount | hcount
  · obtain ⟨satisfied, hresult, -⟩ := h.readable hcount
    rw [hresult]
    cases satisfied <;> simp [statusOf, hasks]
  · rw [h.unreadable hcount]
    rfl

/-! ### Directory runs -/

/-- **A directory run is the runs of its files.**  With a valid configuration, a seed, one worker, a
limit on flips but none on time, and no place for models, every instance has its outcome, and a file
run alone announces it, whatever the file system and the world.

A directory run attempts every file that is found exactly once and never stops early.  All that it
prints and logs is what these runs alone print and log, with its own first and last words.  It fails
if some file is no instance, with the number of such files; otherwise its answer is whether every
run has answered that its instance is satisfied.  The exit status is 1, 10 or 0 accordingly. -/
theorem directories_run_their_files {host : Host (StateM τ)} (hhost : host.RunsAlone)
    {options : Options} (ho : options.Repeatable) (hout : options.output = none) :
    ∃ solve : Instance → Outcome, (∀ inst, host.Settles options inst (solve inst)) ∧
      (∀ fs p t, fs.isDirectory p = false →
        ∃ run, (solvePath host options p).Does fs t run ∧ FileRun solve options fs p run) ∧
      ∀ fs root files, fs.root.Proper → fs.findInstances root = .ok files →
        (files.map (Path.below root)).Nodup ∧
        (∀ names ∈ files, fs.isDirectory (Path.below root names) = false) ∧
        ∀ t, ∃ runs whole,
          DirectoryRun host options fs solve root (files.map (Path.below root)) t runs whole ∧
          ∀ i : Invocation, i.options = options → i.Solves root →
            ((runInvocation host i fs).run t).1.status =
              match whole.result with
              | .ok true => some 10
              | .ok false => some 0
              | .error _ => some 1 := by
  obtain ⟨config, hc⟩ := ho.valid
  choose solve hhonest hsettles using fun inst => hhost.exists_settles ho inst
  have hsolve (fs : FileSystem) : host.SolvesFiles options fs solve := by
    intro p inst hload d
    obtain ⟨cs, hcs⟩ := FileSystem.exists_build_of_loadInstance hload
    exact announces_solveAndReport hc (hsettles inst) ((hhonest inst).certified hcs) (some p) d
  refine ⟨solve, hsettles, fun fs p t hdir => ?_, fun fs root files hroot hfiles => ?_⟩
  · obtain ⟨run, hdoes, hrun, -⟩ := @exists_run _ host _ _ solve hout (hsolve fs) p [] hdir t
    exact ⟨run, hdoes, hrun⟩
  · refine ⟨FileSystem.nodup_below hroot hfiles,
      fun names => FileSystem.isDirectory_below hroot hfiles, fun t => ?_⟩
    obtain ⟨runs, whole, h⟩ := exists_directoryRun hout (hsolve fs) hroot hfiles t
    exact ⟨runs, whole, h,
      fun i => h.status (FileSystem.isDirectory_of_findInstances hfiles)⟩

/-- A host whose world is a word that changes with every question: it tells the time, and streams
without a seed would be drawn from it. -/
def Host.drifting : Host (StateM UInt64) where
  now := modifyGet fun t => (.ofNanoseconds t.toNat, t + 1)
  memory := pure (0, 0)
  race inst config threads level := modifyGet fun t =>
    (searchWith inst config threads (.logging (some level)) (fun k => .ofNanoseconds k)
      (config.stream t) #[], t + 1)

theorem Host.drifting_runsAlone : Host.drifting.RunsAlone :=
  fun _ _ _ t => ⟨fun k => .ofNanoseconds k, t, rfl⟩

/-- A directory with a file that is no text and a file with one clause. -/
theorem directory_with_a_bad_file :
    let fs : FileSystem :=
      ⟨.directory [("bad.cnf", .file ⟨#[255]⟩), ("good.cnf", .file "1 -2\n".toUTF8)], []⟩
    let options : Options := { Options.default with seed := some 7, maxFlips := 5 }
    options.Repeatable ∧ fs.root.Proper ∧ fs.findInstances "." = .ok [["bad.cnf"], ["good.cnf"]] ∧
      ((runInvocation Host.drifting ⟨some ".", none, options⟩ fs).run 3).1.status = some 1 := by
  intro fs options
  have hnoise : Noise.ofThreshold options.noise = .ok ⟨options.noise⟩ := if_pos (by decide +kernel)
  have ho : options.Repeatable := by
    refine ⟨?_, rfl, by decide, rfl, rfl⟩
    unfold Options.toConfig Config.validate
    simp only [hnoise]
    exact ⟨_, rfl⟩
  have hproper : fs.root.Proper := by decide
  have hfiles : fs.findInstances "." = .ok [["bad.cnf"], ["good.cnf"]] := by cbv
  obtain ⟨solve, -, -, hruns⟩ := directories_run_their_files Host.drifting_runsAlone ho rfl
  obtain ⟨-, -, hstatus⟩ := hruns fs "." _ hproper hfiles
  obtain ⟨runs, whole, hwhole, hstatus⟩ := hstatus 3
  have hbad : 0 < unreadableCount options fs
      ([["bad.cnf"], ["good.cnf"]].map (Path.below ".")) := by
    have hpieces : Path.pieces (Path.below "." ["bad.cnf"]) = [".", "bad.cnf"] := by decide
    have hfault : FileSystem.pathFault? [".", "bad.cnf"] = none := by decide
    have hsize : ¬ 255 < "bad.cnf".utf8ByteSize := by decide
    have hcontent : fs.contentAt (Path.below "." ["bad.cnf"]) = .ok ⟨#[255]⟩ := by
      simp [fs, FileSystem.contentAt, FileSystem.node, FileSystem.resolve, hpieces,
        FileSystem.resolvePieces, hfault, FileSystem.start, FileSystem.walk, Node.at?, Node.child?,
        Path.staysPut, FileSystem.maxNameBytes, hsize]
    have htext : String.fromUTF8? ⟨#[255]⟩ = none := by decide
    refine List.countP_pos_iff.mpr ⟨_, List.mem_cons_self, ?_⟩
    simp [FileSystem.loadInstance, hcontent, instanceOfBytes, htext, Except.isOk, Except.toBool]
  refine ⟨ho, hproper, hfiles, ?_⟩
  rw [hstatus ⟨some ".", none, options⟩ rfl (Or.inr ⟨rfl, rfl⟩), hwhole.unreadable hbad]

end Command

end StochasticSat
