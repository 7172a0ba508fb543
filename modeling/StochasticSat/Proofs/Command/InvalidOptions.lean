import StochasticSat.Proofs.Command.Triples

/-!
# Invalid options

Options are looked at when an instance is solved: the configuration before its search begins, the
number of workers when it does (`triple_solveAndReport_of_invalid`).  So in the run of a directory
invalid options are noticed at the first file that is an instance; if there is none among the files
that are found, the run fails for these files (`triple_solveDirectory_of_invalid`).

Where no file is found, nothing is solved, and invalid options are not noticed at all
(`invalid_options_fail_where_files_are`).
-/

namespace StochasticSat

/-- **Options that no search can be made with**: they make no configuration, or no worker. -/
def Options.Invalid (options : Options) : Prop :=
  (∃ e, options.toConfig = .error e) ∨ options.threads = 0

namespace Command

open SessionT

variable {τ σ : Type} [RandomStream σ] {host : Host (StateM τ)} {options : Options}
  {P : FileSystem → Prop} {fs : FileSystem} {root : Path} {files : List (List String)}

/-- The session has stopped for an error. -/
def Fails (stop : Stop) (_ : FileSystem) : Prop := ∃ e, stop = .failed e

theorem Contest.start_of_no_threads {ω : Type} (inst : Instance) (config : Config)
    (o : Observer ω) (s : σ) (w : ω) :
    Contest.start inst config 0 o s w = .error (.invalidConfig .noThreads) := rfl

section Invalid
variable (hhost : host.RefusesLikeContests σ) (ho : options.Invalid)
include hhost ho

/-- **No instance is solved with invalid options.** -/
theorem triple_solveAndReport_of_invalid (inst : Instance) (label : Option Path)
    (parseTime : Duration) (output : Option Path) :
    Triple P (solveAndReport host options inst label parseTime output) (fun _ _ => False) Fails := by
  unfold solveAndReport
  extract_lets search
  have hsearch : ∀ u, Triple P (search u) (fun _ _ => False) Fails := by
    intro u
    refine (triple_say _ _).bind fun _ => ?_
    refine (triple_orFail fun e _ _ _ => ⟨e, rfl⟩).bind fun config => .of_and fun hc => ?_
    obtain ⟨e, he⟩ | hthreads := ho
    · rw [he] at hc
      cases hc
    · refine Triple.stop ?_
      unfold runSearch
      refine (triple_ask _).bind fun answer => .of_and ?_
      rintro ⟨t, hanswer⟩
      obtain ⟨s, hs⟩ := hhost inst config options.threads options.logLevel t
      rw [hthreads] at hs hanswer
      rw [hanswer, (hs _).mpr (Contest.start_of_no_threads _ _ _ _ _)]
      exact .throw fun _ _ => ⟨_, rfl⟩
  cases label with
  | none => exact hsearch ()
  | some p => exact (triple_print _).bind hsearch

/-- A file of a directory is passed over only if it is no instance. -/
theorem triple_solveEntry_of_invalid (tally : Tally) (names : List String) :
    Triple (fun _ => True) (solveEntry host options root tally names)
      (fun tally' _ => tally'.failed = tally.failed + 1) Fails := by
  unfold solveEntry
  refine (triple_timed host (triple_loadInstance _ _)).bind fun answer => ?_
  obtain ⟨e | inst, parseTime⟩ := answer
  · exact (triple_say _ _).bind fun _ => .pure fun _ _ => rfl
  · have hprepare : Triple (fun _ => True)
        (prepareOutput options.output names : SessionT (StateM τ) _) (fun _ _ => True) Fails := by
      unfold prepareOutput
      split
      · exact .pure fun _ => id
      · refine Triple.bind (Q := fun _ _ => True) ?_ fun _ => .pure fun _ => id
        exact triple_changeFiles (fun _ _ _ _ => trivial) fun _ fault _ _ => ⟨_, rfl⟩
    refine hprepare.bind fun output => ?_
    exact (triple_solveAndReport_of_invalid hhost ho inst _ parseTime output).stop

/-- **The run of a directory fails with invalid options** if some file is found in it. -/
theorem triple_solveDirectory_of_invalid (hfiles : fs.findInstances root = .ok files)
    (hne : files ≠ []) :
    Triple (· = fs) (solveDirectory host options root) (fun _ _ => False) Fails := by
  -- every file that is not left any more was no instance
  refine triple_solveDirectory
    (I := fun tally rest _ => tally.failed + rest.length = files.length) hfiles
    (fun _ => Nat.zero_add _) (fun out _ => ?_) (fun tally names rest => ?_) fun tally => ?_
  · exact triple_changeFiles (fun _ _ _ _ => Nat.zero_add _) fun _ fault _ _ => ⟨_, rfl⟩
  · refine Triple.imp (P := fun _ => tally.failed + (names :: rest).length = files.length ∧ True)
      (.of_and fun hcount => ?_) (fun _ h => ⟨h, trivial⟩) fun _ _ => id
    refine (triple_solveEntry_of_invalid hhost ho tally names).imp (fun _ => id) ?_
    intro tally' _ htally
    rw [htally, Nat.add_assoc, Nat.add_comm 1, ← List.length_cons, hcount]
  · refine triple_conclude (fun _ fs _ => ⟨_, rfl⟩) fun hfailed fs hcount => hne ?_
    rw [hfailed, List.length_nil] at hcount
    exact List.length_eq_zero_iff.mp hcount.symm

end Invalid

/-! ### Nothing to solve -/

/-- Models are not asked for, or the directory for them is there or can be made. -/
def HasRoom (options : Options) (fs : FileSystem) : Prop :=
  ∀ out, options.output = some out → ∃ fs', fs.makeDirectories out = .ok fs'

/-- **Where no file is found, every instance is satisfied**, whatever the options. -/
theorem triple_solveDirectory_of_no_files (host : Host (StateM τ)) (options : Options)
    (hfiles : fs.findInstances root = .ok []) :
    Triple (· = fs) (solveDirectory host options root)
      (fun satisfied _ => satisfied = true ∧ HasRoom options fs)
      fun stop fs' => Fails stop fs' ∧ ¬ HasRoom options fs := by
  refine triple_solveDirectory
    (I := fun tally rest _ => tally = ⟨0, 0⟩ ∧ rest = [] ∧ HasRoom options fs) hfiles
    (fun hnone => ⟨rfl, rfl, fun out hout => ?_⟩) (fun out hout => ?_)
    (fun tally names rest _ _ h => List.cons_ne_nil _ _ h.2.1 |>.elim) fun tally => ?_
  · rw [hnone] at hout
    cases hout
  · refine triple_changeFiles (fun _ fs' hfs hmade => ⟨rfl, rfl, fun out' hout' => ?_⟩)
      fun _ fault hfs hfault => ⟨⟨_, rfl⟩, fun hroom => ?_⟩
    · cases hout.symm.trans hout'
      exact ⟨fs', hfs ▸ hmade⟩
    · obtain ⟨fs', hmade⟩ := hroom out hout
      rw [hfs, hmade] at hfault
      cases hfault
  · refine triple_conclude (fun hfailed fs h => ?_) fun _ fs h => ?_
    · rw [h.1] at hfailed
      exact absurd hfailed (Nat.lt_irrefl 0)
    · rw [h.1]
      exact ⟨rfl, h.2.2⟩

/-- **What the run of a directory comes to with invalid options.** -/
theorem result_solveDirectory_of_invalid (hhost : host.RefusesLikeContests σ) (ho : options.Invalid)
    (hfiles : fs.findInstances root = .ok files) {s : Machine} (hs : s.files = fs) (t : τ) :
    (files = [] ∧ HasRoom options fs) ∧
        ((solveDirectory host options root).on s t).1.1 = .ok true ∨
      ¬ (files = [] ∧ HasRoom options fs) ∧
        ∃ e, ((solveDirectory host options root).on s t).1.1 = .error (.failed e) := by
  by_cases hne : files = []
  · subst hne
    obtain ⟨satisfied, hr, rfl, hroom⟩ | ⟨stop, hr, ⟨e, rfl⟩, hroom⟩ :=
      (triple_solveDirectory_of_no_files host options hfiles s t hs).cases
    · exact Or.inl ⟨⟨rfl, hroom⟩, hr⟩
    · exact Or.inr ⟨fun h => hroom h.2, e, hr⟩
  · obtain ⟨satisfied, hr, hfalse⟩ | ⟨stop, hr, e, rfl⟩ :=
      (triple_solveDirectory_of_invalid hhost ho hfiles hne s t hs).cases
    · exact hfalse.elim
    · exact Or.inr ⟨fun h => hne h.1, e, hr⟩

/-- The run of what is found to be a directory. -/
theorem on_solvePath (hfiles : fs.findInstances root = .ok files) (host : Host (StateM τ))
    (options : Options) {s : Machine} (hs : s.files = fs) (t : τ) :
    (solvePath host options root).on s t = (solveDirectory host options root).on s t := by
  have hget : (get : SessionT (StateM τ) Machine).on s t = ((.ok s, s), t) := rfl
  rw [solvePath, on_bind, hget]
  dsimp only
  rw [hs, if_pos (FileSystem.isDirectory_of_findInstances hfiles)]

theorem status_solveDirectory (hfiles : fs.findInstances root = .ok files)
    (host : Host (StateM τ)) {i : Invocation} (hi : i.Solves root) (t : τ) :
    ((runInvocation host i fs).run t).1.status =
      match ((solveDirectory host i.options root).on ⟨fs, "", []⟩ t).1.1 with
      | .ok true => some 10
      | .ok false => some 0
      | .error (.failed _) => some 1
      | .error .unfinished => none := by
  obtain ⟨hperform, hasks⟩ := hi.perform_eq host
  have hstatus : ((runInvocation host i fs).run t).1.status =
      statusOf i ((perform host i).on ⟨fs, "", []⟩ t).1.1 := rfl
  rw [hstatus, hperform, on_solvePath hfiles host i.options (s := ⟨fs, "", []⟩) rfl t]
  rcases ((solveDirectory host i.options root).on ⟨fs, "", []⟩ t).1.1 with (_ | _) | (_ | _) <;>
    simp [statusOf, hasks]

end Command

open Command

/-- **Invalid options are reported where there is something to solve.**  With options that make no
configuration, or no worker, the run of a directory in which some file is found fails, and the
program exits with status 1, whatever the files are and the world is like.  Where no file is found
the options are not looked at: the run answers that every instance was satisfied, and the status is
10, unless the directory for the models cannot be made. -/
theorem invalid_options_fail_where_files_are {τ σ : Type} [RandomStream σ]
    {host : Host (StateM τ)} (hhost : host.RefusesLikeContests σ) {options : Options}
    (ho : options.Invalid) {fs : FileSystem} {root : Path} {files : List (List String)}
    (hfiles : fs.findInstances root = .ok files) :
    (∀ s t, s.files = fs →
      (solvePath host options root).on s t = (solveDirectory host options root).on s t ∧
      (¬ (files = [] ∧ HasRoom options fs) →
        ∃ e, ((solveDirectory host options root).on s t).1.1 = .error (.failed e)) ∧
      (files = [] ∧ HasRoom options fs →
        ((solveDirectory host options root).on s t).1.1 = .ok true)) ∧
    ∀ i : Invocation, i.options = options → i.Solves root → ∀ t,
      (¬ (files = [] ∧ HasRoom options fs) →
        ((runInvocation host i fs).run t).1.status = some 1) ∧
      (files = [] ∧ HasRoom options fs →
        ((runInvocation host i fs).run t).1.status = some 10) := by
  have hresult := fun (s : Machine) (hs : s.files = fs) t =>
    result_solveDirectory_of_invalid hhost ho hfiles hs t
  refine ⟨fun s t hs => ⟨on_solvePath hfiles host options hs t, ?_⟩, fun i hi hsolves t => ?_⟩
  · obtain ⟨h, hr⟩ | ⟨h, hr⟩ := hresult s hs t
    · exact ⟨fun hnot => absurd h hnot, fun _ => hr⟩
    · exact ⟨fun _ => hr, fun hnot => absurd hnot h⟩
  · subst hi
    rw [status_solveDirectory hfiles host hsolves t]
    obtain ⟨h, hr⟩ | ⟨h, e, hr⟩ := hresult ⟨fs, "", []⟩ rfl t
    · exact ⟨fun hnot => absurd h hnot, fun _ => by rw [hr]⟩
    · exact ⟨fun _ => by rw [hr], fun hnot => absurd hnot h⟩

/-- A directory with a file in it, which is empty, and no worker. -/
theorem no_worker_for_a_file :
    let fs : FileSystem := ⟨.directory [("a.cnf", .file .empty)], []⟩
    let options : Options := { Options.default with threads := 0 }
    Host.drifting.RefusesLikeContests Seeded ∧ options.Invalid ∧
      fs.findInstances "." = .ok [["a.cnf"]] ∧
      ((runInvocation Host.drifting ⟨some ".", none, options⟩ fs).run 3).1.status = some 1 := by
  intro fs options
  have ho : options.Invalid := Or.inr rfl
  have hfiles : fs.findInstances "." = .ok [["a.cnf"]] := by cbv
  obtain ⟨-, hstatus⟩ :=
    invalid_options_fail_where_files_are Host.drifting_refusesLikeContests ho hfiles
  exact ⟨Host.drifting_refusesLikeContests, ho, hfiles,
    (hstatus ⟨some ".", none, options⟩ rfl (Or.inr ⟨rfl, rfl⟩) 3).1 (by simp)⟩

/-- **Invalid options are not noticed in an empty directory**: with a noise threshold of 2, and with
no worker, the program exits with status 10. -/
theorem empty_directory_hides_invalid_options :
    let fs : FileSystem := ⟨.directory [], []⟩
    fs.findInstances "." = .ok [] ∧
      ∀ options ∈ [{ Options.default with noise := 2 }, { Options.default with threads := 0 }],
        options.Invalid ∧ ∀ t,
          ((runInvocation Host.drifting ⟨some ".", none, options⟩ fs).run t).1.status = some 10 := by
  intro fs
  have hfiles : fs.findInstances "." = .ok [] := by cbv
  refine ⟨hfiles, fun options hoptions => ?_⟩
  have ho : options.Invalid ∧ options.output = none := by
    rcases List.mem_pair.mp hoptions with rfl | rfl
    · refine ⟨Or.inl ⟨.invalidConfig (.noise 2), ?_⟩, rfl⟩
      have hnoise : Noise.ofThreshold 2 = .error (.invalidConfig (.noise 2)) :=
        if_neg (by decide +kernel)
      unfold Options.toConfig Config.validate
      simp only [hnoise]
      rfl
    · exact ⟨Or.inr rfl, rfl⟩
  refine ⟨ho.1, fun t => ?_⟩
  have hroom : HasRoom options fs := by
    intro out hout
    rw [ho.2] at hout
    cases hout
  have hresult := result_solveDirectory_of_invalid Host.drifting_refusesLikeContests ho.1 hfiles
    (s := ⟨fs, "", []⟩) rfl t
  obtain ⟨-, hr⟩ | ⟨hnot, -⟩ := hresult
  · rw [status_solveDirectory hfiles Host.drifting (Or.inr ⟨rfl, rfl⟩) t, hr]
  · exact absurd ⟨rfl, hroom⟩ hnot

end StochasticSat
