import StochasticSat.Proofs.Command.SavedModels
import StochasticSat.Proofs.Command.SolutionPaths
import StochasticSat.Proofs.Command.Triples
import StochasticSat.Proofs.Tree.Directories

/-!
# The models of a directory

The run of a directory with a place for models does nothing to the files but write models of files
that were found, each at most once, and make directories for them (`Written`,
`Command.progress_of_solveDirectory`).  A model that has been written stays where it is, so no
directory can be made there any more, and none below (`Written.makeParents_of_nested`).

Where there are no links, the models are written to the places of their names
(`exists_grows_of_saveSolution`).  So no model is written over another one or over an instance file,
and the same instance files are found before and after (`Written.contentAt_solutionPath`,
`Written.grows`, `solutions_stay_apart`).
-/

namespace StochasticSat

open Command Text

/-! ### Writing models -/

/-- **What can become of a file system** when models of some files are written below `out`: the
models that have been written so far, in their order, and the file system. -/
inductive Written (out : Path) (files : List (List String)) (fs : FileSystem) :
    List (List String × List SignedLiteral) → FileSystem → Prop
  | start : Written out files fs [] fs
  | directory {models : List (List String × List SignedLiteral)} {fs₁ fs₂ : FileSystem}
    (h : Written out files fs models fs₁) (hmade : fs₁.makeDirectories out = .ok fs₂) :
    Written out files fs models fs₂
  | parents {models : List (List String × List SignedLiteral)} {fs₁ fs₂ : FileSystem}
    {names : List String} (h : Written out files fs models fs₁) (hmem : names ∈ files)
    (hmade : fs₁.makeParents (solutionPath out names) = .ok fs₂) : Written out files fs models fs₂
  | model {models : List (List String × List SignedLiteral)} {fs₁ fs₂ : FileSystem}
    {names : List String} {ls : List SignedLiteral} (h : Written out files fs models fs₁)
    (hmem : names ∈ files) (hsaved : fs₁.saveSolution (solutionPath out names) ls = .ok fs₂) :
    Written out files fs (models ++ [(names, ls)]) fs₂

/-- A location at which the model of one of some files can be. -/
def IsModelPlace (files : List (List String)) (location : List String) : Prop :=
  ∃ base, ∃ names ∈ files, location = base ++ solutionNames names

theorem IsModelPlace.not_isInstancePath {files : List (List String)} (hfiles : AreNames files)
    {location : List String} (h : IsModelPlace files location) :
    ¬ Node.IsInstancePath location := by
  obtain ⟨base, names, hmem, rfl⟩ := h
  exact not_isInstancePath_solutionNames (hfiles names hmem).1 (hfiles names hmem).2 base

section Written
variable {out : Path} {files : List (List String)} {fs fs' : FileSystem}
  {models : List (List String × List SignedLiteral)} {stem names : List String}
  {ls : List SignedLiteral}

/-- **A model is written to the place of its names**, below where the path for the models leads. -/
theorem exists_grows_of_saveSolution
    (hpieces : (solutionPath out names).pieces = stem ++ solutionNames names)
    (hnames : ∀ name ∈ names, Path.IsName name) (hlinks : fs.root.LinkFree)
    (h : fs.saveSolution (solutionPath out names) ls = .ok fs') :
    ∃ links base, fs'.Leads FileSystem.maxLinks (fs'.start stem) stem links base ∧
      fs.Grows fs' (· = base ++ solutionNames names) := by
  obtain ⟨links, location, hleads, hgrows⟩ := FileSystem.grows_of_writeFile h
  rw [hpieces, FileSystem.start_append_names (isName_solutionNames hnames)] at hleads
  obtain ⟨links₁, base, hstem, hrest⟩ := hleads.exists_append
  obtain rfl := hrest.eq_append (hgrows.linkFree hlinks) (isName_solutionNames hnames)
  exact ⟨links₁, base, hstem, hgrows⟩

/-- **Nothing but models is written.** -/
theorem Written.grows (h : Written out files fs models fs') (hfiles : AreNames files)
    (hlinks : fs.root.LinkFree) : fs.Grows fs' (IsModelPlace files) := by
  obtain ⟨stem, tail, -, -, hpieces⟩ := exists_pieces_solutionPath out
  induction h with
  | start => exact .refl fs
  | directory _ hmade ih => exact ih.trans (FileSystem.grows_of_makeDirectories hmade)
  | parents _ hmem hmade ih => exact ih.trans (FileSystem.grows_of_makeParents hmade)
  | @model models fs₁ fs₂ names ls _ hmem hsaved ih =>
    obtain ⟨hne, hnames⟩ := hfiles names hmem
    obtain ⟨links, base, -, hgrows⟩ := exists_grows_of_saveSolution (hpieces names hne hnames) hnames
      (ih.linkFree hlinks) hsaved
    exact ih.trans (hgrows.mono fun location hlocation => ⟨base, names, hmem, hlocation⟩)

/-- **No model is written over another one.** -/
theorem Written.contentAt_solutionPath (h : Written out files fs models fs')
    (hfiles : AreNames files) (hlinks : fs.root.LinkFree)
    (hnodup : (models.map Prod.fst).Nodup) : ∀ m ∈ models,
      m.1 ∈ files ∧ fs'.contentAt (solutionPath out m.1) = .ok (solutionText m.2).toUTF8 := by
  obtain ⟨stem, tail, -, -, hpieces⟩ := exists_pieces_solutionPath out
  induction h with
  | start => exact List.forall_mem_nil _
  | directory _ hmade ih =>
    intro m hm
    obtain ⟨hmem, hcontent⟩ := ih hnodup m hm
    have hgrows : FileSystem.Grows _ _ fun _ => False := FileSystem.grows_of_makeDirectories hmade
    exact ⟨hmem, hgrows.contentAt_eq hcontent fun _ _ _ => id⟩
  | parents _ _ hmade ih =>
    intro m hm
    obtain ⟨hmem, hcontent⟩ := ih hnodup m hm
    have hgrows : FileSystem.Grows _ _ fun _ => False := FileSystem.grows_of_makeParents hmade
    exact ⟨hmem, hgrows.contentAt_eq hcontent fun _ _ _ => id⟩
  | @model models fs₁ fs₂ names ls hw hmem hsaved ih =>
    rw [List.map_append, List.nodup_append] at hnodup
    obtain ⟨hnodup, -, hnew⟩ := hnodup
    have hlinks₁ := (hw.grows hfiles hlinks).linkFree hlinks
    obtain ⟨hne, hnames⟩ := hfiles names hmem
    obtain ⟨links, base, hbase, hgrows⟩ := exists_grows_of_saveSolution (hpieces names hne hnames)
      hnames hlinks₁ hsaved
    refine List.forall_mem_append.mpr ⟨fun m hm => ?_, List.forall_mem_singleton.mpr
      ⟨hmem, FileSystem.contentAt_of_writeFile hsaved⟩⟩
    obtain ⟨hmem', hcontent⟩ := ih hnodup m hm
    refine ⟨hmem', hgrows.contentAt_eq hcontent fun links' location hleads heq => ?_⟩
    -- both models are below the same directory, so they would have the same names
    obtain ⟨hne', hnames'⟩ := hfiles m.1 hmem'
    rw [hpieces m.1 hne' hnames', FileSystem.start_append_names (isName_solutionNames hnames')]
      at hleads
    obtain ⟨links₁, base', hbase', hrest⟩ := hleads.exists_append
    obtain ⟨-, rfl⟩ := hbase.unique hbase'
    have hlocation := hrest.eq_append (hgrows.linkFree hlinks₁) (isName_solutionNames hnames')
    have hsame : m.1 = names :=
      solutionNames_injective (List.append_cancel_left (hlocation.symm.trans heq))
    exact hnew _ (List.mem_map_of_mem hm) _ (by simp) hsame

/-! ### Models in the way -/

/-- Where a model has been written, there is a file. -/
theorem Written.exists_contentAt (h : Written out files fs models fs') : ∀ f ∈ models.map Prod.fst,
    f ∈ files ∧ ∃ content, fs'.contentAt (solutionPath out f) = .ok content := by
  have hkept : ∀ {fs₁ fs₂ : FileSystem} {places : List String → Prop}, fs₁.Grows fs₂ places →
      ∀ f, (f ∈ files ∧ ∃ content, fs₁.contentAt (solutionPath out f) = .ok content) →
        f ∈ files ∧ ∃ content, fs₂.contentAt (solutionPath out f) = .ok content :=
    fun hgrows f ⟨hmem, _, hcontent⟩ => ⟨hmem, hgrows.exists_contentAt hcontent⟩
  induction h with
  | start => exact List.forall_mem_nil _
  | directory _ hmade ih =>
    have hgrows : FileSystem.Grows _ _ fun _ => False := FileSystem.grows_of_makeDirectories hmade
    exact fun f hf => hkept hgrows f (ih f hf)
  | parents _ _ hmade ih =>
    have hgrows : FileSystem.Grows _ _ fun _ => False := FileSystem.grows_of_makeParents hmade
    exact fun f hf => hkept hgrows f (ih f hf)
  | model _ hmem hsaved ih =>
    obtain ⟨-, location, -, hgrows⟩ := FileSystem.grows_of_writeFile hsaved
    rw [List.map_append]
    exact List.forall_mem_append.mpr ⟨fun f hf => hkept hgrows f (ih f hf),
      List.forall_mem_singleton.mpr ⟨hmem, _, FileSystem.contentAt_of_writeFile hsaved⟩⟩

section Nested
variable (h : Written out files fs models fs') (hfiles : AreNames files) {f g : List String}
  (hf : f ∈ models.map Prod.fst)
include h hfiles hf

/-- **No model is below another one.** -/
theorem Written.not_nested (hg : g ∈ models.map Prod.fst) : ¬ Nested f g := by
  intro hnested
  obtain ⟨hfmem, content, hcontent⟩ := h.exists_contentAt f hf
  obtain ⟨hgmem, content', hcontent'⟩ := h.exists_contentAt g hg
  obtain ⟨rest, hrest, hpieces⟩ :=
    (pieces_solutionPath_prefix_iff hfiles out hfmem hgmem).mpr hnested
  obtain ⟨-, links, location, hleads, -⟩ := FileSystem.contentAt_eq_ok_iff.mp hcontent'
  rw [hpieces] at hleads
  exact hrest (FileSystem.eq_nil_of_contentAt hcontent hleads).1

/-- **A written model is in the way** of the directories for a model that is to be below it. -/
theorem Written.makeParents_of_nested (hg : g ∈ files) (hnested : Nested f g) :
    ∃ fault, fs'.makeParents (solutionPath out g) = .error fault := by
  obtain ⟨hfmem, content, hcontent⟩ := h.exists_contentAt f hf
  obtain ⟨stem, -, -, -, hpieces⟩ := exists_pieces_solutionPath out
  obtain ⟨hfne, hfnames⟩ := hfiles f hfmem
  obtain ⟨hgne, hgnames⟩ := hfiles g hg
  obtain ⟨rest, hrest, hsolution⟩ := (solutionNames_prefix_iff hfne).mpr hnested
  obtain ⟨rest, last, rfl⟩ := (List.eq_nil_or_concat' rest).resolve_left hrest
  rw [← List.append_assoc] at hsolution
  have hnames := isName_solutionNames hgnames
  rw [hsolution] at hnames
  have hne : solutionNames f ++ rest ≠ [] := by simp [solutionNames_eq_nil_iff, hfne]
  have hparent : Path.parent (solutionPath out g).pieces = (solutionPath out f).pieces ++ rest := by
    rw [hpieces g hgne hgnames, hsolution, Path.parent_names hne hnames, hpieces f hfne hfnames,
      List.append_assoc]
  cases hmade : fs'.makeParents (solutionPath out g) with
  | error fault => exact ⟨fault, rfl⟩
  | ok fs₁ =>
    -- then there would be a directory where the model is, or below that
    have hput : (Path.parent (solutionPath out g).pieces).all Path.staysPut = false := by
      obtain ⟨name, hname⟩ := List.exists_mem_of_ne_nil _ hne
      rw [hparent, hpieces f hfne hfnames, List.append_assoc, List.all_eq_false]
      exact ⟨name, List.mem_append_right _ hname,
        by simp [(hnames name (List.mem_append_left _ hname)).staysPut]⟩
    obtain ⟨links, location, entries, hleads, hat⟩ := FileSystem.leads_of_makeDirectoriesAt hput hmade
    rw [hparent] at hleads
    have hgrows : fs'.Grows fs₁ fun _ => False := FileSystem.grows_of_makeParents hmade
    obtain ⟨content', hcontent'⟩ := hgrows.exists_contentAt hcontent
    obtain ⟨-, hfile⟩ := FileSystem.eq_nil_of_contentAt hcontent' hleads
    cases hat.symm.trans hfile

end Nested

end Written

/-! ### The run of a directory -/

namespace Command

open SessionT

/-- What can become of a file system when models of some files are written, each at most once and in
the order of the files. -/
def WrittenInTurn (out : Path) (files : List (List String)) (fs fs' : FileSystem) : Prop :=
  ∃ models, (models.map Prod.fst).Sublist files ∧ Written out files fs models fs'

/-- **How far the run of a directory has come** when some files are done and some models have been
written.  A file is counted as solved only if its model is one of them.  If no file was unreadable,
then there were directories for the models of all these files, so no model was in the way. -/
structure Progress (out : Path) (files : List (List String)) (fs : FileSystem) (tally : Tally)
    (done : List (List String)) (models : List (List String × List SignedLiteral))
    (fs' : FileSystem) : Prop where
  written : Written out files fs models fs'
  inTurn : (models.map Prod.fst).Sublist done
  solved : tally.solved ≤ models.length
  apart : tally.failed = 0 → ∀ f ∈ models.map Prod.fst, ∀ g ∈ done, ¬ Nested f g

section Progress
variable {out : Path} {files done rest : List (List String)} {fs fs' : FileSystem}
  {tally tally' : Tally} {names : List String} {models : List (List String × List SignedLiteral)}

theorem Progress.writtenInTurn (h : Progress out files fs tally done models fs')
    (hdone : done.Sublist files) : WrittenInTurn out files fs fs' :=
  ⟨models, h.inTurn.trans hdone, h.written⟩

/-- A file without a model. -/
theorem Progress.skip (h : Progress out files fs tally done models fs')
    (hsolved : tally'.solved = tally.solved) (hfailed : tally'.failed = 0 →
      tally.failed = 0 ∧ ∀ f ∈ models.map Prod.fst, ¬ Nested f names) :
    Progress out files fs tally' (done ++ [names]) models fs' where
  written := h.written
  inTurn := h.inTurn.trans (List.sublist_append_left done [names])
  solved := hsolved ▸ h.solved
  apart h0 f hf := by
    obtain ⟨h0', hnames⟩ := hfailed h0
    exact List.forall_mem_append.mpr ⟨h.apart h0' f hf, List.forall_mem_singleton.mpr (hnames f hf)⟩

/-- A file with a model, after those that come before it in the order of files. -/
theorem Progress.add (h : Progress out files fs tally done models fs')
    (hsorted : (done ++ [names]).Pairwise (· < ·)) (hmem : names ∈ files)
    (hroom : ∀ f ∈ models.map Prod.fst, ¬ Nested f names) {ls : List SignedLiteral}
    {fs₁ : FileSystem} (hsaved : fs'.saveSolution (solutionPath out names) ls = .ok fs₁) :
    Progress out files fs { tally with solved := tally.solved + 1 } (done ++ [names])
      (models ++ [(names, ls)]) fs₁ where
  written := h.written.model hmem hsaved
  inTurn := by
    rw [List.map_append]
    exact h.inTurn.append (List.Sublist.refl [names])
  solved := by
    rw [List.length_append]
    exact Nat.add_le_add_right h.solved 1
  apart h0 := by
    rw [List.map_append]
    refine List.forall_mem_append.mpr ⟨fun f hf => List.forall_mem_append.mpr
      ⟨h.apart h0 f hf, List.forall_mem_singleton.mpr (hroom f hf)⟩,
      List.forall_mem_singleton.mpr fun g hg hnested => ?_⟩
    -- what a model is in the way of comes after its file
    obtain hg | hg := List.mem_append.mp hg
    · have hlt : g < names := (List.pairwise_append.mp hsorted).2.2 g hg names (List.mem_singleton_self _)
      exact List.lt_asymm hlt hnested.lt
    · obtain rfl := List.mem_singleton.mp hg
      exact List.lt_irrefl _ hnested.lt

/-- The run of a directory before a file is solved: the directories for its model have been made, so
no model is in the way of it. -/
def Ready (out : Path) (files : List (List String)) (fs : FileSystem) (tally : Tally)
    (done : List (List String)) (names : List String) (fs' : FileSystem) : Prop :=
  ∃ models, Progress out files fs tally done models fs' ∧
    ∀ f ∈ models.map Prod.fst, ¬ Nested f names

theorem Ready.writtenInTurn (h : Ready out files fs tally done names fs')
    (hdone : done.Sublist files) : WrittenInTurn out files fs fs' := by
  obtain ⟨models, h, -⟩ := h
  exact h.writtenInTurn hdone

end Progress

section Runs
variable {τ : Type} {options : Options} {out : Path} {files : List (List String)}
  {fs : FileSystem} (host : Host (StateM τ)) (hout : options.output = some out)
  (hfiles : AreNames files) (hsorted : files.Pairwise (· < ·)) {root : Path}
include hout hfiles hsorted

/-- **A file adds its model, or nothing.** -/
theorem progress_of_solveEntry {done rest : List (List String)} {names : List String}
    (hsplit : files = done ++ names :: rest) (tally : Tally) :
    Triple (fun fs' => ∃ models, Progress out files fs tally done models fs')
      (solveEntry host options root tally names)
      (fun tally' fs' => ∃ models, Progress out files fs tally' (done ++ [names]) models fs')
      fun _ => WrittenInTurn out files fs := by
  have hmem : names ∈ files := by simp [hsplit]
  rw [List.append_cons] at hsplit
  have hdone : done.Sublist files := by
    rw [hsplit, List.append_assoc]
    exact List.sublist_append_left done _
  have hsorted' : (done ++ [names]).Pairwise (· < ·) :=
    hsorted.sublist (hsplit ▸ List.sublist_append_left _ rest)
  have htol : host.Tolerates (Ready out files fs tally done names)
      fun _ => WrittenInTurn out files fs :=
    ⟨fun _ h => h.writtenInTurn hdone, fun _ _ _ h => h.writtenInTurn hdone,
      fun _ _ _ _ _ _ _ _ h => h.writtenInTurn hdone⟩
  have hroom : Triple (fun fs' => ∃ models, Progress out files fs tally done models fs')
      (changeFiles (·.makeParents (solutionPath out names)) : SessionT (StateM τ) Unit)
      (fun _ => Ready out files fs tally done names) fun _ => WrittenInTurn out files fs := by
    refine triple_changeFiles ?_ fun _ _ ⟨models, h⟩ _ => h.writtenInTurn hdone
    rintro fs₁ fs₂ ⟨models, h⟩ hmade
    refine ⟨models, { h with written := h.written.parents hmem hmade }, fun f hf hnested => ?_⟩
    obtain ⟨fault, hfault⟩ := h.written.makeParents_of_nested hfiles hf hmem hnested
    cases hmade.symm.trans hfault
  have hsave : ∀ ls, Triple (Ready out files fs tally done names)
      (changeFiles (·.saveSolution (solutionPath out names) ls) : SessionT (StateM τ) Unit)
      (fun _ fs' => ∃ models, Progress out files fs { tally with solved := tally.solved + 1 }
        (done ++ [names]) models fs') fun _ => WrittenInTurn out files fs := by
    intro ls
    refine triple_changeFiles ?_ fun _ _ h _ => h.writtenInTurn hdone
    rintro fs₁ fs₂ ⟨models, h, hroom⟩ hsaved
    exact ⟨_, h.add hsorted' hmem hroom hsaved⟩
  refine (triple_solveEntry hout htol hroom hsave tally).imp (fun _ => id) fun tally' fs' hend => ?_
  obtain ⟨rfl, models, h⟩ | ⟨rfl, models, h, hroom⟩ | ⟨hfailed, hsolved, models, h⟩ := hend
  · exact ⟨models, h.skip rfl fun h0 => absurd h0 (Nat.succ_ne_zero _)⟩
  · exact ⟨models, h.skip rfl fun h0 => ⟨h0, hroom⟩⟩
  · exact ⟨models, { h with
      solved := hsolved.trans h.solved
      apart := fun h0 => h.apart (hfailed ▸ h0) }⟩

/-- **The run of a directory only writes models**, however it ends.  If it comes to an answer, no
model was in the way of another file, and the answer is that all were solved only if the models of
all files have been written. -/
theorem progress_of_solveDirectory (hfound : fs.findInstances root = .ok files) {s : Machine}
    (hs : s.files = fs) (t : τ) : ∃ models, (models.map Prod.fst).Sublist files ∧
      Written out files fs models ((solveDirectory host options root).on s t).1.2.files ∧
      ∀ satisfied, ((solveDirectory host options root).on s t).1.1 = .ok satisfied →
        (satisfied = true → models.map Prod.fst = files) ∧
        ∀ f ∈ models.map Prod.fst, ∀ g ∈ files, ¬ Nested f g := by
  have hrun : Triple (· = fs) (solveDirectory host options root)
      (fun satisfied fs' => ∃ models, (models.map Prod.fst).Sublist files ∧
        Written out files fs models fs' ∧ (satisfied = true → models.map Prod.fst = files) ∧
        ∀ f ∈ models.map Prod.fst, ∀ g ∈ files, ¬ Nested f g)
      fun _ => WrittenInTurn out files fs := by
    refine triple_solveDirectory_of_output (I := fun tally rest fs' => ∃ done, files = done ++ rest ∧
      ∃ models, Progress out files fs tally done models fs') hfound hout ?_
      (fun tally names rest => ?_) fun tally => ?_
    · refine triple_changeFiles ?_ ?_
      · rintro _ fs₁ rfl hmade
        exact ⟨[], rfl, [], .directory .start hmade, .refl [], Nat.le_refl 0,
          fun _ => List.forall_mem_nil _⟩
      · rintro _ fault rfl -
        exact ⟨[], List.nil_sublist files, .start⟩
    · refine .of_exists fun done => .of_and fun hsplit => ?_
      refine (progress_of_solveEntry host hout hfiles hsorted hsplit tally).imp (fun _ => id)
        fun _ _ h => ?_
      exact ⟨done ++ [names], by rw [hsplit, List.append_cons], h⟩
    · refine triple_conclude ?_ ?_
      · rintro - fs' ⟨done, rfl, models, h⟩
        exact h.writtenInTurn (List.sublist_append_left done [])
      · rintro h0 fs' ⟨done, hdone, models, h⟩
        rw [List.append_nil] at hdone
        subst hdone
        refine ⟨models, h.inTurn, h.written, fun hall => ?_, h.apart h0⟩
        have hsolved := h.solved
        rw [of_decide_eq_true hall] at hsolved
        exact h.inTurn.eq_of_length_le (by rwa [List.length_map])
  obtain ⟨satisfied, hr, models, hmodels, hwritten, hend⟩ | ⟨stop, hr, models, hmodels, hwritten⟩ :=
    (hrun s t hs).cases
  · refine ⟨models, hmodels, hwritten, fun satisfied' hr' => ?_⟩
    cases hr.symm.trans hr'
    exact hend
  · refine ⟨models, hmodels, hwritten, fun satisfied hr' => ?_⟩
    cases hr.symm.trans hr'

end Runs

end Command

/-! ### Solutions and instances -/

/-- **Solutions stay apart**, from each other and from instances, in every file system without
links, whatever the directory with the instances and the one for the models are; they may be one, or
one below the other.  The model of a file has the path of that file, relative to the directory with
the instances, in the directory for the models, with `.sol` behind its name; so it does not have the
extension of an instance, and the paths of different files differ.  The run of a directory, however
it ends, on every host, only writes models to these paths, for each file once or not at all, and
makes directories for them.  Whenever that has been done, the same instance files are found as
before, with the same contents, and every model that was written is still in its file. -/
theorem solutions_stay_apart {fs : FileSystem} (hroot : fs.root.Proper)
    (hlinks : fs.root.LinkFree) {root : Path} {files : List (List String)}
    (hfiles : fs.findInstances root = .ok files) (out : Path) :
    (∃ rootStem rootTail outStem outTail, (rootTail = [] ∨ rootTail = [""]) ∧
      root.pieces = rootStem ++ rootTail ∧ (outTail = [] ∨ outTail = [""]) ∧
      out.pieces = outStem ++ outTail ∧
      ∀ names ∈ files, (Path.below root names).pieces = rootStem ++ names ∧
        ∃ before name, names = before ++ [name] ∧
          (solutionPath out names).pieces = outStem ++ before ++ [name ++ ".sol"] ∧
          Path.extension? (name ++ ".sol") = some "sol") ∧
    (files.map (solutionPath out)).Nodup ∧
    (∀ models fs', Written out files fs models fs' →
      fs'.findInstances root = .ok files ∧
      (∀ names ∈ files, ∀ content, fs.contentAt (Path.below root names) = .ok content →
        fs'.contentAt (Path.below root names) = .ok content) ∧
      ((models.map Prod.fst).Nodup →
        ∀ m ∈ models, fs'.loadSolution (solutionPath out m.1) = .ok m.2)) ∧
    ∀ (τ : Type) (host : Host (StateM τ)) (options : Options), options.output = some out →
      ∀ s t, s.files = fs → ∃ models, (models.map Prod.fst).Sublist files ∧
        Written out files fs models ((solveDirectory host options root).on s t).1.2.files := by
  have hnames : AreNames files := fun names => FileSystem.names_of_found hroot hfiles
  obtain ⟨rootStem, rootTail, -, hrootTail, hrootPieces, hbelow⟩ :=
    Path.exists_pieces_below (FileSystem.ne_empty_of_findInstances hfiles)
  obtain ⟨outStem, outTail, houtTail, houtPieces, hsolution⟩ := exists_pieces_solutionPath out
  obtain ⟨location, entries, hr, hfound⟩ := FileSystem.exists_directory hfiles
  refine ⟨⟨rootStem, rootTail, outStem, outTail, hrootTail, hrootPieces, houtTail, houtPieces,
    fun names hmem => ?_⟩, ?_, fun models fs' hwritten => ⟨?_, fun names hmem content hcontent => ?_,
    fun hnodup m hm => ?_⟩, fun τ host options hout s t hs => ?_⟩
  · obtain ⟨hne, hvalid⟩ := hnames names hmem
    obtain ⟨before, name, rfl⟩ := (List.eq_nil_or_concat' names).resolve_left hne
    refine ⟨hbelow _ hne hvalid, before, name, rfl, ?_,
      extension?_sol (hvalid name (by simp)).ne_empty⟩
    rw [hsolution _ hne hvalid, solutionNames_concat, List.append_assoc]
  · have hnodup : files.Nodup :=
      hfound ▸ (hroot.at (FileSystem.leads_of_resolve hr).2).nodup_instanceFiles
    refine hnodup.map_on fun f hf g hg heq => ?_
    have hpieces := congrArg Path.pieces heq
    rw [hsolution f (hnames f hf).1 (hnames f hf).2, hsolution g (hnames g hg).1 (hnames g hg).2]
      at hpieces
    exact solutionNames_injective (List.append_cancel_left hpieces)
  · exact (hwritten.grows hnames hlinks).findInstances_eq hroot
      (fun _ => IsModelPlace.not_isInstancePath hnames) hfiles
  · have hgrows := hwritten.grows hnames hlinks
    refine hgrows.contentAt_eq hcontent fun links place hleads hplace => ?_
    obtain ⟨hne, hvalid⟩ := hnames names hmem
    rw [hbelow names hne hvalid] at hleads
    obtain ⟨links₁, base, -, hrest⟩ := hleads.exists_append
    obtain rfl := hrest.eq_append (hgrows.linkFree hlinks) hvalid
    exact hplace.not_isInstancePath hnames
      ((Node.isInstancePath_of_mem (hfound ▸ hmem)).append base)
  · rw [FileSystem.loadSolution, (hwritten.contentAt_solutionPath hnames hlinks hnodup m hm).2]
    dsimp only
    rw [Source.ofBytes_toUTF8, readSolution_solutionText]
  · obtain ⟨models, hmodels, hwritten, -⟩ := progress_of_solveDirectory host hout hnames
      (FileSystem.pairwise_of_findInstances hroot hfiles) hfiles hs t
    exact ⟨models, hmodels, hwritten⟩

/-- Two files of one stem, and their models in the directory that they are in. -/
theorem model_beside_its_instance :
    let fs : FileSystem := ⟨.directory [("a.cnf", .file .empty), ("a.txt", .file .empty)], []⟩
    fs.root.Proper ∧ fs.root.LinkFree ∧ fs.findInstances "." = .ok [["a.cnf"], ["a.txt"]] ∧
      ∃ fs', Written "." [["a.cnf"], ["a.txt"]] fs [(["a.cnf"], [1])] fs' ∧
        fs'.findInstances "." = .ok [["a.cnf"], ["a.txt"]] ∧
        fs'.loadSolution "./a.cnf.sol" = .ok [1] := by
  intro fs
  have hproper : fs.root.Proper := by decide
  have hlinks : fs.root.LinkFree := by
    refine Node.linkFree_directory ?_
    simp only [List.forall_mem_cons]
    exact ⟨Node.linkFree_file _, Node.linkFree_file _, List.forall_mem_nil _⟩
  have hfiles : fs.findInstances "." = .ok [["a.cnf"], ["a.txt"]] := by cbv
  obtain ⟨-, -, hwritten, -⟩ := solutions_stay_apart hproper hlinks hfiles "."
  have hpath : solutionPath "." ["a.cnf"] = "./a.cnf.sol" := by decide
  obtain ⟨fs', hsaved⟩ : ∃ fs', fs.saveSolution "./a.cnf.sol" [1] = .ok fs' := by
    have hpieces : Path.pieces "./a.cnf.sol" = [".", "a.cnf.sol"] := by decide
    have hsize : ¬ FileSystem.maxNameBytes < "a.cnf.sol".utf8ByteSize := by decide
    have hresolve : fs.resolve .write "./a.cnf.sol" = .ok (.absent [] "a.cnf.sol") := by
      refine (FileSystem.resolve_eq_ok_iff (by decide)).mpr ⟨by rw [hpieces]; decide, ?_⟩
      rw [hpieces]
      simp [FileSystem.walk, FileSystem.start, Node.at?, Path.staysPut, hsize, fs,
        List.lookup]
    exact ⟨_, by rw [FileSystem.saveSolution, FileSystem.writeFile, hresolve]⟩
  have hone : Written "." [["a.cnf"], ["a.txt"]] fs [(["a.cnf"], [1])] fs' :=
    Written.start.model List.mem_cons_self (hpath ▸ hsaved)
  obtain ⟨hsame, -, hmodels⟩ := hwritten _ fs' hone
  exact ⟨hproper, hlinks, hfiles, fs', hone, hsame,
    hpath ▸ hmodels (by decide) (["a.cnf"], [1]) List.mem_cons_self⟩

end StochasticSat
