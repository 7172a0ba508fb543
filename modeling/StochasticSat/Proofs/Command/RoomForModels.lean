import StochasticSat.Proofs.Command.WrittenModels
import StochasticSat.Proofs.Tree.Mirrors

/-!
# Room for models

The models of a directory go to places that mirror it.  There is room for all of them, in any order,
if no directory is named like the model of a file beside it (`Nested`), and no name or path is too
long: then the run of the directory does not fail for a file
(`Command.triple_solveDirectory_of_roomForModels`).

A directory with such a name has its files below the place of a model.  Once that is written, there
is no place for the models of these files (`models_have_room_unless_nested`).
-/

namespace StochasticSat

open Command SessionT

/-- **Room for the models** of some files: the directory for them can be made, or is there, and it is
empty then; and no name and no path of a model is too long. -/
structure RoomForModels (fs : FileSystem) (out : Path) (files : List (List String)) : Prop where
  directory : ∃ fs₁, fs.makeDirectories out = .ok fs₁ ∧ fs₁.node out = .ok (.directory [])
  paths : ∀ names ∈ files, FileSystem.pathFault? (solutionPath out names).pieces = none
  names : ∀ names ∈ files, ∀ name ∈ solutionNames names,
    name.utf8ByteSize ≤ FileSystem.maxNameBytes

section Room
variable {fs fs₁ : FileSystem} {out : Path} {files : List (List String)} {stem : List String}

/-- The places of models can all be filled, if none is in the way of another. -/
theorem fillable_solutionNames (hfiles : AreNames files)
    (hapart : ∀ f ∈ files, ∀ g ∈ files, ¬ Nested f g) (hroom : RoomForModels fs out files)
    (hpieces : ∀ names ∈ files, (solutionPath out names).pieces = stem ++ solutionNames names) :
    Fillable stem (files.map solutionNames) where
  ne_nil := List.forall_mem_map.mpr fun f hf => mt solutionNames_eq_nil_iff.mp (hfiles f hf).1
  names := List.forall_mem_map.mpr fun f hf name hname =>
    ⟨isName_solutionNames (hfiles f hf).2 name hname, hroom.names f hf name hname⟩
  paths := List.forall_mem_map.mpr fun f hf => hpieces f hf ▸ hroom.paths f hf
  apart := List.forall_mem_map.mpr fun f hf rest hrest hmem => by
    obtain ⟨g, hg, hsolution⟩ := List.mem_map.mp hmem
    exact hapart f hf g hg ((solutionNames_prefix_iff (hfiles f hf).1).mp ⟨rest, hrest, hsolution⟩)

/-- An empty directory mirrors all places. -/
theorem exists_mirrors_of_empty (hnode : fs.node out = .ok (.directory []))
    (hout : ∃ tail, (tail = [] ∨ tail = [""]) ∧ out.pieces = stem ++ tail)
    (places : List (List String)) : ∃ base, fs.Mirrors stem base places := by
  obtain ⟨base, hresolve⟩ : ∃ base, fs.resolve .use out = .ok (.present base (.directory [])) := by
    unfold FileSystem.node at hnode
    split at hnode
    · next base n hresolve => cases hnode; exact ⟨base, hresolve⟩
    · cases hnode
    · cases hnode
  obtain ⟨hfault, -⟩ := (FileSystem.resolve_eq_ok_iff (by decide)).mp hresolve
  obtain ⟨⟨links, hleads⟩, hat⟩ := FileSystem.leads_of_resolve hresolve
  obtain ⟨tail, htail, hpieces⟩ := hout
  have hstem : stem ≠ [] := by
    rintro rfl
    rw [hpieces, List.nil_append] at hfault
    obtain rfl | rfl := htail <;> cases hfault
  rw [hpieces, FileSystem.start_append hstem] at hleads
  obtain ⟨links₁, here, hstemleads, htailleads⟩ := hleads.exists_append
  obtain ⟨rfl, rfl⟩ := htailleads.of_tail htail
  refine ⟨base, ⟨links, hstemleads⟩, ⟨[], hat⟩, fun l n hl hn => ?_⟩
  -- nothing is below an empty directory
  obtain ⟨name, rest, rfl⟩ := List.exists_cons_of_ne_nil hl
  obtain ⟨entries, m, hentries, hentry, -⟩ := FileSystem.exists_entries hn
  cases hat.symm.trans hentries
  cases hentry

end Room

namespace Command

section Runs
variable {τ : Type} {host : Host (StateM τ)} {options : Options} {out root : Path}
  {fs : FileSystem} {files : List (List String)} {stem base : List String}

/-- The session has not stopped for a file. -/
def SparesFiles (stop : Stop) (_ : FileSystem) : Prop := ∀ fault, stop ≠ .failed (.file fault)

/-- A host whose searches do not fail for a file. -/
def Host.SearchesInMemory (host : Host (StateM τ)) : Prop :=
  ∀ inst config threads level t, FreeOfFiles ((host.race inst config threads level).run t).1

theorem Host.RefusesLikeContests.searchesInMemory {σ : Type} [RandomStream σ]
    (h : host.RefusesLikeContests σ) : host.SearchesInMemory := by
  intro inst config threads level t fault hfault
  obtain ⟨s, hs⟩ := h inst config threads level t
  obtain ⟨_, hinvalid⟩ := Contest.start_eq_error ((hs _).mp hfault)
  cases hinvalid

theorem Host.SearchesInMemory.tolerates (h : host.SearchesInMemory) (K : FileSystem → Prop) :
    host.Tolerates K SparesFiles where
  unfinished _ _ _ hstop := by cases hstop
  failed e fs he _ fault hstop := by
    cases hstop
    exact he fault rfl
  race inst config threads level t e hrace fs _ fault hstop := by
    cases hstop
    exact h inst config threads level t fault hrace

/-- **There is room for the model of every file**, whichever models have been written before. -/
theorem triple_solveEntry_of_mirrors (hhost : host.SearchesInMemory)
    (hout : options.output = some out) (hfill : Fillable stem (files.map solutionNames))
    {names : List String} (hmem : names ∈ files)
    (hpieces : (solutionPath out names).pieces = stem ++ solutionNames names) (tally : Tally) :
    Triple (·.Mirrors stem base (files.map solutionNames))
      (solveEntry host options root tally names)
      (fun _ fs' => fs'.Mirrors stem base (files.map solutionNames)) SparesFiles := by
  have hplace : solutionNames names ∈ files.map solutionNames := List.mem_map_of_mem hmem
  obtain ⟨before, name, hlast⟩ :=
    (List.eq_nil_or_concat' (solutionNames names)).resolve_left (hfill.ne_nil _ hplace)
  rw [hlast] at hplace hpieces
  have hroom : Triple (·.Mirrors stem base (files.map solutionNames))
      (changeFiles (·.makeParents (solutionPath out names)) : SessionT (StateM τ) Unit)
      (fun _ fs' => fs'.Mirrors stem base (files.map solutionNames) ∧
        ∃ entries, fs'.root.at? (base ++ before) = some (.directory entries)) SparesFiles := by
    refine triple_changeFiles_of_exists fun fs₁ h => ?_
    obtain ⟨fs', entries, hmade, h', hparent⟩ := h.makeParents hfill hplace hpieces
    exact ⟨fs', hmade, h', entries, hparent⟩
  have hsave : ∀ ls, Triple (fun fs' => fs'.Mirrors stem base (files.map solutionNames) ∧
        ∃ entries, fs'.root.at? (base ++ before) = some (.directory entries))
      (changeFiles (·.saveSolution (solutionPath out names) ls) : SessionT (StateM τ) Unit)
      (fun _ fs' => fs'.Mirrors stem base (files.map solutionNames)) SparesFiles := by
    intro ls
    refine triple_changeFiles_of_exists fun fs₁ h => ?_
    obtain ⟨h, entries, hparent⟩ := h
    exact h.writeFile hfill hplace hpieces hparent _
  refine (triple_solveEntry hout (hhost.tolerates _) hroom hsave tally).imp (fun _ => id) ?_
  rintro tally' fs' (⟨-, h⟩ | ⟨-, h, -⟩ | ⟨-, -, h⟩) <;> exact h

/-- **Where there is room for all models**, and none is in the way of another, the run of a
directory does not stop for a file. -/
theorem triple_solveDirectory_of_roomForModels (hhost : host.SearchesInMemory)
    (hout : options.output = some out) (hfiles : AreNames files)
    (hfound : fs.findInstances root = .ok files) (hroom : RoomForModels fs out files)
    (hapart : ∀ f ∈ files, ∀ g ∈ files, ¬ Nested f g) :
    Triple (· = fs) (solveDirectory host options root) (fun _ _ => True) SparesFiles := by
  obtain ⟨stem, tail, htail, houtPieces, hpieces⟩ := exists_pieces_solutionPath out
  have hpieces' : ∀ names ∈ files, (solutionPath out names).pieces = stem ++ solutionNames names :=
    fun names hmem => hpieces names (hfiles names hmem).1 (hfiles names hmem).2
  have hfill := fillable_solutionNames hfiles hapart hroom hpieces'
  obtain ⟨fs₁, hmade, hnode⟩ := hroom.directory
  obtain ⟨base, hmirrors⟩ := exists_mirrors_of_empty hnode ⟨tail, htail, houtPieces⟩
    (files.map solutionNames)
  refine triple_solveDirectory_of_output (I := fun _ rest fs' => (∀ names ∈ rest, names ∈ files) ∧
    fs'.Mirrors stem base (files.map solutionNames)) hfound hout ?_
    (fun tally names rest => .of_and fun hrest => ?_) fun tally => ?_
  · refine triple_changeFiles_of_exists ?_
    rintro _ rfl
    exact ⟨fs₁, hmade, fun _ => id, hmirrors⟩
  · obtain ⟨hmem, hrest⟩ := List.forall_mem_cons.mp hrest
    exact (triple_solveEntry_of_mirrors hhost hout hfill hmem (hpieces' names hmem) tally).imp
      (fun _ => id) fun _ _ h => ⟨hrest, h⟩
  · exact triple_conclude (fun _ _ _ _ hstop => by cases hstop) fun _ _ _ => trivial

end Runs

end Command

/-- **Models have room, unless files are nested.**  The path of a model leads through that of another
one exactly where a directory of the tree is named like that other model and has the file of the
first one below it.  Once the other model has been written, the directories for the first one cannot
be made any more: the first one is not written, and the run does not come to an answer.  So no run
answers that all were solved.  Where there are no such files, and the directory for the models is
empty at first, no run fails for a file. -/
theorem models_have_room_unless_nested {fs : FileSystem} (hroot : fs.root.Proper) {root : Path}
    {files : List (List String)} (hfiles : fs.findInstances root = .ok files) (out : Path) :
    (∀ f ∈ files, ∀ g ∈ files,
      (∃ rest, rest ≠ [] ∧ (solutionPath out g).pieces = (solutionPath out f).pieces ++ rest) ↔
        Nested f g) ∧
    (∀ models fs', Written out files fs models fs' →
      ∀ f ∈ models.map Prod.fst, ∀ g ∈ files, Nested f g → g ∉ models.map Prod.fst ∧
        ∃ fault, fs'.makeParents (solutionPath out g) = .error fault) ∧
    ∀ (τ : Type) (host : Host (StateM τ)) (options : Options), options.output = some out →
      ∀ s t, s.files = fs →
        (∃ models, (models.map Prod.fst).Sublist files ∧
          Written out files fs models ((solveDirectory host options root).on s t).1.2.files ∧
          ∀ satisfied, ((solveDirectory host options root).on s t).1.1 = .ok satisfied →
            (satisfied = true → models.map Prod.fst = files) ∧
            ∀ f ∈ models.map Prod.fst, ∀ g ∈ files, ¬ Nested f g) ∧
        (host.SearchesInMemory → RoomForModels fs out files →
          (∀ f ∈ files, ∀ g ∈ files, ¬ Nested f g) → ∀ fault,
            ((solveDirectory host options root).on s t).1.1 ≠ .error (.failed (.file fault))) := by
  have hnames : AreNames files := fun names => FileSystem.names_of_found hroot hfiles
  have hsorted := FileSystem.pairwise_of_findInstances hroot hfiles
  refine ⟨fun f hf g hg => pieces_solutionPath_prefix_iff hnames out hf hg,
    fun models fs' hwritten f hf g hg hnested => ⟨fun hg' => ?_, ?_⟩,
    fun τ host options hout s t hs => ⟨?_, fun hhost hroom hapart fault hr => ?_⟩⟩
  · exact hwritten.not_nested hnames hf hg' hnested
  · exact hwritten.makeParents_of_nested hnames hf hg hnested
  · exact progress_of_solveDirectory host hout hnames hsorted hfiles hs t
  · obtain ⟨_, hok, -⟩ | ⟨stop, hstop, hspares⟩ := (triple_solveDirectory_of_roomForModels hhost hout
      hnames hfiles hroom hapart s t hs).cases
    · cases hr.symm.trans hok
    · exact hspares fault (Except.error.inj (hstop.symm.trans hr))

/-- Two files of one name, in a directory and in one below it. -/
theorem room_for_files_of_one_name :
    let fs : FileSystem := ⟨.directory [("in", .directory
      [("a.cnf", .file .empty), ("b", .directory [("a.cnf", .file .empty)])])], []⟩
    let options : Options := { Options.default with output := some "out" }
    fs.root.Proper ∧ fs.findInstances "in" = .ok [["a.cnf"], ["b", "a.cnf"]] ∧
      fs.node "out" = .error .notFound ∧ Host.drifting.SearchesInMemory ∧
      RoomForModels fs "out" [["a.cnf"], ["b", "a.cnf"]] ∧ ∀ t fault,
        ((solveDirectory Host.drifting options "in").on ⟨fs, "", []⟩ t).1.1 ≠
          .error (.failed (.file fault)) := by
  intro fs options
  have hproper : fs.root.Proper := by decide
  have hfiles : fs.findInstances "in" = .ok [["a.cnf"], ["b", "a.cnf"]] := by cbv
  have hmissing : fs.node "out" = .error .notFound := by cbv
  have hroom : RoomForModels fs "out" [["a.cnf"], ["b", "a.cnf"]] := by
    obtain ⟨fs₁, hmade⟩ : ∃ fs₁, fs.makeDirectories "out" = .ok fs₁ :=
      ⟨fs.setNode ["out"] (.directory []), by cbv⟩
    refine ⟨⟨fs₁, hmade, ?_⟩, by decide, by decide⟩
    exact FileSystem.node_of_makeDirectories (by decide) (by decide) hmissing hmade
  have hhost := Host.drifting_refusesLikeContests.searchesInMemory
  obtain ⟨-, -, hruns⟩ := models_have_room_unless_nested hproper hfiles "out"
  exact ⟨hproper, hfiles, hmissing, hhost, hroom, fun t =>
    (hruns _ Host.drifting options rfl ⟨fs, "", []⟩ t rfl).2 hhost hroom (by decide)⟩

/-- **Models can collide.**  The model of one file goes to the place of the directory for the model of
another file, so no run answers that both were solved, though both instances have models. -/
theorem models_of_nested_files_collide :
    let fs : FileSystem := ⟨.directory [("in", .directory [("a.cnf", .file "1\n".toUTF8),
      ("a.cnf.sol", .directory [("b.cnf", .file "2\n".toUTF8)])])], []⟩
    let files := [["a.cnf"], ["a.cnf.sol", "b.cnf"]]
    fs.root.Proper ∧ fs.findInstances "in" = .ok files ∧ fs.node "out" = .error .notFound ∧
      (∀ p ∈ ["in/a.cnf", "in/a.cnf.sol/b.cnf"], ∃ inst a,
        (fs.loadInstance none p).result = .ok inst ∧ inst.allSatisfied a = true) ∧
      (solutionPath "out" ["a.cnf.sol", "b.cnf"]).pieces =
        (solutionPath "out" ["a.cnf"]).pieces ++ ["b.cnf.sol"] ∧
      (∀ models fs', Written "out" files fs models fs' → ["a.cnf"] ∈ models.map Prod.fst →
        ∃ fault, fs'.makeParents (solutionPath "out" ["a.cnf.sol", "b.cnf"]) = .error fault) ∧
      ∀ (τ : Type) (host : Host (StateM τ)) (options : Options), options.output = some "out" →
        ∀ t, ((solveDirectory host options "in").on ⟨fs, "", []⟩ t).1.1 ≠ .ok true := by
  intro fs files
  have hproper : fs.root.Proper := by decide
  have hfiles : fs.findInstances "in" = .ok files := by cbv
  have hload : ∀ p ∈ ["in/a.cnf", "in/a.cnf.sol/b.cnf"], ∃ inst a,
      (fs.loadInstance none p).result = .ok inst ∧ inst.allSatisfied a = true := by
    have ha : fs.node "in/a.cnf" = .ok (.file "1\n".toUTF8) :=
      FileSystem.node_of_names (by decide : Path.pieces _ = ["in", "a.cnf"]) (by decide) (by decide)
        rfl (Node.file_ne_link _)
    have hb : fs.node "in/a.cnf.sol/b.cnf" = .ok (.file "2\n".toUTF8) :=
      FileSystem.node_of_names (by decide : Path.pieces _ = ["in", "a.cnf.sol", "b.cnf"])
        (by decide) (by decide) rfl (Node.file_ne_link _)
    have hone : ∀ name, Instance.allSatisfied ⟨#[⟨[⟨1, true⟩]⟩], #[0, name], #[#[], #[0]]⟩
        (fun _ => true) = true := fun name => by cbv
    refine List.forall_mem_cons.mpr ⟨⟨_, _, ?_, hone 1⟩, List.forall_mem_singleton.mpr
      ⟨_, _, ?_, hone 2⟩⟩
    · rw [FileSystem.loadInstance, FileSystem.contentAt, ha]
      cbv
    · rw [FileSystem.loadInstance, FileSystem.contentAt, hb]
      cbv
  have hnames : AreNames files := fun names => FileSystem.names_of_found hproper hfiles
  have hnested : Nested ["a.cnf"] ["a.cnf.sol", "b.cnf"] := by decide
  refine ⟨hproper, hfiles, by cbv, hload, by decide, fun models fs' hwritten hf => ?_,
    fun τ host options hout t hr => ?_⟩
  · exact hwritten.makeParents_of_nested hnames hf (by decide) hnested
  · obtain ⟨models, -, hwritten, hend⟩ := progress_of_solveDirectory host hout hnames
      (FileSystem.pairwise_of_findInstances hproper hfiles) hfiles (s := ⟨fs, "", []⟩) rfl t
    obtain ⟨hall, hapart⟩ := hend true hr
    exact hapart ["a.cnf"] (hall rfl ▸ by decide) _ (by decide) hnested

end StochasticSat
