import Mathlib.Data.List.Permutation
import Mathlib.Data.List.TakeWhile
import StochasticSat.Proofs.Text.ByteOrder
import StochasticSat.Proofs.Tree.Walks

/-!
# The discovery of instance files

The instance files of a directory are exactly the regular files below it whose names end in `.cnf`
or `.txt` with something before that (`Path.extension?_eq_some_iff`, `Node.mem_instanceFiles_iff`).
They come in ascending order, name by name, so each comes once, and two directories with the same
instance files give the same row (`Node.Proper.instanceFiles_eq`).

The order of names is that of their bytes.  The path that is shown for a file is the path of the
directory with the names of the file behind it, so the paths are in the same order
(`instance_files_are_discovered`).
-/

namespace StochasticSat

namespace Path

/-! ### Extensions -/

theorem extension?_append (stem : String) {ext : String} (h : '.' ∉ ext.toList) :
    extension? (stem ++ "." ++ ext) = if stem = "" then none else some ext := by
  have hall : ∀ c ∈ ext.toList.reverse, (c != '.') = true := by
    intro c hc
    rw [bne_iff_ne]
    rintro rfl
    exact h (List.mem_reverse.mp hc)
  have hcs : (stem ++ "." ++ ext).toList.reverse =
      ext.toList.reverse ++ '.' :: stem.toList.reverse := by
    simp
  have hafter : (ext.toList.reverse ++ '.' :: stem.toList.reverse).takeWhile (· != '.') =
      ext.toList.reverse := by
    rw [List.takeWhile_append_of_pos hall, List.takeWhile_cons_of_neg (by simp), List.append_nil]
  unfold extension?
  simp only [hcs, hafter, List.drop_left]
  by_cases hstem : stem = ""
  · simp [hstem]
  · rw [if_neg hstem]
    obtain ⟨c, cs, hc⟩ := List.exists_cons_of_ne_nil (l := stem.toList.reverse) (by simpa using hstem)
    rw [hc]
    simp

/-- **The extension of a name** is what stands after its last dot, provided something comes before
that dot. -/
theorem extension?_eq_some_iff {name ext : String} :
    extension? name = some ext ↔ ∃ stem, stem ≠ "" ∧ name = stem ++ "." ++ ext ∧
      '.' ∉ ext.toList := by
  constructor
  · intro h
    by_cases hdot : '.' ∈ name.toList.reverse
    · obtain ⟨after, before, hname, hafter⟩ := List.eq_append_cons_of_mem hdot
      have heq : name = String.ofList before.reverse ++ "." ++ String.ofList after.reverse := by
        rw [← String.toList_inj, ← List.reverse_inj, hname]
        simp
      have hext : '.' ∉ (String.ofList after.reverse).toList := by simpa using hafter
      rw [heq, extension?_append _ hext] at h
      split_ifs at h with hstem
      cases h
      exact ⟨_, hstem, heq, hext⟩
    · have htake : name.toList.reverse.takeWhile (· != '.') = name.toList.reverse := by
        refine List.takeWhile_eq_self_iff.mpr fun c hc => ?_
        rw [bne_iff_ne]
        rintro rfl
        exact hdot hc
      unfold extension? at h
      simp only [htake, List.drop_length] at h
      cases h
  · rintro ⟨stem, hstem, rfl, hext⟩
    rw [extension?_append stem hext, if_neg hstem]

end Path

namespace Node

/-- **The name of an instance file** has `.cnf` or `.txt` behind a part that is not empty. -/
theorem isInstanceName_iff {name : String} : isInstanceName name = true ↔
    ∃ stem, stem ≠ "" ∧ (name = stem ++ ".cnf" ∨ name = stem ++ ".txt") := by
  have hext : isInstanceName name = true ↔
      Path.extension? name = some "cnf" ∨ Path.extension? name = some "txt" := by
    unfold isInstanceName
    split <;> simp_all
  have hdots : ∀ stem, stem ++ "." ++ "cnf" = stem ++ ".cnf" ∧ stem ++ "." ++ "txt" = stem ++ ".txt" :=
    fun stem => ⟨by rw [String.append_assoc]; rfl, by rw [String.append_assoc]; rfl⟩
  rw [hext, Path.extension?_eq_some_iff, Path.extension?_eq_some_iff]
  constructor
  · rintro (⟨stem, hstem, rfl, -⟩ | ⟨stem, hstem, rfl, -⟩)
    · exact ⟨stem, hstem, Or.inl (hdots stem).1⟩
    · exact ⟨stem, hstem, Or.inr (hdots stem).2⟩
  · rintro ⟨stem, hstem, rfl | rfl⟩
    · exact Or.inl ⟨stem, hstem, (hdots stem).1.symm, by decide⟩
    · exact Or.inr ⟨stem, hstem, (hdots stem).2.symm, by decide⟩

/-! ### Regular files -/

theorem mem_filesBelow_of_file {names : List String} {n : Node} {content : ByteArray}
    (h : n.at? names = some (.file content)) : names ∈ n.filesBelow := by
  induction names generalizing n with
  | nil =>
    cases h
    exact List.mem_singleton_self _
  | cons name names ih =>
    obtain ⟨m, hm, hrest⟩ := Option.bind_eq_some_iff.mp h
    cases n with
    | file | link => cases hm
    | directory entries =>
      obtain ⟨before, after, hentries, -⟩ := List.lookup_eq_some_iff.mp hm
      refine mem_filesBelow_directory.mpr ⟨name, m, ?_, names, ih hrest, rfl⟩
      rw [hentries]
      simp

theorem Proper.mem_filesBelow_iff {n : Node} (h : n.Proper) {names : List String} :
    names ∈ n.filesBelow ↔ ∃ content, n.at? names = some (.file content) :=
  ⟨fun hmem => (h.file_of_mem hmem).1, fun ⟨_, hat⟩ => mem_filesBelow_of_file hat⟩

/-- The names of an instance file: the last of them is one. -/
def IsInstancePath (names : List String) : Prop :=
  ∃ before stem, stem ≠ "" ∧ (names = before ++ [stem ++ ".cnf"] ∨ names = before ++ [stem ++ ".txt"])

theorem IsInstancePath.append {names : List String} (h : IsInstancePath names)
    (base : List String) : IsInstancePath (base ++ names) := by
  obtain ⟨before, stem, hstem, rfl | rfl⟩ := h
  · exact ⟨base ++ before, stem, hstem, Or.inl (List.append_assoc _ _ _).symm⟩
  · exact ⟨base ++ before, stem, hstem, Or.inr (List.append_assoc _ _ _).symm⟩

theorem isInstancePath_iff {names : List String} :
    names.getLast?.any isInstanceName = true ↔ IsInstancePath names := by
  unfold IsInstancePath
  rw [Option.any_eq_true]
  constructor
  · rintro ⟨name, hlast, hname⟩
    obtain ⟨before, rfl⟩ := List.getLast?_eq_some_iff.mp hlast
    obtain ⟨stem, hstem, rfl | rfl⟩ := isInstanceName_iff.mp hname
    · exact ⟨before, stem, hstem, Or.inl rfl⟩
    · exact ⟨before, stem, hstem, Or.inr rfl⟩
  · rintro ⟨before, stem, hstem, rfl | rfl⟩
    · exact ⟨_, List.getLast?_concat, isInstanceName_iff.mpr ⟨stem, hstem, Or.inl rfl⟩⟩
    · exact ⟨_, List.getLast?_concat, isInstanceName_iff.mpr ⟨stem, hstem, Or.inr rfl⟩⟩

/-- **The instance files of a tree** are its regular files with the names of instance files. -/
theorem Proper.mem_instanceFiles_iff {n : Node} (h : n.Proper) {names : List String} :
    names ∈ n.instanceFiles ↔
      (∃ content, n.at? names = some (.file content)) ∧ IsInstancePath names := by
  rw [instanceFiles, List.mem_filter, h.mem_filesBelow_iff, isInstancePath_iff]

theorem isInstancePath_of_mem {n : Node} {names : List String} (h : names ∈ n.instanceFiles) :
    IsInstancePath names :=
  isInstancePath_iff.mp (List.mem_filter.mp h).2

theorem Proper.pairwise_instanceFiles {n : Node} (h : n.Proper) :
    n.instanceFiles.Pairwise (· < ·) := h.pairwise_filesBelow.filter _

theorem Proper.nodup_instanceFiles {n : Node} (h : n.Proper) : n.instanceFiles.Nodup :=
  h.nodup_filesBelow.filter _

/-- **Where the same instance files are, the same row of them is found.** -/
theorem Proper.instanceFiles_eq {n m : Node} (hn : n.Proper) (hm : m.Proper)
    (h : ∀ names, IsInstancePath names →
      ((∃ content, n.at? names = some (.file content)) ↔
        ∃ content, m.at? names = some (.file content))) : n.instanceFiles = m.instanceFiles := by
  have hmem : ∀ names, names ∈ n.instanceFiles ↔ names ∈ m.instanceFiles := by
    intro names
    rw [hn.mem_instanceFiles_iff, hm.mem_instanceFiles_iff]
    exact and_congr_left fun hpath => h names hpath
  -- an ascending row is determined by its elements
  refine List.Perm.eq_of_pairwise (fun _ _ _ _ hlt hlt' => absurd hlt' (List.lt_asymm hlt))
    hn.pairwise_instanceFiles hm.pairwise_instanceFiles ?_
  exact (List.perm_ext_iff_of_nodup hn.nodup_instanceFiles hm.nodup_instanceFiles).mpr hmem

end Node

namespace FileSystem

variable {fs : FileSystem} {p : Path} {files : List (List String)}

/-- A directory is all that it takes to look for instance files. -/
theorem findInstances_of_isDirectory (h : fs.isDirectory p = true) :
    ∃ files, fs.findInstances p = .ok files := by
  unfold isDirectory isDirectoryAt at h
  split at h
  · next location entries hr =>
    have hnode : fs.node p = .ok (.directory entries) := by
      rw [node, show fs.resolve .use p = _ from hr]
    exact ⟨_, by rw [findInstances, hnode]⟩
  · cases h

theorem findInstances_of_not_isDirectory (h : fs.isDirectory p = false) :
    fs.findInstances p = .error (.file (.noInstanceDirectory p)) := by
  cases hfiles : fs.findInstances p with
  | ok files =>
    rw [isDirectory_of_findInstances hfiles] at h
    cases h
  | error e =>
    unfold findInstances at hfiles
    split at hfiles
    · cases hfiles
    · exact hfiles ▸ rfl

/-- Instance files are found in ascending order. -/
theorem pairwise_of_findInstances (hroot : fs.root.Proper) (h : fs.findInstances p = .ok files) :
    files.Pairwise (· < ·) := by
  obtain ⟨location, entries, hr, rfl⟩ := exists_directory h
  exact (hroot.at (leads_of_resolve hr).2).pairwise_instanceFiles

end FileSystem

/-! ### Paths of instance files -/

/-- The path that is shown for a file begins with that of the directory. -/
theorem Path.exists_below_eq {names : List String} (p : Path)
    (h : ∀ name ∈ names, IsName name) : ∃ rest, below p names = p ++ rest := by
  induction names generalizing p with
  | nil => exact ⟨"", (String.append_empty).symm⟩
  | cons name names ih =>
    obtain ⟨hname, hnames⟩ := List.forall_mem_cons.mp h
    obtain ⟨rest, hrest⟩ := ih (join p name) hnames
    obtain ⟨step, hstep⟩ : ∃ step, join p name = p ++ step := by
      rw [join, hname.isAbsolute, if_neg Bool.false_ne_true]
      split_ifs
      · exact ⟨name, rfl⟩
      · exact ⟨"/" ++ name, String.append_assoc⟩
    exact ⟨step ++ rest, by rw [below, List.foldl_cons, ← below, hrest, hstep, String.append_assoc]⟩

/-- **Instance files are discovered, all of them, once and in order.**  Below what is a directory,
perhaps at the end of a link, and only there, they are found.  A row of names is found if and only
if it leads down to a regular file, past no link, and its last name has the extension `cnf` or `txt`
behind a part that is not empty.  The paths that are shown for the files begin with the path of the
directory; no path is shown twice, and they come in the order of their pieces, which is that of the
bytes of these pieces. -/
theorem instance_files_are_discovered {fs : FileSystem} (hroot : fs.root.Proper) (p : Path) :
    ((∃ files, fs.findInstances p = .ok files) ↔ fs.isDirectory p = true) ∧
    (fs.isDirectory p = false →
      fs.findInstances p = .error (.file (.noInstanceDirectory p))) ∧
    ∀ files, fs.findInstances p = .ok files →
      (∃ location directory, fs.resolve .use p = .ok (.present location directory) ∧
        ∀ names, names ∈ files ↔ (∃ content, directory.at? names = some (.file content)) ∧
          Node.IsInstancePath names) ∧
      (files.map (Path.below p)).Nodup ∧
      (files.map (Path.below p)).Pairwise (fun q r => rowBytes q.pieces < rowBytes r.pieces) ∧
      ∀ q ∈ files.map (Path.below p), ∃ rest, q = p ++ rest := by
  refine ⟨⟨fun ⟨files, h⟩ => FileSystem.isDirectory_of_findInstances h,
    FileSystem.findInstances_of_isDirectory⟩, FileSystem.findInstances_of_not_isDirectory,
    fun files h => ?_⟩
  obtain ⟨location, entries, hr, hfiles⟩ := FileSystem.exists_directory h
  have hproper : (Node.directory entries).Proper :=
    hroot.at (FileSystem.leads_of_resolve hr).2
  obtain ⟨stem, tail, -, -, -, hbelow⟩ :=
    Path.exists_pieces_below (FileSystem.ne_empty_of_findInstances h)
  refine ⟨⟨location, _, hr, fun names => hfiles ▸ hproper.mem_instanceFiles_iff⟩,
    FileSystem.nodup_below hroot h, ?_, ?_⟩
  · have hlt := FileSystem.pairwise_of_findInstances hroot h
    refine List.pairwise_map.mpr (hlt.imp_of_mem fun {f g} hf hg hfg => ?_)
    obtain ⟨hfne, hfnames⟩ := FileSystem.names_of_found hroot h hf
    obtain ⟨hgne, hgnames⟩ := FileSystem.names_of_found hroot h hg
    rw [hbelow f hfne hfnames, hbelow g hgne hgnames]
    exact rowBytes_lt (List.append_left_lt hfg)
  · intro q hq
    obtain ⟨names, hmem, rfl⟩ := List.mem_map.mp hq
    exact Path.exists_below_eq p (FileSystem.names_of_found hroot h hmem).2

/-- A directory with a file in a directory of its own, whose name continues in that of another file;
a hidden file, a directory with the name of an instance, and a link to one. -/
theorem discovery_among_odd_names :
    let fs : FileSystem := ⟨.directory
      [("a.cnf", .file .empty), ("a", .directory [("x.cnf", .file .empty)]),
        (".cnf", .file .empty), ("b.cnf", .directory [("c.txt", .file .empty)]),
        ("l.cnf", .link "a.cnf")], []⟩
    fs.root.Proper ∧ fs.findInstances "." = .ok [["a", "x.cnf"], ["a.cnf"], ["b.cnf", "c.txt"]] ∧
      rowBytes (Path.pieces "./a/x.cnf") < rowBytes (Path.pieces "./a.cnf") ∧
      textBytes "./a.cnf" < textBytes "./a/x.cnf" := by
  intro fs
  have hproper : fs.root.Proper := by decide
  have hfiles : fs.findInstances "." = .ok [["a", "x.cnf"], ["a.cnf"], ["b.cnf", "c.txt"]] :=
    (FileSystem.findInstances_dot rfl).trans (congrArg Except.ok (by
      generalize ByteArray.empty = content
      cbv))
  obtain ⟨-, -, hfound⟩ := instance_files_are_discovered hproper "."
  obtain ⟨-, -, hascending, -⟩ := hfound _ hfiles
  exact ⟨hproper, hfiles, (List.pairwise_cons.mp hascending).1 _ List.mem_cons_self,
    textBytes_lt (by decide)⟩

end StochasticSat
