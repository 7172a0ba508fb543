import Mathlib.Data.List.Induction
import StochasticSat.Proofs.Tree.Directories

/-!
# Filling places below a directory

Some files are to be written below a directory, with the directories on the way to them.  If none of
them is on the way to another, and all their names and paths are short enough (`Fillable`), this can
be done in any order: below the directory there is never anything but such files and directories on
the way to them (`FileSystem.Mirrors`), so none of them is in the way of the next one
(`FileSystem.Mirrors.makeParents`, `FileSystem.Mirrors.writeFile`).
-/

namespace StochasticSat

/-- **Places that can all be filled** behind the pieces of a path: their names and the paths to them
are short enough, and no place is on the way to another one. -/
structure Fillable (stem : List String) (places : List (List String)) : Prop where
  ne_nil : ∀ p ∈ places, p ≠ []
  names : ∀ p ∈ places, ∀ name ∈ p, FileSystem.IsEntryName name
  paths : ∀ p ∈ places, FileSystem.pathFault? (stem ++ p) = none
  apart : ∀ p ∈ places, ∀ rest, rest ≠ [] → p ++ rest ∉ places

/-- A location on the way to some place. -/
def IsOnTheWay (places : List (List String)) (l : List String) : Prop :=
  ∃ rest, rest ≠ [] ∧ l ++ rest ∈ places

theorem IsOnTheWay.of_concat {places : List (List String)} {before : List String} {name : String}
    (h : IsOnTheWay places (before ++ [name])) : IsOnTheWay places before := by
  obtain ⟨rest, -, hmem⟩ := h
  exact ⟨name :: rest, List.cons_ne_nil _ _, by rwa [← List.append_cons] at hmem⟩

section Fillable
variable {stem l : List String} {places : List (List String)} (h : Fillable stem places)
include h

/-- What is on the way to a place is no place. -/
theorem Fillable.not_mem (hl : IsOnTheWay places l) : l ∉ places := by
  obtain ⟨rest, hrest, hmem⟩ := hl
  exact fun hl => h.apart l hl rest hrest hmem

theorem Fillable.names_of_isOnTheWay (hl : IsOnTheWay places l) :
    ∀ name ∈ l, FileSystem.IsEntryName name := by
  obtain ⟨rest, -, hmem⟩ := hl
  exact fun name hname => h.names _ hmem name (List.mem_append_left _ hname)

theorem Fillable.path_of_isOnTheWay (hl : IsOnTheWay places l) (hne : l ≠ []) :
    FileSystem.pathFault? (stem ++ l) = none := by
  have hnames := h.names_of_isOnTheWay hl
  obtain ⟨before, name, rfl⟩ := (List.eq_nil_or_concat' l).resolve_left hne
  obtain ⟨rest, -, hmem⟩ := hl
  have hsub := (List.sublist_append_left (before ++ [name]) rest).append_left stem
  refine FileSystem.pathFault?_of_sublist (h.paths _ hmem) hsub (by simp) fun heq => ?_
  have hname : name ∈ [""] := by simp [← heq]
  exact (hnames name (by simp)).ne_empty (List.mem_singleton.mp hname)

end Fillable
namespace FileSystem
variable {fs fs' : FileSystem} {goal : Goal} {stem base before l : List String}
  {places : List (List String)} {name : String} {n : Node} {entries : List (String × Node)}

/-- **A file system that mirrors some places**: behind the pieces `stem` there is a directory, at the
location `base`, with nothing in it but files at some places and directories on the way to them. -/
structure Mirrors (fs : FileSystem) (stem base : List String) (places : List (List String)) :
    Prop where
  leads : ∃ links, fs.Leads maxLinks (fs.start stem) stem links base
  directory : ∃ entries, fs.root.at? base = some (.directory entries)
  nodes : ∀ l n, l ≠ [] → fs.root.at? (base ++ l) = some n →
    (∃ entries, n = .directory entries) ∧ IsOnTheWay places l ∨
      (∃ content, n = .file content) ∧ l ∈ places

namespace Mirrors

/-- What is on the way to a place is a directory. -/
theorem directory_of_isOnTheWay (h : fs.Mirrors stem base places) (hfill : Fillable stem places)
    (hl : IsOnTheWay places l) (hat : fs.root.at? (base ++ l) = some n) :
    ∃ entries, n = .directory entries := by
  by_cases hne : l = []
  · subst hne
    obtain ⟨entries, hbase⟩ := h.directory
    rw [List.append_nil, hbase] at hat
    exact ⟨entries, (Option.some.inj hat).symm⟩
  · obtain ⟨hdir, -⟩ | ⟨-, hmem⟩ := h.nodes l n hne hat
    · exact hdir
    · exact absurd hmem (hfill.not_mem hl)

/-- What is at a place is a file. -/
theorem file_of_mem (h : fs.Mirrors stem base places) (hfill : Fillable stem places)
    (hl : l ∈ places) (hat : fs.root.at? (base ++ l) = some n) : ∃ content, n = .file content := by
  obtain ⟨-, hway⟩ | ⟨hfile, -⟩ := h.nodes l n (hfill.ne_nil l hl) hat
  · exact absurd hl (hfill.not_mem hway)
  · exact hfile

/-- **A directory on the way to a place, or a file at a place**, is all that is added. -/
theorem setNode (h : fs.Mirrors stem base places) (hl : l ≠ []) (htakes : fs.root.Takes (base ++ l))
    (hbare : n.Bare) (hold : ∀ old, fs.root.at? (base ++ l) = some old → old.Alike n)
    (hn : (∃ entries, n = .directory entries) ∧ IsOnTheWay places l ∨
      (∃ content, n = .file content) ∧ l ∈ places) :
    (fs.setNode (base ++ l) n).Mirrors stem base places := by
  have hkeeps := keeps_setNode htakes hbare hold
  obtain ⟨links, hleads⟩ := h.leads
  obtain ⟨entries, hbase⟩ := h.directory
  refine ⟨⟨links, hkeeps.leads hleads⟩, hkeeps.exists_directory hbase, fun l' n' hl' hat => ?_⟩
  by_cases heq : base ++ l' = base ++ l
  · obtain rfl := List.append_cancel_left heq
    have hnew : (fs.setNode (base ++ l') n).root.at? (base ++ l') = some n := Node.at?_setAt _ _ _
    obtain rfl := Option.some.inj (hnew.symm.trans hat)
    exact hn
  · obtain hsame | ⟨e, e', hwas, his⟩ := htakes.at?_setAt_of_ne hbare heq
    · exact h.nodes l' n' hl' (hsame.symm.trans hat)
    · obtain rfl := Option.some.inj (his.symm.trans hat)
      obtain ⟨-, hway⟩ | ⟨⟨content, hfile⟩, -⟩ := h.nodes l' _ hl' hwas
      · exact Or.inl ⟨⟨e', rfl⟩, hway⟩
      · cases hfile

/-! ### Directories on the way -/

/-- **The last directory on the way to a place** can be made, if it is not there. -/
theorem makeOrKeep (h : fs.Mirrors stem base places) (hfill : Fillable stem places)
    (hway : IsOnTheWay places (before ++ [name]))
    (hparent : fs.root.at? (base ++ before) = some (.directory entries)) :
    fs.makeDirectory (stem ++ (before ++ [name])) ≠ .error .notFound ∧
      ∃ fs' entries', fs.makeOrKeep (stem ++ (before ++ [name])) = .ok fs' ∧
        fs'.Mirrors stem base places ∧
        fs'.root.at? (base ++ (before ++ [name])) = some (.directory entries') := by
  obtain ⟨links, hleads⟩ := h.leads
  have hnames := hfill.names_of_isOnTheWay hway
  have hfault := hfill.path_of_isOnTheWay hway (by simp)
  have hchild : fs.root.at? (base ++ (before ++ [name])) = entries.lookup name := by
    rw [← List.append_assoc]
    exact at?_concat hparent name
  cases hentry : entries.lookup name with
  | none =>
    have hmade : fs.makeDirectory (stem ++ (before ++ [name])) =
        .ok (fs.setNode (base ++ (before ++ [name])) (.directory [])) := by
      rw [makeDirectory, resolvePieces_names hfault hnames, walk_to_absent hleads hnames hparent hentry]
      dsimp only
      rw [List.append_assoc]
    refine ⟨by simp [hmade], _, [], by rw [FileSystem.makeOrKeep, hmade],
      h.setNode (by simp) ?_ Node.bare_empty ?_ (Or.inl ⟨⟨[], rfl⟩, hway⟩), Node.at?_setAt _ _ _⟩
    · rw [← List.append_assoc]
      exact .of_absent hparent hentry
    · intro old hold
      cases (hchild.trans hentry).symm.trans hold
  | some m =>
    rw [hentry] at hchild
    obtain ⟨entries', rfl⟩ := h.directory_of_isOnTheWay hfill hway hchild
    have hmade : fs.makeDirectory (stem ++ (before ++ [name])) = .error .alreadyExists := by
      rw [makeDirectory, resolvePieces_names hfault hnames,
        walk_to_present hleads hnames hchild (Node.directory_ne_link _)]
    have hdown := hleads.append (leads_of_names hnames hchild (Node.directory_ne_link _))
    rw [← start_append_names fun x hx => (hnames x hx).toIsName] at hdown
    refine ⟨by simp [hmade], fs, entries', ?_, h, hchild⟩
    rw [FileSystem.makeOrKeep, hmade]
    dsimp only
    rw [if_pos (isDirectoryAt_of_leads hfault hdown hchild)]

/-- **All directories on the way to a place** can be made. -/
theorem makeDirectoriesAt (h : fs.Mirrors stem base places) (hfill : Fillable stem places)
    (hway : IsOnTheWay places l) (hne : l ≠ []) :
    ∃ fs' entries, fs.makeDirectoriesAt (stem ++ l) = .ok fs' ∧ fs'.Mirrors stem base places ∧
      fs'.root.at? (base ++ l) = some (.directory entries) := by
  induction l using List.reverseRecOn with
  | nil => exact absurd rfl hne
  | append_singleton before name ih =>
    have hnames := hfill.names_of_isOnTheWay hway
    have hput : (stem ++ (before ++ [name])).all Path.staysPut = false := by
      simp [(hnames name (by simp)).staysPut]
    cases hparent : fs.root.at? (base ++ before) with
    | some m =>
      obtain ⟨entries, rfl⟩ := h.directory_of_isOnTheWay hfill hway.of_concat hparent
      obtain ⟨hmade, fs', entries', hkeep, hrest⟩ := h.makeOrKeep hfill hway hparent
      exact ⟨fs', entries', by rw [makeDirectoriesAt_eq_makeOrKeep hput hmade, hkeep], hrest⟩
    | none =>
      obtain ⟨links, hleads⟩ := h.leads
      obtain ⟨entries, hbase⟩ := h.directory
      have hbefore : before ≠ [] := by
        rintro rfl
        rw [List.append_nil, hbase] at hparent
        cases hparent
      have hmade : fs.makeDirectory (stem ++ (before ++ [name])) = .error .notFound := by
        rw [makeDirectory, resolvePieces_names (hfill.path_of_isOnTheWay hway hne) hnames,
          walk_to_missing hleads hnames hbase ?_ hparent]
        rintro first rest n rfl hat
        obtain ⟨more, hmore, hmem⟩ := hway.of_concat
        refine h.directory_of_isOnTheWay hfill ⟨rest ++ more, by simp [hmore], ?_⟩ hat
        rwa [List.append_assoc] at hmem
      obtain ⟨fs₁, entries₁, hmade₁, h₁, hparent₁⟩ := ih hway.of_concat hbefore
      have hup : Path.parent (stem ++ (before ++ [name])) = stem ++ before :=
        Path.parent_names hbefore (fun x hx => (hnames x hx).toIsName) stem
      obtain ⟨-, fs', entries', hkeep, hrest⟩ := h₁.makeOrKeep hfill hway hparent₁
      refine ⟨fs', entries', ?_, hrest⟩
      rw [makeDirectoriesAt_of_notFound hput hmade (hup ▸ hmade₁), hkeep]

/-- **The directory of a place** can be made. -/
theorem makeParents (h : fs.Mirrors stem base places) (hfill : Fillable stem places)
    (hmem : before ++ [name] ∈ places) {p : Path} (hp : p.pieces = stem ++ (before ++ [name])) :
    ∃ fs' entries, fs.makeParents p = .ok fs' ∧ fs'.Mirrors stem base places ∧
      fs'.root.at? (base ++ before) = some (.directory entries) := by
  have hnames := hfill.names _ hmem
  have hway : IsOnTheWay places before := ⟨[name], List.cons_ne_nil _ _, hmem⟩
  by_cases hbefore : before = []
  -- the directory of the place is where the pieces lead
  · subst hbefore
    obtain ⟨links, hleads⟩ := h.leads
    obtain ⟨entries, hbase⟩ := h.directory
    refine ⟨fs, entries, ?_, h, by rw [List.append_nil]; exact hbase⟩
    rw [FileSystem.makeParents, hp, List.nil_append,
      Path.parent_concat (hnames name (by simp)).toIsName]
    by_cases hnil : Path.dropEnd Path.staysPut stem = []
    · rw [hnil, FileSystem.makeDirectoriesAt]
    · obtain ⟨tail, hstem, -⟩ := Path.exists_dropEnd_append Path.staysPut stem
      have hstart : fs.start stem = fs.start (Path.dropEnd Path.staysPut stem) := by
        conv_lhs => rw [hstem]
        exact start_append hnil tail
      have hfault : pathFault? (Path.dropEnd Path.staysPut stem) = none :=
        pathFault?_of_sublist (hfill.paths _ hmem)
          ((Path.dropEnd_sublist _ _).trans (List.sublist_append_left stem _)) hnil
          (Path.dropEnd_ne_singleton rfl stem)
      have hleads' := hleads.dropEnd (p := Path.staysPut) fun _ => id
      rw [hstart] at hleads'
      exact makeDirectoriesAt_of_leads hfault hleads' hbase
  · obtain ⟨fs', entries, hmade, hrest⟩ := h.makeDirectoriesAt hfill hway hbefore
    refine ⟨fs', entries, ?_, hrest⟩
    rw [FileSystem.makeParents, hp,
      Path.parent_names hbefore (fun x hx => (hnames x hx).toIsName) stem, hmade]

/-! ### Files at places -/

/-- **A place can be filled**, if its directory is there. -/
theorem writeFile (h : fs.Mirrors stem base places) (hfill : Fillable stem places)
    (hmem : before ++ [name] ∈ places) {p : Path} (hp : p.pieces = stem ++ (before ++ [name]))
    (hparent : fs.root.at? (base ++ before) = some (.directory entries)) (content : ByteArray) :
    ∃ fs', fs.writeFile p content = .ok fs' ∧ fs'.Mirrors stem base places := by
  obtain ⟨links, hleads⟩ := h.leads
  have hnames := hfill.names _ hmem
  have hchild : fs.root.at? (base ++ (before ++ [name])) = entries.lookup name := by
    rw [← List.append_assoc]
    exact at?_concat hparent name
  have hset : fs.root.Takes (base ++ (before ++ [name])) →
      (fs.setNode (base ++ (before ++ [name])) (.file content)).Mirrors stem base places :=
    fun htakes => h.setNode (by simp) htakes (Node.bare_file content)
      (fun _ hold => htakes.alike_file hold content) (Or.inr ⟨⟨content, rfl⟩, hmem⟩)
  refine ⟨fs.setNode (base ++ (before ++ [name])) (.file content), ?_, hset ?_⟩
  · cases hentry : entries.lookup name with
    | none =>
      rw [FileSystem.writeFile, resolve, hp, resolvePieces_names (hfill.paths _ hmem) hnames,
        walk_to_absent hleads hnames hparent hentry]
      dsimp only
      rw [List.append_assoc]
    | some m =>
      rw [hentry] at hchild
      obtain ⟨old, rfl⟩ := h.file_of_mem hfill hmem hchild
      rw [FileSystem.writeFile, resolve, hp, resolvePieces_names (hfill.paths _ hmem) hnames,
        walk_to_present hleads hnames hchild (Node.file_ne_link old)]
  · cases hentry : entries.lookup name with
    | none =>
      rw [← List.append_assoc]
      exact .of_absent hparent hentry
    | some m =>
      rw [hentry] at hchild
      obtain ⟨old, rfl⟩ := h.file_of_mem hfill hmem hchild
      exact .of_file hchild

end Mirrors

end FileSystem

end StochasticSat
