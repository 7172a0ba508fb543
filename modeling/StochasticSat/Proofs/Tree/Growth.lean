import StochasticSat.Proofs.Tree.Discovery
import StochasticSat.Proofs.Tree.Writes

/-!
# File systems that grow

Making directories and writing files only ever adds to a file system (`FileSystem.Grows`): every
node is kept, no link is made, names stay distinct, and the files are as they were but at the places
that were written to.  This is the case for one directory (`FileSystem.grows_of_makeDirectory`), and
so for all directories along a path (`FileSystem.grows_of_makeDirectoriesAt`) and for a file
(`FileSystem.grows_of_writeFile`).

What is read at other places is the same before and after, and so are the instance files that are
found, if nothing was written to a place of one (`FileSystem.Grows.contentAt_eq`,
`FileSystem.Grows.findInstances_eq`).
-/

namespace StochasticSat

namespace Path

theorem no_slash_of_mem_pieces {p : Path} {piece : String} (h : piece ∈ p.pieces) :
    '/' ∉ piece.toList := by
  have hpieces : ∀ cs begun : List Char, '/' ∉ begun → ∀ q ∈ piecesOnto begun cs, '/' ∉ q := by
    intro cs
    induction cs with
    | nil => simp [piecesOnto]
    | cons c cs ih =>
      intro begun hbegun
      rw [piecesOnto]
      split_ifs with hc
      · refine List.forall_mem_cons.mpr ⟨by simpa using hbegun, ih [] List.not_mem_nil⟩
      · exact ih (c :: begun) (by simpa [hbegun] using Ne.symm hc)
  obtain ⟨cs, hcs, rfl⟩ := List.mem_map.mp h
  simpa using hpieces _ [] List.not_mem_nil cs hcs

theorem dropEnd_sublist (p : String → Bool) (pieces : List String) :
    (dropEnd p pieces).Sublist pieces := by
  have h := (List.dropWhile_sublist (l := pieces.reverse) p).reverse
  rwa [List.reverse_reverse] at h

theorem parent_sublist (pieces : List String) : (parent pieces).Sublist pieces :=
  (dropEnd_sublist _ _).trans ((List.dropLast_sublist _).trans (dropEnd_sublist _ _))

end Path

/-! ### Trees -/

namespace Node

/-- **A tree without symbolic links.** -/
def LinkFree (n : Node) : Prop := ∀ location target, n.at? location ≠ some (.link target)

theorem linkFree_file (content : ByteArray) : (file content).LinkFree := by
  intro location target h
  cases location <;> cases h

theorem linkFree_directory {entries : List (String × Node)}
    (h : ∀ entry ∈ entries, entry.2.LinkFree) : (directory entries).LinkFree := by
  intro location target hat
  cases location with
  | nil => cases hat
  | cons name location =>
    obtain ⟨m, hm, hrest⟩ := Option.bind_eq_some_iff.mp hat
    obtain ⟨before, after, rfl, -⟩ := List.lookup_eq_some_iff.mp hm
    exact h (name, m) (by simp) location target hrest

theorem mem_setEntry {entries : List (String × Node)} {name : String} {n : Node}
    {entry : String × Node} (h : entry ∈ setEntry entries name n) :
    entry = (name, n) ∨ entry ∈ entries := by
  induction entries with
  | nil => exact Or.inl (List.mem_singleton.mp h)
  | cons first entries ih =>
    obtain ⟨x, m⟩ := first
    rw [setEntry] at h
    split_ifs at h with hx
    · exact (List.mem_cons.mp h).imp_right (List.mem_cons_of_mem _)
    · rcases List.mem_cons.mp h with rfl | h
      · exact Or.inr List.mem_cons_self
      · exact (ih h).imp_right (List.mem_cons_of_mem _)

theorem map_fst_setEntry (entries : List (String × Node)) (name : String) (n : Node) :
    (setEntry entries name n).map Prod.fst =
      if name ∈ entries.map Prod.fst then entries.map Prod.fst
      else entries.map Prod.fst ++ [name] := by
  induction entries with
  | nil => rfl
  | cons first entries ih =>
    obtain ⟨x, m⟩ := first
    rw [setEntry]
    by_cases hx : x = name
    · simp [hx]
    · rw [if_neg hx, List.map_cons, ih]
      simp only [List.map_cons, List.mem_cons, Ne.symm hx, false_or, List.cons_append]
      split_ifs <;> rfl

theorem nodup_setEntry {entries : List (String × Node)} (h : (entries.map Prod.fst).Nodup)
    (name : String) (n : Node) : ((setEntry entries name n).map Prod.fst).Nodup := by
  rw [map_fst_setEntry]
  split_ifs with hmem
  · exact h
  · exact List.nodup_append.mpr ⟨h, List.nodup_singleton _, fun x hx y hy => by
      rw [List.mem_singleton.mp hy]
      rintro rfl
      exact hmem hx⟩

/-- Names stay distinct when a node is put into a tree. -/
theorem Takes.proper_setAt {m n : Node} {location : List String} (h : m.Takes location)
    (hm : m.Proper) (hn : n.Proper) (hname : ∀ before name, location = before ++ [name] →
      m.at? location = none → Path.IsName name) : (setAt n location m).Proper := by
  induction h with
  | existing content => exact hn
  | @inside entries name child names hchild _ ih =>
    obtain ⟨before, after, rfl, -⟩ := List.lookup_eq_some_iff.mp hchild
    have hmem : (name, child) ∈ before ++ (name, child) :: after := by simp
    obtain ⟨-, hisName, hproper⟩ := hm.child hmem
    refine proper_directory (nodup_setEntry (hm [] _ rfl).1 _ _) fun entry hentry => ?_
    rcases mem_setEntry hentry with rfl | hentry
    · rw [hchild]
      refine ⟨hisName, ih hproper fun before name' heq hnone => ?_⟩
      refine hname (name :: before) name' (by rw [heq]; rfl) ?_
      rw [at?, child?, hchild]
      exact hnone
    · obtain ⟨-, hentryName, hentryProper⟩ := hm.child (m := entry.2) hentry
      exact ⟨hentryName, hentryProper⟩
  | @beside entries name hlookup =>
    refine proper_directory (nodup_setEntry (hm [] _ rfl).1 _ _) fun entry hentry => ?_
    rcases mem_setEntry hentry with rfl | hentry
    · refine ⟨hname [] name rfl ?_, hn⟩
      rw [at?, child?, hlookup]
      rfl
    · obtain ⟨-, hentryName, hentryProper⟩ := hm.child (m := entry.2) hentry
      exact ⟨hentryName, hentryProper⟩

end Node

/-! ### Growth -/

namespace FileSystem
variable {fs fs₁ fs' : FileSystem} {goal : Goal} {links links' : Nat}
  {here location todo : List String} {places places' : List String → Prop}

/-- **A file system that has grown**: nodes were added, and files were changed or added at some
places only. -/
structure Grows (fs fs' : FileSystem) (places : List String → Prop) : Prop where
  keeps : fs.Keeps fs'
  home : fs'.home = fs.home
  files : ∀ location, ¬ places location → ∀ content,
    fs'.root.at? location = some (.file content) ↔ fs.root.at? location = some (.file content)
  links : ∀ location target, fs'.root.at? location = some (.link target) →
    fs.root.at? location = some (.link target)
  proper : fs.root.Proper → fs'.root.Proper

namespace Grows

protected theorem refl (fs : FileSystem) : fs.Grows fs places :=
  ⟨fun _ m hm => ⟨m, hm, .refl m⟩, rfl, fun _ _ _ => Iff.rfl, fun _ _ => id, id⟩

protected theorem trans (h : fs.Grows fs₁ places) (h' : fs₁.Grows fs' places) :
    fs.Grows fs' places where
  keeps here m hm := by
    obtain ⟨m₁, hm₁, ha₁⟩ := h.keeps here m hm
    obtain ⟨m', hm', ha'⟩ := h'.keeps here m₁ hm₁
    exact ⟨m', hm', ha₁.trans ha'⟩
  home := h'.home.trans h.home
  files location hl content := (h'.files location hl content).trans (h.files location hl content)
  links location target hl := h.links location target (h'.links location target hl)
  proper hp := h'.proper (h.proper hp)

theorem mono (h : fs.Grows fs' places) (hp : ∀ location, places location → places' location) :
    fs.Grows fs' places' :=
  { h with files := fun location hl => h.files location fun hplace => hl (hp location hplace) }

theorem linkFree (h : fs.Grows fs' places) (hlinks : fs.root.LinkFree) : fs'.root.LinkFree :=
  fun location target hl => hlinks location target (h.links location target hl)

theorem start_eq (h : fs.Grows fs' places) (pieces : List String) :
    fs'.start pieces = fs.start pieces := by
  unfold start
  rw [h.home]

end Grows

/-- Pieces lead to the same place where the same nodes are. -/
theorem Keeps.leads (h : fs.Keeps fs') (hl : fs.Leads links here todo links' location) :
    fs'.Leads links here todo links' location := by
  induction hl with
  | nil links here => exact .nil links here
  | step hs _ ih => exact .step (h.stride_eq hs) ih

/-! ### What makes a file system grow -/

/-- **Putting a node where there is room for it** makes a file system grow. -/
theorem grows_setNode {n : Node} (h : fs.root.Takes location) (hn : n.Bare)
    (hold : ∀ old, fs.root.at? location = some old → old.Alike n) (hproper : n.Proper)
    (hlink : ∀ target, n ≠ .link target) (hplace : ∀ content, n = .file content → places location)
    (hname : ∀ before name, location = before ++ [name] → fs.root.at? location = none →
      Path.IsName name) : fs.Grows (fs.setNode location n) places where
  keeps := keeps_setNode h hn hold
  home := rfl
  files here hhere content := by
    by_cases heq : here = location
    · subst heq
      have hnew : (fs.setNode here n).root.at? here = some n := Node.at?_setAt n here fs.root
      rw [hnew]
      refine ⟨fun hfile => absurd (hplace content (Option.some.inj hfile)) hhere, fun hfile => ?_⟩
      generalize hnode : Node.file content = old at hfile
      cases hold old hfile with
      | file content' content'' => exact absurd (hplace content'' rfl) hhere
      | directory | link => cases hnode
    · obtain hsame | ⟨entries, entries', hat, hat'⟩ := h.at?_setAt_of_ne hn heq
      · exact iff_of_eq (congrArg (· = _) hsame)
      · exact iff_of_false (by simp [setNode, hat']) (by simp [hat])
  links here target hhere := by
    by_cases heq : here = location
    · subst heq
      have hnew : (fs.setNode here n).root.at? here = some n := Node.at?_setAt n here fs.root
      exact absurd (Option.some.inj (hnew.symm.trans hhere)) (hlink target)
    · obtain hsame | ⟨entries, entries', hat, hat'⟩ := h.at?_setAt_of_ne hn heq
      · exact hsame.symm.trans hhere
      · cases hat'.symm.trans hhere
  proper hp := h.proper_setAt hp hproper hname

/-- A walk that ends at a node ends where that node is. -/
theorem at?_of_walk {node : Node} (h : fs.walk goal links here todo = .ok (.present location node)) :
    fs.root.at? location = some node := by
  fun_induction walk fs goal links here todo with
  | case1 links here node hat => cases h; exact hat
  | case3 | case4 | case11 | case12 =>
    rename_i ih
    exact ih h
  | case9 links here piece rest entries hat hput hup _ hsize target hentry hmake =>
    cases h
    exact (at?_concat hat piece).trans hentry
  | _ => cases h

/-- A walk that ends where nothing is ends in a directory, with a name that may be put there. -/
theorem absent_of_walk {directory : List String} {name : String}
    (h : fs.walk goal links here todo = .ok (.absent directory name)) :
    (∃ entries, fs.root.at? directory = some (.directory entries) ∧ entries.lookup name = none) ∧
      ((∀ piece ∈ todo, '/' ∉ piece.toList) → Path.IsName name) := by
  fun_induction walk fs goal links here todo with
  | case3 links here piece rest entries hat hput ih =>
    exact ⟨(ih h).1, fun hs => (ih h).2 fun q hq => hs q (List.mem_cons_of_mem _ hq)⟩
  | case4 links here rest entries hat hput ih =>
    exact ⟨(ih h).1, fun hs => (ih h).2 fun q hq => hs q (List.mem_cons_of_mem _ hq)⟩
  | case7 links here piece rest entries hat hput hup _ hsize hentry hrest =>
    cases h
    refine ⟨⟨entries, hat, hentry⟩, fun hs => ?_⟩
    simp only [Path.staysPut, Bool.or_eq_true, String.isEmpty_iff, beq_iff_eq, not_or] at hput
    exact ⟨hput.1, hs _ List.mem_cons_self, hput.2, hup⟩
  | case11 here piece rest entries hat hput hup _ hsize target hentry _ links ih =>
    refine ⟨(ih h).1, fun hs => (ih h).2 fun q hq => ?_⟩
    rcases List.mem_append.mp hq with hq | hq
    · exact Path.no_slash_of_mem_pieces hq
    · exact hs q (List.mem_cons_of_mem _ hq)
  | case12 links here piece rest entries hat hput hup _ hsize entry hlink hentry ih =>
    exact ⟨(ih h).1, fun hs => (ih h).2 fun q hq => hs q (List.mem_cons_of_mem _ hq)⟩
  | _ => cases h

/-- What becomes of a file system in which a directory is made. -/
theorem makeDirectory_eq_ok {pieces : List String} (h : fs.makeDirectory pieces = .ok fs') :
    ∃ directory name, fs.walk .make maxLinks (fs.start pieces) (Path.dropEnd (·.isEmpty) pieces) =
      .ok (.absent directory name) ∧ fs' = fs.setNode (directory ++ [name]) (.directory []) := by
  unfold makeDirectory at h
  split at h
  · cases h
  · next directory name hspot =>
    cases h
    unfold resolvePieces at hspot
    split at hspot
    · cases hspot
    · rw [if_pos rfl] at hspot
      exact ⟨directory, name, hspot, rfl⟩
  · cases h

theorem grows_of_makeDirectory {pieces : List String} (hs : ∀ piece ∈ pieces, '/' ∉ piece.toList)
    (h : fs.makeDirectory pieces = .ok fs') : fs.Grows fs' places := by
  obtain ⟨directory, name, hwalk, rfl⟩ := makeDirectory_eq_ok h
  obtain ⟨⟨entries, hat, hlookup⟩, hname⟩ := absent_of_walk hwalk
  have hnone : fs.root.at? (directory ++ [name]) = none := (at?_concat hat name).trans hlookup
  refine grows_setNode (.of_absent hat hlookup) Node.bare_empty ?_
    (Node.proper_directory List.nodup_nil (by simp)) (Node.directory_ne_link _)
    (fun _ h => by cases h) fun before name' heq _ => ?_
  · intro old hold
    cases hnone.symm.trans hold
  · cases (List.append_inj' heq rfl).2
    exact hname fun piece hpiece => hs piece ((Path.dropEnd_sublist _ _).subset hpiece)

theorem grows_of_makeOrKeep {pieces : List String} (hs : ∀ piece ∈ pieces, '/' ∉ piece.toList)
    (h : fs.makeOrKeep pieces = .ok fs') : fs.Grows fs' places := by
  unfold makeOrKeep at h
  split at h
  · next fs₁ hmade =>
    cases h
    exact grows_of_makeDirectory hs hmade
  · split_ifs at h
    cases h
    exact .refl fs

/-- **Making directories** makes a file system grow, and changes no file. -/
theorem grows_of_makeDirectoriesAt {pieces : List String}
    (hs : ∀ piece ∈ pieces, '/' ∉ piece.toList) (h : fs.makeDirectoriesAt pieces = .ok fs') :
    fs.Grows fs' places := by
  fun_induction makeDirectoriesAt fs pieces generalizing fs' with
  | case1 => cases h; exact .refl fs
  | case2 => cases h; exact .refl fs
  | case3 => cases h; exact grows_of_makeDirectory hs (by assumption)
  | case4 piece rest hput hnotFound fs₁ hparent ih =>
    have hgrows : Grows _ _ places := grows_of_makeOrKeep hs h
    exact (ih (fun q hq => hs q ((Path.parent_sublist _).subset hq)) hparent).trans hgrows
  | case5 => cases h
  | case6 => exact grows_of_makeOrKeep hs h

theorem grows_of_makeDirectories {p : Path} (h : fs.makeDirectories p = .ok fs') :
    fs.Grows fs' places :=
  grows_of_makeDirectoriesAt (fun _ => Path.no_slash_of_mem_pieces) h

theorem grows_of_makeParents {p : Path} (h : fs.makeParents p = .ok fs') : fs.Grows fs' places :=
  grows_of_makeDirectoriesAt
    (fun _ hq => Path.no_slash_of_mem_pieces ((Path.parent_sublist _).subset hq)) h

/-- **Writing a file** makes a file system grow, and changes no other file. -/
theorem grows_of_writeFile {p : Path} {content : ByteArray} (h : fs.writeFile p content = .ok fs') :
    ∃ links location, fs'.Leads maxLinks (fs'.start p.pieces) p.pieces links location ∧
      fs.Grows fs' (· = location) := by
  obtain ⟨spot, links, hspot, htakes, rfl, hleads⟩ := leads_of_writeFile h
  refine ⟨links, spot.location, hleads, grows_setNode htakes (Node.bare_file content)
    (fun old hold => htakes.alike_file hold content) (Node.proper_file content)
    (Node.file_ne_link content) (fun _ _ => rfl) fun before name heq hnone => ?_⟩
  have hwalk := ((resolve_eq_ok_iff (by decide)).mp hspot).2
  cases spot with
  | present location node => cases (at?_of_walk hwalk).symm.trans hnone
  | absent directory name' =>
    cases (List.append_inj' heq rfl).2
    exact (absent_of_walk hwalk).2 fun _ => Path.no_slash_of_mem_pieces

/-! ### What stays the same -/

/-- **What is read elsewhere stays the same.** -/
theorem Grows.contentAt_eq (h : fs.Grows fs' places) {p : Path} {content : ByteArray}
    (hcontent : fs.contentAt p = .ok content)
    (hp : ∀ links location, fs'.Leads maxLinks (fs'.start p.pieces) p.pieces links location →
      ¬ places location) : fs'.contentAt p = .ok content := by
  obtain ⟨hfault, links, location, hleads, hat⟩ := contentAt_eq_ok_iff.mp hcontent
  rw [← h.start_eq] at hleads
  have hleads' := h.keeps.leads hleads
  exact contentAt_eq_ok_iff.mpr ⟨hfault, links, location, hleads',
    (h.files location (hp links location hleads') content).mpr hat⟩

theorem Grows.exists_contentAt (h : fs.Grows fs' places) {p : Path} {content : ByteArray}
    (hcontent : fs.contentAt p = .ok content) : ∃ content', fs'.contentAt p = .ok content' := by
  obtain ⟨hfault, links, location, hleads, hat⟩ := contentAt_eq_ok_iff.mp hcontent
  obtain ⟨n, hat', halike⟩ := h.keeps location _ hat
  cases halike with
  | file _ content' =>
    rw [← h.start_eq] at hleads
    exact ⟨content', contentAt_eq_ok_iff.mpr ⟨hfault, links, location, h.keeps.leads hleads, hat'⟩⟩

/-- **The same instance files are found** if none was written. -/
theorem Grows.findInstances_eq (h : fs.Grows fs' places) (hroot : fs.root.Proper)
    (hplaces : ∀ location, places location → ¬ Node.IsInstancePath location) {p : Path}
    {files : List (List String)} (hfiles : fs.findInstances p = .ok files) :
    fs'.findInstances p = .ok files := by
  obtain ⟨location, entries, hr, rfl⟩ := exists_directory hfiles
  obtain ⟨hfault, -⟩ := (resolve_eq_ok_iff (by decide)).mp hr
  obtain ⟨⟨links, hleads⟩, hat⟩ := leads_of_resolve hr
  obtain ⟨entries', hat'⟩ := h.keeps.exists_directory hat
  rw [← h.start_eq] at hleads
  have hr' : fs'.resolve .use p = .ok (.present location (.directory entries')) :=
    (resolve_eq_ok_iff (by decide)).mpr ⟨hfault, walk_of_leads (h.keeps.leads hleads) hat'⟩
  have hnode : fs'.node p = .ok (.directory entries') := by
    rw [node, hr']
  have hsame : (Node.directory entries).instanceFiles = (Node.directory entries').instanceFiles := by
    refine (hroot.at hat).instanceFiles_eq ((h.proper hroot).at hat') fun names hnames => ?_
    refine exists_congr fun content => ?_
    have hplace : ¬ places (location ++ names) :=
      fun hplace => hplaces _ hplace (hnames.append location)
    have hfile := h.files (location ++ names) hplace content
    rw [Node.at?_append, Node.at?_append, hat, hat'] at hfile
    exact hfile.symm
  rw [findInstances, hnode]
  exact congrArg Except.ok hsame.symm

/-! ### Where names lead -/

/-- Names behind some pieces do not say where these start. -/
theorem start_append_names {names : List String} (h : ∀ name ∈ names, Path.IsName name)
    (stem : List String) : fs.start (stem ++ names) = fs.start stem := by
  by_cases hstem : stem = []
  · subst hstem
    cases names with
    | nil => rfl
    | cons name names => simp [start, (h name List.mem_cons_self).ne_empty]
  · exact start_append hstem names

/-- Without links, names lead down. -/
theorem Leads.eq_append {names : List String} (h : fs.Leads links here names links' location)
    (hlinks : fs.root.LinkFree) (hnames : ∀ name ∈ names, Path.IsName name) :
    location = here ++ names := by
  induction h with
  | nil => simp
  | @step links links₁ links' here here₁ location more names name hs _ ih =>
    obtain ⟨hname, hnames⟩ := List.forall_mem_cons.mp hnames
    obtain ⟨m, hm, hstep⟩ := exists_entry_of_stride hname hs
    obtain ⟨-, rfl, rfl⟩ := hstep fun target heq => hlinks _ _ (heq ▸ hm)
    rw [ih hnames]
    simp

end FileSystem

end StochasticSat
