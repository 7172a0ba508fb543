import Mathlib.Data.List.Nodup
import Mathlib.Tactic.Common
import StochasticSat.Tree.InstanceFiles

/-!
# Walks to the files of a directory

The path of names below a path has the pieces of that path and then the names
(`Path.exists_pieces_below`).  In a tree whose directories have distinct names (`Node.Proper`), what
`Node.filesBelow` gives are regular files, each once and in order (`Node.Proper.file_of_mem`,
`Node.Proper.pairwise_filesBelow`).

A walk that ends at a node has followed its pieces one by one (`FileSystem.Leads`), and where they
lead does not depend on what comes behind them.  So the path that is shown for a file that was found
leads to that file: it is no directory (`FileSystem.isDirectory_below`), and no other file has it
(`FileSystem.nodup_below`).
-/

namespace StochasticSat

namespace Path

/-! ### Pieces -/

theorem piecesOnto_slash (piece cs ds : List Char) :
    piecesOnto piece (cs ++ '/' :: ds) = piecesOnto piece cs ++ piecesOnto [] ds := by
  induction cs generalizing piece with
  | nil => rfl
  | cons c cs ih =>
    simp only [List.cons_append, piecesOnto]
    split_ifs
    · rw [ih, List.cons_append]
    · exact ih _

theorem piecesOnto_of_notMem {cs : List Char} (h : '/' ∉ cs) (piece : List Char) :
    piecesOnto piece cs = [piece.reverse ++ cs] := by
  induction cs generalizing piece with
  | nil => simp [piecesOnto]
  | cons c cs ih =>
    obtain ⟨hc, hcs⟩ := not_or.mp (mt List.mem_cons.mpr h)
    rw [piecesOnto, if_neg (Ne.symm hc), ih hcs]
    simp

theorem pieces_slash (p q : Path) : (p ++ "/" ++ q).pieces = p.pieces ++ q.pieces := by
  have hslash : (p ++ "/" ++ q).toList = p.toList ++ '/' :: q.toList := by simp
  rw [pieces, hslash, piecesOnto_slash, List.map_append]
  rfl

theorem pieces_ne_nil (p : Path) : p.pieces ≠ [] := by
  have h : ∀ cs piece, piecesOnto piece cs ≠ [] := by
    intro cs
    induction cs with
    | nil => simp [piecesOnto]
    | cons c cs ih =>
      intro piece
      rw [piecesOnto]
      split_ifs
      · exact List.cons_ne_nil _ _
      · exact ih _
  simpa [pieces] using h p.toList []

/-- A text that can be the name of an entry of a directory. -/
structure IsName (name : String) : Prop where
  ne_empty : name ≠ ""
  no_slash : '/' ∉ name.toList
  ne_dot : name ≠ "."
  ne_dots : name ≠ ".."

instance (name : String) : Decidable (IsName name) :=
  decidable_of_iff (name ≠ "" ∧ '/' ∉ name.toList ∧ name ≠ "." ∧ name ≠ "..")
    ⟨fun ⟨h₁, h₂, h₃, h₄⟩ => ⟨h₁, h₂, h₃, h₄⟩, fun ⟨h₁, h₂, h₃, h₄⟩ => ⟨h₁, h₂, h₃, h₄⟩⟩

section Names
variable {name : String} (h : IsName name)
include h

theorem IsName.pieces : Path.pieces name = [name] := by
  simp [Path.pieces, piecesOnto_of_notMem h.no_slash]

theorem IsName.staysPut : Path.staysPut name = false := by
  simp [Path.staysPut, h.ne_empty, h.ne_dot]

theorem IsName.isAbsolute : Path.isAbsolute name = false := by
  unfold Path.isAbsolute
  cases hcs : name.toList with
  | nil => rfl
  | cons c cs =>
    have hc : c ≠ '/' := by
      rintro rfl
      exact h.no_slash (by rw [hcs]; exact List.mem_cons_self)
    simpa using hc

/-- A path with a name at its end does not end in a slash. -/
theorem IsName.getLast?_append (b : Path) : (b ++ name).toList.getLast? ≠ some '/' := by
  have hne : name.toList ≠ [] := by simpa using h.ne_empty
  intro hlast
  rw [String.toList_append, List.getLast?_append, List.getLast?_eq_some_getLast hne] at hlast
  exact h.no_slash (List.mem_of_getLast? ((List.getLast?_eq_some_getLast hne).trans hlast))

/-- A name is put behind a slash, unless there is one already. -/
theorem IsName.join_eq {p : Path} (hp : p ≠ "") (hlast : p.toList.getLast? ≠ some '/') :
    join p name = p ++ "/" ++ name := by
  simp [join, h.isAbsolute, hp, hlast]

theorem IsName.join_slash (b : Path) : join (b ++ "/") name = b ++ "/" ++ name := by
  simp [join, h.isAbsolute]

end Names

theorem pieces_below_name {names : List String} (b : Path) {name : String} (h : IsName name)
    (hs : ∀ name ∈ names, IsName name) :
    (below (b ++ "/" ++ name) names).pieces = b.pieces ++ name :: names := by
  induction names generalizing b name with
  | nil => rw [below, List.foldl_nil, pieces_slash, h.pieces]
  | cons next names ih =>
    obtain ⟨hnext, hs⟩ := List.forall_mem_cons.mp hs
    have hjoin : join (b ++ "/" ++ name) next = b ++ "/" ++ name ++ "/" ++ next :=
      hnext.join_eq (by simp) (h.getLast?_append _)
    rw [below, List.foldl_cons, hjoin, ← below, ih _ hnext hs, pieces_slash, h.pieces]
    simp

/-- **The pieces of a path below another one** are those of that path, without the empty piece
behind a slash at its end, and the names. -/
theorem exists_pieces_below {base : Path} (hb : base ≠ "") :
    ∃ stem tail, stem ≠ [] ∧ (tail = [] ∨ tail = [""]) ∧ base.pieces = stem ++ tail ∧
      ∀ names, names ≠ [] → (∀ name ∈ names, IsName name) →
        (below base names).pieces = stem ++ names := by
  obtain ⟨b, tail, htail, hpieces, hjoin⟩ : ∃ (b : Path) (tail : List String),
      (tail = [] ∨ tail = [""]) ∧ base.pieces = b.pieces ++ tail ∧
        ∀ name, IsName name → join base name = b ++ "/" ++ name := by
    by_cases hlast : base.toList.getLast? = some '/'
    · obtain ⟨cs, hcs⟩ := List.getLast?_eq_some_iff.mp hlast
      have hbase : base = String.ofList cs ++ "/" := by
        refine String.toList_inj.mp ?_
        rw [hcs]
        simp
      refine ⟨String.ofList cs, [""], Or.inr rfl, ?_, fun name h => ?_⟩
      · have h := pieces_slash (String.ofList cs) ""
        rw [String.append_empty] at h
        rw [hbase, h]
        rfl
      · rw [hbase, h.join_slash]
    · exact ⟨base, [], Or.inl rfl, (List.append_nil _).symm, fun name h => h.join_eq hb hlast⟩
  refine ⟨b.pieces, tail, pieces_ne_nil b, htail, hpieces, fun names hne hs => ?_⟩
  cases names with
  | nil => exact absurd rfl hne
  | cons name names =>
    obtain ⟨h, hs⟩ := List.forall_mem_cons.mp hs
    rw [below, List.foldl_cons, hjoin name h, ← below, pieces_below_name b h hs]

end Path

/-! ### Trees -/

namespace Node

/-- **A tree in which every directory has distinct names.** -/
def Proper (n : Node) : Prop :=
  ∀ location entries, n.at? location = some (.directory entries) →
    (entries.map Prod.fst).Nodup ∧ ∀ entry ∈ entries, Path.IsName entry.1

theorem file_ne_link (content : ByteArray) (target : Path) : file content ≠ link target := by
  rintro ⟨⟩

theorem directory_ne_link (entries : List (String × Node)) (target : Path) :
    directory entries ≠ link target := by
  rintro ⟨⟩

theorem at?_append (l l' : List String) (n : Node) :
    n.at? (l ++ l') = (n.at? l).bind (at? l') := by
  induction l generalizing n with
  | nil => rfl
  | cons name l ih =>
    rw [List.cons_append, at?, at?, Option.bind_assoc]
    exact congrArg _ (funext ih)

theorem lookup_of_mem {α : Type} {entries : List (String × α)} {name : String} {a : α}
    (h : (entries.map Prod.fst).Nodup) (hmem : (name, a) ∈ entries) :
    entries.lookup name = some a := by
  obtain ⟨before, after, rfl⟩ := List.append_of_mem hmem
  refine List.lookup_eq_some_iff.mpr ⟨before, after, rfl, fun entry hentry => ?_⟩
  rw [List.map_append, List.nodup_append] at h
  have hne : entry.1 ≠ name := h.2.2 _ (List.mem_map_of_mem hentry) _ (by simp)
  simpa using hne.symm

theorem proper_file (content : ByteArray) : (file content).Proper := by
  intro location entries h
  cases location <;> cases h

theorem proper_link (target : Path) : (link target).Proper := by
  intro location entries h
  cases location <;> cases h

theorem proper_directory {entries : List (String × Node)}
    (hnodup : (entries.map Prod.fst).Nodup)
    (h : ∀ entry ∈ entries, Path.IsName entry.1 ∧ entry.2.Proper) : (directory entries).Proper := by
  intro location entries' hat
  cases location with
  | nil =>
    cases hat
    exact ⟨hnodup, fun entry hmem => (h entry hmem).1⟩
  | cons name location =>
    obtain ⟨m, hm, hrest⟩ := Option.bind_eq_some_iff.mp hat
    obtain ⟨_, _, rfl, -⟩ := List.lookup_eq_some_iff.mp hm
    exact (h (name, m) (by simp)).2 location entries' hrest

section Proper
variable {n : Node}

theorem Proper.at {location : List String} {m : Node} (h : n.Proper)
    (hm : n.at? location = some m) : m.Proper := by
  intro location' entries he
  exact h (location ++ location') entries (by rw [at?_append, hm]; exact he)

theorem Proper.child {entries : List (String × Node)} (h : (directory entries).Proper)
    {name : String} {m : Node} (hmem : (name, m) ∈ entries) :
    (directory entries).child? name = some m ∧ Path.IsName name ∧ m.Proper := by
  obtain ⟨hnodup, hnames⟩ := h [] entries rfl
  have hchild : (directory entries).child? name = some m := lookup_of_mem hnodup hmem
  have hat : (directory entries).at? [name] = some m := by simp [at?, hchild]
  exact ⟨hchild, hnames _ hmem, h.at hat⟩

theorem proper_directory_iff {entries : List (String × Node)} : (directory entries).Proper ↔
    (entries.map Prod.fst).Nodup ∧ ∀ entry ∈ entries, Path.IsName entry.1 ∧ entry.2.Proper :=
  ⟨fun h => ⟨(h [] entries rfl).1, fun _ hmem => (h.child hmem).2⟩, fun h => proper_directory h.1 h.2⟩

mutual

/-- Whether a tree is proper, decided from the files and links at its ends up. -/
def decideProper : (n : Node) → Decidable n.Proper
  | file content => .isTrue (proper_file content)
  | link target => .isTrue (proper_link target)
  | directory entries =>
    have := decideEntriesProper entries
    decidable_of_iff _ proper_directory_iff.symm

def decideEntriesProper : (entries : List (String × Node)) →
    Decidable (∀ entry ∈ entries, Path.IsName entry.1 ∧ entry.2.Proper)
  | [] => .isTrue (List.forall_mem_nil _)
  | (name, n) :: rest =>
    have := decideProper n
    have := decideEntriesProper rest
    decidable_of_iff ((Path.IsName name ∧ n.Proper) ∧
      ∀ entry ∈ rest, Path.IsName entry.1 ∧ entry.2.Proper) (by rw [List.forall_mem_cons])

end

instance (n : Node) : Decidable n.Proper := n.decideProper

end Proper

theorem filesOfEntries_eq (entries : List (String × Node)) :
    filesOfEntries entries = entries.map fun (name, n) => (name, n.filesBelow) := by
  induction entries with
  | nil => rfl
  | cons entry entries ih => rw [filesOfEntries, ih]; rfl

theorem mem_filesBelow_directory {entries : List (String × Node)} {names : List String} :
    names ∈ (directory entries).filesBelow ↔
      ∃ name m, (name, m) ∈ entries ∧ ∃ rest ∈ m.filesBelow, names = name :: rest := by
  rw [filesBelow, filesOfEntries_eq]
  simp only [sortByName, List.mem_flatMap, List.mem_mergeSort, List.mem_map, Prod.exists]
  constructor
  · rintro ⟨name, files, ⟨_, m, hmem, heq⟩, rest, hrest, rfl⟩
    cases heq
    exact ⟨name, m, hmem, rest, hrest, rfl⟩
  · rintro ⟨name, m, hmem, rest, hrest, rfl⟩
    exact ⟨name, m.filesBelow, ⟨name, m, hmem, rfl⟩, rest, hrest, rfl⟩

/-- What is found below a tree is a regular file of it. -/
theorem Proper.file_of_mem {names : List String} {n : Node} (h : n.Proper)
    (hmem : names ∈ n.filesBelow) :
    (∃ content, n.at? names = some (.file content)) ∧ ∀ name ∈ names, Path.IsName name := by
  induction names generalizing n with
  | nil =>
    cases n with
    | file content => exact ⟨⟨content, rfl⟩, by simp⟩
    | link target => simp [filesBelow] at hmem
    | directory entries =>
      obtain ⟨_, _, _, _, _, heq⟩ := mem_filesBelow_directory.mp hmem
      cases heq
  | cons name names ih =>
    cases n with
    | file content => simp [filesBelow] at hmem
    | link target => simp [filesBelow] at hmem
    | directory entries =>
      obtain ⟨_, m, hm, _, hrest, heq⟩ := mem_filesBelow_directory.mp hmem
      cases heq
      obtain ⟨hchild, hname, hproper⟩ := h.child hm
      obtain ⟨⟨content, hat⟩, hnames⟩ := ih hproper hrest
      exact ⟨⟨content, by rw [at?, hchild]; exact hat⟩, List.forall_mem_cons.mpr ⟨hname, hnames⟩⟩

/-- Entries with distinct names are sorted strictly. -/
theorem pairwise_sortByName {α : Type} {entries : List (String × α)}
    (h : (entries.map Prod.fst).Nodup) : (sortByName entries).Pairwise fun a b => a.1 < b.1 := by
  have hle : (sortByName entries).Pairwise fun a b => a.1 ≤ b.1 := by
    refine (List.pairwise_mergeSort ?_ ?_ entries).imp fun h => of_decide_eq_true h
    · intro a b c hab hbc
      exact decide_eq_true (String.le_trans (of_decide_eq_true hab) (of_decide_eq_true hbc))
    · intro a b
      rcases String.le_total a.1 b.1 with hab | hba
      · simp [hab]
      · simp [hba]
  have hne : (sortByName entries).Pairwise fun a b => a.1 ≠ b.1 := by
    have hperm : (sortByName entries).Perm entries := List.mergeSort_perm _ _
    exact List.pairwise_map.mp ((hperm.map Prod.fst).nodup_iff.mpr h)
  exact hle.imp₂ (fun _ _ hab hne => Decidable.by_contra fun hlt =>
    hne (String.le_antisymm hab (String.not_lt.mp hlt))) hne

mutual

/-- **What is found below a tree comes in ascending order**, name by name. -/
theorem Proper.pairwise_filesBelow : ∀ {n : Node}, n.Proper → n.filesBelow.Pairwise (· < ·)
  | .file _, _ => by simp [filesBelow]
  | .link _, _ => by simp [filesBelow]
  | .directory entries, h => by
    have hfiles := pairwise_filesOfEntries fun entry hmem => (h.child (m := entry.2) hmem).2.2
    have hnames : ((filesOfEntries entries).map Prod.fst).Nodup := by
      rw [filesOfEntries_eq, List.map_map]
      exact (h [] entries rfl).1
    rw [filesBelow, List.pairwise_flatMap]
    refine ⟨fun x hx => ?_, (pairwise_sortByName hnames).imp fun {x y} hlt => ?_⟩
    · exact (hfiles x (List.mem_mergeSort.mp hx)).map _ fun _ _ => List.Lex.cons
    -- files below different entries are in the order of these entries
    · intro names hx names' hy
      obtain ⟨_, _, rfl⟩ := List.mem_map.mp hx
      obtain ⟨_, _, rfl⟩ := List.mem_map.mp hy
      exact List.Lex.rel hlt

theorem pairwise_filesOfEntries : ∀ {entries : List (String × Node)},
    (∀ entry ∈ entries, entry.2.Proper) → ∀ x ∈ filesOfEntries entries, x.2.Pairwise (· < ·)
  | [], _ => by simp [filesOfEntries]
  | (name, n) :: entries, h => by
    obtain ⟨hn, hentries⟩ := List.forall_mem_cons.mp h
    rw [filesOfEntries]
    exact List.forall_mem_cons.mpr ⟨hn.pairwise_filesBelow, pairwise_filesOfEntries hentries⟩

end

theorem Proper.nodup_filesBelow {n : Node} (h : n.Proper) : n.filesBelow.Nodup := by
  refine h.pairwise_filesBelow.imp ?_
  rintro names _ hlt rfl
  exact List.lt_irrefl _ hlt

end Node

/-! ### Walks -/

namespace FileSystem
variable {fs : FileSystem} {links links' : Nat} {here location todo : List String} {node : Node}

/-- Where one piece leads: the number of links left, the location, and the pieces to follow from
there before the rest, which are those of a link. -/
def stride (fs : FileSystem) (links : Nat) (here : List String) (piece : String) :
    Option (Nat × List String × List String) :=
  match fs.root.at? here with
  | some (.directory entries) =>
    if Path.staysPut piece then some (links, here, [])
    else if piece = ".." then some (links, here.dropLast, [])
    else if maxNameBytes < piece.utf8ByteSize then none
    else
      match entries.lookup piece with
      | none => none
      | some (.link target) =>
        match links with
        | 0 => none
        | links + 1 => some (links, if target.isAbsolute then [] else here, target.pieces)
      | some _ => some (links, here ++ [piece], [])
  | _ => none

theorem at?_concat {entries : List (String × Node)}
    (hat : fs.root.at? here = some (.directory entries)) (name : String) :
    fs.root.at? (here ++ [name]) = entries.lookup name := by
  rw [Node.at?_append, hat, Option.bind_some, Node.at?, Node.child?]
  exact Option.bind_fun_some _

/-- **A name leads to its entry**, unless that is a link. -/
theorem exists_entry_of_stride {name : String} (hname : Path.IsName name) {links₁ : Nat}
    {here₁ more : List String} (hs : fs.stride links here name = some (links₁, here₁, more)) :
    ∃ m, fs.root.at? (here ++ [name]) = some m ∧
      ((∀ target, m ≠ .link target) → links₁ = links ∧ here₁ = here ++ [name] ∧ more = []) := by
  unfold stride at hs
  split at hs
  · next entries hat =>
    simp only [hname.staysPut, hname.ne_dots, Bool.false_eq_true, if_false] at hs
    split_ifs at hs
    rw [at?_concat hat]
    cases hentry : entries.lookup name with
    | none => rw [hentry] at hs; cases hs
    | some m =>
      rw [hentry] at hs
      refine ⟨m, rfl, fun hlink => ?_⟩
      cases m with
      | file | directory => cases hs; exact ⟨rfl, rfl, rfl⟩
      | link target => exact absurd rfl (hlink target)
  · cases hs

/-- **Where pieces lead** from a location with a number of links to follow: to a location, with some
links left. -/
inductive Leads (fs : FileSystem) : Nat → List String → List String → Nat → List String → Prop
  | nil (links : Nat) (here : List String) : Leads fs links here [] links here
  | step {links links₁ links' : Nat} {here here₁ location more rest : List String} {piece : String}
    (h : fs.stride links here piece = some (links₁, here₁, more))
    (hrest : Leads fs links₁ here₁ (more ++ rest) links' location) :
    Leads fs links here (piece :: rest) links' location

/-- A piece that is no link leads to where the rest goes on. -/
theorem Leads.next {links₁ : Nat} {here₁ rest : List String} {piece : String}
    (h : fs.stride links here piece = some (links₁, here₁, []))
    (hrest : fs.Leads links₁ here₁ rest links' location) :
    fs.Leads links here (piece :: rest) links' location := .step h hrest

/-- A walk that ends at a node follows the pieces to its location. -/
theorem exists_leads (h : fs.walk .use links here todo = .ok (.present location node)) :
    (∃ links', fs.Leads links here todo links' location) ∧ fs.root.at? location = some node := by
  fun_induction walk fs .use links here todo with
  | case1 links here node hat =>
    cases h
    exact ⟨⟨links, .nil _ _⟩, hat⟩
  | case3 links here piece rest entries hat hput ih =>
    obtain ⟨⟨links', hl⟩, hn⟩ := ih h
    exact ⟨⟨links', .next (by simp [stride, hat, hput]) hl⟩, hn⟩
  | case4 links here rest entries hat hput ih =>
    obtain ⟨⟨links', hl⟩, hn⟩ := ih h
    exact ⟨⟨links', .next (by simp [stride, hat, hput]) hl⟩, hn⟩
  | case11 here piece rest entries hat hput hup _ hsize target hentry _ links ih =>
    obtain ⟨⟨links', hl⟩, hn⟩ := ih h
    exact ⟨⟨links', .step (by simp [stride, hat, hput, hup, hsize, hentry]) hl⟩, hn⟩
  | case12 links here piece rest entries hat hput hup _ hsize entry hlink hentry ih =>
    obtain ⟨⟨links', hl⟩, hn⟩ := ih h
    exact ⟨⟨links', .next (by simp [stride, hat, hput, hup, hsize, hentry]) hl⟩, hn⟩
  | _ => simp_all

namespace Leads

theorem unique (h : fs.Leads links here todo links' location) {links'' : Nat}
    {location' : List String} (h' : fs.Leads links here todo links'' location') :
    links' = links'' ∧ location = location' := by
  induction h with
  | nil => cases h'; exact ⟨rfl, rfl⟩
  | step hs _ ih =>
    cases h' with
    | step hs' hrest' =>
      rw [hs] at hs'
      cases hs'
      exact ih hrest'

/-- Pieces in a row lead where the last of them lead from where the first have led. -/
theorem exists_append {pieces : List String}
    (h : fs.Leads links here (pieces ++ todo) links' location) :
    ∃ links₁ here₁, fs.Leads links here pieces links₁ here₁ ∧
      fs.Leads links₁ here₁ todo links' location := by
  generalize hall : pieces ++ todo = all at h
  induction h generalizing pieces with
  | nil links here =>
    obtain ⟨rfl, rfl⟩ := List.append_eq_nil_iff.mp hall
    exact ⟨links, here, .nil _ _, .nil _ _⟩
  | step hs hrest ih =>
    cases pieces with
    | nil => subst hall; exact ⟨_, _, .nil _ _, .step hs hrest⟩
    | cons piece pieces =>
      cases hall
      obtain ⟨links₁, here₁, h₁, h₂⟩ := ih (List.append_assoc _ _ _)
      exact ⟨links₁, here₁, .step hs h₁, h₂⟩

/-- Pieces that stay where they are lead nowhere else. -/
theorem of_staysPut (h : fs.Leads links here todo links' location)
    (hput : ∀ piece ∈ todo, Path.staysPut piece = true) : links' = links ∧ location = here := by
  induction h with
  | nil => exact ⟨rfl, rfl⟩
  | step hs _ ih =>
    obtain ⟨hpiece, hrest⟩ := List.forall_mem_cons.mp hput
    unfold stride at hs
    split at hs
    · rw [if_pos hpiece] at hs
      cases hs
      exact ih hrest
    · cases hs

/-- The empty piece behind a slash at the end of a path leads nowhere else. -/
theorem of_tail (h : fs.Leads links here todo links' location) (htail : todo = [] ∨ todo = [""]) :
    links' = links ∧ location = here := by
  refine h.of_staysPut ?_
  obtain rfl | rfl := htail
  · exact List.forall_mem_nil _
  · exact List.forall_mem_singleton.mpr rfl

/-- The names of a file lead down to it. -/
theorem of_names {names : List String} (h : fs.Leads links here names links' location)
    (hnames : ∀ name ∈ names, Path.IsName name) {content : ByteArray}
    (hat : fs.root.at? (here ++ names) = some (.file content)) : location = here ++ names := by
  induction h with
  | nil => simp
  | @step links links₁ links' here here₁ location more names name hs _ ih =>
    obtain ⟨hname, hnames⟩ := List.forall_mem_cons.mp hnames
    obtain ⟨m, hm, hstep⟩ := exists_entry_of_stride hname hs
    have hrest : m.at? names = some (.file content) := by
      rw [← List.singleton_append, ← List.append_assoc, Node.at?_append, hm] at hat
      exact hat
    have hlink : ∀ target, m ≠ .link target := by
      -- nothing is below a link
      rintro target rfl
      cases names <;> cases hrest
    obtain ⟨-, rfl, rfl⟩ := hstep hlink
    rw [ih hnames (by simpa using hat)]
    simp

end Leads

/-! ### What is found -/

theorem start_append {stem : List String} (h : stem ≠ []) (pieces : List String) :
    fs.start (stem ++ pieces) = fs.start stem := by
  obtain ⟨piece, rest, rfl⟩ := List.exists_cons_of_ne_nil h
  by_cases hpiece : piece = ""
  · rw [hpiece]; rfl
  · simp [start, hpiece]

theorem resolve_eq_ok_iff {goal : Goal} (hgoal : goal ≠ .make) {p : Path} {spot : Spot} :
    fs.resolve goal p = .ok spot ↔ pathFault? p.pieces = none ∧
      fs.walk goal maxLinks (fs.start p.pieces) p.pieces = .ok spot := by
  rw [resolve, resolvePieces, if_neg hgoal]
  cases pathFault? p.pieces <;> simp

theorem leads_of_resolve {p : Path} (h : fs.resolve .use p = .ok (.present location node)) :
    (∃ links, fs.Leads maxLinks (fs.start p.pieces) p.pieces links location) ∧
      fs.root.at? location = some node :=
  exists_leads ((resolve_eq_ok_iff (by decide)).mp h).2

section Found
variable {p : Path} {files : List (List String)}

/-- The files that are found below a path are those of the directory at its end. -/
theorem exists_directory (h : fs.findInstances p = .ok files) : ∃ location entries,
    fs.resolve .use p = .ok (.present location (.directory entries)) ∧
      files = (Node.directory entries).instanceFiles := by
  unfold findInstances at h
  split at h
  · next entries hnode =>
    cases h
    unfold node at hnode
    split at hnode
    · next location node hr => cases hnode; exact ⟨location, entries, hr, rfl⟩
    · cases hnode
    · cases hnode
  · cases h

theorem isDirectory_of_findInstances (h : fs.findInstances p = .ok files) :
    fs.isDirectory p = true := by
  obtain ⟨location, entries, hr, -⟩ := exists_directory h
  rw [isDirectory, isDirectoryAt, show fs.resolvePieces .use p.pieces = _ from hr]

/-- The path `.` leads to the directory in which paths start. -/
theorem findInstances_dot {entries : List (String × Node)}
    (h : fs.root.at? fs.home = some (.directory entries)) :
    fs.findInstances "." = .ok (Node.directory entries).instanceFiles := by
  have hpieces : Path.pieces "." = ["."] := by decide
  have hfault : pathFault? ["."] = none := by decide
  have hnode : fs.node "." = .ok (.directory entries) := by
    simp [FileSystem.node, resolve, hpieces, resolvePieces, hfault, start, walk, h, Path.staysPut]
  rw [findInstances, hnode]

theorem ne_empty_of_findInstances (h : fs.findInstances p = .ok files) : p ≠ "" := by
  obtain ⟨location, entries, hr, -⟩ := exists_directory h
  rintro rfl
  cases hr

variable (hroot : fs.root.Proper) (h : fs.findInstances p = .ok files)
include hroot h

theorem names_of_found {names : List String} (hmem : names ∈ files) :
    names ≠ [] ∧ ∀ name ∈ names, Path.IsName name := by
  obtain ⟨location, entries, hr, rfl⟩ := exists_directory h
  obtain ⟨⟨content, hfile⟩, hnames⟩ :=
    (hroot.at (leads_of_resolve hr).2).file_of_mem (List.mem_of_mem_filter hmem)
  refine ⟨?_, hnames⟩
  rintro rfl
  cases hfile

/-- **A file that is found is no directory**, seen from the path that is shown for it. -/
theorem isDirectory_below {names : List String} (hmem : names ∈ files) :
    fs.isDirectory (Path.below p names) = false := by
  obtain ⟨hne, hnames⟩ := names_of_found hroot h hmem
  obtain ⟨location, entries, hr, rfl⟩ := exists_directory h
  obtain ⟨⟨links, hleads⟩, hat⟩ := leads_of_resolve hr
  obtain ⟨⟨content, hfile⟩, -⟩ := (hroot.at hat).file_of_mem (List.mem_of_mem_filter hmem)
  obtain ⟨stem, tail, hstem, htail, hpieces, hbelow⟩ :=
    Path.exists_pieces_below (ne_empty_of_findInstances h)
  rw [hpieces, start_append hstem] at hleads
  obtain ⟨links₁, here, hstemleads, htailleads⟩ := hleads.exists_append
  obtain ⟨rfl, rfl⟩ := htailleads.of_tail htail
  have hfile' : fs.root.at? (location ++ names) = some (.file content) := by
    rw [Node.at?_append, hat]
    exact hfile
  unfold isDirectory isDirectoryAt
  split
  · next location' entries' hr' =>
    obtain ⟨⟨links', hleads'⟩, hat'⟩ := leads_of_resolve hr'
    rw [hbelow names hne hnames, start_append hstem] at hleads'
    obtain ⟨links₂, here₂, hstemleads', hnamesleads⟩ := hleads'.exists_append
    obtain ⟨rfl, rfl⟩ := hstemleads.unique hstemleads'
    rw [hnamesleads.of_names hnames hfile', hfile'] at hat'
    cases hat'
  · rfl

/-- Files that are found have different paths. -/
theorem nodup_below : (files.map (Path.below p)).Nodup := by
  obtain ⟨stem, tail, -, -, -, hbelow⟩ :=
    Path.exists_pieces_below (ne_empty_of_findInstances h)
  refine List.Nodup.map_on (fun names hmem names' hmem' heq => ?_) ?_
  · obtain ⟨hne, hnames⟩ := names_of_found hroot h hmem
    obtain ⟨hne', hnames'⟩ := names_of_found hroot h hmem'
    have hpieces := congrArg Path.pieces heq
    rw [hbelow names hne hnames, hbelow names' hne' hnames'] at hpieces
    exact List.append_cancel_left hpieces
  · obtain ⟨location, entries, hr, rfl⟩ := exists_directory h
    exact (hroot.at (leads_of_resolve hr).2).nodup_filesBelow.filter _

end Found

end FileSystem
end StochasticSat
