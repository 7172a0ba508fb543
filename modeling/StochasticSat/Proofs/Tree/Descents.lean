import Mathlib.Algebra.Order.BigOperators.Group.List
import Mathlib.Algebra.Order.Ring.Nat
import StochasticSat.Proofs.Tree.Growth

/-!
# Descents along names

Behind pieces that lead to a directory, a walk goes on name by name.  Whatever it is for, it comes
to the node of these names (`FileSystem.walk_to_present`), to the place where the last name is
missing (`FileSystem.walk_to_absent`), or it fails since a name before that is missing
(`FileSystem.walk_to_missing`).  Behind a file there is nothing (`FileSystem.eq_nil_of_contentAt`).
-/

namespace StochasticSat

namespace Path

/-! ### Pieces at the end -/

theorem exists_dropEnd_append (p : String → Bool) (pieces : List String) :
    ∃ tail, pieces = dropEnd p pieces ++ tail ∧ ∀ piece ∈ tail, p piece = true := by
  refine ⟨(pieces.reverse.takeWhile p).reverse, ?_, fun piece hpiece => ?_⟩
  · rw [dropEnd, ← List.reverse_append, List.takeWhile_append_dropWhile, List.reverse_reverse]
  · exact List.mem_takeWhile_imp (List.mem_reverse.mp hpiece)

theorem eq_false_of_dropEnd {p : String → Bool} {pieces before : List String} {piece : String}
    (h : dropEnd p pieces = before ++ [piece]) : p piece = false := by
  have hreverse := congrArg List.reverse h
  rw [dropEnd, List.reverse_reverse, List.reverse_concat] at hreverse
  have hnot := List.head?_dropWhile_not p pieces.reverse
  rw [hreverse] at hnot
  simpa using hnot

theorem exists_dropEnd_concat {p : String → Bool} {pieces : List String}
    (h : pieces.all p = false) : ∃ before piece, dropEnd p pieces = before ++ [piece] ∧
      p piece = false := by
  obtain ⟨tail, hpieces, htail⟩ := exists_dropEnd_append p pieces
  obtain hnil | ⟨before, piece, hdrop⟩ := List.eq_nil_or_concat' (dropEnd p pieces)
  · rw [hnil, List.nil_append] at hpieces
    rw [hpieces, List.all_eq_true.mpr htail] at h
    cases h
  · exact ⟨before, piece, hdrop, eq_false_of_dropEnd hdrop⟩

theorem dropEnd_concat {p : String → Bool} {piece : String} (h : p piece = false)
    (pieces : List String) : dropEnd p (pieces ++ [piece]) = pieces ++ [piece] := by
  simp [dropEnd, h]

theorem dropEnd_ne_singleton {p : String → Bool} {piece : String} (h : p piece = true)
    (pieces : List String) : dropEnd p pieces ≠ [piece] := by
  intro heq
  rw [← List.nil_append [piece]] at heq
  rw [eq_false_of_dropEnd heq] at h
  cases h

/-- The directory of a name is at the pieces before it. -/
theorem parent_concat {name : String} (h : IsName name) (pieces : List String) :
    parent (pieces ++ [name]) = dropEnd staysPut pieces := by
  rw [parent, dropEnd_concat h.staysPut, List.dropLast_concat]

/-- The pieces of a path are those of its parent and a piece that leads on, with pieces about it
that stay where they are. -/
theorem exists_parent_append {pieces : List String} (h : pieces.all staysPut = false) :
    ∃ between piece rest, pieces = parent pieces ++ (between ++ piece :: rest) ∧
      (∀ q ∈ between, staysPut q = true) ∧ staysPut piece = false := by
  obtain ⟨before, piece, hdrop, hpiece⟩ := exists_dropEnd_concat h
  obtain ⟨rest, hpieces, -⟩ := exists_dropEnd_append staysPut pieces
  obtain ⟨between, hbefore, hbetween⟩ := exists_dropEnd_append staysPut before
  refine ⟨between, piece, rest, ?_, hbetween, hpiece⟩
  rw [parent, hdrop, List.dropLast_concat, ← List.append_assoc, ← hbefore, List.append_cons, ← hdrop]
  exact hpieces

theorem parent_names {before : List String} {name : String} (hbefore : before ≠ [])
    (hnames : ∀ x ∈ before ++ [name], IsName x) (stem : List String) :
    parent (stem ++ (before ++ [name])) = stem ++ before := by
  obtain ⟨before, last, rfl⟩ := (List.eq_nil_or_concat' before).resolve_left hbefore
  rw [← List.append_assoc, parent_concat (hnames name (by simp)), ← List.append_assoc,
    dropEnd_concat (hnames last (by simp)).staysPut]

end Path

namespace FileSystem
variable {fs fs' : FileSystem} {goal : Goal} {links links' links₁ : Nat}
  {here here₁ base location stem todo before names pieces : List String} {name : String} {n : Node}
  {entries : List (String × Node)}

/-! ### Paths that are too long -/

theorem pathFault?_of_sublist (h : pathFault? pieces = none) (hsub : todo.Sublist pieces)
    (hnil : todo ≠ []) (hempty : todo ≠ [""]) : pathFault? todo = none := by
  have hsize : Path.byteSize todo ≤ Path.byteSize pieces := by
    have hsum := (hsub.map String.utf8ByteSize).sum_le_sum fun _ _ => Nat.zero_le _
    have hlength := hsub.length_le
    simp only [Path.byteSize, ← List.sum_eq_foldl_nat]
    omega
  unfold pathFault? at h ⊢
  split_ifs at h with hnul hnothing hlong
  rw [if_neg, if_neg (by simp [hnil, hempty]), if_neg (by omega)]
  intro hany
  obtain ⟨piece, hpiece, hhas⟩ := List.any_eq_true.mp hany
  exact hnul (List.any_eq_true.mpr ⟨piece, hsub.subset hpiece, hhas⟩)

/-! ### Where names lead -/

/-- A name that is not too long for an entry of a directory. -/
structure IsEntryName (name : String) : Prop extends Path.IsName name where
  fits : name.utf8ByteSize ≤ maxNameBytes

instance (name : String) : Decidable (IsEntryName name) :=
  decidable_of_iff (Path.IsName name ∧ name.utf8ByteSize ≤ maxNameBytes)
    ⟨fun ⟨h, h'⟩ => ⟨h, h'⟩, fun h => ⟨h.toIsName, h.fits⟩⟩

/-- A name leads to its entry, unless that is a link. -/
theorem stride_of_entry (hname : IsEntryName name)
    (hat : fs.root.at? here = some (.directory entries)) (hentry : entries.lookup name = some n)
    (hlink : ∀ target, n ≠ .link target) :
    fs.stride links here name = some (links, here ++ [name], []) := by
  have hsize : ¬ maxNameBytes < name.utf8ByteSize := Nat.not_lt.mpr hname.fits
  simp only [stride, hat, hname.staysPut, hname.ne_dots, hsize, hentry, Bool.false_eq_true, if_false]

/-- Where something is below a location, there is a directory. -/
theorem exists_entries {rest : List String} (h : fs.root.at? (here ++ name :: rest) = some n) :
    ∃ entries m, fs.root.at? here = some (.directory entries) ∧ entries.lookup name = some m ∧
      fs.root.at? (here ++ [name]) = some m ∧ m.at? rest = some n := by
  rw [Node.at?_append] at h
  obtain ⟨d, hd, hbelow⟩ := Option.bind_eq_some_iff.mp h
  obtain ⟨m, hm, hrest⟩ := Option.bind_eq_some_iff.mp hbelow
  cases d with
  | file | link => cases hm
  | directory entries => exact ⟨entries, m, hd, hm, (at?_concat hd name).trans hm, hrest⟩

/-- **Names lead down** to what they are the names of. -/
theorem leads_of_names (hnames : ∀ name ∈ names, IsEntryName name)
    (h : fs.root.at? (here ++ names) = some n) (hlink : ∀ target, n ≠ .link target) :
    fs.Leads links here names links (here ++ names) := by
  induction names generalizing here with
  | nil =>
    rw [List.append_nil]
    exact .nil links here
  | cons name rest ih =>
    obtain ⟨hname, hrest⟩ := List.forall_mem_cons.mp hnames
    obtain ⟨entries, m, hat, hentry, hm, hn⟩ := exists_entries h
    have hm_link : ∀ target, m ≠ .link target := by
      rintro target rfl
      cases rest with
      | nil => exact hlink target (Option.some.inj hn).symm
      | cons x rest => cases hn
    rw [List.append_cons] at h ⊢
    exact .next (stride_of_entry hname hat hentry hm_link) (ih hrest h)

theorem Leads.append (h : fs.Leads links here stem links₁ here₁)
    (h' : fs.Leads links₁ here₁ todo links' location) :
    fs.Leads links here (stem ++ todo) links' location := by
  induction h with
  | nil => exact h'
  | step hs _ ih =>
    refine .step hs ?_
    have hrest := ih h'
    rwa [List.append_assoc] at hrest

theorem leads_of_staysPut (hat : fs.root.at? here = some (.directory entries))
    (hput : ∀ piece ∈ todo, Path.staysPut piece = true) : fs.Leads links here todo links here := by
  induction todo with
  | nil => exact .nil links here
  | cons piece rest ih =>
    obtain ⟨hpiece, hrest⟩ := List.forall_mem_cons.mp hput
    exact .next (by simp [stride, hat, hpiece]) (ih hrest)

/-- **Nothing is below a file.** -/
theorem Leads.eq_nil_of_file {content : ByteArray} {rest : List String}
    (h : fs.Leads links here pieces links₁ location)
    (hat : fs.root.at? location = some (.file content))
    (h' : fs.Leads links here (pieces ++ rest) links' here₁) : rest = [] ∧ here₁ = location := by
  obtain ⟨links₂, middle, hfirst, hrest⟩ := h'.exists_append
  obtain ⟨rfl, rfl⟩ := h.unique hfirst
  cases hrest with
  | nil => exact ⟨rfl, rfl⟩
  | step hs _ =>
    rw [stride, hat] at hs
    cases hs

theorem eq_nil_of_contentAt {p : Path} {content : ByteArray} {rest : List String}
    (hcontent : fs.contentAt p = .ok content)
    (h : fs.Leads maxLinks (fs.start (p.pieces ++ rest)) (p.pieces ++ rest) links location) :
    rest = [] ∧ fs.root.at? location = some (.file content) := by
  obtain ⟨hfault, links₁, here₁, hleads, hat⟩ := contentAt_eq_ok_iff.mp hcontent
  have hne : p.pieces ≠ [] := by
    intro hnil
    rw [hnil] at hfault
    cases hfault
  rw [start_append hne] at h
  obtain ⟨hrest, rfl⟩ := hleads.eq_nil_of_file hat h
  exact ⟨hrest, hat⟩

/-- Pieces lead where they lead without those at their end that stay where they are. -/
theorem Leads.dropEnd (h : fs.Leads links here pieces links' location) {p : String → Bool}
    (hp : ∀ piece, p piece = true → Path.staysPut piece = true) :
    fs.Leads links here (Path.dropEnd p pieces) links' location := by
  obtain ⟨tail, hpieces, htail⟩ := Path.exists_dropEnd_append p pieces
  rw [hpieces] at h
  obtain ⟨links₁, here₁, hfirst, hlast⟩ := h.exists_append
  obtain ⟨rfl, rfl⟩ := hlast.of_staysPut fun piece hpiece => hp piece (htail piece hpiece)
  exact hfirst

/-! ### Walks along names -/

/-- **A walk goes on where pieces have led**, if names come behind them. -/
theorem walk_append (h : fs.Leads links here stem links' base)
    (hnames : names.all (·.isEmpty) = false) :
    fs.walk goal links here (stem ++ names) = fs.walk goal links' base names := by
  induction h with
  | nil => rfl
  | @step _ _ _ _ _ _ more rest piece hs _ ih =>
    have hall : (rest ++ names).all (·.isEmpty) = false := by
      rw [List.all_append, hnames, Bool.and_false]
    have hne : rest ++ names ≠ [] := by
      rintro heq
      rw [heq] at hall
      cases hall
    rw [List.cons_append, walk_of_stride goal hs _ (fun _ => hall) fun _ => hne,
      ← List.append_assoc]
    exact ih

theorem walk_name (hname : IsEntryName name)
    (hat : fs.root.at? here = some (.directory entries)) (hlink : ∀ target,
      entries.lookup name ≠ some (.link target)) :
    fs.walk goal links here [name] = match entries.lookup name with
      | none => .ok (.absent here name)
      | some n => .ok (.present (here ++ [name]) n) := by
  have hsize : ¬ maxNameBytes < name.utf8ByteSize := Nat.not_lt.mpr hname.fits
  rw [walk.eq_def]
  simp only [hat, hname.staysPut, hname.ne_dots, hsize, Bool.false_eq_true, if_false,
    List.isEmpty_nil, Bool.not_true, Bool.and_false, Bool.false_and, if_true]
  have hchild := at?_concat hat name
  cases hentry : entries.lookup name with
  | none => rfl
  | some m =>
    rw [hentry] at hchild
    cases m with
    | file | directory => simp [walk, hchild]
    | link target => exact absurd hentry (hlink target)

section Descents
variable (hleads : fs.Leads links here stem links' base)
  (hnames : ∀ x ∈ before ++ [name], IsEntryName x)
include hleads hnames

theorem walk_to_entry (hat : fs.root.at? (base ++ before) = some (.directory entries)) :
    fs.walk goal links here (stem ++ (before ++ [name])) =
      fs.walk goal links' (base ++ before) [name] := by
  obtain ⟨hbefore, hname⟩ := List.forall_mem_append.mp hnames
  have hne := (hname name List.mem_cons_self).ne_empty
  rw [← List.append_assoc]
  exact walk_append (hleads.append (leads_of_names hbefore hat (Node.directory_ne_link _))) (by simp [hne])

theorem walk_to_present (h : fs.root.at? (base ++ (before ++ [name])) = some n)
    (hlink : ∀ target, n ≠ .link target) : fs.walk goal links here (stem ++ (before ++ [name])) =
      .ok (.present (base ++ (before ++ [name])) n) := by
  rw [← List.append_assoc] at h
  obtain ⟨entries, m, hat, hentry, -, hm⟩ := exists_entries h
  cases hm
  rw [walk_to_entry hleads hnames hat, ← List.append_assoc,
    walk_name (hnames name (by simp)) hat fun target heq =>
      hlink target (Option.some.inj (hentry.symm.trans heq)), hentry]

theorem walk_to_absent (hat : fs.root.at? (base ++ before) = some (.directory entries))
    (hentry : entries.lookup name = none) : fs.walk goal links here (stem ++ (before ++ [name])) =
      .ok (.absent (base ++ before) name) := by
  rw [walk_to_entry hleads hnames hat,
    walk_name (hnames name (by simp)) hat (by simp [hentry]), hentry]

/-- **A walk fails where a directory is missing** on the way, if there are only directories on the
way to that. -/
theorem walk_to_missing (hat : fs.root.at? base = some (.directory entries))
    (hway : ∀ first rest n, before = first ++ rest → fs.root.at? (base ++ first) = some n →
      ∃ entries, n = .directory entries)
    (hmissing : fs.root.at? (base ++ before) = none) :
    fs.walk goal links here (stem ++ (before ++ [name])) = .error .notFound := by
  have hne : name ≠ "" := (hnames name (by simp)).ne_empty
  rw [walk_append hleads (by simp [hne])]
  clear hleads
  induction before generalizing base entries with
  | nil =>
    rw [List.append_nil, hat] at hmissing
    cases hmissing
  | cons x rest ih =>
    obtain ⟨hx, hrest⟩ := List.forall_mem_cons.mp hnames
    have hall : (rest ++ [name]).all (·.isEmpty) = false := by simp [hne]
    have hchild := at?_concat hat x
    cases hentry : entries.lookup x with
    | none =>
      have hsize : ¬ maxNameBytes < x.utf8ByteSize := Nat.not_lt.mpr hx.fits
      rw [List.cons_append, walk.eq_def]
      simp only [hat, hx.staysPut, hx.ne_dots, hsize, hall, hentry, Bool.false_eq_true, if_false,
        Bool.and_false]
      simp
    | some m =>
      rw [hentry] at hchild
      obtain ⟨entries', rfl⟩ := hway [x] rest m rfl hchild
      rw [List.cons_append, walk_of_stride goal (stride_of_entry hx hat hentry (Node.directory_ne_link _)) _
        (fun _ => hall) (fun _ => by simp), List.nil_append]
      refine ih hrest hchild (fun first rest' n hsplit hn => ?_) ?_
      · refine hway (x :: first) rest' n (by rw [hsplit, List.cons_append]) ?_
        rw [List.append_cons]
        exact hn
      · rw [List.append_cons] at hmissing
        exact hmissing

end Descents

/-- The walk along pieces with names at their end begins where the pieces begin. -/
theorem resolvePieces_names (hfault : pathFault? (stem ++ (before ++ [name])) = none)
    (hnames : ∀ x ∈ before ++ [name], IsEntryName x) :
    fs.resolvePieces goal (stem ++ (before ++ [name])) =
      fs.walk goal maxLinks (fs.start stem) (stem ++ (before ++ [name])) := by
  have hlast : Path.dropEnd (·.isEmpty) (stem ++ (before ++ [name])) =
      stem ++ (before ++ [name]) := by
    rw [← List.append_assoc]
    exact Path.dropEnd_concat (by simp [(hnames name (by simp)).ne_empty]) _
  rw [resolvePieces, hfault, start_append_names fun x hx => (hnames x hx).toIsName]
  dsimp only
  rw [hlast, ite_self]

/-- **What names lead to is found.** -/
theorem node_of_names {p : Path} (hp : p.pieces = names) (hfault : pathFault? names = none)
    (hnames : ∀ name ∈ names, IsEntryName name) (hat : fs.root.at? (fs.home ++ names) = some n)
    (hlink : ∀ target, n ≠ .link target) : fs.node p = .ok n := by
  have hstart : fs.start names = fs.home :=
    start_append_names (fun name hname => (hnames name hname).toIsName) []
  have hleads : fs.Leads maxLinks fs.home names maxLinks (fs.home ++ names) :=
    leads_of_names hnames hat hlink
  rw [← hstart] at hleads hat
  rw [node, resolve, resolvePieces, hp, hfault]
  dsimp only
  rw [if_neg (by decide), walk_of_leads hleads hat]

end FileSystem

end StochasticSat
