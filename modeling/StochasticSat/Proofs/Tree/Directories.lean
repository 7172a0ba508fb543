import StochasticSat.Proofs.Tree.Descents

/-!
# Making directories

Making directories along a path is a matter of the last directory, if the way to it is there
(`FileSystem.makeDirectoriesAt_eq_makeOrKeep`), and does nothing where a directory is
(`FileSystem.makeDirectoriesAt_of_leads`).  In the end there is a directory at the path
(`FileSystem.leads_of_makeDirectoriesAt`).  It is empty if it was not there before
(`FileSystem.node_of_makeDirectories`): it was made last, since on the way to it one only goes down.
-/

namespace StochasticSat

namespace FileSystem
variable {fs fs' : FileSystem} {links links' : Nat} {here location pieces : List String} {n : Node}
  {entries : List (String × Node)}

/-! ### One directory -/

/-- Where pieces lead to something, no directory can be made: it is there, or a link to it. -/
theorem exists_present_of_leads (h : fs.Leads links here todo links' location)
    (hat : fs.root.at? location = some n) :
    ∃ place m, fs.walk .make links here todo = .ok (.present place m) := by
  induction h with
  | nil links here => exact ⟨here, n, by simp [walk, hat]⟩
  | @step links links₁ _ here here₁ _ more rest piece hs _ ih =>
    obtain ⟨place, m, hwalk⟩ := ih hat
    by_cases hrest : rest = []
    · subst hrest
      unfold stride at hs
      split at hs
      · next entries hdir =>
        rw [walk.eq_def]
        simp only [hdir]
        split_ifs at hs with hput hup hsize
        · cases hs
          rw [if_pos hput]
          exact ⟨place, m, hwalk⟩
        · cases hs
          rw [if_neg hput, if_pos hup]
          exact ⟨place, m, hwalk⟩
        · rw [if_neg hput, if_neg hup, if_neg (by simp), if_neg hsize]
          cases hentry : entries.lookup piece with
          | none => rw [hentry] at hs; cases hs
          | some entry =>
            rw [hentry] at hs
            cases entry with
            | file | directory =>
              cases hs
              exact ⟨place, m, hwalk⟩
            -- a link is not followed, it is in the way itself
            | link target => exact ⟨here ++ [piece], .link target, rfl⟩
      · cases hs
    · exact ⟨place, m, (walk_of_stride .make hs rest (by simp) fun _ => hrest).trans hwalk⟩

theorem makeDirectoriesAt_of_staysPut (hput : pieces.all Path.staysPut = true) :
    fs.makeDirectoriesAt pieces = .ok fs := by
  cases pieces with
  | nil => rw [makeDirectoriesAt]
  | cons piece rest => rw [makeDirectoriesAt, if_pos hput]

theorem makeDirectoriesAt_eq_makeOrKeep (hput : pieces.all Path.staysPut = false)
    (h : fs.makeDirectory pieces ≠ .error .notFound) :
    fs.makeDirectoriesAt pieces = fs.makeOrKeep pieces := by
  obtain ⟨piece, rest, rfl⟩ := List.exists_cons_of_ne_nil (l := pieces) (by rintro rfl; cases hput)
  rw [makeDirectoriesAt, if_neg (by rw [hput]; exact Bool.false_ne_true), makeOrKeep]
  cases hmade : fs.makeDirectory (piece :: rest) with
  | ok fs' => rfl
  | error e =>
    rw [hmade] at h
    cases e <;> first | rfl | exact absurd rfl h

theorem makeDirectoriesAt_of_notFound (hput : pieces.all Path.staysPut = false)
    (h : fs.makeDirectory pieces = .error .notFound)
    (hparent : fs.makeDirectoriesAt (Path.parent pieces) = .ok fs') :
    fs.makeDirectoriesAt pieces = fs'.makeOrKeep pieces := by
  obtain ⟨piece, rest, rfl⟩ := List.exists_cons_of_ne_nil (l := pieces) (by rintro rfl; cases hput)
  rw [makeDirectoriesAt, if_neg (by rw [hput]; exact Bool.false_ne_true), h]
  dsimp only
  rw [hparent]

/-- Where there is something, no directory can be made. -/
theorem makeDirectory_of_leads (hfault : pathFault? pieces = none)
    (h : fs.Leads maxLinks (fs.start pieces) pieces links location)
    (hat : fs.root.at? location = some n) : fs.makeDirectory pieces = .error .alreadyExists := by
  obtain ⟨place, m, hwalk⟩ := exists_present_of_leads
    (h.dropEnd (p := (·.isEmpty)) fun piece hpiece => by simp [Path.staysPut, hpiece]) hat
  rw [makeDirectory, resolvePieces, hfault]
  dsimp only
  rw [if_pos rfl, hwalk]

theorem isDirectoryAt_of_leads (hfault : pathFault? pieces = none)
    (h : fs.Leads maxLinks (fs.start pieces) pieces links location)
    (hat : fs.root.at? location = some (.directory entries)) :
    fs.isDirectoryAt pieces = true := by
  rw [isDirectoryAt, resolvePieces, hfault]
  dsimp only
  rw [if_neg (by decide), walk_of_leads h hat]

/-- **Making directories does nothing where a directory is.** -/
theorem makeDirectoriesAt_of_leads (hfault : pathFault? pieces = none)
    (h : fs.Leads maxLinks (fs.start pieces) pieces links location)
    (hat : fs.root.at? location = some (.directory entries)) :
    fs.makeDirectoriesAt pieces = .ok fs := by
  cases hput : pieces.all Path.staysPut with
  | true => exact makeDirectoriesAt_of_staysPut hput
  | false =>
    have hmade := makeDirectory_of_leads hfault h hat
    rw [makeDirectoriesAt_eq_makeOrKeep hput (by simp [hmade]), makeOrKeep, hmade]
    dsimp only
    rw [if_pos (isDirectoryAt_of_leads hfault h hat)]

theorem leads_of_isDirectoryAt (h : fs.isDirectoryAt pieces = true) : pathFault? pieces = none ∧
    ∃ links location entries, fs.Leads maxLinks (fs.start pieces) pieces links location ∧
      fs.root.at? location = some (.directory entries) := by
  unfold isDirectoryAt at h
  split at h
  · next location entries hr =>
    unfold resolvePieces at hr
    split at hr
    · cases hr
    · next hfault =>
      rw [if_neg (by decide)] at hr
      obtain ⟨⟨links, hleads⟩, hat⟩ := exists_leads hr
      exact ⟨hfault, links, location, entries, hleads, hat⟩
  · cases h

/-- **A directory that was made is empty**, and it is at the end of the same pieces. -/
theorem leads_of_makeDirectory (h : fs.makeDirectory pieces = .ok fs') :
    ∃ links location, fs'.Leads maxLinks (fs'.start pieces) pieces links location ∧
      fs'.root.at? location = some (.directory []) := by
  obtain ⟨directory, name, hwalk, rfl⟩ := makeDirectory_eq_ok h
  obtain ⟨⟨entries, hat, hlookup⟩, -⟩ := absent_of_walk hwalk
  have hnone : fs.root.at? (directory ++ [name]) = none := (at?_concat hat name).trans hlookup
  have hkeeps : fs.Keeps (fs.setNode (directory ++ [name]) (.directory [])) :=
    keeps_setNode (.of_absent hat hlookup) Node.bare_empty fun old hold => by
      cases hnone.symm.trans hold
  have hnew : (fs.setNode (directory ++ [name]) (.directory [])).root.at?
      (Spot.absent directory name).location = some (.directory []) := Node.at?_setAt _ _ _
  obtain ⟨links, hleads⟩ := hkeeps.leads_of_walk hnew (Node.directory_ne_link _) hwalk
  obtain ⟨tail, hpieces, htail⟩ := Path.exists_dropEnd_append (·.isEmpty) pieces
  refine ⟨links, directory ++ [name], ?_, hnew⟩
  conv => arg 4; rw [hpieces]
  exact hleads.append (leads_of_staysPut hnew fun piece hpiece => by
    simp [Path.staysPut, htail piece hpiece])

theorem leads_of_makeOrKeep (h : fs.makeOrKeep pieces = .ok fs') :
    ∃ links location entries, fs'.Leads maxLinks (fs'.start pieces) pieces links location ∧
      fs'.root.at? location = some (.directory entries) := by
  unfold makeOrKeep at h
  split at h
  · next fs₁ hmade =>
    cases h
    obtain ⟨links, location, hleads, hat⟩ := leads_of_makeDirectory hmade
    exact ⟨links, location, [], hleads, hat⟩
  · split_ifs at h with hdir
    cases h
    exact (leads_of_isDirectoryAt hdir).2

/-- **Where directories were made, there is one**, at the end of the same pieces. -/
theorem leads_of_makeDirectoriesAt (hput : pieces.all Path.staysPut = false)
    (h : fs.makeDirectoriesAt pieces = .ok fs') :
    ∃ links location entries, fs'.Leads maxLinks (fs'.start pieces) pieces links location ∧
      fs'.root.at? location = some (.directory entries) := by
  obtain ⟨piece, rest, rfl⟩ := List.exists_cons_of_ne_nil (l := pieces) (by rintro rfl; cases hput)
  have hkeep : ∃ gs : FileSystem, gs.makeOrKeep (piece :: rest) = .ok fs' := by
    rw [makeDirectoriesAt, if_neg (by rw [hput]; exact Bool.false_ne_true)] at h
    split at h
    · next fs₁ hmade =>
      cases h
      exact ⟨fs, by rw [makeOrKeep, hmade]⟩
    -- the last directory is made when the one above it is there
    · split at h
      · next fs₁ _ => exact ⟨fs₁, h⟩
      · cases h
    · exact ⟨fs, h⟩
  obtain ⟨gs, hgs⟩ := hkeep
  exact leads_of_makeOrKeep hgs

/-! ### Missing directories -/

/-- Nothing but `..` leads out of an empty directory. -/
theorem Leads.not_beyond_empty {between rest : List String} {piece : String}
    (hbetween : ∀ q ∈ between, Path.staysPut q = true) (hpiece : Path.IsName piece)
    (hat : fs.root.at? here = some (.directory [])) :
    ¬ fs.Leads links here (between ++ piece :: rest) links' location := by
  intro h
  obtain ⟨links₁, here₁, hput, hrest⟩ := h.exists_append
  obtain ⟨rfl, rfl⟩ := hput.of_staysPut hbetween
  cases hrest with
  | step hs _ =>
    obtain ⟨m, hm, -⟩ := exists_entry_of_stride hpiece hs
    cases hm.symm.trans (at?_concat hat piece)

theorem makeDirectory_of_isDirectoryAt (h : fs.isDirectoryAt pieces = true) :
    fs.makeDirectory pieces = .error .alreadyExists := by
  obtain ⟨hfault, links, location, entries, hleads, hat⟩ := leads_of_isDirectoryAt h
  exact makeDirectory_of_leads hfault hleads hat

/-- A directory that cannot be made is kept, if it is there. -/
theorem eq_of_makeOrKeep {e : FileFault} (hmade : fs.makeDirectory pieces = .error e)
    (h : fs.makeOrKeep pieces = .ok fs') : fs' = fs ∧ fs.isDirectoryAt pieces = true := by
  unfold makeOrKeep at h
  rw [hmade] at h
  dsimp only at h
  split_ifs at h with hdir
  exact ⟨(Except.ok.inj h).symm, hdir⟩

section Missing
variable (hslash : ∀ piece ∈ pieces, '/' ∉ piece.toList) (hup : ".." ∉ pieces)
include hslash hup

/-- In an empty directory there is no directory. -/
theorem not_isDirectoryAt_of_empty (hput : pieces.all Path.staysPut = false)
    (hparent : (Path.parent pieces).all Path.staysPut = false)
    (h : fs.Leads maxLinks (fs.start (Path.parent pieces)) (Path.parent pieces) links location)
    (hat : fs.root.at? location = some (.directory [])) : ¬ fs.isDirectoryAt pieces = true := by
  intro hdir
  obtain ⟨-, links', location', -, hleads, -⟩ := leads_of_isDirectoryAt hdir
  obtain ⟨between, piece, rest, hpieces, hbetween, hpiece⟩ := Path.exists_parent_append hput
  have hmem : piece ∈ pieces := by
    rw [hpieces]
    simp
  have hname : Path.IsName piece := by
    refine ⟨?_, hslash piece hmem, ?_, fun heq => hup (heq ▸ hmem)⟩ <;>
    · rintro rfl
      cases hpiece
  have hne : Path.parent pieces ≠ [] := by
    intro hnil
    rw [hnil] at hparent
    cases hparent
  rw [hpieces, start_append hne] at hleads
  obtain ⟨links₁, here₁, hfirst, hrest⟩ := hleads.exists_append
  obtain ⟨rfl, rfl⟩ := h.unique hfirst
  exact Leads.not_beyond_empty hbetween hname hat hrest

/-- **Directories that are made where there was nothing are empty** in the end, if the way to them
does not go up. -/
theorem leads_of_makeDirectoriesAt_of_missing (hput : pieces.all Path.staysPut = false)
    (hmissing : ∀ e, fs.makeDirectory pieces = .error e → e = .notFound)
    (h : fs.makeDirectoriesAt pieces = .ok fs') :
    ∃ links location, fs'.Leads maxLinks (fs'.start pieces) pieces links location ∧
      fs'.root.at? location = some (.directory []) := by
  fun_induction makeDirectoriesAt fs pieces generalizing fs' with
  | case1 => cases hput
  | case2 piece rest hall =>
    rw [hput] at hall
    cases hall
  | case3 piece rest _ fs₁ hmade =>
    cases h
    exact leads_of_makeDirectory hmade
  | case4 piece rest _ hnotFound fs₁ hmade ih =>
    cases hmade₁ : fs₁.makeDirectory (piece :: rest) with
    | ok fs₂ =>
      rw [makeOrKeep, hmade₁] at h
      cases h
      exact leads_of_makeDirectory hmade₁
    | error e =>
      exfalso
      obtain ⟨rfl, hdir⟩ := eq_of_makeOrKeep hmade₁ h
      -- the directory is new, since it was missing before
      have hnew : fs' ≠ fs := by
        rintro rfl
        cases hnotFound.symm.trans (makeDirectory_of_isDirectoryAt hdir)
      cases hparent : (Path.parent (piece :: rest)).all Path.staysPut with
      | true =>
        rw [makeDirectoriesAt_of_staysPut hparent] at hmade
        exact hnew (Except.ok.inj hmade).symm
      | false =>
        by_cases hfirst : ∀ e, fs.makeDirectory (Path.parent (piece :: rest)) = .error e →
            e = .notFound
        · have hsub := (Path.parent_sublist (piece :: rest)).subset
          obtain ⟨links, location, hleads, hat⟩ := ih (fun q hq => hslash q (hsub hq))
            (fun hq => hup (hsub hq)) hparent hfirst hmade
          exact not_isDirectoryAt_of_empty hslash hup hput hparent hleads hat hdir
        · simp only [not_forall] at hfirst
          obtain ⟨e, he, hne⟩ := hfirst
          rw [makeDirectoriesAt_eq_makeOrKeep hparent fun hn =>
            hne (Except.error.inj (he.symm.trans hn))] at hmade
          exact hnew (eq_of_makeOrKeep he hmade).1
  | case5 => cases h
  | case6 piece rest _ e hne hmade => exact absurd (hmissing e hmade) hne

end Missing

/-- **A directory that was not there is empty when it has been made.** -/
theorem node_of_makeDirectories {p : Path} (hup : ".." ∉ p.pieces)
    (hput : p.pieces.all Path.staysPut = false) (hmissing : fs.node p = .error .notFound)
    (h : fs.makeDirectories p = .ok fs') : fs'.node p = .ok (.directory []) := by
  have hnode : ∀ {gs : FileSystem} {links location entries}, pathFault? p.pieces = none →
      gs.Leads maxLinks (gs.start p.pieces) p.pieces links location →
      gs.root.at? location = some (.directory entries) → gs.node p = .ok (.directory entries) := by
    intro gs links location entries hfault hleads hat
    rw [node, resolve, resolvePieces, hfault]
    dsimp only
    rw [if_neg (by decide), walk_of_leads hleads hat]
  have hfault : pathFault? p.pieces = none := by
    cases hfault : pathFault? p.pieces with
    | none => rfl
    | some fault =>
      rw [node, resolve, resolvePieces, hfault] at hmissing
      cases hmissing
      have hnothing : p.pieces = [] ∨ p.pieces = [""] := by
        by_contra hnot
        rw [pathFault?, if_neg hnot] at hfault
        split_ifs at hfault <;> cases hfault
      obtain hnil | hnil := hnothing <;>
      · rw [hnil] at hput
        cases hput
  have hmade : ∀ e, fs.makeDirectory p.pieces = .error e → e = .notFound := by
    intro e he
    by_contra hne
    rw [makeDirectories, makeDirectoriesAt_eq_makeOrKeep hput fun hn =>
      hne (Except.error.inj (he.symm.trans hn))] at h
    obtain ⟨-, links, location, entries, hleads, hat⟩ :=
      leads_of_isDirectoryAt (eq_of_makeOrKeep he h).2
    cases hmissing.symm.trans (hnode hfault hleads hat)
  obtain ⟨links, location, hleads, hat⟩ := leads_of_makeDirectoriesAt_of_missing
    (fun _ => Path.no_slash_of_mem_pieces) hup hput hmade h
  exact hnode hfault hleads hat

end FileSystem

end StochasticSat
