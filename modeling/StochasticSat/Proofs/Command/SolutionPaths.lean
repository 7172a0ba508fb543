import StochasticSat.Command.Session
import StochasticSat.Proofs.Tree.Discovery

/-!
# Paths of solutions

The model of a file that was found below a directory goes to the same place below another one, with
`.sol` behind its name (`solutionNames`, `exists_pieces_solutionPath`).  So the models of two files
go to two places, and none of them is that of an instance file (`solutionNames_injective`,
`not_isInstancePath_solutionNames`).

The path of one model can lead through the place of another, but only where the tree has a directory
that is named like that model (`Nested`, `solutionNames_prefix_iff`).
-/

namespace StochasticSat

open Command

/-! ### Names -/

/-- The names of the file with the model of the file with the given names. -/
def solutionNames : List String → List String
  | [] => []
  | [name] => [name ++ ".sol"]
  | name :: next :: rest => name :: solutionNames (next :: rest)

theorem solutionNames_concat (before : List String) (name : String) :
    solutionNames (before ++ [name]) = before ++ [name ++ ".sol"] := by
  induction before with
  | nil => rfl
  | cons first before ih =>
    obtain ⟨next, rest, hrest⟩ := List.exists_cons_of_ne_nil (l := before ++ [name]) (by simp)
    rw [List.cons_append, hrest, solutionNames, ← hrest, ih, List.cons_append]

theorem solutionNames_eq_nil_iff {names : List String} : solutionNames names = [] ↔ names = [] := by
  obtain rfl | ⟨before, name, rfl⟩ := List.eq_nil_or_concat' names
  · exact iff_of_true rfl rfl
  · rw [solutionNames_concat]
    simp

/-- **Different files have their models in different places.** -/
theorem solutionNames_injective {f g : List String} (h : solutionNames f = solutionNames g) :
    f = g := by
  obtain rfl | ⟨before, name, rfl⟩ := List.eq_nil_or_concat' f
  · exact (solutionNames_eq_nil_iff.mp h.symm).symm
  · obtain rfl | ⟨before', name', rfl⟩ := List.eq_nil_or_concat' g
    · exact solutionNames_eq_nil_iff.mp h
    · rw [solutionNames_concat, solutionNames_concat] at h
      obtain ⟨rfl, hname⟩ := List.append_inj' h rfl
      rw [(String.append_left_inj _).mp (List.singleton_inj.mp hname)]

theorem isName_sol {name : String} (h : Path.IsName name) : Path.IsName (name ++ ".sol") := by
  have hlength : 4 < (name ++ ".sol").length := by
    have hpos : 0 < name.length := Nat.pos_of_ne_zero fun h0 => h.ne_empty (String.length_eq_zero_iff.mp h0)
    have hsol : ".sol".length = 4 := by decide
    rw [String.length_append, hsol]
    omega
  refine ⟨?_, by simpa using h.no_slash, ?_, ?_⟩ <;>
  · intro heq
    rw [heq] at hlength
    exact absurd hlength (by decide)

theorem isName_solutionNames {names : List String} (h : ∀ name ∈ names, Path.IsName name) :
    ∀ name ∈ solutionNames names, Path.IsName name := by
  obtain rfl | ⟨before, name, rfl⟩ := List.eq_nil_or_concat' names
  · exact h
  · simp only [solutionNames_concat, List.forall_mem_append, List.forall_mem_singleton] at h ⊢
    exact ⟨h.1, isName_sol h.2⟩

/-- The name of a model has the extension `sol`. -/
theorem extension?_sol {name : String} (h : name ≠ "") :
    Path.extension? (name ++ ".sol") = some "sol" :=
  Path.extension?_eq_some_iff.mpr ⟨name, h, by rw [String.append_assoc]; rfl, by decide⟩

/-- **No model goes to a place of an instance file.** -/
theorem not_isInstancePath_solutionNames {names : List String} (hne : names ≠ [])
    (h : ∀ name ∈ names, Path.IsName name) (base : List String) :
    ¬ Node.IsInstancePath (base ++ solutionNames names) := by
  obtain rfl | ⟨before, name, rfl⟩ := List.eq_nil_or_concat' names
  · exact absurd rfl hne
  · have hext := extension?_sol (h name (by simp)).ne_empty
    rw [← Node.isInstancePath_iff, solutionNames_concat, ← List.append_assoc,
      List.getLast?_concat, Option.any_some, Node.isInstanceName, hext]
    simp

/-! ### Nested places -/

/-- **A directory in the way**: the second file is below a directory with the name of the model of
the first one. -/
def Nested (f g : List String) : Prop :=
  ∃ before name rest, rest ≠ [] ∧ f = before ++ [name] ∧ g = before ++ (name ++ ".sol") :: rest

/-- **The path of a model leads through the place of another** exactly where a directory is in the
way. -/
theorem solutionNames_prefix_iff {f g : List String} (hf : f ≠ []) :
    (∃ rest, rest ≠ [] ∧ solutionNames g = solutionNames f ++ rest) ↔ Nested f g := by
  constructor
  · rintro ⟨rest, hrest, heq⟩
    obtain rfl | ⟨before, name, rfl⟩ := List.eq_nil_or_concat' f
    · exact absurd rfl hf
    · obtain rfl | ⟨rest, last, rfl⟩ := List.eq_nil_or_concat' rest
      · exact absurd rfl hrest
      · obtain rfl | ⟨before', name', rfl⟩ := List.eq_nil_or_concat' g
        · simp [solutionNames] at heq
        · rw [solutionNames_concat, solutionNames_concat, ← List.append_assoc] at heq
          obtain ⟨rfl, -⟩ := List.append_inj' heq rfl
          exact ⟨before, name, rest ++ [name'], by simp, rfl, by simp⟩
  · rintro ⟨before, name, rest, hrest, rfl, rfl⟩
    obtain rfl | ⟨rest, last, rfl⟩ := List.eq_nil_or_concat' rest
    · exact absurd rfl hrest
    · refine ⟨rest ++ [last ++ ".sol"], by simp, ?_⟩
      rw [← List.cons_append, ← List.append_assoc, solutionNames_concat, solutionNames_concat]
      simp

theorem nested_iff {f g : List String} :
    Nested f g ↔ f ≠ [] ∧ f ≠ g ∧ solutionNames f <+: solutionNames g := by
  constructor
  · intro h
    have hf : f ≠ [] := by
      obtain ⟨before, name, -, -, rfl, -⟩ := h
      simp
    obtain ⟨rest, hrest, heq⟩ := (solutionNames_prefix_iff hf).mpr h
    refine ⟨hf, ?_, rest, heq.symm⟩
    rintro rfl
    exact hrest (List.self_eq_append_right.mp heq)
  · rintro ⟨hf, hfg, rest, heq⟩
    refine (solutionNames_prefix_iff hf).mp ⟨rest, ?_, heq.symm⟩
    rintro rfl
    rw [List.append_nil] at heq
    exact hfg (solutionNames_injective heq)

instance (f g : List String) : Decidable (Nested f g) := decidable_of_iff _ nested_iff.symm

/-- The file in whose model's place there is a directory comes before the files below that. -/
theorem Nested.lt {f g : List String} (h : Nested f g) : f < g := by
  obtain ⟨before, name, rest, -, rfl, rfl⟩ := h
  have hname : name < name ++ ".sol" := by
    have hlt : name.toList ++ [] < name.toList ++ ".sol".toList :=
      List.append_left_lt (List.nil_lt_cons _ _)
    rw [List.append_nil] at hlt
    rwa [String.lt_iff, String.toList_append]
  exact List.append_left_lt (List.Lex.rel hname)

/-! ### Paths -/

/-- A path that begins with a name does not start at the root. -/
theorem isAbsolute_append {name : String} (h : Path.IsName name) (rest : String) :
    Path.isAbsolute (name ++ rest) = false := by
  have hname := h.isAbsolute
  obtain ⟨c, cs, hcs⟩ := List.exists_cons_of_ne_nil (l := name.toList) (by simpa using h.ne_empty)
  rw [Path.isAbsolute, hcs] at hname
  rw [Path.isAbsolute, String.toList_append, hcs]
  exact hname

/-- A path that begins with a name is joined to another one name by name. -/
theorem join_name_slash {name : String} (h : Path.IsName name) (base : Path) {p : Path}
    (hp : p.isAbsolute = false) :
    Path.join base (name ++ "/" ++ p) = Path.join (Path.join base name) p := by
  have habsolute : Path.isAbsolute (name ++ "/" ++ p) = false := by
    rw [String.append_assoc]
    exact isAbsolute_append h _
  obtain ⟨b, hname, hpath⟩ : ∃ b : String, Path.join base name = b ++ name ∧
      Path.join base (name ++ "/" ++ p) = b ++ (name ++ "/" ++ p) := by
    simp only [Path.join, h.isAbsolute, habsolute, Bool.false_eq_true, if_false]
    split_ifs
    · exact ⟨base, rfl, rfl⟩
    · exact ⟨base ++ "/", rfl, rfl⟩
  have hlast : name.toList.getLast? ≠ some '/' := by simpa using h.getLast?_append ""
  rw [hpath, hname]
  simp [Path.join, hp, h.ne_empty, hlast, String.append_assoc]

/-- The path of a model is that of its names. -/
theorem solutionPath_eq_below {names : List String} (hne : names ≠ [])
    (h : ∀ name ∈ names, Path.IsName name) (out : Path) :
    solutionPath out names = Path.below out (solutionNames names) := by
  induction names generalizing out with
  | nil => exact absurd rfl hne
  | cons name names ih =>
    obtain ⟨hname, hnames⟩ := List.forall_mem_cons.mp h
    cases names with
    | nil => simp [solutionPath, Path.below, solutionNames]
    | cons next rest =>
      obtain ⟨more, hmore⟩ : ∃ more, "/".intercalate (next :: rest) = next ++ more := by
        cases rest with
        | nil => exact ⟨"", by simp⟩
        | cons x rest => exact ⟨_, by rw [String.intercalate_cons_cons, String.append_assoc]⟩
      have hrelative : Path.isAbsolute ("/".intercalate (next :: rest) ++ ".sol") = false := by
        rw [hmore, String.append_assoc]
        exact isAbsolute_append (hnames next List.mem_cons_self) _
      rw [solutionNames, Path.below, List.foldl_cons, ← Path.below,
        ← ih (List.cons_ne_nil _ _) hnames, solutionPath, solutionPath,
        String.intercalate_cons_cons, String.append_assoc, join_name_slash hname out hrelative]

/-- The pieces of a path below the empty one are its names. -/
theorem pieces_below_empty {names : List String} (hne : names ≠ [])
    (h : ∀ name ∈ names, Path.IsName name) : (Path.below "" names).pieces = names := by
  obtain ⟨name, names, rfl⟩ := List.exists_cons_of_ne_nil hne
  obtain ⟨hname, hnames⟩ := List.forall_mem_cons.mp h
  have hjoin : Path.join "" name = name := by simp [Path.join]
  rw [Path.below, List.foldl_cons, hjoin]
  cases names with
  | nil => exact hname.pieces
  | cons next rest =>
    obtain ⟨hnext, hrest⟩ := List.forall_mem_cons.mp hnames
    have hlast : name.toList.getLast? ≠ some '/' := by simpa using hname.getLast?_append ""
    rw [List.foldl_cons, hnext.join_eq hname.ne_empty hlast, ← Path.below,
      Path.pieces_below_name name hnext hrest, hname.pieces]
    rfl

/-- **The pieces of the path of a model** are those of the directory for the models, without the
empty piece behind a slash at its end, and the names of the model. -/
theorem exists_pieces_solutionPath (out : Path) : ∃ stem tail, (tail = [] ∨ tail = [""]) ∧
    out.pieces = stem ++ tail ∧ ∀ names, names ≠ [] → (∀ name ∈ names, Path.IsName name) →
      (solutionPath out names).pieces = stem ++ solutionNames names := by
  by_cases hout : out = ""
  · subst hout
    refine ⟨[], [""], Or.inr rfl, rfl, fun names hne hnames => ?_⟩
    rw [solutionPath_eq_below hne hnames, List.nil_append]
    exact pieces_below_empty (mt solutionNames_eq_nil_iff.mp hne) (isName_solutionNames hnames)
  · obtain ⟨stem, tail, -, htail, hpieces, hbelow⟩ := Path.exists_pieces_below hout
    refine ⟨stem, tail, htail, hpieces, fun names hne hnames => ?_⟩
    rw [solutionPath_eq_below hne hnames]
    exact hbelow _ (mt solutionNames_eq_nil_iff.mp hne) (isName_solutionNames hnames)

/-- Rows of names that can lead to files. -/
def AreNames (files : List (List String)) : Prop :=
  ∀ names ∈ files, names ≠ [] ∧ ∀ name ∈ names, Path.IsName name

/-- **One model is to be below another one** exactly where a directory is in the way. -/
theorem pieces_solutionPath_prefix_iff {files : List (List String)} (hfiles : AreNames files)
    (out : Path) {f g : List String} (hf : f ∈ files) (hg : g ∈ files) :
    (∃ rest, rest ≠ [] ∧ (solutionPath out g).pieces = (solutionPath out f).pieces ++ rest) ↔
      Nested f g := by
  obtain ⟨stem, -, -, -, hpieces⟩ := exists_pieces_solutionPath out
  obtain ⟨hfne, hfnames⟩ := hfiles f hf
  obtain ⟨hgne, hgnames⟩ := hfiles g hg
  simp only [hpieces f hfne hfnames, hpieces g hgne hgnames, List.append_assoc,
    List.append_cancel_left_eq]
  exact solutionNames_prefix_iff hfne

end StochasticSat
