import Mathlib.Tactic.Common
import StochasticSat.Proofs.Tree.Walks

/-!
# Reading back what was written

A file can be put where one is, or where a directory has no entry (`Node.Takes`).  This changes no
other node but the directories on the way to it: every node that was there is still there and of the
same kind (`Node.Takes.exists_alike`).  So the walk to write the file and the walk to read it follow
the same pieces and links to the same place (`FileSystem.Keeps.leads_of_walk`), and the file has the
content that was written (`FileSystem.contentAt_of_writeFile`).
-/

namespace StochasticSat

namespace Node

/-! ### Changed trees -/

/-- Nodes of the same kind, where links go to the same target. -/
inductive Alike : Node → Node → Prop
  | file (content content' : ByteArray) : Alike (file content) (file content')
  | directory (entries entries' : List (String × Node)) :
    Alike (directory entries) (directory entries')
  | link (target : Path) : Alike (link target) (link target)

theorem Alike.refl : ∀ n : Node, n.Alike n
  | .file _ => .file _ _
  | .directory _ => .directory _ _
  | .link _ => .link _

theorem Alike.trans {n m k : Node} (h : n.Alike m) (h' : m.Alike k) : n.Alike k := by
  cases h <;> cases h' <;> constructor

/-- **A tree takes a file at a location**: one is there, or a directory without an entry. -/
inductive Takes : Node → List String → Prop
  | existing (content : ByteArray) : Takes (file content) []
  | inside {entries : List (String × Node)} {name : String} {m : Node} {names : List String}
    (hname : entries.lookup name = some m) (hm : Takes m names) :
    Takes (directory entries) (name :: names)
  | beside {entries : List (String × Node)} {name : String} (hname : entries.lookup name = none) :
    Takes (directory entries) [name]

theorem lookup_cons_eq (name x : String) (n : Node) (entries : List (String × Node)) :
    ((name, n) :: entries).lookup x = if x = name then some n else entries.lookup x := by
  rw [List.lookup_cons, beq_eq_decide]
  split_ifs with h <;> simp [h]

theorem lookup_setEntry (entries : List (String × Node)) (name x : String) (n : Node) :
    (setEntry entries name n).lookup x = if x = name then some n else entries.lookup x := by
  induction entries with
  | nil => exact lookup_cons_eq name x n []
  | cons entry entries ih =>
    obtain ⟨y, m⟩ := entry
    rw [setEntry]
    by_cases hy : y = name
    · rw [if_pos hy, lookup_cons_eq, lookup_cons_eq, hy]
      split_ifs <;> rfl
    · rw [if_neg hy, lookup_cons_eq, lookup_cons_eq, ih]
      by_cases hx : x = y
      · rw [if_pos hx, if_neg (hx ▸ hy), if_pos hx]
      · rw [if_neg hx, if_neg hx]

/-- What is below a directory after something was put below it. -/
theorem at?_setAt_cons (n : Node) (name : String) (names : List String)
    (entries : List (String × Node)) (x : String) (here : List String) :
    (setAt n (name :: names) (directory entries)).at? (x :: here) =
      if x = name then (setAt n names ((entries.lookup name).getD (directory []))).at? here
      else (directory entries).at? (x :: here) := by
  rw [setAt, at?, child?, lookup_setEntry]
  split_ifs <;> rfl

theorem at?_setAt (n : Node) (location : List String) (m : Node) :
    (setAt n location m).at? location = some n := by
  induction location generalizing m with
  | nil => rfl
  | cons name location ih =>
    cases m with
    | directory entries => rw [at?_setAt_cons, if_pos rfl, ih]
    | file | link => simp [setAt, at?, child?, ih]

theorem Takes.of_file {n : Node} {location : List String} {content : ByteArray}
    (h : n.at? location = some (file content)) : n.Takes location := by
  induction location generalizing n with
  | nil =>
    cases h
    exact .existing content
  | cons name location ih =>
    obtain ⟨m, hm, hrest⟩ := Option.bind_eq_some_iff.mp h
    cases n with
    | directory entries => exact .inside hm (ih hrest)
    | file | link => cases hm

theorem Takes.of_absent {n : Node} {directory : List String} {entries : List (String × Node)}
    {name : String} (h : n.at? directory = some (.directory entries))
    (hname : entries.lookup name = none) : n.Takes (directory ++ [name]) := by
  induction directory generalizing n with
  | nil =>
    cases h
    exact .beside hname
  | cons x directory ih =>
    obtain ⟨m, hm, hrest⟩ := Option.bind_eq_some_iff.mp h
    cases n with
    | directory entries => exact .inside hm (ih hrest)
    | file | link => cases hm

theorem Takes.alike_file {m old : Node} {location : List String} (h : m.Takes location)
    (hold : m.at? location = some old) (content : ByteArray) : old.Alike (file content) := by
  induction h with
  | existing content' =>
    cases hold
    exact .file _ _
  | @inside entries name child names hchild _ ih =>
    rw [at?, child?, hchild] at hold
    exact ih hold
  | beside hname =>
    rw [at?, child?, hname] at hold
    cases hold

/-- There is nothing below a node. -/
def Bare (n : Node) : Prop := ∀ name names, n.at? (name :: names) = none

theorem bare_file (content : ByteArray) : (file content).Bare := fun _ _ => rfl

theorem bare_empty : (directory []).Bare := fun _ _ => rfl

/-- **Nothing else changes** when a node is put into a tree, but the directories on the way to it. -/
theorem Takes.at?_setAt_of_ne {m n : Node} {location here : List String} (h : m.Takes location)
    (hn : n.Bare) (hne : here ≠ location) :
    (setAt n location m).at? here = m.at? here ∨
      ∃ entries entries', m.at? here = some (.directory entries) ∧
        (setAt n location m).at? here = some (.directory entries') := by
  induction h generalizing here with
  | existing content =>
    cases here with
    | nil => exact absurd rfl hne
    | cons x here => exact Or.inl (hn x here)
  | @inside entries name child names hchild _ ih =>
    cases here with
    | nil => exact Or.inr ⟨_, _, rfl, rfl⟩
    | cons x here =>
      rw [at?_setAt_cons]
      split_ifs with hx
      · subst hx
        rw [hchild, at?, child?, hchild]
        exact ih fun heq => hne (heq ▸ rfl)
      -- beside the way to the node nothing changes
      · exact Or.inl rfl
  | @beside entries name hname =>
    cases here with
    | nil => exact Or.inr ⟨_, _, rfl, rfl⟩
    | cons x here =>
      rw [at?_setAt_cons]
      split_ifs with hx
      · subst hx
        obtain ⟨y, here, rfl⟩ := List.exists_cons_of_ne_nil (l := here) fun h => hne (h ▸ rfl)
        have hnone : (directory entries).at? (x :: y :: here) = none := by
          rw [at?, child?, hname]
          rfl
        rw [hnone]
        exact Or.inl (hn y here)
      · exact Or.inl rfl

/-- **Every node stays where it is and what it is** when one of the same kind takes its place, or a
new one is put into the tree. -/
theorem Takes.exists_alike {m n : Node} {location : List String} (h : m.Takes location)
    (hn : n.Bare) (hold : ∀ old, m.at? location = some old → old.Alike n) {here : List String}
    {k : Node} (hk : m.at? here = some k) :
    ∃ k', (setAt n location m).at? here = some k' ∧ k.Alike k' := by
  by_cases hhere : here = location
  · subst hhere
    exact ⟨n, at?_setAt n here m, hold k hk⟩
  · obtain heq | ⟨entries, entries', hat, hat'⟩ := h.at?_setAt_of_ne hn hhere
    · exact ⟨k, heq.trans hk, .refl k⟩
    · cases hat.symm.trans hk
      exact ⟨_, hat', .directory _ _⟩

end Node

/-! ### Walks -/

/-- Where a walk has come to. -/
def Spot.location : Spot → List String
  | present location _ => location
  | absent directory name => directory ++ [name]

namespace FileSystem
variable {fs fs' : FileSystem} {goal : Goal} {links links' links₁ : Nat}
  {here here₁ location todo more : List String}

/-- A piece that leads somewhere is followed there, whatever the walk is for, unless it is the last
one. -/
theorem walk_of_stride (goal : Goal) {piece : String}
    (h : fs.stride links here piece = some (links₁, here₁, more)) (rest : List String)
    (hwrite : goal = .write → rest.all (·.isEmpty) = false) (hmake : goal = .make → rest ≠ []) :
    fs.walk goal links here (piece :: rest) = fs.walk goal links₁ here₁ (more ++ rest) := by
  have hslash : ¬ (goal = .write && !rest.isEmpty && rest.all (·.isEmpty)) = true := by
    simp only [Bool.and_eq_true, decide_eq_true_eq, not_and, Bool.not_eq_true]
    exact fun hgoal => hwrite hgoal.1
  have hlast : ¬ (goal = .make && rest.isEmpty) = true := by
    simp only [Bool.and_eq_true, decide_eq_true_eq, List.isEmpty_iff, not_and]
    exact hmake
  unfold stride at h
  split at h
  · next entries hat =>
    rw [walk.eq_def]
    simp only [hat]
    split_ifs at h with hput hup hsize
    · cases h
      rw [if_pos hput]
      rfl
    · cases h
      rw [if_neg hput, if_pos hup]
      rfl
    · rw [if_neg hput, if_neg hup, if_neg hslash, if_neg hsize]
      cases hentry : entries.lookup piece with
      | none =>
        rw [hentry] at h
        cases h
      | some m =>
        rw [hentry] at h
        cases m with
        | file | directory =>
          cases h
          rfl
        | link target =>
          cases links with
          | zero => cases h
          | succ links =>
            cases h
            dsimp only
            rw [if_neg hlast]
  · cases h

/-- **Where pieces lead to a node, a walk ends.** -/
theorem walk_of_leads (h : fs.Leads links here todo links' location) {node : Node}
    (hnode : fs.root.at? location = some node) :
    fs.walk .use links here todo = .ok (.present location node) := by
  induction h with
  | nil => simp [walk, hnode]
  | step hs _ ih => exact (walk_of_stride .use hs _ (by simp) (by simp)).trans (ih hnode)

/-- The second file system has all nodes of the first, of the same kinds. -/
def Keeps (fs fs' : FileSystem) : Prop :=
  ∀ here m, fs.root.at? here = some m → ∃ m', fs'.root.at? here = some m' ∧ m.Alike m'

theorem Keeps.exists_directory (h : fs.Keeps fs') {entries : List (String × Node)}
    (hat : fs.root.at? here = some (.directory entries)) :
    ∃ entries', fs'.root.at? here = some (.directory entries') := by
  obtain ⟨m', hm', ha⟩ := h here _ hat
  cases ha
  exact ⟨_, hm'⟩

/-- A piece leads to the same place where the same nodes are. -/
theorem Keeps.stride_eq (h : fs.Keeps fs') {piece : String}
    (hs : fs.stride links here piece = some (links₁, here₁, more)) :
    fs'.stride links here piece = some (links₁, here₁, more) := by
  unfold stride at hs
  split at hs
  · next entries hat =>
    obtain ⟨entries', hat'⟩ := h.exists_directory hat
    simp only [stride, hat']
    split_ifs at hs ⊢ with hput hup hsize
    · exact hs
    · exact hs
    · cases hentry : entries.lookup piece with
      | none => rw [hentry] at hs; cases hs
      | some m =>
        obtain ⟨m', hm', ha⟩ := h (here ++ [piece]) m ((at?_concat hat piece).trans hentry)
        rw [at?_concat hat'] at hm'
        rw [hentry] at hs
        rw [hm']
        cases ha <;> exact hs
  · cases hs

/-- **Making something and then using it follows the same pieces.** -/
theorem Keeps.leads_of_walk (h : fs.Keeps fs') {spot : Spot} {n : Node}
    (hspot : fs'.root.at? spot.location = some n) (hlink : ∀ target, n ≠ .link target)
    (hwalk : fs.walk goal links here todo = .ok spot) :
    ∃ links', fs'.Leads links here todo links' spot.location := by
  fun_induction walk fs goal links here todo with
  | case1 links here node hat =>
    cases hwalk
    exact ⟨links, .nil _ _⟩
  | case3 links here piece rest entries hat hput ih =>
    obtain ⟨links', hl⟩ := ih hwalk
    exact ⟨links', .next (h.stride_eq (by simp [stride, hat, hput])) hl⟩
  | case4 links here rest entries hat hput ih =>
    obtain ⟨links', hl⟩ := ih hwalk
    exact ⟨links', .next (h.stride_eq (by simp [stride, hat, hput])) hl⟩
  | case7 links here piece rest entries hat hput hup _ hsize hentry hrest =>
    cases hwalk
    -- the piece is that of something which was not there when it was made
    obtain ⟨entries', hat'⟩ := h.exists_directory hat
    obtain rfl := List.isEmpty_iff.mp hrest
    have hentry' : entries'.lookup piece = some n := (at?_concat hat' piece).symm.trans hspot
    have hnext : fs'.stride links here piece = some (links, here ++ [piece], []) := by
      simp only [stride, hat', hput, hup, hsize, hentry', Bool.false_eq_true, if_false]
    exact ⟨links, .next hnext (.nil _ _)⟩
  | case9 links here piece rest entries hat hput hup _ hsize target hentry hmake =>
    cases hwalk
    obtain ⟨m', hm', ha⟩ := h _ _ ((at?_concat hat piece).trans hentry)
    cases ha
    exact absurd (Option.some.inj (hspot.symm.trans hm')) (hlink target)
  | case11 here piece rest entries hat hput hup _ hsize target hentry _ links ih =>
    obtain ⟨links', hl⟩ := ih hwalk
    exact ⟨links', .step (h.stride_eq (by simp [stride, hat, hput, hup, hsize, hentry])) hl⟩
  | case12 links here piece rest entries hat hput hup _ hsize entry hlink hentry ih =>
    obtain ⟨links', hl⟩ := ih hwalk
    exact ⟨links', .next (h.stride_eq (by simp [stride, hat, hput, hup, hsize, hentry])) hl⟩
  | _ => cases hwalk

/-! ### Files -/

/-- Where a walk for writing has come to, there may be a file. -/
theorem takes_of_walk {spot : Spot} (h : fs.walk .write links here todo = .ok spot)
    (hfile : ∀ location node, spot = .present location node → ∃ content, node = .file content) :
    fs.root.Takes spot.location := by
  fun_induction walk fs .write links here todo with
  | case1 links here node hat =>
    cases h
    obtain ⟨content, rfl⟩ := hfile here node rfl
    exact .of_file hat
  | case7 links here piece rest entries hat hput hup _ hsize hentry hrest =>
    cases h
    exact .of_absent hat hentry
  | case9 links here piece rest entries hat hput hup _ hsize target hentry hmake => cases hmake
  | case3 | case4 | case11 | case12 => simp_all
  | _ => cases h

theorem keeps_setNode {n : Node} (h : fs.root.Takes location) (hn : n.Bare)
    (hold : ∀ old, fs.root.at? location = some old → old.Alike n) :
    fs.Keeps (fs.setNode location n) :=
  fun _ _ hm => h.exists_alike hn hold hm

/-- What becomes of a file system in which a file is written. -/
theorem writeFile_eq_ok {p : Path} {content : ByteArray} (h : fs.writeFile p content = .ok fs') :
    ∃ spot, fs.resolve .write p = .ok spot ∧ fs' = fs.setNode spot.location (.file content) ∧
      ∀ location node, spot = .present location node → ∃ old, node = .file old := by
  unfold writeFile at h
  split at h
  · next location old hspot =>
    cases h
    refine ⟨_, hspot, rfl, ?_⟩
    rintro _ _ ⟨⟩
    exact ⟨old, rfl⟩
  · cases h
  · next directory name hspot =>
    cases h
    refine ⟨_, hspot, rfl, ?_⟩
    rintro _ _ ⟨⟩
  · cases h

/-- **Where a path leads at which a file was written**, there was room for it, and there it is. -/
theorem leads_of_writeFile {p : Path} {content : ByteArray} (h : fs.writeFile p content = .ok fs') :
    ∃ spot links, fs.resolve .write p = .ok spot ∧ fs.root.Takes spot.location ∧
      fs' = fs.setNode spot.location (.file content) ∧
      fs'.Leads maxLinks (fs'.start p.pieces) p.pieces links spot.location := by
  obtain ⟨spot, hspot, rfl, hfile⟩ := writeFile_eq_ok h
  have hwalk := ((resolve_eq_ok_iff (by decide)).mp hspot).2
  have htakes := takes_of_walk hwalk hfile
  have hkeeps := keeps_setNode htakes (Node.bare_file content) fun _ hold =>
    htakes.alike_file hold content
  obtain ⟨links, hleads⟩ := hkeeps.leads_of_walk (Node.at?_setAt _ _ _) (Node.file_ne_link _) hwalk
  exact ⟨spot, links, hspot, htakes, rfl, hleads⟩

theorem contentAt_eq_ok_iff {p : Path} {content : ByteArray} : fs.contentAt p = .ok content ↔
    pathFault? p.pieces = none ∧ ∃ links location,
      fs.Leads maxLinks (fs.start p.pieces) p.pieces links location ∧
        fs.root.at? location = some (.file content) := by
  constructor
  · intro h
    have hnode : fs.node p = .ok (.file content) := by
      unfold contentAt at h
      split at h <;> cases h
      assumption
    obtain ⟨location, hr⟩ : ∃ location,
        fs.resolve .use p = .ok (.present location (.file content)) := by
      unfold node at hnode
      split at hnode <;> cases hnode
      exact ⟨_, by assumption⟩
    obtain ⟨⟨links, hleads⟩, hat⟩ := leads_of_resolve hr
    exact ⟨((resolve_eq_ok_iff (by decide)).mp hr).1, links, location, hleads, hat⟩
  · rintro ⟨hfault, links, location, hleads, hat⟩
    have hr : fs.resolve .use p = .ok (.present location (.file content)) :=
      (resolve_eq_ok_iff (by decide)).mpr ⟨hfault, walk_of_leads hleads hat⟩
    rw [contentAt, node, hr]

/-- **A file that was written has the content that was written.** -/
theorem contentAt_of_writeFile {p : Path} {content : ByteArray}
    (h : fs.writeFile p content = .ok fs') : fs'.contentAt p = .ok content := by
  obtain ⟨spot, links, hspot, -, rfl, hleads⟩ := leads_of_writeFile h
  exact contentAt_eq_ok_iff.mpr ⟨((resolve_eq_ok_iff (by decide)).mp hspot).1, links, _, hleads,
    Node.at?_setAt _ _ _⟩

end FileSystem
end StochasticSat
