import StochasticSat.Proofs.Command.DirectoryRuns

/-!
# Triples for sessions

A part of a session is judged by the files that it finds and leaves: `SessionT.Triple P x Q E` says
that `x`, begun where the files satisfy `P`, ends where they satisfy `Q` if it comes to a value, and
`E` if it stops the session, whatever the world and whatever has been printed and logged.  There is
one rule for every way in which parts are put together, so a run of a directory is judged by what
happens to its files one by one (`triple_solveEntries`, `triple_solveDirectory`).

Solving an instance changes files at one place only, where its model is written.  So all that is to
be known of it is what that does, and that stops for other reasons are tolerated
(`triple_solveAndReport`).
-/

namespace StochasticSat.Command

variable {τ α β : Type}

namespace SessionT

/-- How a part ends: with a value, or by stopping the session. -/
def EndsIn (Q : α → FileSystem → Prop) (E : Stop → FileSystem → Prop) :
    (Except Stop α × Machine) × τ → Prop
  | ((.ok a, s), _) => Q a s.files
  | ((.error stop, s), _) => E stop s.files

theorem EndsIn.cases {Q : α → FileSystem → Prop} {E : Stop → FileSystem → Prop}
    {r : (Except Stop α × Machine) × τ} (h : EndsIn Q E r) :
    (∃ a, r.1.1 = .ok a ∧ Q a r.1.2.files) ∨ ∃ stop, r.1.1 = .error stop ∧ E stop r.1.2.files := by
  rcases r with ⟨⟨stop | a, s⟩, t⟩
  · exact Or.inr ⟨stop, rfl, h⟩
  · exact Or.inl ⟨a, rfl, h⟩

/-- **What a part of a session guarantees**: from files that satisfy `P` it comes to a value, with
files that satisfy `Q`, or it stops, with files that satisfy `E`. -/
def Triple (P : FileSystem → Prop) (x : SessionT (StateM τ) α) (Q : α → FileSystem → Prop)
    (E : Stop → FileSystem → Prop) : Prop :=
  ∀ s t, P s.files → EndsIn Q E (x.on s t)

section Rules
variable {P P' : FileSystem → Prop} {Q Q' : α → FileSystem → Prop} {R : β → FileSystem → Prop}
  {E : Stop → FileSystem → Prop} {x : SessionT (StateM τ) α}

theorem Triple.pure {a : α} (h : ∀ fs, P fs → Q a fs) :
    Triple P (Pure.pure a : SessionT (StateM τ) α) Q E :=
  fun s _ hP => h s.files hP

theorem Triple.throw {stop : Stop} (h : ∀ fs, P fs → E stop fs) :
    Triple P (throw stop : SessionT (StateM τ) α) Q E :=
  fun s _ hP => h s.files hP

theorem Triple.bind {f : α → SessionT (StateM τ) β} (hx : Triple P x Q E)
    (hf : ∀ a, Triple (Q a) (f a) R E) : Triple P (x >>= f) R E := by
  intro s t hP
  have h := hx s t hP
  rw [on_bind]
  rcases hon : x.on s t with ⟨⟨stop | a, s'⟩, t'⟩
  · rw [hon] at h
    exact h
  · rw [hon] at h
    exact hf a s' t' h

theorem Triple.imp (h : Triple P x Q E) (hp : ∀ fs, P' fs → P fs) (hq : ∀ a fs, Q a fs → Q' a fs) :
    Triple P' x Q' E := by
  intro s t hP
  have hend := h s t (hp _ hP)
  rcases hon : x.on s t with ⟨⟨stop | a, s'⟩, t'⟩
  · rw [hon] at hend
    exact hend
  · rw [hon] at hend
    exact hq a _ hend

/-- What does not depend on the files can be assumed. -/
theorem Triple.of_and {p : Prop} (h : p → Triple P x Q E) : Triple (fun fs => p ∧ P fs) x Q E :=
  fun s t hP => h hP.1 s t hP.2

/-- What holds of the files for something can be assumed to hold for it. -/
theorem Triple.of_exists {γ : Type} {P : γ → FileSystem → Prop} (h : ∀ c, Triple (P c) x Q E) :
    Triple (fun fs => ∃ c, P c fs) x Q E :=
  fun s t ⟨c, hP⟩ => h c s t hP

/-- Nothing follows a part that always stops. -/
theorem Triple.stop {f : α → SessionT (StateM τ) β} (h : Triple P x (fun _ _ => False) E) :
    Triple P (x >>= f) R E :=
  h.bind fun _ _ _ hfalse => hfalse.elim

theorem triple_print (line : String) :
    Triple P (print line : SessionT (StateM τ) Unit) (fun _ => P) E :=
  fun _ _ => id

theorem triple_note (records : Log) :
    Triple P (note records : SessionT (StateM τ) Unit) (fun _ => P) E :=
  fun _ _ => id

theorem triple_say (level : Level) (message : String) :
    Triple P (say level message : SessionT (StateM τ) Unit) (fun _ => P) E := triple_note _

theorem triple_ask (y : StateM τ α) :
    Triple P (ask y) (fun a fs => (∃ t, a = (y.run t).1) ∧ P fs) E :=
  fun _ t hP => ⟨⟨t, rfl⟩, hP⟩

theorem triple_orFail {y : Except Error α}
    (h : ∀ e fs, y = .error e → P fs → E (.failed e) fs) :
    Triple P (orFail y : SessionT (StateM τ) α) (fun a fs => y = .ok a ∧ P fs) E := by
  cases hy : y with
  | ok a => exact .pure fun fs hP => ⟨rfl, hP⟩
  | error e => exact .throw fun fs => h e fs hy

/-- A part that looks at the machine. -/
theorem triple_get {f : Machine → SessionT (StateM τ) α}
    (h : ∀ s, Triple (fun fs => fs = s.files ∧ P fs) (f s) Q E) : Triple P (get >>= f) Q E := by
  intro s t hP
  have hget : (get : SessionT (StateM τ) Machine).on s t = ((.ok s, s), t) := rfl
  rw [on_bind, hget]
  exact h s s t ⟨rfl, hP⟩

theorem triple_changeFiles {change : FileSystem → Except FileFault FileSystem}
    {Q : Unit → FileSystem → Prop} (hok : ∀ fs fs', P fs → change fs = .ok fs' → Q () fs')
    (herror : ∀ fs fault, P fs → change fs = .error fault → E (.failed (.file fault)) fs) :
    Triple P (changeFiles change : SessionT (StateM τ) Unit) Q E := by
  refine triple_get fun s => ?_
  rintro s' t ⟨hs, hP⟩
  rw [hs] at hP
  cases hchange : change s.files with
  | ok fs' => exact hok s.files fs' hP hchange
  | error fault =>
    show E (.failed (.file fault)) s'.files
    rw [hs]
    exact herror s.files fault hP hchange

/-- A change that can be made. -/
theorem triple_changeFiles_of_exists {change : FileSystem → Except FileFault FileSystem}
    {Q : Unit → FileSystem → Prop} (h : ∀ fs, P fs → ∃ fs', change fs = .ok fs' ∧ Q () fs') :
    Triple P (changeFiles change : SessionT (StateM τ) Unit) Q E := by
  refine triple_changeFiles (fun fs fs' hP hok => ?_) fun fs fault hP herror => ?_
  · obtain ⟨fs₁, hchange, hQ⟩ := h fs hP
    cases hok.symm.trans hchange
    exact hQ
  · obtain ⟨fs₁, hchange, -⟩ := h fs hP
    cases herror.symm.trans hchange

theorem triple_forM {f : α → SessionT (StateM τ) Unit} (hf : ∀ a, Triple P (f a) (fun _ => P) E) :
    ∀ xs : List α, Triple P (xs.forM f) (fun _ => P) E
  | [] => .pure fun _ => id
  | x :: xs => by
    show Triple P (f x >>= fun _ => xs.forM f) _ E
    exact (hf x).bind fun _ => triple_forM hf xs

/-- Taking the time changes nothing. -/
theorem triple_timed (host : Host (StateM τ)) (h : Triple P x Q E) :
    Triple P (timed host x) (fun a => Q a.1) E := by
  unfold timed
  refine (triple_ask _).bind fun before => .of_and fun _ => h.bind fun a => ?_
  exact (triple_ask _).bind fun after => .of_and fun _ => .pure fun _ => id

theorem triple_loadInstance (dialect? : Option Dialect) (p : Path) :
    Triple P (loadInstance dialect? p : SessionT (StateM τ) _) (fun _ => P) E :=
  triple_get fun _ => (triple_note _).bind fun _ => .pure fun _ => And.right

end Rules

end SessionT

open SessionT

/-! ### Results that do not come from files -/

/-- A result whose error, if it is one, is not one of the file system. -/
def FreeOfFiles (x : Except Error α) : Prop := ∀ fault, x ≠ .error (.file fault)

theorem freeOfFiles_ok (a : α) : FreeOfFiles (.ok a) := fun _ h => by cases h

theorem FreeOfFiles.bind {x : Except Error α} {f : α → Except Error β} (hx : FreeOfFiles x)
    (hf : ∀ a, FreeOfFiles (f a)) : FreeOfFiles (x >>= f) := by
  intro fault h
  cases x with
  | ok a => exact hf a fault h
  | error e =>
    cases h
    exact hx fault rfl

theorem freeOfFiles_foldlM {f : α → β → Except Error α} (hf : ∀ a b, FreeOfFiles (f a b))
    (xs : List β) (a : α) : FreeOfFiles (xs.foldlM f a) := by
  induction xs generalizing a with
  | nil => exact freeOfFiles_ok a
  | cons x xs ih =>
    rw [List.foldlM_cons]
    exact (hf a x).bind ih

theorem freeOfFiles_mapM {f : α → Except Error β} (hf : ∀ a, FreeOfFiles (f a)) (xs : List α) :
    FreeOfFiles (xs.mapM f) := by
  intro fault h
  obtain ⟨_, x, _, -, -, hx⟩ := mapM_eq_error_iff.mp h
  exact hf x fault hx

theorem freeOfFiles_toConfig (options : Options) : FreeOfFiles options.toConfig := by
  intro fault h
  obtain ⟨_, hfault⟩ := toConfig_eq_error h
  cases hfault

section Instances
variable (inst : Instance)

theorem freeOfFiles_toLiterals (a : Assignment) : FreeOfFiles (inst.toLiterals a) := by
  intro fault h
  unfold Instance.toLiterals at h
  split_ifs at h
  cases h

theorem freeOfFiles_verify (ls : List SignedLiteral) : FreeOfFiles (inst.verify ls) := by
  have hnote : ∀ values l, FreeOfFiles (inst.noteLiteral values l) := by
    intro values l fault h
    unfold Instance.noteLiteral at h
    split at h <;> cases h
  have hvalue : ∀ noted, FreeOfFiles (inst.notedValue noted) := by
    rintro ⟨_ | b, i⟩ fault h <;> cases h
  refine FreeOfFiles.bind (.bind (freeOfFiles_foldlM hnote _ _) fun values => ?_)
    fun a => freeOfFiles_ok _
  exact (freeOfFiles_mapM hvalue _).bind fun values => freeOfFiles_ok _

end Instances

/-! ### Solving one instance -/

/-- **Stops that have nothing to do with files are tolerated** where the files satisfy `J`. -/
structure Host.Tolerates (host : Host (StateM τ)) (J : FileSystem → Prop)
    (E : Stop → FileSystem → Prop) : Prop where
  unfinished : ∀ fs, J fs → E .unfinished fs
  failed : ∀ e fs, (∀ fault, e ≠ .file fault) → J fs → E (.failed e) fs
  race : ∀ inst config threads level t e,
    ((host.race inst config threads level).run t).1 = .error e → ∀ fs, J fs → E (.failed e) fs

/-- **A host that refuses what a contest refuses**, and nothing else. -/
def Host.RefusesLikeContests (σ : Type) [RandomStream σ] (host : Host (StateM τ)) : Prop :=
  ∀ inst config threads level t, ∃ s : σ, ∀ e,
    ((host.race inst config threads level).run t).1 = .error e ↔
      Contest.start inst config threads (.logging (some level)) s #[] = .error e

theorem Host.drifting_refusesLikeContests : Host.drifting.RefusesLikeContests Seeded := by
  intro inst config threads level t
  refine ⟨config.stream t, fun e => ?_⟩
  have hrace : ((Host.drifting.race inst config threads level).run t).1 = searchWith inst config
      threads (.logging (some level)) (fun k => .ofNanoseconds k) (config.stream t) #[] := rfl
  rw [hrace, searchWith]
  cases Contest.start inst config threads (.logging (some level)) (config.stream t) #[] with
  | error e' => exact ⟨fun h => by cases h; rfl, fun h => by cases h; rfl⟩
  | ok contest => exact iff_of_false (fun h => by cases h) fun h => by cases h

section Solving
variable {host : Host (StateM τ)} {options : Options} {inst : Instance} {I J : FileSystem → Prop}
  {E : Stop → FileSystem → Prop} (htol : host.Tolerates I E)

section Parts
include htol

theorem triple_orFail_of_freeOfFiles {y : Except Error α} (h : FreeOfFiles y) :
    Triple I (orFail y : SessionT (StateM τ) α) (fun a fs => y = .ok a ∧ I fs) E :=
  triple_orFail fun e fs he hI =>
    htol.failed e fs (fun fault hfault => h fault (he.trans (hfault ▸ rfl))) hI

theorem triple_runSearch (config : Config) :
    Triple I (runSearch host options inst config) (fun _ => I) E := by
  unfold runSearch
  refine (triple_ask _).bind fun answer => .of_and ?_
  rintro ⟨t, hanswer⟩
  rcases answer with e | _ | result
  · exact .throw fun fs hI => htol.race _ _ _ _ t e hanswer.symm fs hI
  · exact .throw fun fs hI => htol.unfinished fs hI
  · exact (triple_note _).bind fun _ => (triple_note _).bind fun _ => .pure fun _ => id

theorem triple_modelLiterals (outcome : Outcome) :
    Triple I (modelLiterals inst outcome : SessionT (StateM τ) _) (fun _ => I) E := by
  unfold modelLiterals
  cases outcome.model? with
  | none => exact .pure fun _ => id
  | some a =>
    refine (triple_orFail_of_freeOfFiles htol (freeOfFiles_toLiterals inst a)).bind fun ls => ?_
    exact .of_and fun _ => .pure fun _ => id

theorem triple_checkModel (ls : List SignedLiteral) :
    Triple I (checkModel inst ls : SessionT (StateM τ) Bool) (fun _ => I) E := by
  unfold checkModel
  refine (triple_orFail_of_freeOfFiles htol (freeOfFiles_verify inst ls)).bind fun ok =>
    .of_and fun _ => (triple_print _).bind fun _ => ?_
  cases ok with
  | true => exact .pure fun _ => id
  | false => exact (triple_say _ _).bind fun _ => .pure fun _ => id

/-- Reporting on a model changes files where it is written. -/
theorem triple_reportModel {p : Path} {ls : List SignedLiteral}
    (hsave : Triple I (changeFiles (·.saveSolution p ls) : SessionT (StateM τ) Unit) (fun _ => J) E) :
    Triple I (reportModel options inst (some p) ls : SessionT (StateM τ) Bool) (fun _ => J) E := by
  unfold reportModel
  extract_lets save
  have hsaved : ∀ ok, Triple I (save ok) (fun _ => J) E := fun ok =>
    Triple.bind (hsave.bind fun _ => triple_say _ _) fun _ => .pure fun _ => id
  split_ifs
  · exact (triple_checkModel htol ls).bind hsaved
  · exact Triple.bind (.pure fun _ => id) hsaved

/-- **Solving an instance changes files where its model is written**, and nowhere else.  Without a
model it answers that the instance was not satisfied. -/
theorem triple_solveAndReport {p : Path} (hsave : ∀ ls,
      Triple I (changeFiles (·.saveSolution p ls) : SessionT (StateM τ) Unit) (fun _ => J) E)
    (label : Option Path) (parseTime : Duration) :
    Triple I (solveAndReport host options inst label parseTime (some p))
      (fun satisfied fs => J fs ∨ satisfied = false ∧ I fs) E := by
  unfold solveAndReport
  extract_lets search
  have hsearch : ∀ u, Triple I (search u) (fun satisfied fs => J fs ∨ satisfied = false ∧ I fs) E := by
    intro u
    refine (triple_say _ _).bind fun _ => ?_
    refine (triple_orFail_of_freeOfFiles htol (freeOfFiles_toConfig options)).bind
      fun config => .of_and fun _ => ?_
    refine (triple_runSearch htol config).bind fun report => ?_
    refine (triple_modelLiterals htol report.outcome).bind fun ls? => ?_
    extract_lets tell
    -- what follows a written model only prints
    have htell : ∀ ok, Triple (fun fs => J fs ∨ ok = false ∧ I fs) (tell ok)
        (fun satisfied fs => J fs ∨ satisfied = false ∧ I fs) E := by
      intro ok
      unfold tell
      extract_lets finish showSolution
      have hfinish : ∀ u, Triple (fun fs => J fs ∨ ok = false ∧ I fs) (finish u)
          (fun satisfied fs => J fs ∨ satisfied = false ∧ I fs) E :=
        fun u => (triple_print _).bind fun _ => .pure fun _ => id
      have hshow : ∀ u, Triple (fun fs => J fs ∨ ok = false ∧ I fs) (showSolution u)
          (fun satisfied fs => J fs ∨ satisfied = false ∧ I fs) E := by
        intro u
        unfold showSolution
        cases ls? with
        | none => exact hfinish ()
        | some ls =>
          dsimp only
          split_ifs
          · exact (triple_print _).bind hfinish
          · exact hfinish ()
      split_ifs
      · refine (triple_ask _).bind fun memory => .of_and fun _ => ?_
        exact (triple_forM triple_print _).bind hshow
      · exact hshow ()
    cases ls? with
    | none => exact Triple.bind (.pure fun _ hI => Or.inr ⟨rfl, hI⟩) htell
    | some ls =>
      exact ((triple_reportModel htol (hsave ls)).imp (fun _ => id) fun _ _ => Or.inl).bind htell
  cases label with
  | none => exact hsearch ()
  | some p => exact (triple_print _).bind hsearch

end Parts

end Solving

/-! ### Solving a directory -/

section Directories
variable {host : Host (StateM τ)} {options : Options} {root : Path} {fs : FileSystem}
  {I : Tally → List (List String) → FileSystem → Prop} {Q : Bool → FileSystem → Prop}
  {E : Stop → FileSystem → Prop}

/-- **Solving one file** changes files where there is made room for its model, and where that is
written.  It counts a file that is no instance as such, and no other file as satisfied than one whose
model has been written. -/
theorem triple_solveEntry {I K J : FileSystem → Prop} {out : Path} {names : List String}
    (hout : options.output = some out) (htol : host.Tolerates K E)
    (hroom : Triple I
      (changeFiles (·.makeParents (solutionPath out names)) : SessionT (StateM τ) Unit)
      (fun _ => K) E)
    (hsave : ∀ ls, Triple K
      (changeFiles (·.saveSolution (solutionPath out names) ls) : SessionT (StateM τ) Unit)
      (fun _ => J) E)
    (tally : Tally) : Triple I (solveEntry host options root tally names)
      (fun tally' fs => tally' = { tally with failed := tally.failed + 1 } ∧ I fs ∨
        tally' = tally ∧ K fs ∨
        tally'.failed = tally.failed ∧ tally'.solved ≤ tally.solved + 1 ∧ J fs) E := by
  unfold solveEntry
  refine (triple_timed host (triple_loadInstance _ _)).bind fun answer => ?_
  obtain ⟨e | inst, parseTime⟩ := answer
  · exact (triple_say _ _).bind fun _ => .pure fun _ hI => Or.inl ⟨rfl, hI⟩
  · have hprepare : Triple I (prepareOutput options.output names : SessionT (StateM τ) _)
        (fun output fs => output = some (solutionPath out names) ∧ K fs) E := by
      rw [hout]
      exact hroom.bind fun _ => .pure fun _ h => ⟨rfl, h⟩
    refine hprepare.bind fun output => .of_and ?_
    rintro rfl
    refine (triple_solveAndReport htol hsave _ _).bind fun satisfied => ?_
    cases satisfied with
    | true =>
      refine .pure fun fs h => ?_
      obtain hJ | ⟨hfalse, -⟩ := h
      · exact Or.inr (Or.inr ⟨rfl, Nat.le_refl _, hJ⟩)
      · cases hfalse
    | false =>
      refine .pure fun fs h => ?_
      obtain hJ | ⟨-, hK⟩ := h
      · exact Or.inr (Or.inr ⟨rfl, Nat.le_succ _, hJ⟩)
      · exact Or.inr (Or.inl ⟨rfl, hK⟩)

/-- **The end of a run** fails if some file was no instance. -/
theorem triple_conclude {P : FileSystem → Prop} {tally : Tally} {total : Nat}
    (hfailed : 0 < tally.failed → ∀ fs, P fs →
      E (.failed (.unreadableInstances tally.failed total)) fs)
    (hdone : tally.failed = 0 → ∀ fs, P fs → Q (tally.solved = total) fs) :
    Triple P (conclude total tally : SessionT (StateM τ) Bool) Q E := by
  unfold conclude
  refine (triple_print _).bind fun _ => ?_
  extract_lets answer
  by_cases h : 0 < tally.failed
  · rw [if_pos h]
    exact Triple.stop (.throw (hfailed h))
  · rw [if_neg h]
    exact .pure (hdone (Nat.eq_zero_of_not_pos h))

/-- **What holds with some files left** holds with none left, if every file keeps it. -/
theorem triple_solveEntries (hentry : ∀ tally names rest,
      Triple (I tally (names :: rest)) (solveEntry host options root tally names)
        (fun tally' => I tally' rest) E)
    (tally : Tally) (files : List (List String)) :
    Triple (I tally files) (solveEntries host options root tally files)
      (fun tally' => I tally' []) E := by
  induction files generalizing tally with
  | nil => exact .pure fun _ => id
  | cons names rest ih => exact (hentry tally names rest).bind ih

/-- **A run of a directory** on files where some files are found: what making the directory for the
models establishes, and every file keeps, is there when the run is concluded. -/
theorem triple_solveDirectory {files : List (List String)} (hfiles : fs.findInstances root = .ok files)
    (hnone : options.output = none → I ⟨0, 0⟩ files fs)
    (hsome : ∀ out, options.output = some out →
      Triple (· = fs) (changeFiles (·.makeDirectories out) : SessionT (StateM τ) Unit)
        (fun _ => I ⟨0, 0⟩ files) E)
    (hentry : ∀ tally names rest,
      Triple (I tally (names :: rest)) (solveEntry host options root tally names)
        (fun tally' => I tally' rest) E)
    (hconclude : ∀ tally, Triple (I tally [])
      (conclude files.length tally : SessionT (StateM τ) Bool) Q E) :
    Triple (· = fs) (solveDirectory host options root) Q E := by
  refine triple_get fun s => ?_
  have hfound : ∀ e gs, s.files.findInstances root = .error e → gs = s.files ∧ gs = fs →
      E (.failed e) gs := by
    rintro e gs he ⟨hs, rfl⟩
    rw [← hs, hfiles] at he
    cases he
  refine (triple_orFail hfound).bind fun files' => ?_
  have hsame : ∀ gs, s.files.findInstances root = .ok files' ∧ gs = s.files ∧ gs = fs →
      files' = files ∧ gs = fs := by
    rintro gs ⟨hfiles', hs, rfl⟩
    rw [← hs, hfiles] at hfiles'
    exact ⟨(Except.ok.inj hfiles').symm, rfl⟩
  refine Triple.imp (Triple.of_and ?_) hsame fun _ _ => id
  rintro rfl
  refine (triple_say _ _).bind fun _ => ?_
  extract_lets solve
  have hsolve : ∀ u, Triple (I ⟨0, 0⟩ files') (solve u) Q E :=
    fun u => (triple_solveEntries hentry ⟨0, 0⟩ files').bind hconclude
  split
  · next out hout => exact (hsome out hout).bind hsolve
  · next hout => exact (hsolve ()).imp (fun gs hgs => hgs ▸ hnone hout) fun _ _ => id

/-- A run of a directory with a place for models. -/
theorem triple_solveDirectory_of_output {files : List (List String)} {out : Path}
    (hfiles : fs.findInstances root = .ok files) (hout : options.output = some out)
    (hmake : Triple (· = fs) (changeFiles (·.makeDirectories out) : SessionT (StateM τ) Unit)
      (fun _ => I ⟨0, 0⟩ files) E)
    (hentry : ∀ tally names rest,
      Triple (I tally (names :: rest)) (solveEntry host options root tally names)
        (fun tally' => I tally' rest) E)
    (hconclude : ∀ tally, Triple (I tally [])
      (conclude files.length tally : SessionT (StateM τ) Bool) Q E) :
    Triple (· = fs) (solveDirectory host options root) Q E := by
  refine triple_solveDirectory hfiles (fun hnone => ?_) (fun out' hout' => ?_) hentry hconclude
  · rw [hout] at hnone
    cases hnone
  · cases hout.symm.trans hout'
    exact hmake

end Directories

end StochasticSat.Command
