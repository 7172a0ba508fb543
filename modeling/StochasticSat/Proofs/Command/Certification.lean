import StochasticSat.Command.Session
import StochasticSat.Proofs.Formula.Models
import StochasticSat.Proofs.Search.Soundness

/-!
# Certified models

A search that reports a model of an instance built from clauses has found one: its literals can be
written, they are a model of the clauses as they were given, and they pass the check
(`satisfied_outcomes_are_certified`).  A session that solves the instance therefore never refuses
a model that was found.

A part of a session is *harmless* if it logs no errors, fails for nothing but the configuration or
the file system, and returns only what it should (`SessionT.Harmless`).  This is kept by sequencing,
so it is shown of each part of `solveAndReport` by itself.
-/

namespace StochasticSat

/-! ### Certified outcomes -/

/-- The model of an outcome, if it has one, is certified. -/
def Outcome.Certified (inst : Instance) (cs : List SignedClause) (outcome : Outcome) : Prop :=
  ∀ a n, outcome = .satisfied a n → inst.Certified cs a

/-- An honest outcome of an instance that is built from clauses is certified. -/
theorem Outcome.Honest.certified {cs : List SignedClause} {inst : Instance} {outcome : Outcome}
    (h : outcome.Honest inst) (hinst : Instance.build cs = .ok inst) :
    outcome.Certified inst cs := by
  intro a n heq
  obtain ⟨hcs, rfl⟩ := Instance.build_eq_ok_iff_acceptable.mp hinst
  obtain ⟨hn, hsat⟩ := h a n heq
  exact Instance.certified_of_allSatisfied hcs hn hsat

/-- What a run reports from a steady engine, or from one that has not begun, is certified. -/
theorem Run.certified_of_advance {cs : List SignedClause} {inst : Instance}
    (hinst : Instance.build cs = .ok inst) {σ ω : Type} [RandomStream σ] {e : Engine}
    (hi : e.inst = inst) (he : e.phase = .initializing ∨ e.Steady) (o : Observer ω)
    (budget : Budget) (clock : Nat → Duration) (n : Nat) (s : σ) (w : ω) {report : Report}
    (hr : ((Run.start o e s w).advance o budget clock n).report = some report) :
    report.outcome.Certified inst cs := by
  have hstart : (Run.start o e s w).Honest inst fun _ => True :=
    .start o.keeps_true he hi s trivial
  exact ((hstart.advance o.keeps_true budget clock n).report report hr).certified hinst

/-! ### Logs without errors -/

/-- Records none of which is an error. -/
def Calm (log : Log) : Prop := ∀ record ∈ log, record.level ≠ .error

theorem Calm.append {log log' : Log} (h : Calm log) (h' : Calm log') : Calm (log ++ log') := by
  intro record hmem
  rcases List.mem_append.mp hmem with hmem | hmem
  · exact h record hmem
  · exact h' record hmem

/-- The observer that logs logs no errors. -/
theorem Observer.logging_keeps (threshold : Option Level) :
    (Observer.logging threshold).Keeps fun w => Calm w.toList := by
  have hpush {w : Array Record} {record : Record} (hw : Calm w.toList)
      (h : record.level ≠ .error) (b : Bool) :
      Calm (if b = true then w.push record else w).toList := by
    split_ifs
    · rw [Array.toList_push]
      exact hw.append fun r hr => by rw [List.mem_singleton.mp hr]; exact h
    · exact hw
  refine ⟨fun inst a w hw => ?_, fun event w hw => ?_, fun n a w hw => ?_, fun report w hw => ?_⟩
  · exact hpush hw (by simp [startRecord]) _
  · exact hpush hw (by simp [flipRecord]) _
  · exact hpush hw (by simp [restartRecord]) _
  · refine hpush hw ?_ _
    unfold finishRecord
    cases report.outcome <;> simp

namespace Command

namespace SessionT

/-! ### Parts of a session -/

/-- What a part of a session comes to on a machine. -/
def outcomeOn {α : Type} (x : SessionT Id α) (s : Machine) : Except Stop α × Machine :=
  Id.run (x.run.run s)

/-- **A part of a session that does no harm.** -/
structure Harmless {α : Type} (x : SessionT Id α) (Q : α → Prop) : Prop where
  calm : ∀ s, ∃ new, (x.outcomeOn s).2.log = s.log ++ new ∧ Calm new
  fails : ∀ s e, (x.outcomeOn s).1 = .error (.failed e) →
    (∃ fault, e = .invalidConfig fault) ∨ ∃ fault, e = .file fault
  returns : ∀ s a, (x.outcomeOn s).1 = .ok a → Q a

section Harmless
variable {α β : Type} {P : α → Prop} {Q : β → Prop}

/-- A part that logs nothing is judged by what it comes to. -/
theorem Harmless.of_silent {x : SessionT Id α} (hlog : ∀ s, (x.outcomeOn s).2.log = s.log)
    (fails : ∀ s e, (x.outcomeOn s).1 = .error (.failed e) →
      (∃ fault, e = .invalidConfig fault) ∨ ∃ fault, e = .file fault)
    (returns : ∀ s a, (x.outcomeOn s).1 = .ok a → P a) : Harmless x P := by
  refine ⟨fun s => ⟨[], ?_, fun record hmem => by simp at hmem⟩, fails, returns⟩
  rw [hlog, List.append_nil]

theorem Harmless.pure {a : α} (h : P a) : Harmless (Pure.pure a) P := by
  refine .of_silent (fun s => rfl) ?_ ?_
  · intro s e he
    cases he
  · intro s b hb
    cases hb
    exact h

/-- The second part goes on where the first one has come to, unless that has ended the session. -/
theorem outcomeOn_bind (x : SessionT Id α) (f : α → SessionT Id β) (s : Machine) :
    (x >>= f).outcomeOn s =
      match x.outcomeOn s with
      | (.ok a, s') => (f a).outcomeOn s'
      | (.error stop, s') => (.error stop, s') := by
  show (ExceptT.bindCont f (x.outcomeOn s).1).run (x.outcomeOn s).2 = _
  rcases x.outcomeOn s with ⟨stop | a, s'⟩ <;> rfl

theorem Harmless.bind {x : SessionT Id α} {f : α → SessionT Id β} (hx : Harmless x P)
    (hf : ∀ a, P a → Harmless (f a) Q) : Harmless (x >>= f) Q := by
  have hcases : ∀ s, (∃ a s', P a ∧ x.outcomeOn s = (.ok a, s') ∧
      (x >>= f).outcomeOn s = (f a).outcomeOn s') ∨
      ∃ stop s', x.outcomeOn s = (.error stop, s') ∧
        (x >>= f).outcomeOn s = (.error stop, s') := by
    intro s
    rw [outcomeOn_bind]
    rcases h : x.outcomeOn s with ⟨stop | a, s'⟩
    · exact Or.inr ⟨stop, s', rfl, rfl⟩
    · exact Or.inl ⟨a, s', hx.returns s a (by rw [h]), rfl, rfl⟩
  refine ⟨fun s => ?_, fun s e he => ?_, fun s b hb => ?_⟩
  · obtain ⟨new, hlog, hnew⟩ := hx.calm s
    rcases hcases s with ⟨a, s', ha, hxs, hs⟩ | ⟨stop, s', hxs, hs⟩
    · obtain ⟨new', hlog', hnew'⟩ := (hf a ha).calm s'
      rw [hxs] at hlog
      exact ⟨new ++ new', by rw [hs, hlog', hlog, List.append_assoc], hnew.append hnew'⟩
    · rw [hxs] at hlog
      exact ⟨new, by rw [hs, hlog], hnew⟩
  · rcases hcases s with ⟨a, s', ha, -, hs⟩ | ⟨stop, s', hxs, hs⟩
    · rw [hs] at he
      exact (hf a ha).fails s' e he
    · rw [hs] at he
      exact hx.fails s e (by rw [hxs]; cases he; rfl)
  · rcases hcases s with ⟨a, s', ha, -, hs⟩ | ⟨stop, s', -, hs⟩
    · rw [hs] at hb
      exact (hf a ha).returns s' b hb
    · rw [hs] at hb
      cases hb

theorem Harmless.then {x : SessionT Id α} {y : SessionT Id β} (hx : Harmless x P)
    (hy : Harmless y Q) : Harmless (x >>= fun _ => y) Q := hx.bind fun _ _ => hy

end Harmless

/-! ### What parts do -/

theorem harmless_print (line : String) :
    Harmless (print line : SessionT Id Unit) fun _ => True := by
  refine .of_silent (fun s => rfl) ?_ fun _ _ _ => trivial
  intro s e he
  cases he

theorem harmless_note {records : Log} (h : Calm records) :
    Harmless (note records : SessionT Id Unit) fun _ => True := by
  refine ⟨fun s => ⟨records, rfl, h⟩, ?_, fun _ _ _ => trivial⟩
  intro s e he
  cases he

theorem harmless_say {level : Level} (h : level ≠ .error) (message : String) :
    Harmless (say level message : SessionT Id Unit) fun _ => True :=
  harmless_note fun record hmem => by rw [List.mem_singleton.mp hmem]; exact h

theorem harmless_ask {α : Type} (x : Id α) : Harmless (ask x) fun a => a = Id.run x := by
  refine .of_silent (fun s => rfl) ?_ ?_
  · intro s e he
    cases he
  · intro s a ha
    cases ha
    rfl

theorem harmless_refuse {α : Type} {Q : α → Prop} (fault : ConfigFault) :
    Harmless (throw (.failed (.invalidConfig fault)) : SessionT Id α) Q := by
  refine .of_silent (fun s => rfl) ?_ ?_
  · intro s e he
    cases he
    exact Or.inl ⟨fault, rfl⟩
  · intro s a ha
    cases ha

theorem harmless_orFail {α : Type} {x : Except Error α}
    (h : ∀ e, x = .error e → ∃ fault, e = .invalidConfig fault) :
    Harmless (orFail x : SessionT Id α) fun a => x = .ok a := by
  cases hx : x with
  | ok a => exact .pure rfl
  | error e =>
    obtain ⟨fault, rfl⟩ := h e hx
    exact harmless_refuse fault

theorem harmless_unfinished {α : Type} {Q : α → Prop} :
    Harmless (throw .unfinished : SessionT Id α) Q := by
  refine .of_silent (fun s => rfl) ?_ ?_
  · intro s e he
    cases he
  · intro s a ha
    cases ha

theorem harmless_changeFiles (change : FileSystem → Except FileFault FileSystem) :
    Harmless (changeFiles change : SessionT Id Unit) fun _ => True := by
  have hcases : ∀ s : Machine, (∃ files, (changeFiles change : SessionT Id Unit).outcomeOn s =
      (.ok (), { s with files := files })) ∨
      ∃ fault, (changeFiles change : SessionT Id Unit).outcomeOn s =
        (.error (.failed (.file fault)), s) := by
    intro s
    have hget : (get : SessionT Id Machine).outcomeOn s = (.ok s, s) := rfl
    rw [changeFiles, outcomeOn_bind, hget]
    dsimp only
    cases change s.files with
    | ok files => exact Or.inl ⟨files, rfl⟩
    | error fault => exact Or.inr ⟨fault, rfl⟩
  refine .of_silent (fun s => ?_) (fun s e he => ?_) fun _ _ _ => trivial
  · rcases hcases s with ⟨files, h⟩ | ⟨fault, h⟩ <;> rw [h]
  · rcases hcases s with ⟨files, h⟩ | ⟨fault, h⟩
    · rw [h] at he; cases he
    · rw [h] at he; cases he; exact Or.inr ⟨fault, rfl⟩

theorem harmless_forM {α : Type} {f : α → SessionT Id Unit}
    (hf : ∀ a, Harmless (f a) fun _ => True) :
    ∀ xs : List α, Harmless (xs.forM f) fun _ => True
  | [] => .pure trivial
  | x :: xs => by
    show Harmless (f x >>= fun _ => xs.forM f) _
    exact (hf x).then (harmless_forM hf xs)

end SessionT

/-! ### Searching in a session -/

/-- **A host that searches.**  What it answers is what some contest yields, whatever its clock and
the order of its workers. -/
def Host.Searches (σ : Type) [RandomStream σ] (host : Host Id) : Prop :=
  ∀ inst config threads level, ∃ s : σ,
    match Contest.start inst config threads (.logging (some level)) s #[] with
    | .error e => host.race inst config threads level = .error e
    | .ok contest => host.race inst config threads level = .ok none ∨ ∃ result,
        contest.Yields (.logging (some level)) config.budget result ∧
          host.race inst config threads level = .ok (some result)

/-- The report that a host gives, if it gives one. -/
def Host.Reports (host : Host Id) (options : Options) (inst : Instance) (report : Report) : Prop :=
  ∃ config result, options.toConfig = .ok config ∧
    host.race inst config options.threads options.logLevel = .ok (some result) ∧
    result.report = report

/-- The answer of a session that has solved an instance: whether the search found a model. -/
def Host.Answers (host : Host Id) (options : Options) (inst : Instance) (ok : Bool) : Prop :=
  ∃ report, host.Reports options inst report ∧ ok = report.outcome.isSatisfied

/-- The host on which no time passes is one. -/
theorem Host.still_searches (entropy : UInt64) : (Host.still entropy).Searches Seeded := by
  intro inst config threads level
  refine ⟨config.stream entropy, ?_⟩
  have hrace : (Host.still entropy).race inst config threads level =
      (Contest.start inst config threads (.logging (some level)) (config.stream entropy) #[]).map
        fun contest => (contest.advance (.logging (some level)) config.budget
          (fun _ => .zero)).report? .zero := by
    show searchWith _ _ _ _ _ _ _ = _
    unfold searchWith
    cases Contest.start inst config threads (.logging (some level)) (config.stream entropy) #[] <;>
      rfl
  rw [hrace]
  cases Contest.start inst config threads (.logging (some level)) (config.stream entropy) #[] with
  | error e => rfl
  | ok contest =>
    show Except.ok (contest.advance _ config.budget _ |>.report? .zero) = .ok none ∨ _
    cases hr : (contest.advance (.logging (some level)) config.budget
        (fun _ => .zero)).report? .zero with
    | none => exact Or.inl rfl
    | some result =>
      refine Or.inr ⟨result, ?_, congrArg Except.ok hr⟩
      cases contest with
      | alone run => exact .alone _ _ hr
      | several race =>
        obtain ⟨actions, hf⟩ := Race.exists_follow_advance (.logging (some level)) config.budget
          config.budget.rounds (fun _ => .zero) race
        exact .several actions .zero hf hr

theorem durationOf_eq_error {seconds : Float} {e : Error}
    (h : Options.durationOf seconds = .error e) : ∃ fault, e = .invalidConfig fault := by
  unfold Options.durationOf at h
  split at h
  · cases h
  · cases h
    exact ⟨_, rfl⟩

theorem toConfig_eq_error {options : Options} {e : Error} (h : options.toConfig = .error e) :
    ∃ fault, e = .invalidConfig fault := by
  unfold Options.toConfig at h
  cases ht : options.timeLimit.mapM Options.durationOf with
  | error e' =>
    rw [ht] at h
    cases h
    cases hl : options.timeLimit with
    | none => rw [hl] at ht; cases ht
    | some seconds =>
      rw [hl, Option.mapM_some] at ht
      cases hd : Options.durationOf seconds with
      | error e' => rw [hd] at ht; cases ht; exact durationOf_eq_error hd
      | ok d => rw [hd] at ht; cases ht
  | ok timeLimit =>
    rw [ht] at h
    simp only [bind, Except.bind] at h
    split at h
    · next hv =>
      cases h
      exact Config.validate_eq_error hv
    · cases h

section Solving
variable {σ : Type} [RandomStream σ] {host : Host Id} (hhost : host.Searches σ)
  {cs : List SignedClause} {inst : Instance}

include hhost in
theorem harmless_runSearch {options : Options} {config : Config}
    (hc : options.toConfig = .ok config) :
    (runSearch host options inst config).Harmless fun report =>
      host.Reports options inst report ∧ report.outcome.Honest inst := by
  unfold runSearch
  refine (SessionT.harmless_ask _).bind fun answer hanswer => ?_
  obtain ⟨s, hs⟩ := hhost inst config options.threads options.logLevel
  cases hstart : Contest.start inst config options.threads (.logging (some options.logLevel)) s
      #[] with
  | error e =>
    rw [hstart] at hs
    obtain ⟨fault, rfl⟩ := Contest.start_eq_error hstart
    rw [hanswer, show Id.run (host.race _ _ _ _) = _ from hs]
    exact SessionT.harmless_refuse fault
  | ok contest =>
    rw [hstart] at hs
    rcases hs with hs | ⟨result, hyields, hs⟩
    · rw [hanswer, show Id.run (host.race _ _ _ _) = _ from hs]
      exact SessionT.harmless_unfinished
    · rw [hanswer, show Id.run (host.race _ _ _ _) = _ from hs]
      have hresult := hyields.honest (Observer.logging_keeps _) (fun _ h => by simp at h) hstart
      refine (SessionT.harmless_note fun record hmem => ?_).then
        ((SessionT.harmless_note hresult.notes).then (.pure ⟨⟨config, result, hc, hs, rfl⟩, ?_⟩))
      · obtain ⟨w, hw, hmem⟩ := List.mem_flatMap.mp hmem
        exact hresult.watchers w hw record hmem
      · exact hresult.outcome

theorem harmless_modelLiterals {outcome : Outcome}
    (h : outcome.Certified inst cs) :
    (modelLiterals inst outcome : SessionT Id _).Harmless fun ls? =>
      ls?.isSome = outcome.isSatisfied ∧ ∀ ls, ls? = some ls → inst.verify ls = .ok true := by
  cases outcome with
  | satisfied a n =>
    obtain ⟨ls, hls, -, hverify⟩ := h a n rfl
    show SessionT.Harmless (SessionT.orFail (inst.toLiterals a) >>= fun ls => pure (some ls)) _
    rw [hls]
    exact .pure ⟨rfl, fun ls' h' => by cases h'; exact hverify⟩
  | exhausted n reason => exact .pure ⟨rfl, fun ls h' => by cases h'⟩

theorem harmless_checkModel {ls : List SignedLiteral} (h : inst.verify ls = .ok true) :
    (checkModel inst ls : SessionT Id Bool).Harmless (· = true) := by
  unfold checkModel
  refine (SessionT.harmless_orFail fun e he => ?_).bind fun ok hok => ?_
  · rw [h] at he
    cases he
  · obtain rfl : true = ok := Except.ok.inj (h.symm.trans hok)
    exact (SessionT.harmless_print _).then (.pure rfl)

theorem harmless_saveModel (p : Path) (ls : List SignedLiteral) :
    (saveModel p ls : SessionT Id Unit).Harmless fun _ => True :=
  (SessionT.harmless_changeFiles _).then (SessionT.harmless_say (by simp) _)

theorem harmless_reportModel {ls : List SignedLiteral} (h : inst.verify ls = .ok true)
    (options : Options) (output : Option Path) :
    (reportModel options inst output ls : SessionT Id Bool).Harmless (· = true) := by
  unfold reportModel
  extract_lets save
  have hsave : ∀ ok, ok = true → (save ok).Harmless (· = true) := by
    intro ok hok
    cases output with
    | none => exact .pure hok
    | some p => exact (harmless_saveModel p ls).then (.pure hok)
  split_ifs
  · exact (harmless_checkModel h).bind hsave
  · exact SessionT.Harmless.bind (P := (· = true)) (.pure rfl) hsave

include hhost in
/-- **Solving an instance that is built from clauses does no harm**, and tells whether its search
has found a model. -/
theorem harmless_solveAndReport (hinst : Instance.build cs = .ok inst) (options : Options)
    (label : Option Path) (parseTime : Duration) (output : Option Path) :
    (solveAndReport host options inst label parseTime output).Harmless
      (host.Answers options inst) := by
  unfold solveAndReport
  extract_lets search
  have hsearch : ∀ u, (search u).Harmless (host.Answers options inst) := by
    intro u
    refine (SessionT.harmless_say (by simp) _).then ?_
    refine (SessionT.harmless_orFail fun e => toConfig_eq_error).bind fun config hc => ?_
    refine (harmless_runSearch hhost hc).bind fun report hreport => ?_
    refine (harmless_modelLiterals (hreport.2.certified hinst)).bind fun ls? hls => ?_
    extract_lets tell
    have htell : ∀ ok, ok = report.outcome.isSatisfied →
        (tell ok).Harmless (host.Answers options inst) := by
      intro ok hok
      unfold tell
      extract_lets finish showSolution
      have hfinish : ∀ u, (finish u).Harmless (host.Answers options inst) := fun u =>
        (SessionT.harmless_print _).then (.pure ⟨report, hreport.1, hok⟩)
      have hshow : ∀ u, (showSolution u).Harmless (host.Answers options inst) := by
        intro u
        unfold showSolution
        cases ls? with
        | none => exact hfinish ()
        | some ls =>
          dsimp only
          split_ifs
          · exact (SessionT.harmless_print _).bind fun u _ => hfinish u
          · exact hfinish ()
      split_ifs
      · refine (SessionT.harmless_ask _).bind fun memory _ => ?_
        exact (SessionT.harmless_forM SessionT.harmless_print _).bind fun u _ => hshow u
      · exact hshow ()
    cases ls? with
    | none =>
      refine SessionT.Harmless.bind (P := (· = false)) (.pure rfl) fun ok hok => ?_
      exact htell ok (hok.trans hls.1)
    | some ls =>
      refine (harmless_reportModel (hls.2 ls rfl) options output).bind fun ok hok => ?_
      exact htell ok (hok.trans hls.1)
  cases label with
  | none => exact hsearch ()
  | some p => exact (SessionT.harmless_print _).bind fun u _ => hsearch u

end Solving

end Command

/-! ### From clauses to sessions -/

/-- **Every model that is reported is one of the clauses as they were given.**  This holds of a
search with any configuration that is valid, and of any number of passes of a run from any engine
that can be reached, whatever the stream, the budget, the clock and the observer; and a session that
solves the instance never refuses a model that was found. -/
theorem satisfied_outcomes_are_certified {cs : List SignedClause} {inst : Instance}
    (h : Instance.build cs = .ok inst) {σ ω : Type} [RandomStream σ] (o : Observer ω) (w : ω) :
    (∀ config clock (s : σ) r report, search inst config o clock s w = .ok r →
      r.report = some report → report.outcome.Certified inst cs) ∧
    (∀ e, Engine.Reachable σ inst e → ∀ budget clock n (s : σ) report,
      ((Run.start o e s w).advance o budget clock n).report = some report →
        report.outcome.Certified inst cs) ∧
    ∀ host : Command.Host Id, host.Searches σ → ∀ options label parseTime output,
      (Command.solveAndReport host options inst label parseTime output).Harmless
        (host.Answers options inst) := by
  refine ⟨fun config clock s r report hsearch hr => ?_, fun e he budget clock n s report hr => ?_,
    fun host hhost options label parseTime output => ?_⟩
  · unfold search at hsearch
    cases he : Engine.ofConfig inst config with
    | error err => rw [he] at hsearch; cases hsearch
    | ok e =>
      rw [he] at hsearch
      cases hsearch
      obtain ⟨noise, rfl⟩ := Engine.ofConfig_eq_ok he
      exact Run.certified_of_advance h rfl (Or.inl rfl) _ _ _ _ _ _ hr
  · obtain ⟨hi, hb⟩ := he.steady
    exact Run.certified_of_advance h hi hb _ _ _ _ _ _ hr
  · exact Command.harmless_solveAndReport hhost h options label parseTime output

/-- Two clauses that share a variable, solved on the host on which no time passes. -/
theorem two_clauses_are_certified :
    Instance.build [[1, -2], [2]] = .ok (.ofClauses [[1, -2], [2]]) ∧
      (Command.solveAndReport (Command.Host.still 0) .default (.ofClauses [[1, -2], [2]]) none .zero
        none).Harmless ((Command.Host.still 0).Answers .default (.ofClauses [[1, -2], [2]])) := by
  have h : Instance.build [[1, -2], [2]] = .ok (.ofClauses [[1, -2], [2]]) := by
    refine Instance.build_eq_ok_iff_acceptable.mpr ⟨fun c hc => ?_, rfl⟩
    rcases List.mem_pair.mp hc with rfl | rfl <;> constructor <;> decide
  exact ⟨h, (satisfied_outcomes_are_certified h .silent ()).2.2 _ (Command.Host.still_searches 0)
    _ _ _ _⟩

end StochasticSat
