import StochasticSat.Proofs.Command.Repeats

/-!
# Sessions over a world

A part of a session that leaves the files alone comes to the same after whatever has been printed
and logged before; all that it does is an `Effect`, which depends on the files and on the world of
the host (`SessionT.Does`).  Effects follow one another as the parts do (`SessionT.Does.bind`).

Solving an instance whose searches come to one outcome announces that outcome in every world
(`announces_solveAndReport`): a model that was found can be written and passes the check, so nothing
ends the session on the way.
-/

namespace StochasticSat.Command

variable {τ α β : Type}

/-- What a part of a session comes to: its result, what it prints and logs, and the world that it
leaves. -/
structure Effect (τ α : Type) where
  result : Except Stop α
  text : String
  records : Log
  world : τ

namespace SessionT

/-! ### Parts over a world -/

/-- What a part of a session comes to on a machine and in a world. -/
def on (x : SessionT (StateM τ) α) (s : Machine) (t : τ) : (Except Stop α × Machine) × τ :=
  Id.run ((x.run.run s).run t)

/-- **A part that leaves the files alone** comes to the same after whatever has been printed and
logged. -/
def Does (x : SessionT (StateM τ) α) (fs : FileSystem) (t : τ) (e : Effect τ α) : Prop :=
  ∀ printed log, x.on ⟨fs, printed, log⟩ t =
    ((e.result, ⟨fs, printed ++ e.text, log ++ e.records⟩), e.world)

theorem on_bind (x : SessionT (StateM τ) α) (f : α → SessionT (StateM τ) β) (s : Machine) (t : τ) :
    (x >>= f).on s t =
      match x.on s t with
      | ((.ok a, s'), t') => (f a).on s' t'
      | ((.error stop, s'), t') => ((.error stop, s'), t') := by
  show Id.run (((ExceptT.bindCont f (x.on s t).1.1).run (x.on s t).1.2).run (x.on s t).2) = _
  rcases x.on s t with ⟨⟨stop | a, s'⟩, t'⟩ <;> rfl

section Does
variable {x : SessionT (StateM τ) α} {f : α → SessionT (StateM τ) β} {fs : FileSystem} {t t' : τ}
  {text : String} {records : Log}

/-- **A part has one effect only** on the files and in a world. -/
theorem Does.unique {e e' : Effect τ α} (he : x.Does fs t e) (hf : x.Does fs t e') : e = e' := by
  have heq := (he "" []).symm.trans (hf "" [])
  obtain ⟨result, text, records, world⟩ := e
  obtain ⟨result', text', records', world'⟩ := e'
  simp only [String.empty_append, List.nil_append, Prod.mk.injEq, Machine.mk.injEq, true_and] at heq
  obtain ⟨⟨rfl, rfl, rfl⟩, rfl⟩ := heq
  rfl

theorem Does.of_eq {e e' : Effect τ α} (h : x.Does fs t e) (he : e = e') : x.Does fs t e' := he ▸ h

theorem does_pure (a : α) : (pure a : SessionT (StateM τ) α).Does fs t ⟨.ok a, "", [], t⟩ := by
  intro printed log
  simp only [String.append_empty, List.append_nil]
  rfl

theorem Does.bind {a : α} {e : Effect τ β} (hx : x.Does fs t ⟨.ok a, text, records, t'⟩)
    (hf : (f a).Does fs t' e) :
    (x >>= f).Does fs t ⟨e.result, text ++ e.text, records ++ e.records, e.world⟩ := by
  intro printed log
  rw [on_bind, hx printed log]
  dsimp only
  rw [hf, String.append_assoc, List.append_assoc]

theorem Does.stop {stop : Stop} (hx : x.Does fs t ⟨.error stop, text, records, t'⟩) :
    (x >>= f).Does fs t ⟨.error stop, text, records, t'⟩ := by
  intro printed log
  rw [on_bind, hx printed log]

theorem does_print (line : String) :
    (print line : SessionT (StateM τ) Unit).Does fs t ⟨.ok (), line ++ "\n", [], t⟩ := by
  intro printed log
  simp only [← String.append_assoc, List.append_nil]
  rfl

theorem does_note (records : Log) :
    (note records : SessionT (StateM τ) Unit).Does fs t ⟨.ok (), "", records, t⟩ := by
  intro printed log
  simp only [String.append_empty]
  rfl

theorem does_say (level : Level) (message : String) :
    (say level message : SessionT (StateM τ) Unit).Does fs t ⟨.ok (), "", [⟨level, message⟩], t⟩ :=
  does_note _

theorem does_ask (y : StateM τ α) : (ask y).Does fs t ⟨.ok (y.run t).1, "", [], (y.run t).2⟩ := by
  intro printed log
  simp only [String.append_empty, List.append_nil]
  rfl

theorem does_throw (stop : Stop) :
    (throw stop : SessionT (StateM τ) α).Does fs t ⟨.error stop, "", [], t⟩ := by
  intro printed log
  simp only [String.append_empty, List.append_nil]
  rfl

theorem does_orFail_ok (a : α) :
    (orFail (.ok a) : SessionT (StateM τ) α).Does fs t ⟨.ok a, "", [], t⟩ := does_pure a

theorem does_orFail_error (error : Error) :
    (orFail (.error error) : SessionT (StateM τ) α).Does fs t ⟨.error (.failed error), "", [], t⟩ :=
  does_throw _

theorem does_loadInstance (dialect? : Option Dialect) (p : Path) :
    (loadInstance dialect? p : SessionT (StateM τ) _).Does fs t
      ⟨.ok (fs.loadInstance dialect? p).result, "", (fs.loadInstance dialect? p).log, t⟩ := by
  intro printed log
  simp only [String.append_empty]
  rfl

/-- A part that looks at nothing but the files of the machine. -/
theorem does_get {f : Machine → SessionT (StateM τ) α} {e : Effect τ α}
    (h : ∀ s, s.files = fs → (f s).Does fs t e) : (get >>= f).Does fs t e := by
  intro printed log
  have hget : (get : SessionT (StateM τ) Machine).on ⟨fs, printed, log⟩ t =
      ((.ok ⟨fs, printed, log⟩, ⟨fs, printed, log⟩), t) := rfl
  rw [on_bind, hget]
  exact h _ rfl printed log

end Does

/-! ### Parts that pass -/

/-- A part that ends no session and answers as it should, in every world. -/
def Passes (x : SessionT (StateM τ) α) (fs : FileSystem) (P : α → Prop) : Prop :=
  ∀ t, ∃ a text records t', P a ∧ x.Does fs t ⟨.ok a, text, records, t'⟩

/-- **A part that announces an outcome** in every world: that is the last it prints, and it answers
whether a model was found. -/
def Announces (x : SessionT (StateM τ) Bool) (fs : FileSystem) (outcome : Outcome) : Prop :=
  ∀ t, ∃ text records t', x.Does fs t
    ⟨.ok outcome.isSatisfied, text ++ outcomeText outcome ++ "\n", records, t'⟩

section Passes
variable {x : SessionT (StateM τ) α} {f : α → SessionT (StateM τ) β} {fs : FileSystem}
  {P : α → Prop} {Q : β → Prop}

theorem Passes.pure {a : α} (h : P a) : (Pure.pure a : SessionT (StateM τ) α).Passes fs P :=
  fun _ => ⟨a, _, _, _, h, does_pure a⟩

theorem Passes.bind (hx : x.Passes fs P) (hf : ∀ a, P a → (f a).Passes fs Q) :
    (x >>= f).Passes fs Q := by
  intro t
  obtain ⟨a, text, records, t', ha, hx⟩ := hx t
  obtain ⟨b, text', records', t'', hb, hf⟩ := hf a ha t'
  exact ⟨b, _, _, _, hb, hx.bind hf⟩

theorem Passes.then {y : SessionT (StateM τ) β} (hx : x.Passes fs P) (hy : y.Passes fs Q) :
    (x >>= fun _ => y).Passes fs Q := hx.bind fun _ _ => hy

/-- What has been printed before an announcement does not matter. -/
theorem Passes.announces {f : α → SessionT (StateM τ) Bool} {outcome : Outcome}
    (hx : x.Passes fs P) (hf : ∀ a, P a → (f a).Announces fs outcome) :
    (x >>= f).Announces fs outcome := by
  intro t
  obtain ⟨a, text, records, t', ha, hx⟩ := hx t
  obtain ⟨text', records', t'', hf⟩ := hf a ha t'
  refine ⟨text ++ text', records ++ records', t'', ?_⟩
  have h := hx.bind hf
  simp only [← String.append_assoc] at h
  exact h

theorem passes_print (line : String) :
    (print line : SessionT (StateM τ) Unit).Passes fs fun _ => True :=
  fun _ => ⟨(), _, _, _, trivial, does_print line⟩

theorem passes_note (records : Log) :
    (note records : SessionT (StateM τ) Unit).Passes fs fun _ => True :=
  fun _ => ⟨(), _, _, _, trivial, does_note records⟩

theorem passes_say (level : Level) (message : String) :
    (say level message : SessionT (StateM τ) Unit).Passes fs fun _ => True := passes_note _

theorem passes_ask {y : StateM τ α} (h : ∀ t, P (y.run t).1) : (ask y).Passes fs P :=
  fun t => ⟨_, _, _, _, h t, does_ask y⟩

theorem passes_orFail {y : Except Error α} {a : α} (h : y = .ok a) :
    (orFail y : SessionT (StateM τ) α).Passes fs (· = a) := by
  rw [h]
  exact .pure rfl

theorem passes_forM {f : α → SessionT (StateM τ) Unit} (hf : ∀ a, (f a).Passes fs fun _ => True) :
    ∀ xs : List α, (xs.forM f).Passes fs fun _ => True
  | [] => .pure trivial
  | x :: xs => by
    show (f x >>= fun _ => xs.forM f).Passes fs _
    exact (hf x).then (passes_forM hf xs)

/-- An announcement. -/
theorem announces_print (outcome : Outcome) :
    (print (outcomeText outcome) >>= fun _ => Pure.pure outcome.isSatisfied :
      SessionT (StateM τ) Bool).Announces fs outcome := by
  intro t
  refine ⟨"", [], t, ?_⟩
  rw [String.empty_append]
  have hprint : (print (outcomeText outcome) : SessionT (StateM τ) Unit).Does fs t _ :=
    does_print _
  have h := hprint.bind (f := fun _ => Pure.pure outcome.isSatisfied) (does_pure _)
  rw [String.append_empty, List.append_nil] at h
  exact h

end Passes

end SessionT

/-! ### Solving one instance -/

section Solving
variable {host : Host (StateM τ)} {options : Options} {config : Config} {inst : Instance}
  {cs : List SignedClause} {outcome : Outcome} {fs : FileSystem}

theorem passes_runSearch (hc : options.toConfig = .ok config)
    (hs : host.Settles options inst outcome) :
    (runSearch host options inst config).Passes fs fun report => report.outcome = outcome := by
  unfold runSearch
  refine SessionT.Passes.bind (P := fun answer => ∃ result, answer = .ok (some result) ∧
    result.report.outcome = outcome) (SessionT.passes_ask (hs config hc)) ?_
  rintro _ ⟨result, rfl, ho⟩
  exact (SessionT.passes_note _).then ((SessionT.passes_note _).then (.pure ho))

theorem passes_modelLiterals (h : outcome.Certified inst cs) :
    (modelLiterals inst outcome : SessionT (StateM τ) _).Passes fs fun ls? =>
      ls?.isSome = outcome.isSatisfied ∧ ∀ ls, ls? = some ls → inst.verify ls = .ok true := by
  cases outcome with
  | satisfied a n =>
    obtain ⟨ls, hls, -, hverify⟩ := h a n rfl
    refine (SessionT.passes_orFail hls).bind fun ls' hls' => .pure ⟨rfl, fun ls'' h' => ?_⟩
    cases h'
    rw [hls']
    exact hverify
  | exhausted n reason => exact .pure ⟨rfl, fun ls h' => by cases h'⟩

theorem passes_reportModel {ls : List SignedLiteral} (h : inst.verify ls = .ok true) :
    (reportModel options inst none ls : SessionT (StateM τ) Bool).Passes fs (· = true) := by
  unfold reportModel
  split_ifs
  · refine SessionT.Passes.bind (P := (· = true)) ?_ fun ok hok => .pure hok
    unfold checkModel
    refine (SessionT.passes_orFail h).bind ?_
    rintro _ rfl
    exact (SessionT.passes_print _).then (.pure rfl)
  · exact .pure rfl

/-- **Solving an instance announces the outcome of its search**, and nothing ends the session before
that. -/
theorem announces_solveAndReport (hc : options.toConfig = .ok config)
    (hs : host.Settles options inst outcome) (hcert : outcome.Certified inst cs)
    (label : Option Path) (parseTime : Duration) :
    (solveAndReport host options inst label parseTime none).Announces fs outcome := by
  unfold solveAndReport
  extract_lets search
  have hsearch : ∀ u, (search u).Announces fs outcome := by
    intro u
    refine (SessionT.passes_say _ _).announces fun _ _ => ?_
    refine (SessionT.passes_orFail hc).announces ?_
    rintro _ rfl
    refine (passes_runSearch hc hs).announces fun report ho => ?_
    subst ho
    refine (passes_modelLiterals hcert).announces fun ls? hls => ?_
    extract_lets tell
    have htell : ∀ ok, ok = report.outcome.isSatisfied → (tell ok).Announces fs report.outcome := by
      rintro _ rfl
      unfold tell
      extract_lets finish showSolution
      have hshow : ∀ u, (showSolution u).Announces fs report.outcome := by
        intro u
        unfold showSolution
        cases ls? with
        | none => exact SessionT.announces_print _
        | some ls =>
          dsimp only
          split_ifs
          · exact (SessionT.passes_print _).announces fun _ _ => SessionT.announces_print _
          · exact SessionT.announces_print _
      split_ifs
      · have hask : (SessionT.ask host.memory).Passes fs fun _ => True :=
          SessionT.passes_ask fun _ => trivial
        refine hask.announces fun memory _ => ?_
        exact (SessionT.passes_forM SessionT.passes_print _).announces fun u _ => hshow u
      · exact hshow ()
    cases ls? with
    | none =>
      refine SessionT.Passes.announces (P := (· = false)) (.pure rfl) fun ok hok => ?_
      exact htell ok (hok.trans hls.1)
    | some ls =>
      refine (passes_reportModel (hls.2 ls rfl)).announces fun ok hok => ?_
      exact htell ok (hok.trans hls.1)
  cases label with
  | none => exact hsearch ()
  | some p => exact (SessionT.passes_print _).announces fun u _ => hsearch u

end Solving

end StochasticSat.Command
