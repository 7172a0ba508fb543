import StochasticSat.Proofs.Formula.Renaming
import StochasticSat.Proofs.Search.Replays

/-!
# Searches do not see names

An engine over an instance with other names does what it does over the instance
(`Engine.step_withNames`), since nothing that it looks at is a name.  Two runs whose observers
mirror each other (`Observer.Mirrors`) stay alike pass by pass (`Run.Mirrors.advance`).

Observers that decide by one rule, which sees only the flips and their numbers, mirror each other as
long as the recorded events do (`Observer.DecidesBy.mirrors`).  So a search over clauses with
renamed variables goes as the search over the clauses themselves (`searches_ignore_names`).
-/

namespace StochasticSat

open SignedLiteral

variable {σ ω ω' : Type} [RandomStream σ] {names : Array Nat}

/-! ### Engines -/

/-- The engine over its instance with other names. -/
def Engine.withNames (e : Engine) (names : Array Nat) : Engine :=
  { e with inst := e.inst.withNames names }

theorem Instance.numVars_withNames {inst : Instance} (h : names.size = inst.names.size) :
    (inst.withNames names).numVars = inst.numVars := congrArg (· - 1) h

theorem Instance.indices_withNames {inst : Instance} (h : names.size = inst.names.size) :
    (inst.withNames names).indices = inst.indices := by
  rw [indices, numVars_withNames h, indices]

theorem Strategy.pick_withNames {inst : Instance} (h : names.size = inst.names.size)
    (strategy : Strategy) (v : Valuation) (s : σ) :
    strategy.pick (inst.withNames names) v s = strategy.pick inst v s := by
  cases strategy with
  | gsat =>
    unfold pick
    rw [Instance.indices_withNames h]
    rfl
  | walksat => rfl

namespace Engine

section Engines
variable {e : Engine} (h : names.size = e.inst.names.size)
include h

theorem propose_withNames (s : σ) : (e.withNames names).propose s = e.propose s := by
  have hindex (t : σ) : Noise.randomIndex (e.inst.withNames names) t =
      Noise.randomIndex e.inst t := by
    rw [Noise.randomIndex, Instance.indices_withNames h, Noise.randomIndex]
  unfold propose withNames
  simp only [hindex, Strategy.pick_withNames h]

theorem draw_withNames (s : σ) :
    (e.withNames names).draw s = ((e.draw s).1.withNames names, (e.draw s).2) := by
  unfold draw
  simp only [withNames, Instance.numVars_withNames h]
  rfl

theorem restart_withNames (s : σ) :
    (e.withNames names).restart s = ((e.restart s).1.withNames names, (e.restart s).2) :=
  draw_withNames (e := { e with stats := e.stats.afterRestart }) h s

theorem ensureBegun_withNames (s : σ) : (e.withNames names).ensureBegun s =
    ((e.ensureBegun s).1.withNames names, (e.ensureBegun s).2) := by
  by_cases hp : e.phase = .initializing
  · have hp' : (e.withNames names).phase = .initializing := hp
    rw [ensureBegun_of_initializing hp, ensureBegun_of_initializing hp']
    exact draw_withNames (e := { e with iterations := 0, stats := .zero }) h s
  · have hp' : (e.withNames names).phase ≠ .initializing := hp
    rw [ensureBegun_of_begun hp, ensureBegun_of_begun hp']

theorem stepBegun_withNames (s : σ) : (e.withNames names).stepBegun s =
    ((e.stepBegun s).1, (e.stepBegun s).2.1.withNames names, (e.stepBegun s).2.2) := by
  unfold stepBegun
  rw [propose_withNames h]
  by_cases hp : e.phase = .satisfied
  · rw [if_pos hp, if_pos (show (e.withNames names).phase = .satisfied from hp)]
  · rw [if_neg hp, if_neg (show (e.withNames names).phase ≠ .satisfied from hp)]
    rcases e.propose s with ⟨_ | f, s'⟩ <;> rfl

end Engines

theorem inst_ensureBegun (e : Engine) (s : σ) : (e.ensureBegun s).1.inst = e.inst := by
  unfold ensureBegun
  split_ifs <;> rfl

theorem inst_stepBegun (e : Engine) (s : σ) : (e.stepBegun s).2.1.inst = e.inst := by
  rcases stepBegun_cases e s with ⟨-, he⟩ | ⟨f, -, -, he⟩
  · rw [he]
  · rw [he]
    rfl

theorem inst_step (e : Engine) (s : σ) : (e.step s).2.1.inst = e.inst :=
  (inst_stepBegun _ _).trans (inst_ensureBegun e s)

/-- **A step does not see names.** -/
theorem step_withNames {e : Engine} (h : names.size = e.inst.names.size) (s : σ) :
    (e.withNames names).step s =
      ((e.step s).1, (e.step s).2.1.withNames names, (e.step s).2.2) := by
  have hbegun : names.size = (e.ensureBegun s).1.inst.names.size := by
    rw [inst_ensureBegun]
    exact h
  unfold step
  rw [ensureBegun_withNames h]
  exact stepBegun_withNames hbegun _

theorem ofConfig_withNames (inst : Instance) (config : Config) :
    Engine.ofConfig (inst.withNames names) config =
      (Engine.ofConfig inst config).map (·.withNames names) := by
  unfold ofConfig
  cases config.validate <;> rfl

end Engine

/-! ### Runs -/

/-- What is told of an instance with other names. -/
def FlipEvent.withNames (f : FlipEvent) (names : Array Nat) : FlipEvent :=
  { f with inst := f.inst.withNames names }

/-- What is told of an instance with other names. -/
def Event.withNames (names : Array Nat) : Event → Event
  | start inst a => start (inst.withNames names) a
  | flip f => flip (f.withNames names)
  | restart k a => restart k a
  | finish report => finish report

/-- **Observers in related states** give the same verdicts and stay in related states, if one is
told of an instance what the other is told of it with other names. -/
structure Observer.Mirrors (names : Array Nat) (o : Observer ω) (o' : Observer ω')
    (rel : ω → ω' → Prop) : Prop where
  verdict : ∀ {w w'} (f : FlipEvent), rel w w' →
    (o'.onFlip (f.withNames names) w').1 = (o.onFlip f w).1
  hear : ∀ {w w'} (event : Event), rel w w' →
    rel (o.hear w event) (o'.hear w' (event.withNames names))

/-- **Runs that are alike** but for the names of their instances. -/
structure Run.Mirrors (names : Array Nat) (rel : ω → ω' → Prop) (r : Run σ ω) (r' : Run σ ω') :
    Prop where
  size : names.size = r.engine.inst.names.size
  engine : r'.engine = r.engine.withNames names
  stream : r'.stream = r.stream
  watcher : rel r.watcher r'.watcher
  passes : r'.passes = r.passes
  report : r'.report = r.report

section Runs
variable {o : Observer ω} {o' : Observer ω'} {rel : ω → ω' → Prop}
  (ho : Observer.Mirrors names o o' rel)
include ho

theorem Run.start_mirrors {e : Engine} (h : names.size = e.inst.names.size) (s : σ) {w : ω}
    {w' : ω'} (hw : rel w w') : Run.Mirrors names rel (Run.start o e s w)
      (Run.start o' (e.withNames names) s w') := by
  unfold start
  rw [Engine.ensureBegun_withNames h]
  exact
    { size := by rw [Engine.inst_ensureBegun]; exact h
      engine := rfl
      stream := rfl
      watcher := ho.hear (.start _ _) hw
      passes := rfl
      report := rfl }

namespace Run.Mirrors

variable {r : Run σ ω} {r' : Run σ ω'} (h : Run.Mirrors names rel r r')
include h

omit [RandomStream σ] in
theorem finish (elapsed : Duration) (outcome : Outcome) : Run.Mirrors names rel
    (r.finish o elapsed outcome) (r'.finish o' elapsed outcome) := by
  have hreport : Report.mk outcome r'.engine.stats elapsed =
      ⟨outcome, r.engine.stats, elapsed⟩ := by
    rw [h.engine]
    rfl
  refine ⟨h.size, h.engine, h.stream, ?_, h.passes, congrArg some hreport⟩
  unfold Run.finish
  rw [hreport]
  exact ho.hear (.finish _) h.watcher

omit [RandomStream σ] in
theorem giveUp (elapsed : Duration) (reason : StopReason) : Run.Mirrors names rel
    (r.giveUp o elapsed reason) (r'.giveUp o' elapsed reason) := by
  unfold Run.giveUp
  rw [h.engine]
  exact h.finish ho elapsed _

theorem newTry : Run.Mirrors names rel (Run.newTry o r) (Run.newTry o' r') := by
  unfold Run.newTry
  rw [h.engine, h.stream, Engine.restart_withNames h.size]
  exact
    { size := h.size
      engine := rfl
      stream := rfl
      watcher := ho.hear (.restart _ _) h.watcher
      passes := h.passes
      report := h.report }

theorem flipOnce (elapsed : Duration) : Run.Mirrors names rel (r.flipOnce o elapsed)
    (r'.flipOnce o' elapsed) := by
  rcases hstep : r.engine.step r.stream with ⟨f?, e, s⟩
  have hsize : names.size = e.inst.names.size := by
    have he : (r.engine.step r.stream).2.1 = e := by rw [hstep]
    rw [← he, Engine.inst_step]
    exact h.size
  have hstep' : r'.engine.step r'.stream = (f?, e.withNames names, s) := by
    rw [h.engine, h.stream, Engine.step_withNames h.size, hstep]
  cases f? with
  | none =>
    have hstuck : Run.Mirrors names rel { r with engine := e, stream := s }
        { r' with engine := e.withNames names, stream := s } :=
      ⟨hsize, rfl, rfl, h.watcher, h.passes, h.report⟩
    rw [Run.flipOnce_of_no_flip hstep, Run.flipOnce_of_no_flip hstep']
    exact hstuck.giveUp ho elapsed .flipLimit
  | some f =>
    let told : FlipEvent := ⟨e.iterations, f, e.inst, e.assignment⟩
    have hheard : rel (o.onFlip told r.watcher).2
        (o'.onFlip (told.withNames names) r'.watcher).2 := ho.hear (.flip told) h.watcher
    have hverdict := ho.verdict told h.watcher
    rcases hw : o.onFlip told r.watcher with ⟨d, w⟩
    rcases hw' : o'.onFlip (told.withNames names) r'.watcher with ⟨d', w'⟩
    rw [hw, hw'] at hheard hverdict
    obtain rfl : d' = d := hverdict
    have hflipped : Run.Mirrors names rel { r with engine := e, stream := s, watcher := w }
        { r' with engine := e.withNames names, stream := s, watcher := w' } :=
      ⟨hsize, rfl, rfl, hheard, h.passes, h.report⟩
    cases d' with
    | proceed =>
      rw [Run.flipOnce_of_flip_kept hstep hw, Run.flipOnce_of_flip_kept hstep' hw']
      exact hflipped
    | stop =>
      rw [Run.flipOnce_of_flip_last hstep hw, Run.flipOnce_of_flip_last hstep' hw']
      exact hflipped.giveUp ho elapsed .cancelled

theorem tryOrFlip (elapsed : Duration) : Run.Mirrors names rel (r.tryOrFlip o elapsed)
    (r'.tryOrFlip o' elapsed) := by
  have hrestarter : r'.engine.restarter = r.engine.restarter := by
    rw [h.engine]
    rfl
  unfold Run.tryOrFlip
  rw [hrestarter]
  have hdue (c : Restarter) : Run.Mirrors names rel
      { r with engine := { r.engine with restarter := c } }
      { r' with engine := { r'.engine with restarter := c } } :=
    ⟨h.size, by rw [h.engine]; rfl, h.stream, h.watcher, h.passes, h.report⟩
  rcases r.engine.restarter.due with ⟨_ | _, c⟩
  · exact (hdue c).flipOnce ho elapsed
  · exact (hdue c).newTry ho

theorem loopBody (budget : Budget) (elapsed : Duration) : Run.Mirrors names rel
    (r.loopBody o budget elapsed) (r'.loopBody o' budget elapsed) := by
  obtain ⟨hphase, hassignment, hiterations⟩ : r'.engine.phase = r.engine.phase ∧
      r'.engine.assignment = r.engine.assignment ∧
        r'.engine.iterations = r.engine.iterations := by
    rw [h.engine]
    exact ⟨rfl, rfl, rfl⟩
  unfold Run.loopBody
  rw [hphase, hassignment, hiterations]
  split_ifs
  · exact h.finish ho elapsed _
  · exact h.giveUp ho elapsed _
  · exact h.giveUp ho elapsed _
  · exact h.tryOrFlip ho elapsed

/-- **One pass keeps runs alike.** -/
theorem pass (budget : Budget) (elapsed : Duration) : Run.Mirrors names rel
    (r.pass o budget elapsed) (r'.pass o' budget elapsed) := by
  cases hr : r.report with
  | some report =>
    rw [pass_of_ended hr, pass_of_ended (h.report.trans hr)]
    exact h
  | none =>
    rw [pass_of_running hr, pass_of_running (h.report.trans hr)]
    have hentered : Run.Mirrors names rel r.entered r'.entered :=
      ⟨h.size, h.engine, h.stream, h.watcher, congrArg (· + 1) h.passes, h.report⟩
    exact hentered.loopBody ho budget elapsed

end Run.Mirrors

/-- **Runs stay alike**, however many passes they make. -/
theorem Run.Mirrors.advance (budget : Budget) (clock : Nat → Duration) :
    ∀ {n : Nat} {r : Run σ ω} {r' : Run σ ω'}, Run.Mirrors names rel r r' →
      Run.Mirrors names rel (r.advance o budget clock n) (r'.advance o' budget clock n)
  | 0, _, _, h => h
  | n + 1, r, r', h => by
    unfold Run.advance
    rw [h.report, h.passes]
    split_ifs
    · exact h
    · exact advance budget clock (h.pass ho budget _)

end Runs

/-! ### Rules -/

/-- The flips among some events, with their numbers. -/
def numberedFlips (events : List Event) : List (Nat × Flip) :=
  events.filterMap fun event =>
    match event with
    | .flip f => some (f.iteration, f.flip)
    | _ => none

theorem numberedFlips_withNames (names : Array Nat) (events : List Event) :
    numberedFlips (events.map (Event.withNames names)) = numberedFlips events := by
  unfold numberedFlips
  rw [List.filterMap_map]
  congr 1
  funext event
  cases event <;> rfl

/-- The observer decides by a rule that sees the flips so far and their numbers, and nothing
else. -/
def Observer.DecidesBy (o : Observer ω) (w : ω) (rule : List (Nat × Flip) → Verdict) : Prop :=
  ∀ past f, (o.onFlip f (o.replay w past)).1 =
    rule (numberedFlips past ++ [(f.iteration, f.flip)])

/-- The recorded events of two runs are the same but for the names, and their observers have heard
them. -/
structure Recorded (names : Array Nat) (o : Observer ω) (o' : Observer ω') (w : ω) (w' : ω')
    (x : Array Event × ω) (x' : Array Event × ω') : Prop where
  events : x'.1 = x.1.map (Event.withNames names)
  heard : x.2 = o.replay w x.1.toList
  heard' : x'.2 = o'.replay w' x'.1.toList

theorem Observer.recording_hear (o : Observer ω) (x : Array Event × ω) (event : Event) :
    o.recording.hear x event = (x.1.push event, o.hear x.2 event) := by
  cases event <;> rfl

theorem Observer.DecidesBy.mirrors {o : Observer ω} {o' : Observer ω'} {w : ω} {w' : ω'}
    {rule : List (Nat × Flip) → Verdict} (h : o.DecidesBy w rule) (h' : o'.DecidesBy w' rule) :
    Observer.Mirrors names o.recording o'.recording (Recorded names o o' w w') where
  verdict {x x'} f hx := by
    have hverdict : (o.recording.onFlip f x).1 = (o.onFlip f x.2).1 := rfl
    have hverdict' : (o'.recording.onFlip (f.withNames names) x').1 =
        (o'.onFlip (f.withNames names) x'.2).1 := rfl
    rw [hverdict, hverdict', hx.heard, hx.heard', h, h', hx.events, Array.toList_map,
      numberedFlips_withNames]
    rfl
  hear {x x'} event hx := by
    rw [recording_hear, recording_hear]
    refine ⟨?_, ?_, ?_⟩
    · rw [hx.events, Array.map_push]
    · rw [Array.toList_push, replay_append, ← hx.heard]
      rfl
    · rw [Array.toList_push, replay_append, ← hx.heard']
      rfl

/-! ### Searches -/

/-- **The second run is the first**, over an instance with other names: the events, the report, the
stream and all of the engine but the names are the same. -/
structure Run.Renamed (names : Array Nat) (r : Run σ (Array Event × ω))
    (r' : Run σ (Array Event × ω')) : Prop where
  events : r'.watcher.1 = r.watcher.1.map (Event.withNames names)
  report : r'.report = r.report
  stream : r'.stream = r.stream
  engine : r'.engine = r.engine.withNames names

section Searches
variable {o : Observer ω} {o' : Observer ω'} {w : ω} {w' : ω'}
  {rule : List (Nat × Flip) → Verdict} (h : o.DecidesBy w rule) (h' : o'.DecidesBy w' rule)
include h h'

theorem Engine.renamed_runFor {e : Engine} (hsize : names.size = e.inst.names.size)
    (budget : Budget) (clock : Nat → Duration) (s : σ) (n : Nat) :
    (e.runFor o.recording budget clock n s (#[], w)).Renamed names
      ((e.withNames names).runFor o'.recording budget clock n s (#[], w')) := by
  have ho : Observer.Mirrors names o.recording o'.recording (Recorded names o o' w w') :=
    h.mirrors h'
  have hempty : Recorded names o o' w w' (#[], w) (#[], w') := ⟨by simp, rfl, rfl⟩
  have hrun := (Run.start_mirrors ho hsize s hempty).advance ho budget clock (n := n)
  exact ⟨hrun.watcher.events, hrun.report, hrun.stream, hrun.engine⟩

end Searches

theorem search_eq_map (inst : Instance) (config : Config) (o : Observer ω)
    (clock : Nat → Duration) (s : σ) (w : ω) : search inst config o clock s w =
      (Engine.ofConfig inst config).map fun e =>
        e.runFor o config.budget clock config.budget.passes s w := by
  unfold search
  cases Engine.ofConfig inst config <;> rfl

theorem Renames.size_names_of_ofConfig {f : Nat → Nat} {cs : List SignedClause} (hf : Renames f cs)
    {config : Config} {e : Engine} (he : Engine.ofConfig (.ofClauses cs) config = .ok e) :
    (Instance.ofClauses (renameClauses f cs)).names.size = e.inst.names.size := by
  obtain ⟨noise, rfl⟩ := Engine.ofConfig_eq_ok he
  exact hf.size_names_renameClauses

/-- **A search does not see the names of variables.**  If a map keeps the order of the variables
that occur, the renamed clauses make an instance with the same clauses over the indices and the same
occurrences, in which every index names the new variable.

Whatever the configuration and the stream, a search over it goes exactly as over the first instance,
for observers that decide by one rule about the flips and their numbers, and runs of any length do.
The literals of an assignment are renamed with the variables. -/
theorem searches_ignore_names {cs : List SignedClause} {inst : Instance}
    (hinst : Instance.build cs = .ok inst) {f : Nat → Nat} (hf : Renames f cs) :
    ∃ inst', Instance.build (renameClauses f cs) = .ok inst' ∧
      (inst'.clauses = inst.clauses ∧ inst'.occurrences = inst.occurrences ∧
        inst'.numVars = inst.numVars ∧
        ∀ i, 1 ≤ i → i ≤ inst.numVars → inst'.variableAt i = f (inst.variableAt i)) ∧
      (∀ a, inst'.toLiterals a = (inst.toLiterals a).map (List.map (rename f))) ∧
      ∀ (config : Config) (o : Observer ω) (o' : Observer ω') (w : ω) (w' : ω')
        (rule : List (Nat × Flip) → Verdict), o.DecidesBy w rule → o'.DecidesBy w' rule →
        ∀ (clock : Nat → Duration) (s : σ),
          (∀ err, search inst config o.recording clock s (#[], w) = .error err →
            search inst' config o'.recording clock s (#[], w') = .error err) ∧
          (∀ r, search inst config o.recording clock s (#[], w) = .ok r →
            ∃ r', search inst' config o'.recording clock s (#[], w') = .ok r' ∧
              r.Renamed inst'.names r') ∧
          ∀ e, Engine.ofConfig inst config = .ok e →
            ∃ e', Engine.ofConfig inst' config = .ok e' ∧ ∀ n,
              (e.runFor o.recording config.budget clock n s (#[], w)).Renamed inst'.names
                (e'.runFor o'.recording config.budget clock n s (#[], w')) := by
  obtain ⟨hcs, rfl⟩ := Instance.build_eq_ok_iff_acceptable.mp hinst
  refine ⟨_, Instance.build_eq_ok_iff_acceptable.mpr ⟨hf.acceptable hcs, rfl⟩,
    ⟨hf.clauses_renameClauses, hf.occurrences_renameClauses, hf.numVars_renameClauses,
      fun i => hf.variableAt_renameClauses⟩, hf.toLiterals_renameClauses hcs, ?_⟩
  intro config o o' w w' rule h h' clock s
  have hconfig : Engine.ofConfig (.ofClauses (renameClauses f cs)) config =
      (Engine.ofConfig (.ofClauses cs) config).map
        (·.withNames (Instance.ofClauses (renameClauses f cs)).names) := by
    rw [← Engine.ofConfig_withNames, ← hf.ofClauses_renameClauses]
  have hrun (e : Engine) (he : Engine.ofConfig (.ofClauses cs) config = .ok e) (n : Nat) :=
    Engine.renamed_runFor h h' (hf.size_names_of_ofConfig he) config.budget clock s n
  rw [search_eq_map, search_eq_map, hconfig]
  cases he : Engine.ofConfig (.ofClauses cs) config with
  | error err₀ =>
    refine ⟨fun err herr => ?_, fun r hr => ?_, fun e he => ?_⟩
    · cases herr
      rfl
    · cases hr
    · cases he
  | ok e₀ =>
    refine ⟨fun err herr => ?_, fun r hr => ?_, fun e he₀ => ?_⟩
    · cases herr
    · cases hr
      exact ⟨_, rfl, hrun e₀ he _⟩
    · cases he₀
      exact ⟨_, rfl, hrun e₀ he⟩

/-- The search for a model of two clauses goes on as before if the variables are tripled. -/
theorem search_over_tripled_variables :
    let searchOver (cs : List SignedClause) :=
      search (.ofClauses cs) .default Observer.silent.recording (fun _ => .zero) (⟨0⟩ : Seeded)
        (#[], ())
    ∃ r r', searchOver [[2, -5], [5]] = .ok r ∧ searchOver [[6, -15], [15]] = .ok r' ∧
      r'.report = r.report ∧ r'.stream = r.stream ∧
        (Instance.ofClauses [[6, -15], [15]]).toLiterals ⟨#[false, true, true]⟩ =
          ((Instance.ofClauses [[2, -5], [5]]).toLiterals ⟨#[false, true, true]⟩).map
            (List.map (rename (3 * ·))) := by
  intro searchOver
  have hfaults : ∀ c ∈ ([[2, -5], [5]] : List SignedClause), c.fault? = none := by decide
  have hbuild : Instance.build [[2, -5], [5]] = .ok (.ofClauses [[2, -5], [5]]) :=
    Instance.build_eq_ok_iff_acceptable.mpr
      ⟨fun c hc => SignedClause.fault?_eq_none_iff.mp (hfaults c hc), rfl⟩
  have hoccurs (x : Nat) (hx : Occurs [[2, -5], [5]] x) : x = 2 ∨ x = 5 := by
    obtain ⟨c, hc, l, hl, rfl⟩ := hx
    rcases List.mem_pair.mp hc with rfl | rfl
    · rcases List.mem_pair.mp hl with rfl | rfl <;> decide
    · rw [List.mem_singleton.mp hl]
      decide
  have hf : Renames (3 * ·) [[2, -5], [5]] :=
    { lt := fun x y _ _ hxy => Nat.mul_lt_mul_of_pos_left hxy (by decide)
      pos := fun x hx => by rcases hoccurs x hx with rfl | rfl <;> decide
      le := fun x hx => by rcases hoccurs x hx with rfl | rfl <;> decide }
  have hrenamed : renameClauses (3 * ·) [[2, -5], [5]] = [[6, -15], [15]] := by decide
  have hdecides : Observer.silent.DecidesBy () fun _ => .proceed := fun _ _ => rfl
  obtain ⟨inst', hbuild', -, hliterals, hsearch⟩ :=
    @searches_ignore_names Seeded Unit Unit _ _ _ hbuild _ hf
  rw [hrenamed] at hbuild'
  obtain rfl := (Instance.build_eq_ok_iff_acceptable.mp hbuild').2
  obtain ⟨-, hok, -⟩ := hsearch .default .silent .silent () () _ hdecides hdecides
    (fun _ => .zero) ⟨0⟩
  obtain ⟨r', hr', hsame⟩ := hok _ rfl
  exact ⟨_, r', rfl, hr', hsame.report, hsame.stream, hliterals _⟩

end StochasticSat
