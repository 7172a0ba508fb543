import StochasticSat.Proofs.Command.Certification
import StochasticSat.Proofs.Search.Endings

/-!
# Searches that repeat

With a seed, one worker, and a limit on flips but none on time, a search comes to the same outcome
whenever it is made (`Options.Repeatable`, `exists_outcome`): it draws from the stream of its seed
alone, its budget ends it, and no clock can cut it short.

A host may keep a state of its own, the world `τ`, which every question may change.  All that is
asked of it here is that one worker searches alone (`Host.RunsAlone`); every instance then has its
outcome on the host, in whatever world the search is made (`Host.RunsAlone.exists_settles`).
-/

namespace StochasticSat

/-! ### Options -/

/-- **Options under which a search repeats exactly**: a valid configuration, a seed, one worker, and
a limit on flips but none on time. -/
structure Options.Repeatable (options : Options) : Prop where
  valid : ∃ config, options.toConfig = .ok config
  seed : options.seed.isSome
  maxFlips : 0 < options.maxFlips
  timeLimit : options.timeLimit = none
  threads : options.threads = 1

/-- What a configuration takes from the options. -/
theorem Options.toConfig_eq_ok {options : Options} {config : Config}
    (h : options.toConfig = .ok config) :
    config.seed = options.seed ∧
      (0 < options.maxFlips → config.budget.maxFlips = some options.maxFlips) ∧
      (options.timeLimit = none → config.budget.timeLimit = none) ∧
      ∃ noise, config.validate = .ok noise := by
  unfold Options.toConfig at h
  cases ht : options.timeLimit.mapM Options.durationOf with
  | error e => rw [ht] at h; cases h
  | ok timeLimit =>
    rw [ht] at h
    simp only [bind, Except.bind] at h
    split at h
    · cases h
    · next noise hv =>
      cases h
      refine ⟨rfl, fun hm => if_pos hm, fun hl => ?_, noise, hv⟩
      rw [hl] at ht
      cases ht
      rfl

/-! ### The outcome of a search -/

section Searches
variable {σ ω : Type} [RandomStream σ] {inst : Instance} {config : Config}

/-- A search by one worker is a run. -/
theorem searchWith_one {e : Engine} (he : Engine.ofConfig inst config = .ok e) (o : Observer ω)
    (clock : Nat → Duration) (s : σ) (w : ω) :
    searchWith inst config 1 o clock s w = .ok (e.run o config.budget clock s w).raceReport? := by
  unfold searchWith
  rw [Contest.start_eq, he]
  rfl

/-- **A search with a limit on flips and none on time** comes to one outcome by every clock, and to
a model only if there is one. -/
theorem exists_outcome (inst : Instance) {P : ω → Prop} {o : Observer ω} (hk : o.Keeps P) {w : ω}
    (hw : P w) {noise : Noise} (hv : config.validate = .ok noise) {m : Nat}
    (hm : config.budget.maxFlips = some m) (ht : config.budget.timeLimit = none) (s : σ) :
    ∃ outcome, outcome.Honest inst ∧ ∀ clock, ∃ result,
      searchWith inst config 1 o clock s w = .ok (some result) ∧
        result.report.outcome = outcome := by
  obtain ⟨e, he⟩ : ∃ e, Engine.ofConfig inst config = .ok e := by
    rw [Engine.ofConfig, hv]
    exact ⟨_, rfl⟩
  have hfresh := Engine.Fresh.ofConfig rfl he
  have hinst : e.inst = inst := by
    obtain ⟨_, _, rfl⟩ := hfresh.exists_new
    rfl
  obtain ⟨report, hreport⟩ := hfresh.run_ends hm o (fun _ => .zero) s w
  have hhonest := Run.Honest.advance hk config.budget (fun _ => .zero) config.budget.passes
    (.start hk (Or.inl hfresh.initializing) hinst s hw)
  refine ⟨report.outcome, hhonest.report report hreport, fun clock => ?_⟩
  obtain ⟨report', hreport'⟩ := hfresh.run_ends hm o clock s w
  have hagrees := Run.advance_agrees (o := o) ht (hfresh.ready o s w).steady rfl clock
    (fun _ => .zero) config.budget.passes
  rw [searchWith_one he, Run.raceReport?, hreport', Option.map_some]
  exact ⟨_, rfl, (hagrees.reports hreport' hreport).outcome⟩

end Searches

/-! ### Hosts over a world -/

namespace Command

section Hosts
variable {τ : Type} {host : Host (StateM τ)} {options : Options}

/-- **A host on which one worker searches alone.**  It answers with the run of the search, whatever
its clock and whatever word it would take for a seed. -/
def Host.RunsAlone (host : Host (StateM τ)) : Prop :=
  ∀ inst config level t, ∃ clock entropy, ((host.race inst config 1 level).run t).1 =
    searchWith inst config 1 (.logging (some level)) clock (config.stream entropy) #[]

/-- Every search of an instance comes to the same outcome, whatever the world. -/
def Host.Settles (host : Host (StateM τ)) (options : Options) (inst : Instance)
    (outcome : Outcome) : Prop :=
  ∀ config, options.toConfig = .ok config → ∀ t, ∃ result,
    ((host.race inst config options.threads options.logLevel).run t).1 = .ok (some result) ∧
      result.report.outcome = outcome

theorem Host.RunsAlone.exists_settles (hhost : host.RunsAlone) (ho : options.Repeatable)
    (inst : Instance) : ∃ outcome, outcome.Honest inst ∧ host.Settles options inst outcome := by
  obtain ⟨config, hc⟩ := ho.valid
  obtain ⟨hseed, hm, ht, noise, hv⟩ := Options.toConfig_eq_ok hc
  have hkeeps := Observer.logging_keeps (some options.logLevel)
  obtain ⟨outcome, hhonest, hsearch⟩ := exists_outcome inst hkeeps (w := #[])
    (fun _ h => by simp at h) hv (hm ho.maxFlips) (ht ho.timeLimit) (config.stream 0)
  refine ⟨outcome, hhonest, fun config' hc' t => ?_⟩
  obtain rfl : config = config' := Except.ok.inj (hc.symm.trans hc')
  obtain ⟨clock, entropy, hrace⟩ := hhost inst config options.logLevel t
  obtain ⟨seed, hsome⟩ := Option.isSome_iff_exists.mp ho.seed
  -- with a seed, no other word is taken
  have hstream : config.stream entropy = config.stream 0 := by
    simp [Config.stream, hseed, hsome]
  obtain ⟨result, hresult, houtcome⟩ := hsearch clock
  exact ⟨result, by rw [ho.threads, hrace, hstream, hresult], houtcome⟩

end Hosts

end Command

end StochasticSat
