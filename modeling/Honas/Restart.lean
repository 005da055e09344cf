/-
  Stopping and starting the collector (`main`, `try_open_active_state` and `close_state`
  in `src/bin/honas_gather.c`).

  A process that is stopped saves the active state, and the next one goes on with it.  The
  counters of a state that has been loaded are in the memory, where their registers overlap
  the end of the filters, so that a filter bit there may be lost.

  * `Retains`: what a state keeps in any case: the bits outside of the registers, the number
    of requests and their times.
  * `restarts_retain`: this is so for the states of all periods, whatever processes have
    worked on them.
  * `found_after_restarts`: in the file of a period, everything is found that was stored in
    filters that end before the registers.
-/
import Honas.Pipeline

namespace Honas

open Bits

/-! ## What survives a restart -/

/-- A state, on the heap or loaded, has the filter bits of a tally outside of the registers,
    and its requests. -/
structure Retains (p : StateParams) (a : Tally) (s : HonasState) : Prop extends Active p s where
  bits : ∀ f < p.n, ∀ b < 8 * p.len, ¬p.IsCountPos (p.filterPos f b) →
    (bitAt s.mmap (p.filterPos f b) = true ↔ (f, b) ∈ a.filters)
  requests : s.header .numberOfRequests = a.requests % 2 ^ 64
  times : s.times = a.times

section

variable {p : StateParams} {a : Tally} {s s' : HonasState}

theorem StateParams.header_le_filterPos (p : StateParams) (f b : ℕ) :
    8 * sizeofHeader ≤ p.filterPos f b := by
  have hfirst := p.header_le_first
  have hpos := p.first_le_filterPos f b
  omega

theorem Retains.request (h : Retains p a s) (t : BitVec 64) :
    Retains p (a.request t) (s.countRequest t) := by
  obtain ⟨hact, -, hbits⟩ := h.toActive.countRequest t
  obtain ⟨-, -, -, htimes, hrequests⟩ := countRequest_spec h.toShaped t
  refine ⟨hact, fun f hf b hb hpos => ?_, ?_, ?_⟩
  · rw [hbits _ (p.header_le_filterPos f b)]
    exact h.bits f hf b hb hpos
  · rw [hrequests, h.requests]
    exact Nat.mod_add_mod ..
  · rw [htimes, h.times]
    rfl

/-- A counter changes no bits but those of its registers. -/
theorem addCount_outside (h : Active p s) {c : Counter} {hash : BitVec 64}
    (hs : s.addCount c hash = some s') {x : ℕ} (hx : ¬p.IsCountPos x) :
    bitAt s'.mmap x = bitAt s.mmap x := by
  rcases h.counts c with ⟨ho, regs, hr⟩ | hm
  · obtain ⟨hll, ha, -⟩ := addCount_owned ho hr hash
    rw [ha] at hs
    obtain rfl := Option.some.inj hs
    rfl
  · obtain ⟨m, hll, ha, -, -, hbits⟩ := addCount_mapped h.toShaped hm hash
    rw [ha] at hs
    obtain rfl := Option.some.inj hs
    have hidx : (hllEntry hash).1 < hllRegisters := hllPatLen_index_lt hash
    dsimp only
    rw [hbits, if_neg]
    rintro ⟨hle, hlt⟩
    unfold StateParams.countPos at hle hlt
    exact hx ⟨c, x - 8 * (p.countRegion c).off, by omega, by unfold StateParams.countPos; omega⟩

theorem Retains.count (hok : p.Ok) (h : Retains p a s) (c : Counter) (hash : BitVec 64) :
    ∃ s', s.addCount c hash = some s' ∧ Retains p (a.count c hash) s' := by
  obtain ⟨s', hs', hact, hheader, -⟩ := h.toActive.addCount hok.toFits c hash
  refine ⟨s', hs', hact, fun f hf b hb hpos => ?_, (hheader _).trans h.requests, ?_⟩
  · rw [addCount_outside h.toActive hs' hpos]
    exact h.bits f hf b hb hpos
  · exact (Prod.ext (hheader _) (hheader _)).trans h.times

theorem Retains.store (hok : p.Ok) (h : Retains p a s) {filters : List ℕ}
    (hf : ∀ f ∈ filters, f < p.n) (d : Digest) :
    ∃ s', filters.foldlM (HonasState.setInFilter p.hashes d.1) s = some s' ∧
      Retains p (a.store p filters d) s' := by
  obtain ⟨s', hs', hact, hheader, -, hbits⟩ := h.toActive.setInFilters hok hf d
  refine ⟨s', hs', hact, fun f hf' b hb hpos => ?_, (hheader _).trans h.requests, ?_⟩
  · rw [hbits, Bool.or_eq_true, h.bits f hf' b hb hpos, decide_eq_true_iff, hok.mem_storedPos hb]
    simp [Tally.store, FilterBank.contents, StateParams.bits]
  · exact (Prod.ext (hheader _) (hheader _)).trans h.times

end

/-- What survives restarts. -/
def retained : TallyRelation where
  Keeps := Retains
  active h := h.toActive
  created h ho := ⟨(Active.of_owned h ho).1, fun f hf b hb _ => h.bits f hf b hb, h.requests, h.times⟩
  request h t := h.request t
  count hok h c hash := h.count hok c hash
  store hok h _ hf d := h.store hok hf d

section

variable {p : StateParams} {a : Tally} {s : HonasState}

/-- **Saving** a state. -/
theorem Retains.close (estimate : ℚ → ℕ → BitVec 64) (hok : p.Ok) (h : Retains p a s) :
    ∃ file, closeState estimate s = some file ∧ StateFile p file ∧
      (∀ f < p.n, ∀ b < 8 * p.len, ¬p.IsCountPos (p.filterPos f b) →
        (bitAt file (p.filterPos f b) = true ↔ (f, b) ∈ a.filters)) ∧
      ∀ field : HeaderField, field.isEstimate = false → headerGet file field = s.header field := by
  obtain ⟨b, s', -, hpersist, -, hkeeps, hbits⟩ := h.toActive.persist_bits estimate hok
  refine ⟨s'.mmap, by rw [closeState, hpersist]; rfl, ⟨hkeeps.length, hkeeps.config⟩,
    fun f hf b hb hpos => ?_, hkeeps.header⟩
  rw [hbits _ (p.first_le_filterPos f b), h.bits f hf b hb hpos]
  refine or_iff_left ?_
  rintro ⟨c, -, i, hi, heq, -⟩
  exact hpos ⟨c, i, hi, heq⟩

/-- **A restart**: the state that is saved is loaded again. -/
theorem Retains.reopen (estimate : ℚ → ℕ → BitVec 64) (hok : p.Ok) (h : Retains p a s) :
    ∃ file loaded, closeState estimate s = some file ∧
      tryOpenActiveState (some file) = some (some loaded) ∧ Retains p a loaded ∧
      ∀ field : HeaderField, field.isEstimate = false → loaded.header field = s.header field := by
  obtain ⟨file, hclose, hfile, hbits, hheader⟩ := h.close estimate hok
  obtain ⟨loaded, hload, rfl, hshape, hmapped⟩ := load_spec hok hfile.length hfile.config
  refine ⟨_, loaded, hclose, by rw [tryOpenActiveState, hload],
    ⟨.of_mapped hshape hmapped, hbits, ?_, ?_⟩, hheader⟩
  · exact (hheader .numberOfRequests rfl).trans h.requests
  · exact (Prod.ext (hheader .firstRequest rfl) (hheader .lastRequest rfl)).trans h.times

end

/-! ## Processes -/

/-- A process: its options, when a state is created and its configuration, the first look at
    the clock with the configuration that is then loaded, and the calls of the event loop
    until it is stopped. -/
structure Process where
  options : Options
  created : BitVec 64
  config : GatherConfig
  checked : BitVec 64
  checkedConfig : GatherConfig
  events : List LoopEvent

/-- The file of the active state; the parameters of the state, and the registrations that it
    keeps, are recorded. -/
structure ActiveFile where
  content : List Byte
  params : StateParams
  registrations : List Registration

/-- A period that has ended: the parameters of its state, the registrations of all processes
    that have worked on it, and the rotation that ended it. -/
structure EndedPeriod where
  params : StateParams
  registrations : List Registration
  rotation : Rotation

/-- What there is between two processes: the file of the active state, if there is one.
    Recorded are the periods that have ended. -/
structure Collector where
  active : Option ActiveFile
  ended : List EndedPeriod

/-- The state that `main` opens or creates, with its parameters and registrations. -/
def Process.openState (process : Process) (active : Option ActiveFile) :
    Option (HonasState × StateParams × List Registration) := do
  let state ← tryOpenActiveState (active.map ActiveFile.content)
  if state.isSome then
    let state ← state
    let active ← active
    some (state, active.params, active.registrations)
  else
    let state ← createState process.config process.created
    some (state, process.config.toStateParams, [])

variable {Control : Type} (env : Externals Control)

/-- The periods of a process, the first of which has been begun by others. -/
def endedPeriods (carried : List Registration) (periods : List Period) : List EndedPeriod :=
  periods.zipIdx.map fun x =>
    ⟨x.1.params, carriedTo carried x.2 ++ registrationsOf env x.1.subnets x.1.frames, x.1.rotation⟩

/-- `main`: the state is opened, the clock is looked at, the event loop runs, and the state
    is closed.  `none` when the program stops before. -/
def Collector.process (k : Collector) (process : Process) : Option Collector := do
  let (state, params, carried) ← process.openState k.active
  let c ← (GatherLoop.start process.options params state).run env
    (.recheck process.checked process.checkedConfig process.options.subnets :: process.events)
  let content ← closeState env.estimate c.currentActiveState
  some
    { active := some ⟨content, c.params,
        carriedTo carried c.periods.length ++ registrationsOf env c.toCapture.subnets c.frames⟩
      ended := k.ended ++ endedPeriods env carried c.periods }

/-- Some processes, one after the other, beginning without a file. -/
def collectorProcesses (processes : List Process) : Option Collector :=
  processes.foldlM (Collector.process env) ⟨none, []⟩

/-! ## What the processes keep -/

/-- The file can be opened, and the state retains its registrations. -/
structure ActiveFile.Kept (active : ActiveFile) : Prop where
  ok : active.params.Ok
  opens : ∃ state, tryOpenActiveState (some active.content) = some (some state) ∧
    Retains active.params (.ofRegistrations env.sha256 active.params active.registrations) state

/-- The state that is saved retains its registrations. -/
structure EndedPeriod.Kept (ended : EndedPeriod) : Prop where
  ok : ended.params.Ok
  retains : Retains ended.params (.ofRegistrations env.sha256 ended.params ended.registrations)
    ended.rotation.finalized

/-- What holds between two processes. -/
structure Collector.Kept (k : Collector) : Prop where
  active : ∀ active ∈ k.active, active.Kept env
  ended : ∀ ended ∈ k.ended, ended.Kept env

variable {env}

theorem Process.openState_none (process : Process) : process.openState none =
    (createState process.config process.created).map fun state =>
      (state, process.config.toStateParams, []) := by
  exact (Option.map_eq_bind (x := createState process.config process.created)).symm

theorem Process.openState_some (process : Process) {file : ActiveFile} {state : HonasState}
    (h : tryOpenActiveState (some file.content) = some (some state)) :
    process.openState (some file) = some (state, file.params, file.registrations) := by
  rw [openState, Option.map_some, h]
  rfl

/-- A process starts with a state that retains its registrations. -/
theorem Process.openState_spec {process : Process} {active : Option ActiveFile}
    (h : ∀ file ∈ active, file.Kept env) {state : HonasState} {params : StateParams}
    {carried : List Registration} (ho : process.openState active = some (state, params, carried)) :
    params.Ok ∧ Retains params (.ofRegistrations env.sha256 params carried) state := by
  cases active with
  | none =>
    rw [openState_none] at ho
    obtain ⟨s, hc, ho⟩ := Option.map_eq_some_iff.1 ho
    obtain ⟨rfl, hrest⟩ := Prod.mk.inj ho
    obtain ⟨rfl, rfl⟩ := Prod.mk.inj hrest
    obtain ⟨hok, hrep, howned⟩ := createState_represents hc
    exact ⟨hok, retained.created hrep howned⟩
  | some file =>
    obtain ⟨hok, s, hopen, hretains⟩ := h file rfl
    rw [openState_some process hopen] at ho
    obtain ⟨rfl, hrest⟩ := Prod.mk.inj (Option.some.inj ho)
    obtain ⟨rfl, rfl⟩ := Prod.mk.inj hrest
    exact ⟨hok, hretains⟩

variable (env) in
theorem Collector.process_of_run (k : Collector) (process : Process) {state : HonasState}
    {params : StateParams} {carried : List Registration} {c : GatherLoop Control}
    {content : List Byte} (ho : process.openState k.active = some (state, params, carried))
    (hrun : (GatherLoop.start process.options params state).run env
      (.recheck process.checked process.checkedConfig process.options.subnets :: process.events) =
      some c) (hclose : closeState env.estimate c.currentActiveState = some content) :
    k.process env process = some ⟨some ⟨content, c.params,
      carriedTo carried c.periods.length ++ registrationsOf env c.toCapture.subnets c.frames⟩,
      k.ended ++ endedPeriods env carried c.periods⟩ := by
  rw [Collector.process, ho]
  simp only [Option.bind_eq_bind, Option.bind_some, hrun, hclose]

/-- **One process** retains what was registered before it, and what it registers. -/
theorem Collector.Kept.process (hpeek : PeekLawful env.peek) {k k' : Collector} {process : Process}
    (h : k.Kept env) (hk : k.process env process = some k') : k'.Kept env := by
  obtain ⟨⟨state, params, carried⟩, hopen, hk⟩ := Option.bind_eq_some_iff.1 hk
  obtain ⟨c, hrun, hk⟩ := Option.bind_eq_some_iff.1 hk
  obtain ⟨content, hclose, hk⟩ := Option.bind_eq_some_iff.1 hk
  obtain rfl := Option.some.inj hk
  obtain ⟨hok, hretains⟩ := Process.openState_spec h.active hopen
  have hstart : (GatherLoop.start process.options params state : GatherLoop Control).Sound env
    retained carried := sound_carried process.options hok hretains
  have htallied := (hstart.run hpeek hrun).tallied
  refine ⟨?_, fun ended hended => ?_⟩
  · rintro _ ⟨rfl⟩
    obtain ⟨file, loaded, hclose', hreopen, hloaded, -⟩ :=
      Retains.reopen env.estimate htallied.ok htallied.keeps.keeps
    obtain rfl := Option.some.inj (hclose.symm.trans hclose')
    exact ⟨htallied.ok, loaded, hreopen, hloaded⟩
  · rcases List.mem_append.1 hended with hended | hended
    · exact h.ended ended hended
    · obtain ⟨⟨period, i⟩, hperiod, rfl⟩ := List.mem_map.1 hended
      obtain ⟨hok', hkeeps⟩ := htallied.periods i period (List.mem_zipIdx_iff_getElem?.1 hperiod)
      exact ⟨hok', hkeeps⟩

/-- **All processes.** -/
theorem collectorProcesses_kept (hpeek : PeekLawful env.peek) {processes : List Process}
    {k : Collector} (hk : collectorProcesses env processes = some k) : k.Kept env :=
  Run.inv_of_run (C := fun _ => True) (fun _ _ _ h _ hstep => h.process hpeek hstep)
    ⟨fun _ h => absurd h (Option.not_mem_none _), fun _ h => absurd h List.not_mem_nil⟩
    (fun _ _ => trivial) hk

/-! ## The results -/

/-- A state has the bits of some registrations, and no others, outside of the registers, and
    counts their requests. -/
structure RetainsExactly (sha256 : List Byte → Digest) (p : StateParams) (rs : List Registration)
    (s : HonasState) : Prop where
  bits : ∀ f < p.n, ∀ b < 8 * p.len, ¬p.IsCountPos (p.filterPos f b) →
    (s.filterBit f b = true ↔ ∃ r ∈ rs, f ∈ p.filtersOf r.hash ∧
      ∃ stored ∈ r.names, b ∈ p.offsets f (sha256 stored.name))
  requests : s.header .numberOfRequests = rs.length % 2 ^ 64
  times : s.times = rs.foldl (fun times r => nextTimes times r.timestamp.toNat) (0, 0)

theorem Retains.exactly {sha256 : List Byte → Digest} {p : StateParams} {rs : List Registration}
    {s : HonasState} (h : Retains p (.ofRegistrations sha256 p rs) s) :
    RetainsExactly sha256 p rs s := by
  refine ⟨fun f hf b hb hpos => ?_, ?_, ?_⟩
  · rw [filterBit_eq h.toShaped hf hb, h.bits f hf b hb hpos, Tally.mem_ofRegistrations_filters]
  · rw [h.requests, Tally.ofRegistrations_requests]
  · rw [h.times, Tally.ofRegistrations_times]

/-- **Restarts.**  However often the collector is stopped and started, the state that each
    period ends with, and the one in the file of the active state, which can be opened, have
    exactly the filter bits of all registrations of their period outside of the registers,
    and the number of requests and the request times are theirs. -/
theorem restarts_retain (hpeek : PeekLawful env.peek) {processes : List Process} {k : Collector}
    (hk : collectorProcesses env processes = some k) :
    (∀ ended ∈ k.ended, RetainsExactly env.sha256 ended.params ended.registrations
      ended.rotation.finalized) ∧
    ∀ active ∈ k.active, ∃ state,
      tryOpenActiveState (some active.content) = some (some state) ∧
      RetainsExactly env.sha256 active.params active.registrations state := by
  obtain ⟨hactive, hended⟩ := collectorProcesses_kept hpeek hk
  refine ⟨fun ended h => (hended ended h).retains.exactly, fun active h => ?_⟩
  obtain ⟨-, state, hopen, hretains⟩ := hactive active h
  exact ⟨state, hopen, hretains.exactly⟩

/-- A frame is decoded before the collector is stopped; when it is started again, the period
    has ended. -/
def twoProcesses : List Process :=
  [⟨noOptions, 5, hourlyConfig, 5, hourlyConfig, oneFrame⟩,
    ⟨noOptions, 4000, hourlyConfig, 4000, hourlyConfig, []⟩]

theorem exists_twoProcesses : ∃ k ended, collectorProcesses oneQuery twoProcesses = some k ∧
    k.ended = [ended] := by
  obtain ⟨s, c, hc, hrun⟩ := exists_run_oneFrame
  obtain ⟨s', hc'⟩ := exists_firstState 4000
  obtain ⟨h5, h4000⟩ := clockReading_hourly
  obtain ⟨-, -, hperiod, hend⟩ := createState_spec h5 hc
  have hno : ∀ e ∈ oneFrame, ¬e.IsRecheck := fun e he => (oneFrame_ofConnections e he).not_isRecheck
  have hstart : (GatherLoop.start noOptions hourlyConfig.toStateParams s).Sound oneQuery retained [] :=
    sound_start noOptions hc
  obtain ⟨-, hperiods, -⟩ := hstart.run_samePeriod oneBlock_lawful hno hrun
  have htallied := (hstart.run oneBlock_lawful hrun).tallied
  -- the first process works on the first period, which ends at 3600
  have hwait : recheckHandler 5 hourlyConfig noOptions.subnets (Capture.start noOptions s) =
      some (Capture.start noOptions s, none) :=
    recheckHandler_of_wait hend h5 (Nat.not_le.2 hperiod.begin_lt)
  have hfirst : (GatherLoop.start noOptions hourlyConfig.toStateParams s).run oneQuery
      (.recheck 5 hourlyConfig noOptions.subnets :: oneFrame) = some c := by
    have hctx : (GatherLoop.start noOptions hourlyConfig.toStateParams s :
        GatherLoop Unit).toCapture = Capture.start noOptions s := rfl
    have hstep : (GatherLoop.start noOptions hourlyConfig.toStateParams s : GatherLoop Unit).step
        oneQuery (.recheck 5 hourlyConfig noOptions.subnets) =
        some (GatherLoop.start noOptions hourlyConfig.toStateParams s) := by
      rw [GatherLoop.step, Globals.recheck, hctx, hwait]
      rfl
    rw [GatherLoop.run, List.foldlM_cons, hstep]
    exact hrun
  obtain ⟨content, loaded, hclose, hopen, -, hheader⟩ :=
    Retains.reopen oneQuery.estimate htallied.ok htallied.keeps.keeps
  have hprocess := Collector.process_of_run oneQuery ⟨none, []⟩
    ⟨noOptions, 5, hourlyConfig, 5, hourlyConfig, oneFrame⟩
    (by rw [Process.openState_none, hc]; rfl) hfirst hclose
  -- the second one ends it
  have hsame : loaded.header .periodEnd = s.header .periodEnd :=
    (hheader .periodEnd rfl).trans (hstart.run_keepsPeriod oneBlock_lawful hno hrun).periodEnd
  have hdue : loaded.header .periodEnd ≤ (4000 : BitVec 64).toNat := by
    rw [hsame]
    refine hperiod.end_le.trans ?_
    decide
  obtain ⟨ctx, rotation, hrotate, hnew⟩ : ∃ ctx rotation, recheckHandler 4000 hourlyConfig
      noOptions.subnets (Capture.start noOptions loaded) = some (ctx, some rotation) ∧
      ctx.currentActiveState = s' :=
    ⟨_, _, recheckHandler_of_due (hsame ▸ hend) h4000 hdue hc', rfl⟩
  obtain ⟨hok', hrep', howned'⟩ := createState_represents hc'
  obtain ⟨content', hclose', -⟩ := (retained.created hrep' howned').close oneQuery.estimate hok'
  obtain ⟨c', period, hsecond, hstate, hended⟩ : ∃ (c' : GatherLoop Unit) (period : Period),
      (GatherLoop.start noOptions c.params loaded).run oneQuery
        [.recheck 4000 hourlyConfig noOptions.subnets] = some c' ∧
      c'.currentActiveState = s' ∧ c'.periods = [period] := by
    have hctx : (GatherLoop.start noOptions c.params loaded : GatherLoop Unit).toCapture =
        Capture.start noOptions loaded := rfl
    rw [GatherLoop.run, List.foldlM_cons, GatherLoop.step, Globals.recheck, hctx, hrotate]
    exact ⟨_, _, rfl, hnew, rfl⟩
  have hprocess' := Collector.process_of_run oneQuery
    ⟨some ⟨content, c.params, carriedTo [] c.periods.length ++
      registrationsOf oneQuery c.toCapture.subnets c.frames⟩, endedPeriods oneQuery [] c.periods⟩
    ⟨noOptions, 4000, hourlyConfig, 4000, hourlyConfig, []⟩
    (Process.openState_some _ hopen) hsecond (hstate ▸ hclose')
  have hone : ∀ carried, ∃ ended, endedPeriods oneQuery carried c'.periods = [ended] := by
    intro carried
    rw [hended]
    exact ⟨_, rfl⟩
  obtain ⟨ended, hended⟩ := hone (carriedTo [] c.periods.length ++
    registrationsOf oneQuery c.toCapture.subnets c.frames)
  refine ⟨_, ended, (?_ : collectorProcesses oneQuery twoProcesses = _).trans hprocess', ?_⟩
  · rw [collectorProcesses, twoProcesses, List.foldlM_cons, hprocess, Option.bind_eq_bind,
      Option.bind_some, List.nil_append, List.foldlM_cons]
    exact Option.bind_fun_some _
  · dsimp only
    rw [hended, hperiods]
    rfl

theorem restarts_retain_twoProcesses : ∃ k ended, collectorProcesses oneQuery twoProcesses = some k ∧
    k.ended = [ended] ∧ RetainsExactly oneQuery.sha256 ended.params ended.registrations
      ended.rotation.finalized := by
  obtain ⟨k, ended, hk, hended⟩ := exists_twoProcesses
  exact ⟨k, ended, hk, hended,
    (restarts_retain oneBlock_lawful hk).1 ended (hended ▸ List.mem_singleton_self _)⟩

/-- A filter that ends before the registers of the counters. -/
def StateParams.EndsBefore (p : StateParams) (f : ℕ) : Prop :=
  p.first + f * p.stride + p.len ≤ p.n * p.stride

/-- All but the last one of eight filters. -/
example : eightFilters.EndsBefore 6 ∧ ¬eightFilters.EndsBefore 7 := by
  unfold StateParams.EndsBefore
  decide

theorem StateParams.EndsBefore.outside {p : StateParams} {f : ℕ} (h : p.EndsBefore f) {b : ℕ}
    (hb : b < 8 * p.len) : ¬p.IsCountPos (p.filterPos f b) := by
  rintro ⟨c, i, -, heq⟩
  have hoff : p.n * p.stride ≤ (p.countRegion c).off := by
    cases c
    · exact le_rfl
    · exact Nat.le_add_right _ _
  unfold EndsBefore at h
  unfold filterPos countPos at heq
  omega

/-- **Lookups after restarts.**  The file of a period can be written, however often the
    collector was restarted in the period, and each string that was registered in it, for a
    client whose filters end before the registers, is found in it. -/
theorem found_after_restarts (hpeek : PeekLawful env.peek) {processes : List Process}
    {k : Collector} (hk : collectorProcesses env processes = some k)
    (estimate : ℚ → ℕ → BitVec 64) : ∀ ended ∈ k.ended, ∃ file,
      closeState estimate ended.rotation.finalized = some file ∧
      ∀ r ∈ ended.registrations,
        (∀ f ∈ ended.params.filtersOf r.hash, ended.params.EndsBefore f) → ∀ stored ∈ r.names,
        Found ended.params.n file (env.sha256 stored.name) (ended.params.filtersOf r.hash) := by
  intro ended hended
  obtain ⟨hok, hretains⟩ := (collectorProcesses_kept hpeek hk).ended ended hended
  obtain ⟨file, hclose, hfile, hbits, -⟩ := hretains.close estimate hok
  refine ⟨file, hclose, fun r hr hbefore stored hs => ?_⟩
  obtain ⟨-, -, -, -, hsubset⟩ := hok.filtersOf_spec r.hash
  refine found_of_bits hok hfile hsubset fun f hf b hb => ?_
  have hlt := hok.offsets_lt b hb
  refine (hbits f (hsubset.lt f hf) b hlt ((hbefore f hf).outside hlt)).2 ?_
  exact Tally.mem_ofRegistrations_filters.2 ⟨r, hr, hf, stored, hs, hb⟩

theorem found_after_restarts_twoProcesses : ∃ k ended file,
    collectorProcesses oneQuery twoProcesses = some k ∧ k.ended = [ended] ∧
    closeState (fun _ _ => 0) ended.rotation.finalized = some file ∧
    ∀ r ∈ ended.registrations,
      (∀ f ∈ ended.params.filtersOf r.hash, ended.params.EndsBefore f) → ∀ stored ∈ r.names,
      Found ended.params.n file (oneQuery.sha256 stored.name) (ended.params.filtersOf r.hash) := by
  obtain ⟨k, ended, hk, hended⟩ := exists_twoProcesses
  obtain ⟨file, hclose, hfound⟩ := found_after_restarts oneBlock_lawful hk (fun _ _ => 0) ended
    (hended ▸ List.mem_singleton_self _)
  exact ⟨k, ended, file, hk, hended, hclose, hfound⟩

end Honas
