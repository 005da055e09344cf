/-
  What the event loop keeps in every period.

  The data frames of all connections are decoded one after the other, in some order.

  * `GatherLoop.DecodedOnce`: what has been decoded of each connection are its data frames.
  * `Globals.Tallied`: the current state, and those that rotations have saved, keep the
    tallies of the frames of their periods.
  * `GatherLoop.Sound.run`: both hold at every point of a run.
-/
import Honas.GatherLoopConns
import Honas.StateCombine
import Honas.StatePersist

namespace Honas

open Bits Interleave

variable {Control : Type} {env : Externals Control}

/-! ## Every frame once -/

/-- All frames that have been decoded, with their connections. -/
def Globals.allFrames (g : Globals) : List (ℕ × DecodedFrame) :=
  g.periods.flatMap Period.frames ++ g.frames

/-- What has been decoded of each connection are its data frames, in their order. -/
def GatherLoop.DecodedOnce (env : Externals Control) (c : GatherLoop Control) : Prop :=
  ∀ i, dataFrames (c.connAt env i).entries =
    (project i c.allFrames).map fun frame => some frame.buf

theorem dataFrames_of_isPrefix {before after : List Entry} (h : before <+: after) :
    dataFrames after = dataFrames before ++ dataFrames (after.drop before.length) := by
  obtain ⟨new, rfl⟩ := h
  rw [List.drop_left, dataFrames_append]

theorem GatherLoop.DecodedOnce.congr {c : GatherLoop Control} (h : c.DecodedOnce env) {g : Globals}
    (hg : g.allFrames = c.allFrames) : (⟨g, c.conns⟩ : GatherLoop Control).DecodedOnce env := by
  intro i
  dsimp only
  rw [hg]
  exact h i

theorem GatherLoop.DecodedOnce.step (hpeek : PeekLawful env.peek) {c c' : GatherLoop Control}
    {e : LoopEvent} (h : c.DecodedOnce env) (hstep : c.Stepped env e c') : c'.DecodedOnce env := by
  intro j
  cases hstep with
  | accept hl =>
    have hat : (⟨c.connAccepted, c.conns ++ [connInit env.fs]⟩ : GatherLoop Control).connAt env j =
        c.connAt env j := connAt_append _ j
    have hframes : c.connAccepted.allFrames = c.allFrames := by
      rw [Globals.connAccepted]
      split_ifs <;> rfl
    rw [hat, hframes]
    exact h j
  | refuse hl => exact h j
  | silent hi => exact h j
  | @callback i now e conn g hi hopen hnew =>
    obtain ⟨hsame, frames, hframes, hdecoded⟩ := decodeNew_sameLoop hnew
    have hall : (if (conn.callback env e).closed then g.connClosed else g).allFrames =
        c.allFrames ++ frames.map (Prod.mk i) := by
      have hg : g.allFrames = c.allFrames ++ frames.map (Prod.mk i) := by
        rw [Globals.allFrames, Globals.allFrames, hsame.periods, hframes, List.append_assoc]
      split_ifs
      · rw [← hg, Globals.connClosed]
        split_ifs <;> rfl
      · exact hg
    have hat := connAt_set env hi (conn.callback env e)
      (if (conn.callback env e).closed then g.connClosed else g) j
    dsimp only
    rw [hat, hall, project_append, project_map_pair, List.map_append, ← h j]
    by_cases hij : i = j
    · subst hij
      rw [if_pos rfl, if_pos rfl, ← hdecoded, connAt_of_getElem? hi]
      exact dataFrames_of_isPrefix (callback_entries hpeek conn e)
    · rw [if_neg hij, if_neg hij, List.map_nil, List.append_nil]
  | wait => exact h j
  | rotate hr =>
    refine h.congr ?_ j
    rw [Globals.allFrames, Globals.allFrames, List.flatMap_append, List.flatMap_singleton,
      List.append_nil]
  | timer he hg =>
    refine h.congr ?_ j
    rw [Globals.allFrames, Globals.allFrames, hg.periods, hg.frames]

theorem GatherLoop.DecodedOnce.run (hpeek : PeekLawful env.peek) {c c' : GatherLoop Control}
    {es : List LoopEvent} (h : c.DecodedOnce env) (hrun : c.run env es = some c') :
    c'.DecodedOnce env :=
  Run.inv_of_run (C := fun _ => True)
    (fun _ _ _ hd _ he => hd.step hpeek (GatherLoop.step_stepped hpeek he)) h (fun _ _ => trivial) hrun

theorem decodedOnce_start (options : Options) (params : StateParams) (s : HonasState) :
    (GatherLoop.start options params s : GatherLoop Control).DecodedOnce env := fun _ => rfl

/-! ## What each period keeps -/

/-- The registration of a frame. -/
def DecodedFrame.registration (env : Externals Control) (subnets : Option SubnetActivity)
    (frame : DecodedFrame) : Option Registration :=
  match env.unpack frame.buf with
  | some (some m) => registrationOf env.ldnsWire2pkt subnets frame.now m
  | some none => none
  | none => none

/-- The registrations of several frames. -/
def registrationsOf (env : Externals Control) (subnets : Option SubnetActivity)
    (frames : List (ℕ × DecodedFrame)) : List Registration :=
  frames.filterMap fun x => x.2.registration env subnets

/-- The registrations that the state of a period already keeps at its start: those of the
    processes before, if it is the first period of a process. -/
def carriedTo (carried : List Registration) : ℕ → List Registration
  | 0 => carried
  | _ + 1 => []

theorem carriedTo_nil (i : ℕ) : carriedTo [] i = [] := by
  cases i <;> rfl

variable (env) (R : TallyRelation) (carried : List Registration)

/-- The saved state of a period keeps the tally of its frames, after some registrations. -/
structure Period.Tallied (period : Period) : Prop where
  ok : period.params.Ok
  keeps : R.Keeps period.params (.ofRegistrations env.sha256 period.params
    (carried ++ registrationsOf env period.subnets period.frames)) period.rotation.finalized

/-- The current state keeps the tally of the frames of its period, and so do the saved ones. -/
structure Globals.Tallied (g : Globals) : Prop where
  ok : g.params.Ok
  keeps : KeepsTally R g.params (.ofRegistrations env.sha256 g.params
    (carriedTo carried g.periods.length ++ registrationsOf env g.toCapture.subnets g.frames))
    g.toCapture
  periods : ∀ (i : ℕ) (period : Period), g.periods[i]? = some period →
    period.Tallied env R (carriedTo carried i)

variable {env R carried}

theorem decodeFrame_tallied {i : ℕ} {now : BitVec 64} {buf : List Byte} {g g' : Globals}
    (h : g.Tallied env R carried) (hd : g.decodeFrame env i now buf = some g') :
    g'.Tallied env R carried ∧ g'.toCapture.subnets = g.toCapture.subnets := by
  have hframes : ∀ subnets, registrationsOf env subnets (g.frames ++ [(i, ⟨now, buf⟩)]) =
      registrationsOf env subnets g.frames ++
        (DecodedFrame.registration env subnets ⟨now, buf⟩).toList := fun subnets => by
    rw [registrationsOf, List.filterMap_append, ← registrationsOf, List.filterMap_cons]
    cases DecodedFrame.registration env subnets ⟨now, buf⟩ <;> rfl
  -- a frame without a message leaves the context as it is
  have hnone : (∀ subnets, DecodedFrame.registration env subnets ⟨now, buf⟩ = none) →
      Globals.Tallied env R carried { g with frames := g.frames ++ [(i, ⟨now, buf⟩)] } := by
    intro hreg
    refine ⟨h.ok, ?_, h.periods⟩
    dsimp only
    rw [hframes, hreg, Option.toList_none, List.append_nil]
    exact h.keeps
  rw [Globals.decodeFrame] at hd
  rcases hu : env.unpack buf with _ | _ | m
  · simp only [hu] at hd
    obtain rfl := Option.some.inj hd
    exact ⟨hnone fun subnets => by simp only [DecodedFrame.registration, hu], rfl⟩
  · simp only [hu] at hd
    obtain rfl := Option.some.inj hd
    exact ⟨hnone fun subnets => by simp only [DecodedFrame.registration, hu], rfl⟩
  · simp only [hu] at hd
    obtain ⟨⟨decoded, ctx⟩, hdec, hd⟩ := Option.bind_eq_some_iff.1 hd
    have hctx : (decodeDnstapMessage env.sha256 env.ldnsWire2pkt env.fprExceeds now g.toCapture
        m).map Prod.snd = some ctx := by
      rw [hdec]
      rfl
    obtain ⟨hkeeps, hsubnets, -⟩ := h.keeps.decode h.ok hctx
    have hreg : ∀ subnets, DecodedFrame.registration env subnets ⟨now, buf⟩ =
        registrationOf env.ldnsWire2pkt subnets now m := fun subnets => by
      simp only [DecodedFrame.registration, hu]
    have htallied : Globals.Tallied env R carried { g with
        toCapture := ctx
        frames := g.frames ++ [(i, ⟨now, buf⟩)] } := by
      refine ⟨h.ok, ?_, h.periods⟩
      dsimp only
      rw [hsubnets, hframes, hreg, ← List.append_assoc, Tally.ofRegistrations, List.foldl_append]
      exact hkeeps
    obtain rfl := Option.some.inj hd
    cases decoded
    · exact ⟨⟨htallied.ok, htallied.keeps, htallied.periods⟩, hsubnets⟩
    · exact ⟨htallied, hsubnets⟩

theorem decodeNew_tallied {i : ℕ} {now : ℕ → BitVec 64} {before after : List Entry}
    {g g' : Globals} (h : g.Tallied env R carried) (hd : g.decodeNew env i now before after = some g') :
    g'.Tallied env R carried ∧ g'.toCapture.subnets = g.toCapture.subnets := by
  refine Run.inv_of_run (C := fun _ => True) (I := fun g' => g'.Tallied env R carried ∧
    g'.toCapture.subnets = g.toCapture.subnets) ?_ ⟨h, rfl⟩ (fun _ _ => trivial) hd
  rintro g₁ x g₂ ⟨h₁, hsubnets₁⟩ - hx
  obtain ⟨buf, -, hbuf⟩ := Option.bind_eq_some_iff.1 hx
  obtain ⟨h₂, hsubnets₂⟩ := decodeFrame_tallied h₁ hbuf
  exact ⟨h₂, hsubnets₂.trans hsubnets₁⟩

/-- A new state keeps nothing. -/
theorem createState_represents {config : GatherConfig} {now : BitVec 64} {s : HonasState}
    (hc : createState config now = some s) :
    config.toStateParams.Ok ∧ Represents config.toStateParams .empty s ∧
      Owned config.toStateParams s := by
  rw [createState] at hc
  by_cases h0 : config.periodLength = 0
  · rw [if_pos h0] at hc
    cases hc
  rw [if_neg h0] at hc
  dsimp only at hc
  rcases hcreate : honasStateCreate config.toStateParams with _ | _ | s₀
  · rw [hcreate] at hc
    cases hc
  · rw [hcreate] at hc
    cases hc
  rw [hcreate] at hc
  dsimp only at hc
  split_ifs at hc
  have hok := ok_of_create hcreate
  obtain ⟨s₀', hcreate', h, ho⟩ := honasStateCreate_represents hok
  obtain rfl : s₀ = s₀' := Except.ok.inj (Option.some.inj (hcreate.symm.trans hcreate'))
  obtain rfl := Option.some.inj hc
  obtain ⟨h₁, ho₁⟩ := h.setField ho (f := .periodBegin) rfl now.toNat
  obtain ⟨h₂, ho₂⟩ := h₁.setField ho₁ (f := .periodEnd) rfl
    (now - now % config.periodLength.setWidth 64 + config.periodLength.setWidth 64).toNat
  exact ⟨hok, h₂, ho₂⟩

theorem Globals.Tallied.kept {g g' : Globals} (h : g.Tallied env R carried) (hg : g.Kept g') :
    g'.Tallied env R carried := by
  refine ⟨hg.params ▸ h.ok, ?_, hg.periods ▸ h.periods⟩
  rw [hg.params, hg.subnets, hg.frames, hg.periods]
  exact ⟨hg.state ▸ h.keeps.keeps, hg.dryRun h.keeps.dryRun⟩

/-- **A rotation** ends a period and starts one without frames. -/
theorem Globals.Tallied.rotate {g : Globals} (h : g.Tallied env R carried) {now : BitVec 64}
    {config : GatherConfig} {subnets : SubnetActivity} {ctx : Capture} {rotation : Rotation}
    (hr : recheckHandler now config subnets g.toCapture = some (ctx, some rotation)) :
    Globals.Tallied env R carried { g with
      toCapture := ctx
      params := config.toStateParams
      frames := []
      periods := g.periods ++ [⟨g.params, g.toCapture.subnets, g.frames, rotation⟩] } := by
  rw [recheckHandler] at hr
  by_cases hwait : (BitVec.ofNat 64 (g.currentActiveState.header .periodEnd) - now).toInt ≤ 0
  · rw [if_pos hwait] at hr
    obtain ⟨state, hc, hr⟩ := Option.bind_eq_some_iff.1 hr
    obtain ⟨rfl, hrot⟩ := Prod.mk.inj (Option.some.inj hr)
    obtain rfl := Option.some.inj hrot
    obtain ⟨hok, hrep, howned⟩ := createState_represents hc
    refine ⟨hok, ⟨?_, h.keeps.dryRun⟩, fun i period hperiod => ?_⟩
    · dsimp only
      rw [List.length_append]
      exact R.created hrep howned
    · by_cases hi : i < g.periods.length
      · rw [List.getElem?_append_left hi] at hperiod
        exact h.periods i period hperiod
      · obtain ⟨hlt, -⟩ := List.getElem?_eq_some_iff.1 hperiod
        rw [List.length_append, List.length_singleton] at hlt
        obtain rfl : i = g.periods.length := by omega
        rw [List.getElem?_concat_length] at hperiod
        obtain rfl := Option.some.inj hperiod
        exact ⟨h.ok, h.keeps.keeps⟩
  · rw [if_neg hwait] at hr
    obtain ⟨-, hrot⟩ := Prod.mk.inj (Option.some.inj hr)
    cases hrot

/-- One call keeps the tallies. -/
theorem Globals.Tallied.step {c c' : GatherLoop Control} {e : LoopEvent}
    (h : c.toGlobals.Tallied env R carried) (hstep : c.Stepped env e c') :
    c'.toGlobals.Tallied env R carried := by
  cases hstep with
  | accept hl =>
    dsimp only
    rw [Globals.connAccepted]
    split_ifs
    · exact ⟨h.ok, h.keeps, h.periods⟩
    · exact ⟨h.ok, h.keeps, h.periods⟩
  | refuse hl => exact h
  | silent hi => exact h
  | callback hi hopen hnew =>
    have h' := (decodeNew_tallied h hnew).1
    dsimp only
    rw [Globals.connClosed]
    split_ifs
    · exact ⟨h'.ok, h'.keeps, h'.periods⟩
    · exact ⟨h'.ok, h'.keeps, h'.periods⟩
    · exact h'
  | wait => exact h
  | rotate hr => exact h.rotate hr
  | timer he hg => exact h.kept hg

/-! ## Runs -/

/-- What holds at every point of a run. -/
structure GatherLoop.Sound (env : Externals Control) (R : TallyRelation)
    (carried : List Registration) (c : GatherLoop Control) : Prop where
  listens : c.Listens
  decoded : c.DecodedOnce env
  tallied : c.toGlobals.Tallied env R carried

theorem GatherLoop.Sound.step (hpeek : PeekLawful env.peek) {c c' : GatherLoop Control}
    {e : LoopEvent} (h : c.Sound env R carried) (hstep : c.Stepped env e c') :
    c'.Sound env R carried :=
  ⟨h.listens.step hstep, h.decoded.step hpeek hstep, h.tallied.step hstep⟩

/-- A process starts with a state that keeps some registrations. -/
theorem sound_carried (options : Options) {params : StateParams} (hok : params.Ok) {s : HonasState}
    (h : R.Keeps params (.ofRegistrations env.sha256 params carried) s) :
    (GatherLoop.start options params s : GatherLoop Control).Sound env R carried := by
  refine ⟨listens_start .., decodedOnce_start options params s, ⟨hok, ⟨?_, exists_dryRun options s⟩, fun i period hi => ?_⟩⟩
  · have hnone : carriedTo carried 0 ++ registrationsOf env (Capture.start options s).subnets [] =
        carried := List.append_nil _
    exact hnone.symm ▸ h
  · obtain ⟨hlt, -⟩ := List.getElem?_eq_some_iff.1 hi
    exact absurd hlt (Nat.not_lt_zero i)

/-- The first one with a new state. -/
theorem sound_start (options : Options) {config : GatherConfig} {now : BitVec 64} {s : HonasState}
    (hc : createState config now = some s) :
    (GatherLoop.start options config.toStateParams s : GatherLoop Control).Sound env R [] := by
  obtain ⟨hok, hrep, howned⟩ := createState_represents hc
  exact sound_carried options hok (R.created hrep howned)

theorem GatherLoop.Sound.run (hpeek : PeekLawful env.peek) {c c' : GatherLoop Control}
    {es : List LoopEvent} (h : c.Sound env R carried) (hrun : c.run env es = some c') :
    c'.Sound env R carried :=
  Run.inv_of_run (C := fun _ => True)
    (fun _ _ _ hs _ he => hs.step hpeek (GatherLoop.step_stepped hpeek he)) h (fun _ _ => trivial) hrun

/-- Nothing is carried over. -/
theorem Globals.Tallied.state {g : Globals} (h : g.Tallied env R []) :
    R.Keeps g.params (.ofRegistrations env.sha256 g.params
      (registrationsOf env g.toCapture.subnets g.frames)) g.currentActiveState := by
  have hkeeps := h.keeps.keeps
  rwa [carriedTo_nil, List.nil_append] at hkeeps

theorem Globals.Tallied.period {g : Globals} (h : g.Tallied env R []) {period : Period}
    (hperiod : period ∈ g.periods) : period.Tallied env R [] := by
  obtain ⟨i, hi⟩ := List.mem_iff_getElem?.1 hperiod
  exact carriedTo_nil i ▸ h.periods i period hi

/-- A state holds some registrations, and nothing else. -/
structure HoldsExactly (sha256 : List Byte → Digest) (p : StateParams) (rs : List Registration)
    (s : HonasState) : Prop extends Shaped p s where
  bits : ∀ f < p.n, ∀ b < 8 * p.len, s.filterBit f b = true ↔ ∃ r ∈ rs, f ∈ p.filtersOf r.hash ∧
    ∃ stored ∈ r.names, b ∈ p.offsets f (sha256 stored.name)
  registers : ∀ c, ∀ r < hllRegisters, s.register c r =
    some (MaxSketch.ofList (rs.flatMap fun reg => reg.entries sha256 c) r)
  requests : s.header .numberOfRequests = rs.length % 2 ^ 64
  times : s.times = rs.foldl (fun times r => nextTimes times r.timestamp.toNat) (0, 0)

theorem Represents.holdsExactly {sha256 : List Byte → Digest} {p : StateParams}
    {rs : List Registration} {s : HonasState}
    (h : Represents p (.ofRegistrations sha256 p rs) s) : HoldsExactly sha256 p rs s := by
  refine ⟨h.toShaped, fun f hf b hb => ?_, fun c r hr => ?_, ?_, ?_⟩
  · rw [filterBit_eq h.toShaped hf hb, h.bits f hf b hb, Tally.mem_ofRegistrations_filters]
  · rw [h.register c hr, Tally.ofRegistrations_regs]
  · rw [h.requests, Tally.ofRegistrations_requests]
  · rw [h.times, Tally.ofRegistrations_times]

end Honas
