/-
  What the instrumentation counts in a run of the event loop.

  The counters are written and reset by a timer, while data frames of several connections
  are decoded in several periods.

  `counts_conserved`: what has been written, with what is counted at the end, is what all
  the data frames count, each on its own and with the subnets of its period.
-/
import Honas.GatherLoopRuns

namespace Honas

open Bits

variable {Control : Type} {env : Externals Control} {R : TallyRelation}
  {carried : List Registration}

/-! ## What a frame counts -/

/-- The counters of the instrumentation, and the number of invalid frames. -/
def Globals.counts (g : Globals) : Instrumentation × ℕ := (g.instData, g.nInvalidFrames)

/-- What a frame adds to the counters: what its message counts, and an invalid frame if the
    message is not a query, or its packet is not valid. -/
def DecodedFrame.counts (env : Externals Control) (subnets : Option SubnetActivity)
    (frame : DecodedFrame) : Instrumentation × ℕ :=
  match env.unpack frame.buf with
  | some (some m) => (messageCounts env.ldnsWire2pkt subnets m,
      if (m.clientPacket.bind env.ldnsWire2pkt).isSome then 0 else 1)
  | some none => 0
  | none => 0

/-- What several frames count. -/
def framesCounts (env : Externals Control) (subnets : Option SubnetActivity)
    (frames : List (ℕ × DecodedFrame)) : Instrumentation × ℕ :=
  (frames.map fun x => x.2.counts env subnets).sum

/-- What all frames count, each with the subnets of its period. -/
def Globals.allCounts (env : Externals Control) (g : Globals) : Instrumentation × ℕ :=
  (g.periods.map fun period => framesCounts env period.subnets period.frames).sum +
    framesCounts env g.toCapture.subnets g.frames

theorem framesCounts_append (subnets : Option SubnetActivity) (frames more : List (ℕ × DecodedFrame)) :
    framesCounts env subnets (frames ++ more) =
      framesCounts env subnets frames + framesCounts env subnets more := by
  rw [framesCounts, List.map_append, List.sum_append]
  rfl

/-- What a message returns. -/
theorem decodeDnstapMessage_valid {now : BitVec 64} {ctx ctx' : Capture} {m : DnstapMessage}
    {decoded : Bool} (h : decodeDnstapMessage env.sha256 env.ldnsWire2pkt env.fprExceeds now ctx m =
      some (decoded, ctx')) : decoded = (m.clientPacket.bind env.ldnsWire2pkt).isSome := by
  rw [decodeDnstapMessage] at h
  generalize m.clientPacket = packet at h ⊢
  rcases packet with _ | message
  · exact (Prod.mk.inj (Option.some.inj h)).1.symm
  · rw [Option.bind_some]
    dsimp only at h
    generalize env.ldnsWire2pkt message = parsed at h ⊢
    rcases parsed with _ | question
    · exact (Prod.mk.inj (Option.some.inj h)).1.symm
    · obtain ⟨ctx₁, -, h⟩ := Option.bind_eq_some_iff.1 h
      exact (Prod.mk.inj (Option.some.inj h)).1.symm

theorem decodeFrame_counts {i : ℕ} {now : BitVec 64} {buf : List Byte} {g g' : Globals}
    (h : g.Tallied env R carried) (hd : g.decodeFrame env i now buf = some g') :
    g'.counts = g.counts + DecodedFrame.counts env g.toCapture.subnets ⟨now, buf⟩ := by
  rw [Globals.decodeFrame] at hd
  rw [DecodedFrame.counts]
  generalize env.unpack buf = unpacked at hd
  rcases unpacked with _ | _ | m
  · obtain rfl := Option.some.inj hd
    rfl
  · obtain rfl := Option.some.inj hd
    rfl
  · obtain ⟨⟨decoded, ctx⟩, hdec, hd⟩ := Option.bind_eq_some_iff.1 hd
    have hvalid := decodeDnstapMessage_valid hdec
    have hctx : (decodeDnstapMessage env.sha256 env.ldnsWire2pkt env.fprExceeds now g.toCapture
        m).map Prod.snd = some ctx := by
      rw [hdec]
      rfl
    obtain ⟨-, -, hinst⟩ := h.keeps.decode h.ok hctx
    dsimp only
    rw [← hvalid]
    obtain rfl := Option.some.inj hd
    cases decoded
    · exact Prod.ext hinst rfl
    · exact Prod.ext hinst rfl

theorem decodeNew_counts {i : ℕ} {now : ℕ → BitVec 64} {before after : List Entry}
    {g g' : Globals} (h : g.Tallied env R carried) (hd : g.decodeNew env i now before after = some g') :
    ∃ added, g'.counts = g.counts + added ∧ g'.allCounts env = g.allCounts env + added := by
  rw [Globals.decodeNew] at hd
  have hinv : g'.Tallied env R carried ∧
      ∃ added, g'.counts = g.counts + added ∧ g'.allCounts env = g.allCounts env + added := by
    refine Run.inv_of_run (C := fun _ => True) (I := fun g' => g'.Tallied env R carried ∧
      ∃ added, g'.counts = g.counts + added ∧ g'.allCounts env = g.allCounts env + added) ?_
      ⟨h, 0, (add_zero _).symm, (add_zero _).symm⟩ (fun _ _ => trivial) hd
    rintro g₁ x g₂ ⟨h₁, added, hcounts, hall⟩ - hx
    obtain ⟨buf, -, hbuf⟩ := Option.bind_eq_some_iff.1 hx
    obtain ⟨h₂, hsubnets⟩ := decodeFrame_tallied h₁ hbuf
    obtain ⟨hsame, hframes⟩ := decodeFrame_sameLoop hbuf
    refine ⟨h₂, added + DecodedFrame.counts env g₁.toCapture.subnets ⟨now x.2, buf⟩, ?_, ?_⟩
    · rw [decodeFrame_counts h₁ hbuf, hcounts, add_assoc]
    · rw [← add_assoc, ← hall, Globals.allCounts, hsame.periods, hsubnets, hframes,
        framesCounts_append, ← add_assoc]
      exact congrArg₂ (· + ·) rfl (add_zero _)
  exact hinv.2

/-! ## Reports -/

/-- What a call writes. -/
def GatherLoop.report (c : GatherLoop Control) : LoopEvent → Instrumentation × ℕ
  | .instrumentation => c.counts
  | .accept _ | .conn _ _ _ | .recheck _ _ _ | .dryRunHourly _ | .dryRunDaily => 0

/-- What the calls of a run write, one after the other. -/
def GatherLoop.reports (env : Externals Control) (c : GatherLoop Control) :
    List LoopEvent → List (Instrumentation × ℕ)
  | [] => []
  | e :: es => c.report e :: ((c.step env e).map fun c' => c'.reports env es).getD []

theorem dryRunAdvice_counts (g : Globals) : (g.dryRunAdvice env).counts = g.counts := by
  rw [Globals.dryRunAdvice]
  cases g.dryRun <;> rfl

theorem dryRunHourlyEvent_counts (now : BitVec 64) (g : Globals) :
    (g.dryRunHourlyEvent env now).counts = g.counts := by
  rw [Globals.dryRunHourlyEvent]
  cases g.dryRun with
  | none => rfl
  | some dryrun =>
    dsimp only
    split_ifs
    · exact dryRunAdvice_counts _
    · rfl

theorem dryRunDailyEvent_counts (g : Globals) : (g.dryRunDailyEvent env).counts = g.counts := by
  rw [Globals.dryRunDailyEvent]
  cases g.dryRun <;> rfl

theorem recheckHandler_counts {now : BitVec 64} {config : GatherConfig} {subnets : SubnetActivity}
    {ctx ctx' : Capture} {rotation : Option Rotation}
    (hr : recheckHandler now config subnets ctx = some (ctx', rotation)) :
    ctx'.instData = ctx.instData := by
  rw [recheckHandler] at hr
  by_cases hwait : (BitVec.ofNat 64 (ctx.currentActiveState.header .periodEnd) - now).toInt ≤ 0
  · rw [if_pos hwait] at hr
    obtain ⟨state, -, hr⟩ := Option.bind_eq_some_iff.1 hr
    obtain ⟨rfl, -⟩ := Prod.mk.inj (Option.some.inj hr)
    rfl
  · rw [if_neg hwait] at hr
    obtain ⟨rfl, -⟩ := Prod.mk.inj (Option.some.inj hr)
    rfl

/-- **One call**: what is written and what is counted then grow as the counts of the
    frames. -/
theorem GatherLoop.Sound.step_counts {c c' : GatherLoop Control} {e : LoopEvent} (h : c.Sound env R carried)
    (hstep : c.Stepped env e c') (he : c.step env e = some c') :
    ∃ added, c.report e + c'.counts = c.counts + added ∧
      c'.allCounts env = c.allCounts env + added := by
  cases hstep with
  | accept hl =>
    rw [GatherLoop.report, zero_add, Globals.connAccepted]
    split_ifs <;> exact ⟨0, (add_zero _).symm, (add_zero _).symm⟩
  | refuse hl => exact ⟨0, add_comm _ _, (add_zero _).symm⟩
  | silent hi => exact ⟨0, add_comm _ _, (add_zero _).symm⟩
  | callback hi hopen hnew =>
    obtain ⟨added, hcounts, hall⟩ := decodeNew_counts h.tallied hnew
    rw [GatherLoop.report, zero_add, Globals.connClosed]
    split_ifs
    · exact ⟨added, hcounts, hall⟩
    · exact ⟨added, hcounts, hall⟩
    · exact ⟨added, hcounts, hall⟩
  | wait => exact ⟨0, add_comm _ _, (add_zero _).symm⟩
  | @rotate now config subnets ctx rotation hr =>
    refine ⟨0, ?_, ?_⟩
    · rw [GatherLoop.report, zero_add, add_zero]
      exact congrArg (·, c.nInvalidFrames) (recheckHandler_counts hr)
    · rw [Globals.allCounts, List.map_append, List.sum_append, add_zero]
      exact (add_zero _).trans (congrArg₂ (· + ·) rfl (add_zero _))
  | @timer _ g htimer hg =>
    have hall : g.allCounts env = c.allCounts env + 0 := by
      rw [Globals.allCounts, hg.periods, hg.subnets, hg.frames, add_zero]
      rfl
    refine ⟨0, ?_, hall⟩
    rw [add_zero]
    cases e with
    | accept | conn | recheck => exact htimer.elim
    | instrumentation =>
      obtain rfl : c.instrumentationEvent = g := congrArg GatherLoop.toGlobals (Option.some.inj he)
      exact add_zero _
    | dryRunHourly now =>
      obtain rfl : c.dryRunHourlyEvent env now = g :=
        congrArg GatherLoop.toGlobals (Option.some.inj he)
      exact (zero_add _).trans (dryRunHourlyEvent_counts now _)
    | dryRunDaily =>
      obtain rfl : c.dryRunDailyEvent env = g := congrArg GatherLoop.toGlobals (Option.some.inj he)
      exact (zero_add _).trans (dryRunDailyEvent_counts _)

theorem GatherLoop.Sound.run_counts (hpeek : PeekLawful env.peek) : ∀ {es : List LoopEvent}
    {c c' : GatherLoop Control}, c.Sound env R carried → c.run env es = some c' →
    ∃ added, (c.reports env es).sum + c'.counts = c.counts + added ∧
      c'.allCounts env = c.allCounts env + added
  | [], c, c', _, hrun => by
    cases hrun
    exact ⟨0, add_comm _ _, (add_zero _).symm⟩
  | e :: es, c, c', h, hrun => by
    obtain ⟨c₁, he, hrest⟩ := Option.bind_eq_some_iff.1 hrun
    have hstep := GatherLoop.step_stepped hpeek he
    obtain ⟨added, hcounts, hall⟩ := h.step_counts hstep he
    obtain ⟨more, hcounts', hall'⟩ := (h.step hpeek hstep).run_counts hpeek hrest
    have hreports : c.reports env (e :: es) = c.report e :: c₁.reports env es := by
      rw [GatherLoop.reports, he]
      rfl
    refine ⟨added + more, ?_, by rw [hall', hall, add_assoc]⟩
    rw [hreports, List.sum_cons, add_assoc, hcounts', ← add_assoc, hcounts, add_assoc]

/-- **No query is lost, or counted twice.**  In every run from a created or loaded state the
    reports of the instrumentation, and what is counted at the end, add up to what all data
    frames count. -/
theorem counts_conserved (hpeek : PeekLawful env.peek) {options : Options} {params : StateParams}
    (hok : params.Ok) {s : HonasState} (hs : Active params s) {es : List LoopEvent}
    {c : GatherLoop Control} (hrun : (GatherLoop.start options params s).run env es = some c) :
    ((GatherLoop.start options params s).reports env es).sum + c.counts = c.allCounts env := by
  have hstart : (GatherLoop.start options params s).Sound env anyState [] :=
    sound_carried options hok hs
  obtain ⟨added, hcounts, hall⟩ := hstart.run_counts hpeek hrun
  exact hcounts.trans hall.symm

theorem counts_conserved_twoHours : ∃ s c period, createState hourlyConfig 5 = some s ∧
    (GatherLoop.start noOptions hourlyConfig.toStateParams s).run oneQuery twoHours = some c ∧
    c.periods = [period] ∧
    ((GatherLoop.start noOptions hourlyConfig.toStateParams s).reports oneQuery twoHours).sum +
      c.counts = framesCounts oneQuery period.subnets period.frames +
        framesCounts oneQuery c.toCapture.subnets c.frames := by
  obtain ⟨s, c, period, hc, hrun, hperiods, -⟩ := exists_run_twoHours
  obtain ⟨hok, hs, -⟩ := createState_spec clockReading_hourly.1 hc
  refine ⟨s, c, period, hc, hrun, hperiods, ?_⟩
  rw [counts_conserved oneBlock_lawful hok hs hrun, Globals.allCounts, hperiods,
    List.map_singleton, List.sum_singleton]

end Honas
