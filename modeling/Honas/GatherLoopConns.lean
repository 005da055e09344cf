/-
  The connections in the event loop.

  * `decodeLoop_eq`: `cb_read` with the decoding is `cb_read`, followed by the decoding of
    the data frames that it has recorded.
  * `connAt_run`: in every run each connection is as if it were the only one.
  * `GatherLoop.Listens.step`: the listener is never disabled.
-/
import Honas.GatherLoop
import Honas.GatherProtocol
import Honas.HyperloglogCount
import Honas.Lib.Interleave

namespace Honas

open Bits

variable {Control : Type} {env : Externals Control}

/-! ## Reading and decoding -/

/-- What a round records follows what has been recorded. -/
theorem cbReadRound_entries (hpeek : PeekLawful env.peek) {conn : Connection Control}
    (hclosed : conn.closed = false) :
    conn.entries <+: (cbReadRound env.fs env.peek conn).2.entries := by
  have hsame : ∀ {conn' : Connection Control}, conn'.toSession = conn.toSession →
      conn.entries <+: conn'.entries := fun h =>
    (congrArg Session.entries h).symm ▸ List.prefix_rfl
  have hround : Round env.fs conn (cbReadRound env.fs env.peek conn) :=
    cbReadRound_round hpeek hclosed
  generalize cbReadRound env.fs env.peek conn = r at hround ⊢
  cases hround with
  | skip hne hskip hs => exact hsame hs
  | empty hnil hs => exact hsame hs
  | wait hskip hw hs => exact hsame hs
  | oversized hskip hn hbad hbig hlen hs => exact hsame hs
  | bad hskip hn hbad hs => exact hsame hs
  | @frame conn' n ok hskip hn hbad hlen hs =>
    have he := congrArg (fun r => r.2.entries) hs
    dsimp only at he ⊢
    rw [← he]
    rcases Nat.eq_zero_or_pos (ntohl (conn.evInput.take n) 0) with h0 | h0
    · rcases (consume_control_frame env.fs conn.toSession h0).2.2 with he | ⟨-, he⟩
      · exact ⟨_, he.symm⟩
      · exact he.symm ▸ List.prefix_rfl
    · obtain ⟨valid, unpacked, -, -, he⟩ := consume_data_frame env.fs conn.toSession h0
      exact ⟨_, he.symm⟩

/-- A round after which the loop goes on leaves the connection open. -/
theorem cbReadRound_open (hpeek : PeekLawful env.peek) {conn conn' : Connection Control}
    (hclosed : conn.closed = false) (h : cbReadRound env.fs env.peek conn = (true, conn')) :
    conn'.closed = false := by
  have hround : Round env.fs conn (cbReadRound env.fs env.peek conn) :=
    cbReadRound_round hpeek hclosed
  rw [h] at hround
  cases hround with
  | skip hne hskip hs hc => exact hc.trans hclosed
  | frame hskip hn hbad hlen hs hc => exact hc

theorem cbReadLoop_entries (hpeek : PeekLawful env.peek) : ∀ {fuel : ℕ} {conn : Connection Control},
    conn.closed = false → conn.entries <+: (cbReadLoop env.fs env.peek fuel conn).entries
  | 0, conn, _ => List.prefix_rfl
  | fuel + 1, conn, hclosed => by
    have hentries := cbReadRound_entries hpeek hclosed
    rw [cbReadLoop]
    rcases hr : cbReadRound env.fs env.peek conn with ⟨_ | _, conn'⟩ <;> rw [hr] at hentries
    · exact hentries
    · exact hentries.trans (cbReadLoop_entries hpeek (cbReadRound_open hpeek hclosed hr))

theorem dataFrames_append (entries more : List Entry) :
    dataFrames (entries ++ more) = dataFrames entries ++ dataFrames more := List.filterMap_append

/-- Nothing new is decoded. -/
theorem decodeNew_self (i : ℕ) (now : ℕ → BitVec 64) (entries : List Entry) (g : Globals) :
    g.decodeNew env i now entries entries = some g := by
  rw [Globals.decodeNew, List.drop_length]
  rfl

/-- Decoding may be done in steps. -/
theorem decodeNew_trans (i : ℕ) (now : ℕ → BitVec 64) {before middle after : List Entry}
    (h : before <+: middle) (h' : middle <+: after) (g : Globals) :
    g.decodeNew env i now before after =
      (g.decodeNew env i now before middle).bind fun g => g.decodeNew env i now middle after := by
  obtain ⟨new, rfl⟩ := h
  obtain ⟨newer, rfl⟩ := h'
  simp only [Globals.decodeNew, List.drop_left]
  rw [List.append_assoc, List.drop_left, dataFrames_append, dataFrames_append, List.zipIdx_append,
    List.foldlM_append, List.length_append]
  rfl

/-- **Decoding each frame when it is read** is decoding the frames after they have been
    read. -/
theorem decodeLoop_eq (hpeek : PeekLawful env.peek) {i : ℕ} {now : ℕ → BitVec 64} :
    ∀ {fuel : ℕ} {conn : Connection Control} {g : Globals}, conn.closed = false →
      g.readLoop env i now fuel conn =
        (g.decodeNew env i now conn.entries (cbReadLoop env.fs env.peek fuel conn).entries).map
          fun g => (cbReadLoop env.fs env.peek fuel conn, g)
  | 0, conn, g, _ => by
    rw [cbReadLoop, decodeNew_self]
    rfl
  | fuel + 1, conn, g, hclosed => by
    have hentries := cbReadRound_entries hpeek hclosed
    rw [Globals.readLoop, cbReadLoop]
    rcases hr : cbReadRound env.fs env.peek conn with ⟨_ | _, conn'⟩ <;> rw [hr] at hentries
    · exact (Option.map_eq_bind ..).symm
    · have hopen := cbReadRound_open hpeek hclosed hr
      have hstep : ∀ g : Globals, g.readLoop env i now fuel conn' = _ :=
        fun g => decodeLoop_eq hpeek hopen
      dsimp only
      simp only [if_true, hstep]
      rw [decodeNew_trans i now hentries (cbReadLoop_entries hpeek hopen), Option.map_bind]
      rfl

/-- What a callback does to its connection. -/
def Connection.callback (env : Externals Control) (conn : Connection Control) :
    BufferEvent → Connection Control
  | .read chunk => conn.handle env.fs env.peek (.arrive chunk)
  | .write => conn.handle env.fs env.peek .written
  | .error => if conn.closed then conn else cbCloseConn conn

theorem callback_closed {conn : Connection Control} (hclosed : conn.closed = true) (e : BufferEvent) :
    conn.callback env e = conn := by
  cases e <;> exact if_pos hclosed

/-- What a callback records follows what has been recorded. -/
theorem callback_entries (hpeek : PeekLawful env.peek) (conn : Connection Control)
    (e : BufferEvent) : conn.entries <+: (conn.callback env e).entries := by
  cases hclosed : conn.closed with
  | true => rw [callback_closed hclosed]
  | false =>
    have hne : ¬conn.closed = true := by rw [hclosed]; exact Bool.false_ne_true
    cases e with
    | read chunk =>
      have hopen : ({ conn with evInput := conn.evInput ++ chunk } : Connection Control).closed =
          false := hclosed
      rw [Connection.callback, Connection.handle, if_neg hne]
      exact cbReadLoop_entries hpeek hopen
    | write =>
      rw [Connection.callback, Connection.handle, if_neg hne, cbWrite]
      split_ifs
      · exact List.prefix_rfl
      · exact List.prefix_rfl
    | error =>
      rw [Connection.callback, if_neg hne]
      exact List.prefix_rfl

/-- **A callback** changes its connection as if it were the only one, and decodes the data
    frames that it records. -/
theorem callback_eq (hpeek : PeekLawful env.peek) {i : ℕ} {now : ℕ → BitVec 64}
    {conn : Connection Control} (hclosed : conn.closed = false) (g : Globals) (e : BufferEvent) :
    g.callback env i now conn e =
      (g.decodeNew env i now conn.entries (conn.callback env e).entries).map
        fun g => (conn.callback env e, g) := by
  have hne : ¬conn.closed = true := by rw [hclosed]; exact Bool.false_ne_true
  cases e with
  | read chunk =>
    have hopen : ({ conn with evInput := conn.evInput ++ chunk } : Connection Control).closed =
        false := hclosed
    rw [Connection.callback, Connection.handle, if_neg hne]
    exact decodeLoop_eq hpeek hopen
  | write =>
    have hentries : (cbWrite conn).entries = conn.entries := by
      rw [cbWrite]
      split_ifs <;> rfl
    rw [Connection.callback, Connection.handle, if_neg hne, hentries, decodeNew_self]
    rfl
  | error =>
    rw [Connection.callback, if_neg hne,
      show (cbCloseConn conn).entries = conn.entries from rfl, decodeNew_self]
    rfl

/-! ## What decoding leaves as it is -/

/-- Two globals differ only in what decoding changes. -/
structure Globals.SameLoop (g g' : Globals) : Prop where
  remaining : g'.remainingConnections = g.remainingConnections
  listening : g'.listening = g.listening
  params : g'.params = g.params
  periods : g'.periods = g.periods

theorem decodeFrame_sameLoop {i : ℕ} {now : BitVec 64} {buf : List Byte} {g g' : Globals}
    (h : g.decodeFrame env i now buf = some g') :
    g.SameLoop g' ∧ g'.frames = g.frames ++ [(i, ⟨now, buf⟩)] := by
  rw [Globals.decodeFrame] at h
  generalize env.unpack buf = unpacked at h
  rcases unpacked with _ | _ | m
  · obtain rfl := Option.some.inj h
    exact ⟨⟨rfl, rfl, rfl, rfl⟩, rfl⟩
  · obtain rfl := Option.some.inj h
    exact ⟨⟨rfl, rfl, rfl, rfl⟩, rfl⟩
  · obtain ⟨⟨decoded, ctx⟩, -, h⟩ := Option.bind_eq_some_iff.1 h
    obtain rfl := Option.some.inj h
    cases decoded
    · exact ⟨⟨rfl, rfl, rfl, rfl⟩, rfl⟩
    · exact ⟨⟨rfl, rfl, rfl, rfl⟩, rfl⟩

/-- **What is decoded** is recorded, and was unpacked. -/
theorem decodeNew_sameLoop {i : ℕ} {now : ℕ → BitVec 64} {before after : List Entry}
    {g g' : Globals} (h : g.decodeNew env i now before after = some g') :
    g.SameLoop g' ∧ ∃ frames : List DecodedFrame,
      g'.frames = g.frames ++ frames.map (Prod.mk i) ∧
      dataFrames (after.drop before.length) = frames.map fun frame => some frame.buf := by
  rw [Globals.decodeNew] at h
  generalize dataFrames (after.drop before.length) = new at h ⊢
  generalize (dataFrames before).length = k at h
  induction new generalizing k g with
  | nil =>
    obtain rfl := Option.some.inj h
    exact ⟨⟨rfl, rfl, rfl, rfl⟩, [], (List.append_nil _).symm, rfl⟩
  | cons unpacked new ih =>
    rw [List.zipIdx_cons, List.foldlM_cons] at h
    obtain ⟨g₁, h₁, hrest⟩ := Option.bind_eq_some_iff.1 h
    obtain ⟨buf, rfl, hbuf⟩ := Option.bind_eq_some_iff.1 h₁
    obtain ⟨hsame, hframes⟩ := decodeFrame_sameLoop hbuf
    obtain ⟨hsame', frames, hframes', hnew⟩ := ih _ hrest
    refine ⟨⟨hsame'.remaining.trans hsame.remaining, hsame'.listening.trans hsame.listening,
      hsame'.params.trans hsame.params, hsame'.periods.trans hsame.periods⟩, ⟨now k, buf⟩ :: frames,
      ?_, ?_⟩
    · rw [hframes', hframes, List.append_assoc]
      rfl
    · rw [hnew]
      rfl

/-! ## Timers -/

/-- What the timers of the instrumentation and of the dry run leave as it is. -/
structure Globals.Kept (g g' : Globals) : Prop extends Globals.SameLoop g g' where
  frames : g'.frames = g.frames
  state : g'.currentActiveState = g.currentActiveState
  subnets : g'.toCapture.subnets = g.toCapture.subnets
  dryRun : (∃ dryrun : Option ValidDryRun, g.dryRun = dryrun.map ValidDryRun.counters) →
    ∃ dryrun : Option ValidDryRun, g'.dryRun = dryrun.map ValidDryRun.counters

theorem Globals.Kept.trans {g g' g'' : Globals} (h : g.Kept g') (h' : g'.Kept g'') : g.Kept g'' where
  remaining := h'.remaining.trans h.remaining
  listening := h'.listening.trans h.listening
  params := h'.params.trans h.params
  periods := h'.periods.trans h.periods
  frames := h'.frames.trans h.frames
  state := h'.state.trans h.state
  subnets := h'.subnets.trans h.subnets
  dryRun hd := h'.dryRun (h.dryRun hd)

theorem hllCount_regs (estimate : ℚ → ℕ → BitVec 64) {hll : Hll} {regs : ℕ → ℕ}
    (h : HasRegs hll regs) : HasRegs (hllCount estimate hll).1 regs := by
  rw [hllCount_eq]
  split_ifs
  · exact h
  · exact h

/-- Valid counters that are replaced by valid counters. -/
theorem exists_validDryRun {dryrun dryrun' : DryRunCounters}
    (h : ∃ valid : Option ValidDryRun, some dryrun = valid.map ValidDryRun.counters)
    (hh : (∃ regs, HasRegs dryrun.hourlyGlobal regs) → ∃ regs, HasRegs dryrun'.hourlyGlobal regs)
    (hd : (∃ regs, HasRegs dryrun.dailyGlobal regs) → ∃ regs, HasRegs dryrun'.dailyGlobal regs) :
    ∃ valid : Option ValidDryRun, some dryrun' = valid.map ValidDryRun.counters := by
  obtain ⟨_ | valid, hvalid⟩ := h
  · cases hvalid
  · obtain rfl := Option.some.inj hvalid
    exact ⟨some ⟨dryrun', hh valid.hourly, hd valid.daily⟩, rfl⟩

theorem instrumentationEvent_kept (g : Globals) : g.Kept g.instrumentationEvent :=
  ⟨⟨rfl, rfl, rfl, rfl⟩, rfl, rfl, rfl, id⟩

theorem dryRunAdvice_kept (g : Globals) : g.Kept (g.dryRunAdvice env) := by
  rw [Globals.dryRunAdvice]
  cases hdry : g.dryRun with
  | none => exact ⟨⟨rfl, rfl, rfl, rfl⟩, rfl, rfl, rfl, id⟩
  | some dryrun =>
    refine ⟨⟨rfl, rfl, rfl, rfl⟩, rfl, rfl, rfl, fun h => ?_⟩
    rw [hdry] at h
    exact exists_validDryRun h (fun ⟨regs, hr⟩ => ⟨regs, hllCount_regs _ hr⟩)
      fun ⟨regs, hr⟩ => ⟨regs, hllCount_regs _ hr⟩

theorem dryRunHourlyEvent_kept (now : BitVec 64) (g : Globals) :
    g.Kept (g.dryRunHourlyEvent env now) := by
  rw [Globals.dryRunHourlyEvent]
  cases hdry : g.dryRun with
  | none => exact ⟨⟨rfl, rfl, rfl, rfl⟩, rfl, rfl, rfl, id⟩
  | some dryrun =>
    have hreset : g.Kept { g with
        hourlyMaximum := max g.hourlyMaximum (hllCount env.estimate dryrun.hourlyGlobal).2.toNat
        dryRun := some { dryrun with hourlyGlobal := hllInit, hourlyTotalQueries := 0 } } := by
      refine ⟨⟨rfl, rfl, rfl, rfl⟩, rfl, rfl, rfl, fun h => ?_⟩
      rw [hdry] at h
      exact exists_validDryRun h (fun _ => ⟨_, hllInit_regs⟩) id
    dsimp only
    split_ifs
    · exact hreset.trans (dryRunAdvice_kept _)
    · exact hreset

theorem dryRunDailyEvent_kept (g : Globals) : g.Kept (g.dryRunDailyEvent env) := by
  rw [Globals.dryRunDailyEvent]
  cases hdry : g.dryRun with
  | none => exact ⟨⟨rfl, rfl, rfl, rfl⟩, rfl, rfl, rfl, id⟩
  | some dryrun =>
    refine ⟨⟨rfl, rfl, rfl, rfl⟩, rfl, rfl, rfl, fun h => ?_⟩
    rw [hdry] at h
    exact exists_validDryRun h id fun _ => ⟨_, hllInit_regs⟩

/-! ## One call -/

/-- The timers of the instrumentation and of the dry run. -/
def LoopEvent.IsTimer : LoopEvent → Prop
  | .instrumentation | .dryRunHourly _ | .dryRunDaily => True
  | .accept _ | .conn _ _ _ | .recheck _ _ _ => False

/-- **What a call does.** -/
inductive GatherLoop.Stepped (env : Externals Control) (c : GatherLoop Control) :
    LoopEvent → GatherLoop Control → Prop
  | accept (hl : c.listening = true) :
      Stepped env c (.accept true) ⟨c.connAccepted, c.conns ++ [connInit env.fs]⟩
  | refuse {accepted} (hl : (c.listening && accepted) = false) : Stepped env c (.accept accepted) c
  | silent {i now e} (hi : ∀ conn, c.conns[i]? = some conn → conn.closed = true) :
      Stepped env c (.conn i now e) c
  | callback {i now e conn g} (hi : c.conns[i]? = some conn) (hopen : conn.closed = false)
      (hnew : c.toGlobals.decodeNew env i now conn.entries (conn.callback env e).entries = some g) :
      Stepped env c (.conn i now e) ⟨if (conn.callback env e).closed then g.connClosed else g,
        c.conns.set i (conn.callback env e)⟩
  | wait {now config subnets} : Stepped env c (.recheck now config subnets) c
  | rotate {now config subnets ctx rotation}
      (hr : recheckHandler now config subnets c.toCapture = some (ctx, some rotation)) :
      Stepped env c (.recheck now config subnets) ⟨{ c.toGlobals with
        toCapture := ctx
        params := config.toStateParams
        frames := []
        periods := c.periods ++ [⟨c.params, c.toCapture.subnets, c.frames, rotation⟩] }, c.conns⟩
  | timer {e g} (he : e.IsTimer) (hg : c.toGlobals.Kept g) : Stepped env c e ⟨g, c.conns⟩

theorem connEvent_stepped (hpeek : PeekLawful env.peek) {c c' : GatherLoop Control} {i : ℕ}
    {now : ℕ → BitVec 64} {e : BufferEvent} (h : c.connEvent env i now e = some c') :
    c.Stepped env (.conn i now e) c' := by
  rw [GatherLoop.connEvent] at h
  cases hi : c.conns[i]? with
  | none =>
    rw [hi] at h
    obtain rfl := Option.some.inj h
    exact .silent fun conn hconn => by rw [hi] at hconn; cases hconn
  | some conn =>
    simp only [hi] at h
    by_cases hclosed : conn.closed = true
    · rw [if_pos hclosed] at h
      obtain rfl := Option.some.inj h
      refine .silent fun conn' hconn => ?_
      rw [← Option.some.inj (hi.symm.trans hconn)]
      exact hclosed
    · rw [if_neg hclosed] at h
      have hopen : conn.closed = false := Bool.eq_false_of_not_eq_true hclosed
      obtain ⟨⟨conn', g⟩, he, h⟩ := Option.bind_eq_some_iff.1 h
      rw [callback_eq hpeek hopen] at he
      obtain ⟨g', hnew, heq⟩ := Option.map_eq_some_iff.1 he
      obtain ⟨rfl, rfl⟩ := Prod.mk.inj heq
      obtain rfl := Option.some.inj h
      exact .callback hi hopen hnew

theorem recheck_stepped {c : GatherLoop Control} {now : BitVec 64} {config : GatherConfig}
    {subnets : SubnetActivity} {g : Globals} (h : c.recheck now config subnets = some g) :
    c.Stepped env (.recheck now config subnets) ⟨g, c.conns⟩ := by
  rw [Globals.recheck] at h
  obtain ⟨⟨ctx, rotation⟩, hr, h⟩ := Option.bind_eq_some_iff.1 h
  cases rotation with
  | none =>
    have hctx : ctx = c.toCapture := by
      rw [recheckHandler] at hr
      by_cases hwait : (BitVec.ofNat 64 (c.currentActiveState.header .periodEnd) - now).toInt ≤ 0
      · rw [if_pos hwait] at hr
        obtain ⟨state, -, hr⟩ := Option.bind_eq_some_iff.1 hr
        cases hr
      · rw [if_neg hwait] at hr
        exact (Prod.mk.inj (Option.some.inj hr)).1.symm
    obtain rfl := Option.some.inj h
    rw [hctx]
    exact .wait
  | some rotation =>
    obtain rfl := Option.some.inj h
    exact .rotate hr

theorem GatherLoop.step_stepped (hpeek : PeekLawful env.peek) {c c' : GatherLoop Control}
    {e : LoopEvent} (h : c.step env e = some c') : c.Stepped env e c' := by
  cases e with
  | accept accepted =>
    obtain rfl := Option.some.inj h
    rw [GatherLoop.accept]
    cases hl : (c.listening && accepted) with
    | false => exact .refuse hl
    | true =>
      obtain ⟨hlistening, rfl⟩ := Bool.and_eq_true_iff.1 hl
      exact .accept hlistening
  | conn i now e => exact connEvent_stepped hpeek h
  | recheck now config subnets =>
    obtain ⟨g, hg, h⟩ := Option.bind_eq_some_iff.1 h
    obtain rfl := Option.some.inj h
    exact recheck_stepped hg
  | instrumentation =>
    obtain rfl := Option.some.inj h
    exact .timer trivial (instrumentationEvent_kept _)
  | dryRunHourly now =>
    obtain rfl := Option.some.inj h
    exact .timer trivial (dryRunHourlyEvent_kept now _)
  | dryRunDaily =>
    obtain rfl := Option.some.inj h
    exact .timer trivial (dryRunDailyEvent_kept _)

/-! ## The listener -/

/-- The number of connections that are open. -/
def GatherLoop.openConns (c : GatherLoop Control) : ℕ := c.conns.countP fun conn => !conn.closed

/-- The listener accepts connections, whose number is counted down from minus one. -/
structure GatherLoop.Listens (c : GatherLoop Control) : Prop where
  listening : c.listening = true
  remaining : c.remainingConnections = -1 - c.openConns

theorem countP_set_open {conns : List (Connection Control)} {i : ℕ}
    {conn : Connection Control} (hi : conns[i]? = some conn) (hopen : conn.closed = false)
    (conn' : Connection Control) :
    (conns.set i conn').countP (fun conn => !conn.closed) + (if conn'.closed then 1 else 0) =
      conns.countP fun conn => !conn.closed := by
  obtain ⟨hlt, hget⟩ := List.getElem?_eq_some_iff.1 hi
  have hpos : 0 < conns.countP fun conn => !conn.closed :=
    List.countP_pos_iff.2 ⟨conn, List.mem_of_getElem? hi, by rw [hopen]; rfl⟩
  rw [List.countP_set hlt, hget, hopen]
  cases conn'.closed <;> simp <;> omega

/-- One call: the listener stays enabled. -/
theorem GatherLoop.Listens.step {c c' : GatherLoop Control} {e : LoopEvent} (h : c.Listens)
    (hstep : c.Stepped env e c') : c'.Listens := by
  have hremaining := h.remaining
  rw [GatherLoop.openConns] at hremaining
  cases hstep with
  | accept hl =>
    have hne : ¬c.remainingConnections - 1 = 0 := by omega
    have hg : c.connAccepted = { c.toGlobals with
        remainingConnections := c.remainingConnections - 1 } := if_neg hne
    rw [hg]
    refine ⟨hl, ?_⟩
    rw [GatherLoop.openConns]
    dsimp only
    rw [List.countP_append, List.countP_singleton, if_pos (by rfl)]
    omega
  | refuse hl => exact h
  | silent hi => exact h
  | @callback i now e conn g hi hopen hnew =>
    obtain ⟨hsame, -⟩ := decodeNew_sameLoop hnew
    have hcount := countP_set_open hi hopen (conn.callback env e)
    have hg := hsame.remaining
    by_cases hclosed : (conn.callback env e).closed = true
    · rw [if_pos hclosed] at hcount ⊢
      have hne : ¬g.remainingConnections + 1 = 1 := by omega
      have hgc : g.connClosed = { g with remainingConnections := g.remainingConnections + 1 } :=
        if_neg hne
      rw [hgc]
      refine ⟨hsame.listening.trans h.listening, ?_⟩
      rw [GatherLoop.openConns]
      dsimp only
      omega
    · rw [if_neg hclosed] at hcount ⊢
      refine ⟨hsame.listening.trans h.listening, ?_⟩
      rw [GatherLoop.openConns]
      dsimp only
      omega
  | wait => exact h
  | rotate hr => exact ⟨h.listening, h.remaining⟩
  | timer he hg => exact ⟨hg.listening.trans h.listening, hg.remaining.trans h.remaining⟩

theorem listens_start (options : Options) (params : StateParams) (state : HonasState) :
    (GatherLoop.start options params state : GatherLoop Control).Listens := ⟨rfl, rfl⟩

theorem GatherLoop.Listens.run (hpeek : PeekLawful env.peek) {c c' : GatherLoop Control}
    {es : List LoopEvent} (h : c.Listens) (hrun : c.run env es = some c') : c'.Listens :=
  Run.inv_of_run (C := fun _ => True)
    (fun _ _ _ hl _ he => hl.step (GatherLoop.step_stepped hpeek he)) h (fun _ _ => trivial) hrun

/-! ## Each connection is on its own -/

/-- The callbacks of a connection, where `n` connections have been accepted before. -/
def callbacksOf (i : ℕ) : ℕ → List LoopEvent → List BufferEvent
  | _, [] => []
  | n, .accept true :: es => callbacksOf i (n + 1) es
  | n, .conn j _ e :: es => if j = i ∧ i < n then e :: callbacksOf i n es else callbacksOf i n es
  | n, _ :: es => callbacksOf i n es

/-- The connection with an index; one that is not yet accepted is a new one. -/
def GatherLoop.connAt (env : Externals Control) (c : GatherLoop Control) (i : ℕ) :
    Connection Control :=
  c.conns[i]?.getD (connInit env.fs)

theorem connAt_of_getElem? {c : GatherLoop Control} {i : ℕ} {conn : Connection Control}
    (hi : c.conns[i]? = some conn) : c.connAt env i = conn := by
  rw [GatherLoop.connAt, hi]
  rfl

theorem connAt_append {c : GatherLoop Control} (g : Globals) (i : ℕ) :
    (⟨g, c.conns ++ [connInit env.fs]⟩ : GatherLoop Control).connAt env i = c.connAt env i := by
  rw [GatherLoop.connAt, GatherLoop.connAt, List.getElem?_append]
  split_ifs with hlt
  · rfl
  · rw [List.getElem?_eq_none (Nat.le_of_not_lt hlt), List.getElem?_singleton]
    split_ifs <;> rfl

theorem callback_of_silent {c : GatherLoop Control} {i : ℕ} {e : BufferEvent}
    (hi : ∀ conn, c.conns[i]? = some conn → conn.closed = true) (hlt : i < c.conns.length) :
    (c.connAt env i).callback env e = c.connAt env i := by
  have hget := List.getElem?_eq_getElem hlt
  rw [GatherLoop.connAt, hget]
  exact callback_closed (hi _ hget) e

variable (env) in
/-- Replacing a connection is seen there only. -/
theorem connAt_set {c : GatherLoop Control} {i : ℕ} {conn : Connection Control}
    (hi : c.conns[i]? = some conn) (conn' : Connection Control) (g : Globals) (j : ℕ) :
    (⟨g, c.conns.set i conn'⟩ : GatherLoop Control).connAt env j =
      if i = j then conn' else c.connAt env j := by
  obtain ⟨hlt, -⟩ := List.getElem?_eq_some_iff.1 hi
  rw [GatherLoop.connAt, List.getElem?_set]
  split_ifs
  · rfl
  · rfl

/-- One call moves each connection by its own callbacks. -/
theorem connAt_step (i : ℕ) {c c' : GatherLoop Control} {e : LoopEvent} (h : c.Listens)
    (hstep : c.Stepped env e c') (es : List LoopEvent) :
    (callbacksOf i c.conns.length (e :: es)).foldl (Connection.callback env) (c.connAt env i) =
      (callbacksOf i c'.conns.length es).foldl (Connection.callback env) (c'.connAt env i) := by
  cases hstep with
  | accept hl =>
    rw [connAt_append, callbacksOf, List.length_append, List.length_singleton]
  | @refuse accepted hl =>
    have hfalse : accepted = false := by rwa [h.listening, Bool.true_and] at hl
    rw [hfalse]
    rfl
  | @silent j now e hj =>
    rw [callbacksOf]
    split_ifs with hi
    · obtain ⟨rfl, hlt⟩ := hi
      rw [List.foldl_cons, callback_of_silent hj hlt]
    · rfl
  | @callback j now e conn g hj hopen hnew =>
    obtain ⟨hlt, hget⟩ := List.getElem?_eq_some_iff.1 hj
    rw [callbacksOf, connAt_set env hj, List.length_set]
    by_cases hji : j = i
    · subst hji
      rw [if_pos rfl, if_pos ⟨rfl, hlt⟩, List.foldl_cons, connAt_of_getElem? hj]
    · rw [if_neg hji, if_neg fun hi => hji hi.1]
  | wait => rfl
  | rotate hr => rfl
  | timer htimer hg =>
    have hsame : callbacksOf i c.conns.length (e :: es) = callbacksOf i c.conns.length es := by
      cases e with
      | accept | conn | recheck => exact htimer.elim
      | _ => rfl
    rw [hsame]
    rfl

/-- **Each connection is as if it were the only one.** -/
theorem connAt_run (hpeek : PeekLawful env.peek) (i : ℕ) : ∀ {es : List LoopEvent}
    {c c' : GatherLoop Control}, c.Listens → c.run env es = some c' →
    c'.connAt env i = (callbacksOf i c.conns.length es).foldl (Connection.callback env)
      (c.connAt env i)
  | [], c, c', _, hrun => by
    cases hrun
    rfl
  | e :: es, c, c', h, hrun => by
    obtain ⟨c₁, he, hrest⟩ := Option.bind_eq_some_iff.1 hrun
    have hstep := GatherLoop.step_stepped hpeek he
    rw [connAt_step i h hstep es]
    exact connAt_run hpeek i (h.step hstep) hrest

end Honas
