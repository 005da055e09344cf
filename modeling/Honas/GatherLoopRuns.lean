/-
  The runs of the event loop.

  * `run_isSome_iff`: whether the program stops is decided by what arrives on each
    connection alone.
  * `listener_enabled`: the listener is never disabled.
  * `decoded_once`: each data frame of each connection is decoded exactly once, in exactly
    one period, and those of one connection in their order.
  * `period_states`: the state that a rotation saves, and the current one, hold exactly the
    lookups of the frames of their period.
-/
import Honas.GatherLoopPeriods

namespace Honas

open Bits Interleave

variable {Control : Type} {env : Externals Control} {R : TallyRelation}
  {carried : List Registration}

/-! ## What stops the program -/

/-- What a message needs to be processed, with the subnets that are looked up. -/
def Decodable (ldnsWire2pkt : List Byte → Option (List LdnsRr)) (subnets : Option SubnetActivity)
    (m : DnstapMessage) : Prop :=
  ∀ qname qtype, relevantQuestion ldnsWire2pkt m = some (qname, qtype) →
    (∃ bytes, m.queryAddress = some bytes ∧ (bytes.length = 4 ∨ bytes.length = 16)) ∧
    (if qname.bytes.getLast qname.ne_nil = dot then qname.bytes.dropLast
      else qname.bytes).length ≤ 255 ∧
    ∀ metadata, subnets = some metadata → metadata.Ends (queryClient m.queryAddress)

theorem processable_iff {ldnsWire2pkt : List Byte → Option (List LdnsRr)} {ctx : Capture}
    {m : DnstapMessage} : Processable ldnsWire2pkt ctx m ↔ Decodable ldnsWire2pkt ctx.subnets m := by
  have hends : (ctx.aggregateSubnets = true → ctx.subnetMetadata.Ends (queryClient m.queryAddress)) ↔
      ∀ metadata, ctx.subnets = some metadata → metadata.Ends (queryClient m.queryAddress) := by
    rw [Capture.subnets]
    by_cases hagg : ctx.aggregateSubnets = true
    · rw [if_pos hagg]
      exact ⟨fun h metadata hm => Option.some.inj hm ▸ h hagg, fun h _ => h _ rfl⟩
    · rw [if_neg hagg]
      exact ⟨fun _ metadata hm => (by cases hm), fun _ h => absurd h hagg⟩
  rw [Processable, Decodable]
  unfold Registrable
  simp only [hends]

/-- What a data frame needs: it fits in `buf`, and its message, if there is one, can be
    processed. -/
def FrameDecodable (env : Externals Control) (subnets : Option SubnetActivity)
    (unpacked : Option (List Byte)) : Prop :=
  ∃ buf, unpacked = some buf ∧
    ∀ m, env.unpack buf = some (some m) → Decodable env.ldnsWire2pkt subnets m

theorem decodeFrame_isSome (i : ℕ) (now : BitVec 64) {buf : List Byte} {g : Globals}
    (h : g.Tallied env R carried) : (∃ g', g.decodeFrame env i now buf = some g') ↔
      FrameDecodable env g.toCapture.subnets (some buf) := by
  have hframe : FrameDecodable env g.toCapture.subnets (some buf) ↔
      ∀ m, env.unpack buf = some (some m) → Decodable env.ldnsWire2pkt g.toCapture.subnets m :=
    ⟨fun ⟨_, hbuf, hm⟩ => Option.some.inj hbuf ▸ hm, fun hm => ⟨buf, rfl, hm⟩⟩
  rw [hframe, Globals.decodeFrame]
  generalize env.unpack buf = unpacked
  rcases unpacked with _ | _ | m
  · exact ⟨fun _ m hm => (by cases hm), fun _ => ⟨_, rfl⟩⟩
  · exact ⟨fun _ m hm => (by cases hm), fun _ => ⟨_, rfl⟩⟩
  · obtain ⟨hsome, hconv⟩ := decodeDnstapMessage_spec env.sha256 env.ldnsWire2pkt env.fprExceeds
      h.ok now h.keeps.serving m
    constructor
    · rintro ⟨g', hd⟩ m' hm
      obtain rfl := Option.some.inj (Option.some.inj hm)
      obtain ⟨⟨decoded, ctx⟩, hdec, -⟩ := Option.bind_eq_some_iff.1 hd
      exact processable_iff.1 (hconv ctx (Option.map_eq_some_iff.2 ⟨_, hdec, rfl⟩))
    · intro hm
      obtain ⟨ctx, hctx, -⟩ := hsome (processable_iff.2 (hm m rfl))
      obtain ⟨⟨decoded, ctx'⟩, hdec, -⟩ := Option.map_eq_some_iff.1 hctx
      exact ⟨_, Option.bind_eq_some_iff.2 ⟨_, hdec, rfl⟩⟩

theorem decodeNew_isSome (i : ℕ) (now : ℕ → BitVec 64) {before after : List Entry} {g : Globals}
    (h : g.Tallied env R carried) : (∃ g', g.decodeNew env i now before after = some g') ↔
      ∀ unpacked ∈ dataFrames (after.drop before.length),
        FrameDecodable env g.toCapture.subnets unpacked := by
  rw [Globals.decodeNew]
  generalize dataFrames (after.drop before.length) = new
  generalize (dataFrames before).length = k
  induction new generalizing k g with
  | nil => exact ⟨fun _ unpacked hu => absurd hu List.not_mem_nil, fun _ => ⟨g, rfl⟩⟩
  | cons unpacked new ih =>
    rw [List.zipIdx_cons, List.foldlM_cons, List.forall_mem_cons]
    constructor
    · rintro ⟨g', hrun⟩
      obtain ⟨g₁, h₁, hrest⟩ := Option.bind_eq_some_iff.1 hrun
      obtain ⟨buf, rfl, hbuf⟩ := Option.bind_eq_some_iff.1 h₁
      obtain ⟨h', hsubnets⟩ := decodeFrame_tallied h hbuf
      exact ⟨(decodeFrame_isSome i (now k) h).1 ⟨g₁, hbuf⟩, hsubnets ▸ (ih h' (k + 1)).1 ⟨g', hrest⟩⟩
    · rintro ⟨⟨buf, rfl, hm⟩, hnew⟩
      obtain ⟨g₁, hbuf⟩ := (decodeFrame_isSome i (now k) h).2 ⟨buf, rfl, hm⟩
      obtain ⟨h', hsubnets⟩ := decodeFrame_tallied h hbuf
      obtain ⟨g', hrest⟩ := (ih h' (k + 1)).2 (by rwa [hsubnets])
      exact ⟨g', Option.bind_eq_some_iff.2 ⟨g₁, hbuf, hrest⟩⟩

theorem callbacks_entries (hpeek : PeekLawful env.peek) : ∀ (bs : List BufferEvent)
    (conn : Connection Control),
    conn.entries <+: (bs.foldl (Connection.callback env) conn).entries
  | [], _ => List.prefix_rfl
  | b :: bs, conn => (callback_entries hpeek conn b).trans (callbacks_entries hpeek bs _)

/-- The data frames that a connection has received between two points. -/
def newFrames (before after : Connection Control) : List (Option (List Byte)) :=
  dataFrames (after.entries.drop before.entries.length)

theorem newFrames_trans {before middle after : Connection Control}
    (h : before.entries <+: middle.entries) (h' : middle.entries <+: after.entries) :
    newFrames before after = newFrames before middle ++ newFrames middle after := by
  obtain ⟨new, hnew⟩ := h
  obtain ⟨newer, hnewer⟩ := h'
  rw [newFrames, newFrames, newFrames, ← hnewer, ← hnew, List.drop_left, List.append_assoc,
    List.drop_left, ← List.append_assoc, List.drop_left, dataFrames_append]

theorem newFrames_self (conn : Connection Control) : newFrames conn conn = [] := by
  rw [newFrames, List.drop_length]
  rfl

/-- The period may end. -/
def LoopEvent.IsRecheck : LoopEvent → Prop
  | .recheck _ _ _ => True
  | .accept _ | .conn _ _ _ | .instrumentation | .dryRunHourly _ | .dryRunDaily => False

/-- The events of connections. -/
def LoopEvent.OfConnections : LoopEvent → Prop
  | .accept _ | .conn _ _ _ => True
  | .recheck _ _ _ | .instrumentation | .dryRunHourly _ | .dryRunDaily => False

theorem LoopEvent.OfConnections.not_isRecheck {e : LoopEvent} (h : e.OfConnections) :
    ¬e.IsRecheck := by
  cases e with
  | recheck => exact h.elim
  | _ => exact id

/-- A connection after some calls. -/
def GatherLoop.connAfter (env : Externals Control) (c : GatherLoop Control) (es : List LoopEvent)
    (i : ℕ) : Connection Control :=
  (callbacksOf i c.conns.length es).foldl (Connection.callback env) (c.connAt env i)

/-- Within a period the subnets stay as they are. -/
theorem GatherLoop.Sound.step_samePeriod {c c' : GatherLoop Control} {e : LoopEvent}
    (h : c.Sound env R carried) (hstep : c.Stepped env e c') (he : ¬e.IsRecheck) :
    c'.params = c.params ∧ c'.periods = c.periods ∧
      c'.toCapture.subnets = c.toCapture.subnets := by
  cases hstep with
  | accept hl =>
    dsimp only
    rw [Globals.connAccepted]
    split_ifs <;> exact ⟨rfl, rfl, rfl⟩
  | refuse hl => exact ⟨rfl, rfl, rfl⟩
  | silent hi => exact ⟨rfl, rfl, rfl⟩
  | callback hi hopen hnew =>
    obtain ⟨hsame, -⟩ := decodeNew_sameLoop hnew
    obtain ⟨-, hsubnets⟩ := decodeNew_tallied h.tallied hnew
    dsimp only
    rw [Globals.connClosed]
    split_ifs <;> exact ⟨hsame.params, hsame.periods, hsubnets⟩
  | wait => exact ⟨rfl, rfl, rfl⟩
  | rotate hr => exact absurd trivial he
  | timer htimer hg => exact ⟨hg.params, hg.periods, hg.subnets⟩

/-- The callbacks of one call, and of the others. -/
theorem callbacksOf_cons (i n : ℕ) (e : LoopEvent) (es : List LoopEvent) :
    ∃ n', callbacksOf i n (e :: es) = callbacksOf i n [e] ++ callbacksOf i n' es := by
  cases e with
  | accept accepted => cases accepted <;> exact ⟨_, rfl⟩
  | conn j now b =>
    refine ⟨n, ?_⟩
    rw [callbacksOf, callbacksOf]
    split_ifs <;> rfl
  | recheck | instrumentation | dryRunHourly | dryRunDaily => exact ⟨n, rfl⟩

/-- A call within a period succeeds exactly if the data frames that it reads can be decoded. -/
theorem GatherLoop.Sound.step_isSome (hpeek : PeekLawful env.peek) {c : GatherLoop Control}
    {e : LoopEvent} (h : c.Sound env R carried) (he : ¬e.IsRecheck) :
    (∃ c', c.step env e = some c') ↔
      ∀ i, ∀ unpacked ∈ newFrames (c.connAt env i) (c.connAfter env [e] i),
        FrameDecodable env c.toCapture.subnets unpacked := by
  constructor
  · rintro ⟨c', hstep⟩ i unpacked hu
    have hstepped := GatherLoop.step_stepped hpeek hstep
    have hafter : c.connAfter env [e] i = c'.connAt env i := connAt_step i h.listens hstepped []
    rw [hafter] at hu
    -- only a callback moves its connection
    have hnone : c'.connAt env i = c.connAt env i → FrameDecodable env c.toCapture.subnets
        unpacked := by
      intro hsame
      rw [hsame, newFrames_self] at hu
      exact absurd hu List.not_mem_nil
    cases hstepped with
    | accept hl => exact hnone (connAt_append _ i)
    | refuse | silent | wait | rotate | timer => exact hnone rfl
    | @callback j now b conn g hj hopen hnew =>
      by_cases hji : j = i
      · subst hji
        rw [connAt_set env hj, if_pos rfl, connAt_of_getElem? hj] at hu
        exact (decodeNew_isSome j now h.tallied).1 ⟨g, hnew⟩ unpacked hu
      · exact hnone (by rw [connAt_set env hj, if_neg hji])
  · intro hall
    cases e with
    | conn i now b =>
      change ∃ c', c.connEvent env i now b = some c'
      rw [GatherLoop.connEvent]
      cases hi : c.conns[i]? with
      | none => exact ⟨_, rfl⟩
      | some conn =>
        dsimp only
        by_cases hclosed : conn.closed = true
        · rw [if_pos hclosed]
          exact ⟨_, rfl⟩
        · obtain ⟨hlt, -⟩ := List.getElem?_eq_some_iff.1 hi
          have hafter : c.connAfter env [.conn i now b] i = conn.callback env b := by
            rw [GatherLoop.connAfter, callbacksOf, if_pos ⟨rfl, hlt⟩, connAt_of_getElem? hi]
            rfl
          have hnew := hall i
          rw [hafter, connAt_of_getElem? hi] at hnew
          obtain ⟨g, hg⟩ := (decodeNew_isSome i now h.tallied).2 hnew
          rw [if_neg hclosed, callback_eq hpeek (Bool.eq_false_of_not_eq_true hclosed), hg]
          exact ⟨_, rfl⟩
    | recheck now config subnets => exact absurd trivial he
    | accept | instrumentation | dryRunHourly | dryRunDaily => exact ⟨_, rfl⟩

/-- **A run within a period** succeeds exactly if the data frames of each connection can be
    decoded. -/
theorem GatherLoop.Sound.run_isSome (hpeek : PeekLawful env.peek) : ∀ {es : List LoopEvent}
    {c : GatherLoop Control}, c.Sound env R carried → (∀ e ∈ es, ¬e.IsRecheck) →
    ((∃ c', c.run env es = some c') ↔
      ∀ i, ∀ unpacked ∈ newFrames (c.connAt env i) (c.connAfter env es i),
        FrameDecodable env c.toCapture.subnets unpacked)
  | [], c, _, _ => by
    refine ⟨fun _ i unpacked hu => ?_, fun _ => ⟨c, rfl⟩⟩
    have hnone : newFrames (c.connAt env i) (c.connAfter env [] i) = [] := newFrames_self _
    rw [hnone] at hu
    exact absurd hu List.not_mem_nil
  | e :: es, c, h, hes => by
    rw [List.forall_mem_cons] at hes
    -- the frames of the first call, and the others
    have hfirst : ∀ i, newFrames (c.connAt env i) (c.connAfter env (e :: es) i) =
        newFrames (c.connAt env i) (c.connAfter env [e] i) ++
          newFrames (c.connAfter env [e] i) (c.connAfter env (e :: es) i) := by
      intro i
      obtain ⟨n, hn⟩ := callbacksOf_cons i c.conns.length e es
      refine newFrames_trans (callbacks_entries hpeek _ _) ?_
      rw [GatherLoop.connAfter, GatherLoop.connAfter, hn, List.foldl_append]
      exact callbacks_entries hpeek _ _
    have hothers : ∀ {c₁ : GatherLoop Control}, c.Stepped env e c₁ → ∀ i,
        newFrames (c.connAfter env [e] i) (c.connAfter env (e :: es) i) =
          newFrames (c₁.connAt env i) (c₁.connAfter env es i) := fun hstep i =>
      congrArg₂ newFrames (connAt_step i h.listens hstep []) (connAt_step i h.listens hstep es)
    constructor
    · rintro ⟨c', hrun⟩ i unpacked hu
      obtain ⟨c₁, he, hrest⟩ := Option.bind_eq_some_iff.1 hrun
      have hstep := GatherLoop.step_stepped hpeek he
      rw [hfirst, hothers hstep, List.mem_append] at hu
      obtain hu | hu := hu
      · exact (h.step_isSome hpeek hes.1).1 ⟨c₁, he⟩ i unpacked hu
      · rw [← (h.step_samePeriod hstep hes.1).2.2]
        exact ((h.step hpeek hstep).run_isSome hpeek hes.2).1 ⟨c', hrest⟩ i unpacked hu
    · intro hall
      obtain ⟨c₁, he⟩ := (h.step_isSome hpeek hes.1).2 fun i unpacked hu => by
        exact hall i unpacked (by rw [hfirst]; exact List.mem_append_left _ hu)
      have hstep := GatherLoop.step_stepped hpeek he
      obtain ⟨c', hrest⟩ := ((h.step hpeek hstep).run_isSome hpeek hes.2).2 fun i unpacked hu => by
        rw [(h.step_samePeriod hstep hes.1).2.2]
        exact hall i unpacked (by rw [hfirst, hothers hstep]; exact List.mem_append_right _ hu)
      exact ⟨c', Option.bind_eq_some_iff.2 ⟨c₁, he, hrest⟩⟩

/-! ## Within a period -/

/-- Within a period the subnets stay as they are. -/
theorem GatherLoop.Sound.run_samePeriod (hpeek : PeekLawful env.peek) : ∀ {es : List LoopEvent}
    {c c' : GatherLoop Control}, c.Sound env R carried → (∀ e ∈ es, ¬e.IsRecheck) → c.run env es = some c' →
    c'.params = c.params ∧ c'.periods = c.periods ∧ c'.toCapture.subnets = c.toCapture.subnets
  | [], c, c', _, _, hrun => by
    cases hrun
    exact ⟨rfl, rfl, rfl⟩
  | e :: es, c, c', h, hes, hrun => by
    rw [List.forall_mem_cons] at hes
    obtain ⟨c₁, he, hrest⟩ := Option.bind_eq_some_iff.1 hrun
    have hstep := GatherLoop.step_stepped hpeek he
    obtain ⟨hparams, hperiods, hsubnets⟩ := h.step_samePeriod hstep hes.1
    obtain ⟨hparams', hperiods', hsubnets'⟩ := (h.step hpeek hstep).run_samePeriod hpeek hes.2 hrest
    exact ⟨hparams'.trans hparams, hperiods'.trans hperiods, hsubnets'.trans hsubnets⟩

theorem decodeFrame_samePeriod {i : ℕ} {now : BitVec 64} {buf : List Byte} {g g' : Globals}
    (h : g.Tallied env R carried) (hd : g.decodeFrame env i now buf = some g') :
    SamePeriod g.currentActiveState g'.currentActiveState := by
  rw [Globals.decodeFrame] at hd
  generalize env.unpack buf = unpacked at hd
  rcases unpacked with _ | _ | m
  · obtain rfl := Option.some.inj hd
    exact ⟨rfl, rfl⟩
  · obtain rfl := Option.some.inj hd
    exact ⟨rfl, rfl⟩
  · obtain ⟨⟨decoded, ctx⟩, hdec, hd⟩ := Option.bind_eq_some_iff.1 hd
    have hctx : (decodeDnstapMessage env.sha256 env.ldnsWire2pkt env.fprExceeds now g.toCapture
        m).map Prod.snd = some ctx := by
      rw [hdec]
      rfl
    obtain ⟨hsome, hconv⟩ := decodeDnstapMessage_spec env.sha256 env.ldnsWire2pkt env.fprExceeds
      h.ok now h.keeps.serving m
    obtain ⟨ctx', hctx', -, -, hperiod, -⟩ := hsome (hconv ctx hctx)
    obtain rfl : ctx = ctx' := Option.some.inj (hctx.symm.trans hctx')
    obtain rfl := Option.some.inj hd
    cases decoded
    · exact hperiod
    · exact hperiod

theorem decodeNew_samePeriod {i : ℕ} {now : ℕ → BitVec 64} {before after : List Entry}
    {g g' : Globals} (h : g.Tallied env R carried) (hd : g.decodeNew env i now before after = some g') :
    SamePeriod g.currentActiveState g'.currentActiveState := by
  have hinv : g'.Tallied env R carried ∧ SamePeriod g.currentActiveState g'.currentActiveState := by
    refine Run.inv_of_run (C := fun _ => True) (I := fun g' => g'.Tallied env R carried ∧
      SamePeriod g.currentActiveState g'.currentActiveState) ?_ ⟨h, rfl, rfl⟩
      (fun _ _ => trivial) hd
    rintro g₁ x g₂ ⟨h₁, hperiod⟩ - hx
    obtain ⟨buf, -, hbuf⟩ := Option.bind_eq_some_iff.1 hx
    have hperiod' := decodeFrame_samePeriod h₁ hbuf
    exact ⟨(decodeFrame_tallied h₁ hbuf).1, hperiod'.periodBegin.trans hperiod.periodBegin,
      hperiod'.periodEnd.trans hperiod.periodEnd⟩
  exact hinv.2

/-- A call that does not look at the clock keeps the period of the state. -/
theorem GatherLoop.Sound.step_keepsPeriod {c c' : GatherLoop Control} {e : LoopEvent}
    (h : c.Sound env R carried) (hstep : c.Stepped env e c') (he : ¬e.IsRecheck) :
    SamePeriod c.currentActiveState c'.currentActiveState := by
  cases hstep with
  | accept hl =>
    dsimp only
    rw [Globals.connAccepted]
    split_ifs <;> exact ⟨rfl, rfl⟩
  | refuse | silent | wait => exact ⟨rfl, rfl⟩
  | callback hi hopen hnew =>
    have hperiod := decodeNew_samePeriod h.tallied hnew
    dsimp only
    rw [Globals.connClosed]
    split_ifs
    · exact ⟨hperiod.periodBegin, hperiod.periodEnd⟩
    · exact ⟨hperiod.periodBegin, hperiod.periodEnd⟩
    · exact hperiod
  | rotate hr => exact absurd trivial he
  | timer htimer hg => exact ⟨by rw [hg.state], by rw [hg.state]⟩

theorem GatherLoop.Sound.run_keepsPeriod (hpeek : PeekLawful env.peek) {c c' : GatherLoop Control}
    {es : List LoopEvent} (h : c.Sound env R carried) (hes : ∀ e ∈ es, ¬e.IsRecheck)
    (hrun : c.run env es = some c') : SamePeriod c.currentActiveState c'.currentActiveState := by
  have hinv : c'.Sound env R carried ∧ SamePeriod c.currentActiveState c'.currentActiveState := by
    refine Run.inv_of_run (I := fun c' => c'.Sound env R carried ∧
      SamePeriod c.currentActiveState c'.currentActiveState) (C := fun e => ¬e.IsRecheck) ?_
      ⟨h, rfl, rfl⟩ hes hrun
    rintro c₁ e c₂ ⟨hs₁, hperiod⟩ he hstep
    have hstepped := GatherLoop.step_stepped hpeek hstep
    have hperiod' := hs₁.step_keepsPeriod hstepped he
    exact ⟨hs₁.step hpeek hstepped, hperiod'.periodBegin.trans hperiod.periodBegin,
      hperiod'.periodEnd.trans hperiod.periodEnd⟩
  exact hinv.2

/-- **A look at the clock** ends a period that is over. -/
theorem GatherLoop.step_of_due {c : GatherLoop Control}
    (hend : c.currentActiveState.header .periodEnd < 2 ^ 63) {now : BitVec 64}
    (hnow : ClockReading now) (hdue : c.currentActiveState.header .periodEnd ≤ now.toNat)
    {config : GatherConfig} {state : HonasState} (hc : createState config now = some state)
    (subnets : SubnetActivity) :
    ∃ c', c.step env (.recheck now config subnets) = some c' ∧ c'.conns = c.conns ∧
      c'.periods = c.periods ++ [⟨c.params, c.toCapture.subnets, c.frames,
        ⟨c.currentActiveState, c.currentActiveState.fileName, config, state⟩⟩] ∧
      c'.toCapture.subnets = c.toCapture.subnets.map fun _ => subnets := by
  rw [GatherLoop.step, Globals.recheck, recheckHandler_of_due hend hnow hdue hc]
  refine ⟨_, rfl, rfl, rfl, ?_⟩
  rw [Capture.subnets, Capture.subnets]
  cases c.aggregateSubnets <;> rfl

/-! ## A run -/

/-- Libraries that find a query for `a` in every frame. -/
def oneQuery : Externals Unit where
  fs := noControlFstrm
  peek := oneBlock
  unpack _ := some (some ⟨.clientQuery, some [192, 0, 2, 1], some queryForA⟩)
  sha256 _ := zeroDigest
  ldnsWire2pkt := parseQueryForA
  fprExceeds _ _ _ := false
  estimate _ _ := 0

/-- A connection is accepted, and a data frame arrives on it. -/
def oneFrame : List LoopEvent := [.accept true, .conn 0 (fun _ => 5) (.read [0, 0, 0, 1, 0])]

theorem oneFrame_ofConnections : ∀ e ∈ oneFrame, e.OfConnections :=
  List.forall_mem_cons.2 ⟨trivial, List.forall_mem_singleton.2 trivial⟩

theorem decodable_queryForA : Decodable parseQueryForA none
    ⟨.clientQuery, some [192, 0, 2, 1], some queryForA⟩ := by
  intro qname qtype hrelevant
  obtain ⟨rfl, rfl⟩ := Prod.mk.inj (Option.some.inj hrelevant)
  exact ⟨⟨_, rfl, .inl rfl⟩, by decide, fun metadata hm => nomatch hm⟩

theorem oneQuery_decodable (buf : List Byte) : FrameDecodable oneQuery none (some buf) :=
  ⟨buf, rfl, fun _ hm => Option.some.inj (Option.some.inj hm) ▸ decodable_queryForA⟩

/-- The first period can begin. -/
theorem exists_firstState (now : BitVec 64) : ∃ s, createState hourlyConfig now = some s :=
  exists_createState smallParams_ok (by decide) now

theorem exists_run_oneFrame : ∃ s c, createState hourlyConfig 5 = some s ∧
    (GatherLoop.start noOptions hourlyConfig.toStateParams s).run oneQuery oneFrame = some c := by
  obtain ⟨s, hc⟩ := exists_firstState 5
  obtain ⟨c, hrun⟩ := ((sound_start (R := onHeap) noOptions hc).run_isSome oneBlock_lawful fun e he =>
    (oneFrame_ofConnections e he).not_isRecheck).2 (by
      rintro (_ | i)
      · exact List.forall_mem_singleton.2 (oneQuery_decodable _)
      · exact List.forall_mem_nil _)
  exact ⟨s, c, hc, hrun⟩

/-- Two connections are accepted, a data frame arrives on each, and the counters are
    written. -/
def firstHour : List LoopEvent :=
  [.accept true, .accept true, .conn 0 (fun _ => 5) (.read [0, 0, 0, 1, 0]),
    .conn 1 (fun _ => 6) (.read [0, 0, 0, 1, 1]), .instrumentation]

/-- Another frame arrives on the second connection, and the first one fails. -/
def secondHour : List LoopEvent :=
  [.conn 1 (fun _ => 4001) (.read [0, 0, 0, 1, 2]), .conn 0 (fun _ => 4002) .error]

/-- Between them the period ends. -/
def twoHours : List LoopEvent := firstHour ++ .recheck 4000 hourlyConfig noSubnets :: secondHour

theorem firstHour_not_isRecheck : ∀ e ∈ firstHour, ¬e.IsRecheck :=
  List.forall_mem_cons.2 ⟨id, List.forall_mem_cons.2 ⟨id, List.forall_mem_cons.2 ⟨id,
    List.forall_mem_cons.2 ⟨id, List.forall_mem_singleton.2 id⟩⟩⟩⟩

theorem secondHour_not_isRecheck : ∀ e ∈ secondHour, ¬e.IsRecheck :=
  List.forall_mem_cons.2 ⟨id, List.forall_mem_singleton.2 id⟩

/-- What arrives in the second hour fits in the buffer. -/
theorem secondHour_frames (i n : ℕ) : ∀ unpacked ∈ newFrames ((callbacksOf i 0 firstHour).foldl
      (Connection.callback oneQuery) (connInit oneQuery.fs))
    ((callbacksOf i n secondHour).foldl (Connection.callback oneQuery)
      ((callbacksOf i 0 firstHour).foldl (Connection.callback oneQuery) (connInit oneQuery.fs))),
    ∃ buf, unpacked = some buf := by
  rw [secondHour, callbacksOf, callbacksOf]
  rcases i with _ | _ | i
  · rw [if_neg (by omega)]
    split_ifs <;> exact List.forall_mem_nil _
  · rw [if_neg (by omega : ¬(0 = 1 ∧ 1 < n))]
    split_ifs
    · exact List.forall_mem_singleton.2 ⟨_, rfl⟩
    · exact List.forall_mem_nil _
  · rw [if_neg (by omega), if_neg (by omega)]
    exact List.forall_mem_nil _

theorem clockReading_hourly : ClockReading 5 ∧ ClockReading 4000 := by
  unfold ClockReading
  decide

theorem exists_run_twoHours : ∃ s c period, createState hourlyConfig 5 = some s ∧
    (GatherLoop.start noOptions hourlyConfig.toStateParams s).run oneQuery twoHours = some c ∧
    c.periods = [period] ∧ period.rotation.finalized.header .periodEnd ≤ 4000 ∧
    period.subnets = none ∧ ∀ i, (project i period.frames).map (fun frame => some frame.buf) =
      dataFrames ((callbacksOf i 0 firstHour).foldl (Connection.callback oneQuery)
        (connInit oneQuery.fs)).entries := by
  obtain ⟨s, hc⟩ := exists_firstState 5
  obtain ⟨s', hc'⟩ := exists_firstState 4000
  obtain ⟨h5, h4000⟩ := clockReading_hourly
  have hstart : (GatherLoop.start noOptions hourlyConfig.toStateParams s).Sound oneQuery onHeap [] :=
    sound_start noOptions hc
  obtain ⟨c, hrun⟩ := (hstart.run_isSome oneBlock_lawful firstHour_not_isRecheck).2 (by
    rintro (_ | _ | i)
    · exact List.forall_mem_singleton.2 (oneQuery_decodable _)
    · exact List.forall_mem_singleton.2 (oneQuery_decodable _)
    · exact List.forall_mem_nil _)
  have hsound := hstart.run oneBlock_lawful hrun
  obtain ⟨-, hperiods, hsubnets⟩ :=
    hstart.run_samePeriod oneBlock_lawful firstHour_not_isRecheck hrun
  -- the period is still the first one, which ends at 3600
  obtain ⟨-, -, hperiod, hend⟩ := createState_spec h5 hc
  have hsame : c.currentActiveState.header .periodEnd = s.header .periodEnd :=
    (hstart.run_keepsPeriod oneBlock_lawful firstHour_not_isRecheck hrun).periodEnd
  have hdue : c.currentActiveState.header .periodEnd ≤ 4000 := by
    rw [hsame]
    refine hperiod.end_le.trans ?_
    decide
  obtain ⟨c', hstep, hconns, hperiods', hsubnets'⟩ :=
    @GatherLoop.step_of_due Unit oneQuery c (hsame ▸ hend) 4000 h4000 hdue hourlyConfig s' hc'
      noSubnets
  have hsound' := hsound.step oneBlock_lawful (GatherLoop.step_stepped oneBlock_lawful hstep)
  have hat : ∀ i, c'.connAt oneQuery i = (callbacksOf i 0 firstHour).foldl
      (Connection.callback oneQuery) (connInit oneQuery.fs) := fun i => by
    rw [GatherLoop.connAt, hconns]
    exact connAt_run oneBlock_lawful i hstart.listens hrun
  obtain ⟨c'', hrun'⟩ := (hsound'.run_isSome oneBlock_lawful secondHour_not_isRecheck).2 (by
    intro i unpacked hu
    rw [GatherLoop.connAfter, hat] at hu
    obtain ⟨buf, rfl⟩ := secondHour_frames i c'.conns.length unpacked hu
    rw [hsubnets', hsubnets]
    exact oneQuery_decodable buf)
  obtain ⟨-, hperiods'', -⟩ :=
    hsound'.run_samePeriod oneBlock_lawful secondHour_not_isRecheck hrun'
  rw [hperiods', hperiods] at hperiods''
  refine ⟨s, c'', _, hc, ?_, hperiods'', hdue, hsubnets, fun i => ?_⟩
  · rw [GatherLoop.run] at hrun hrun' ⊢
    rw [twoHours, List.foldlM_append, hrun, Option.bind_eq_bind, Option.bind_some, List.foldlM_cons,
      hstep]
    exact hrun'
  · have hdecoded := hsound.decoded i
    rw [Globals.allFrames, hperiods] at hdecoded
    exact hdecoded.symm.trans (congrArg (fun conn => dataFrames conn.entries)
      (connAt_run oneBlock_lawful i hstart.listens hrun))

/-! ## The results -/

/-- **The listener is never disabled**: at every point of a run the count of the remaining
    connections is minus one less the number of open ones, which is never zero or one. -/
theorem listener_enabled (hpeek : PeekLawful env.peek) {options : Options} {params : StateParams}
    {s : HonasState} {es : List LoopEvent} {c : GatherLoop Control}
    (hrun : (GatherLoop.start options params s).run env es = some c) :
    c.listening = true ∧ c.remainingConnections = -1 - c.openConns ∧
      ∀ accepted, (c.accept env accepted).conns.length =
        c.conns.length + if accepted then 1 else 0 := by
  have hlistens := (listens_start options params s).run hpeek hrun
  refine ⟨hlistens.listening, hlistens.remaining, fun accepted => ?_⟩
  rw [GatherLoop.accept, hlistens.listening, Bool.true_and]
  cases accepted with
  | false => rfl
  | true =>
    rw [if_pos rfl, if_pos rfl, List.length_append, List.length_singleton]

theorem listener_enabled_twoHours : ∃ s c, createState hourlyConfig 5 = some s ∧
    (GatherLoop.start noOptions hourlyConfig.toStateParams s).run oneQuery twoHours = some c ∧
    c.listening = true ∧ c.remainingConnections = -1 - c.openConns ∧
    ∀ accepted, (c.accept oneQuery accepted).conns.length =
      c.conns.length + if accepted then 1 else 0 := by
  obtain ⟨s, c, -, hc, hrun, -⟩ := exists_run_twoHours
  exact ⟨s, c, hc, hrun, listener_enabled oneBlock_lawful hrun⟩

/-- **Connections do not interfere.**  In every run each connection is where its own
    callbacks alone bring it, and all its data frames, and no others, are decoded for it:
    each once, and in their order. -/
theorem decoded_once (hpeek : PeekLawful env.peek) {options : Options} {params : StateParams}
    {s : HonasState} {es : List LoopEvent} {c : GatherLoop Control}
    (hrun : (GatherLoop.start options params s).run env es = some c) (i : ℕ) :
    c.connAt env i = (callbacksOf i 0 es).foldl (Connection.callback env) (connInit env.fs) ∧
    (project i c.allFrames).map (fun frame => some frame.buf) =
      dataFrames (c.connAt env i).entries :=
  ⟨connAt_run hpeek i (listens_start options params s) hrun,
    ((decodedOnce_start options params s).run hpeek hrun i).symm⟩

/-- The frames are decoded for their connections. -/
theorem decoded_once_twoHours : ∃ s c, createState hourlyConfig 5 = some s ∧
    (GatherLoop.start noOptions hourlyConfig.toStateParams s).run oneQuery twoHours = some c ∧
    (project 0 c.allFrames).map (fun frame => some frame.buf) = [some [0, 0, 0, 1, 0]] ∧
    (project 1 c.allFrames).map (fun frame => some frame.buf) =
      [some [0, 0, 0, 1, 1], some [0, 0, 0, 1, 2]] := by
  obtain ⟨s, c, -, hc, hrun, -⟩ := exists_run_twoHours
  obtain ⟨hconn, hframes⟩ := decoded_once oneBlock_lawful hrun 0
  obtain ⟨hconn', hframes'⟩ := decoded_once oneBlock_lawful hrun 1
  refine ⟨s, c, hc, hrun, ?_, ?_⟩
  · rw [hframes, hconn]
    decide
  · rw [hframes', hconn']
    decide

/-- **No lookup is lost, stored twice or stored in the wrong period.**  In every run from a new
    state the state that each rotation has saved holds exactly the lookups of the frames decoded
    in its period, and the current state those of the frames decoded since; the frames of all
    periods together are those of all connections. -/
theorem period_states (hpeek : PeekLawful env.peek) {options : Options} {config : GatherConfig}
    {now : BitVec 64} {s : HonasState} (hc : createState config now = some s)
    {es : List LoopEvent} {c : GatherLoop Control}
    (hrun : (GatherLoop.start options config.toStateParams s).run env es = some c) :
    (∀ period ∈ c.periods, HoldsExactly env.sha256 period.params
      (registrationsOf env period.subnets period.frames) period.rotation.finalized) ∧
    HoldsExactly env.sha256 c.params (registrationsOf env c.toCapture.subnets c.frames)
      c.currentActiveState ∧
    ∀ i, (project i (c.periods.flatMap Period.frames ++ c.frames)).map
      (fun frame => some frame.buf) = dataFrames (c.connAt env i).entries := by
  obtain ⟨-, hdecoded, htallied⟩ := (sound_start (R := onHeap) options hc).run hpeek hrun
  exact ⟨fun period hperiod => (htallied.period hperiod).keeps.1.holdsExactly,
    htallied.state.1.holdsExactly, fun i => (hdecoded i).symm⟩

theorem period_states_twoHours : ∃ s c period, createState hourlyConfig 5 = some s ∧
    (GatherLoop.start noOptions hourlyConfig.toStateParams s).run oneQuery twoHours = some c ∧
    c.periods = [period] ∧
    HoldsExactly oneQuery.sha256 period.params
      (registrationsOf oneQuery period.subnets period.frames) period.rotation.finalized ∧
    HoldsExactly oneQuery.sha256 c.params
      (registrationsOf oneQuery c.toCapture.subnets c.frames) c.currentActiveState ∧
    (project 1 (period.frames ++ c.frames)).map (fun frame => some frame.buf) =
      dataFrames (c.connAt oneQuery 1).entries := by
  obtain ⟨s, c, period, hc, hrun, hperiods, -⟩ := exists_run_twoHours
  obtain ⟨hstates, hcurrent, hframes⟩ := period_states oneBlock_lawful hc hrun
  have hall := hframes 1
  rw [hperiods, List.flatMap_singleton] at hall
  exact ⟨s, c, period, hc, hrun, hperiods, hstates period (hperiods ▸ List.mem_singleton_self _),
    hcurrent, hall⟩

end Honas
