/-
  The order of events.

  `order_irrelevant`: neither how the streams of the connections are cut into chunks, nor
  how the chunks are interleaved, nor when they arrive, matters for what a period stores
  and counts.
-/
import Honas.GatherLoopCounts

namespace Honas

open Bits Interleave Reader

variable {Control : Type} {env : Externals Control} {R : TallyRelation}
  {carried : List Registration}

/-! ## What does not depend on the order -/

/-- What arrives on a connection until it fails. -/
def connEvents : List BufferEvent → List ConnEvent
  | [] => []
  | .read chunk :: bs => .arrive chunk :: connEvents bs
  | .write :: bs => .written :: connEvents bs
  | .error :: _ => []

theorem callbacks_closed : ∀ (bs : List BufferEvent) {conn : Connection Control},
    conn.closed = true → bs.foldl (Connection.callback env) conn = conn
  | [], _, _ => rfl
  | b :: bs, conn, hclosed => by
    rw [List.foldl_cons, callback_closed hclosed, callbacks_closed bs hclosed]

/-- The callbacks of a connection are a run of it. -/
theorem callbacks_session : ∀ (bs : List BufferEvent) (conn : Connection Control),
    (bs.foldl (Connection.callback env) conn).toSession =
      (conn.run env.fs env.peek (connEvents bs)).toSession
  | [], _ => rfl
  | .read _ :: bs, _ => callbacks_session bs _
  | .write :: bs, _ => callbacks_session bs _
  | .error :: bs, conn => by
    have hclosed : (conn.callback env .error).closed = true := by
      rw [Connection.callback]
      split_ifs with h
      · exact h
      · rfl
    rw [List.foldl_cons, callbacks_closed bs hclosed, Connection.callback]
    split_ifs <;> rfl

theorem reports_ofConnections : ∀ {es : List LoopEvent} {c : GatherLoop Control},
    (∀ e ∈ es, e.OfConnections) → (c.reports env es).sum = 0
  | [], _, _ => rfl
  | e :: es, c, hes => by
    rw [List.forall_mem_cons] at hes
    have hzero : c.report e = 0 := by
      cases e with
      | accept | conn => rfl
      | recheck | instrumentation | dryRunHourly | dryRunDaily => exact hes.1.elim
    rw [GatherLoop.reports, List.sum_cons, hzero, zero_add]
    cases c.step env e with
    | none => rfl
    | some c' => exact reports_ofConnections hes.2

/-- What is stored for a frame: the client, and the strings. -/
def storedFor (env : Externals Control) (subnets : Option SubnetActivity) (buf : List Byte) :
    Option (BitVec 64 × List StoredName) :=
  (DecodedFrame.registration env subnets ⟨0, buf⟩).map fun r => (r.hash, r.names)

/-- It does not depend on the time. -/
theorem registration_storedFor (subnets : Option SubnetActivity) (frame : DecodedFrame) :
    (frame.registration env subnets).map (fun r => (r.hash, r.names)) =
      storedFor env subnets frame.buf := by
  rw [storedFor, DecodedFrame.registration, DecodedFrame.registration]
  rcases env.unpack frame.buf with _ | _ | m
  · rfl
  · rfl
  · dsimp only
    rw [registrationOf, registrationOf]
    simp only [Option.map_bind, Option.bind_eq_bind, Function.comp_def, Option.map_some]

/-- The frames of several connections, without the times. -/
def untimed (frames : List (ℕ × DecodedFrame)) : List (ℕ × List Byte) :=
  frames.map fun x => (x.1, x.2.buf)

theorem registrationsOf_untimed (subnets : Option SubnetActivity) (frames : List (ℕ × DecodedFrame)) :
    (registrationsOf env subnets frames).map (fun r => (r.hash, r.names)) =
      (untimed frames).filterMap fun x => storedFor env subnets x.2 := by
  rw [registrationsOf, List.map_filterMap, untimed, List.filterMap_map]
  exact List.filterMap_congr fun x _ => registration_storedFor subnets x.2

theorem framesCounts_untimed (subnets : Option SubnetActivity) (frames : List (ℕ × DecodedFrame)) :
    framesCounts env subnets frames =
      ((untimed frames).map fun x => DecodedFrame.counts env subnets ⟨0, x.2⟩).sum := by
  rw [framesCounts, untimed, List.map_map]
  rfl

/-- Two states hold the same lookups: the bits of the filters, the registers of the counters
    and the number of requests are the same. -/
structure SameStored (p : StateParams) (s s' : HonasState) : Prop where
  bits : ∀ f < p.n, ∀ b < 8 * p.len, s'.filterBit f b = s.filterBit f b
  registers : ∀ c, ∀ r < hllRegisters, s'.register c r = s.register c r
  requests : s'.header .numberOfRequests = s.header .numberOfRequests

theorem sameStored_of_perm {sha256 : List Byte → Digest} {p : StateParams}
    {rs rs' : List Registration} {s s' : HonasState} (h : Represents p (.ofRegistrations sha256 p rs) s)
    (h' : Represents p (.ofRegistrations sha256 p rs') s')
    (hperm : (rs.map fun r => (r.hash, r.names)).Perm (rs'.map fun r => (r.hash, r.names))) :
    SameStored p s s' := by
  obtain ⟨hfilters, hregs, hrequests⟩ := Tally.ofRegistrations_perm sha256 p hperm
  refine ⟨fun f hf b hb => ?_, fun c r hr => ?_, ?_⟩
  · rw [filterBit_eq h.toShaped hf hb, filterBit_eq h'.toShaped hf hb, Bool.eq_iff_iff,
      h.bits f hf b hb, h'.bits f hf b hb, hfilters]
  · rw [h.register c hr, h'.register c hr, hregs]
  · rw [h.requests, h'.requests, hrequests]

/-- The bytes that arrive on a connection. -/
def streamOf (i : ℕ) (es : List LoopEvent) : List Byte := arrivals (connEvents (callbacksOf i 0 es))

/-- No input buffer ever holds more than the watermark. -/
def StaysWithinWatermark (env : Externals Control) (es : List LoopEvent) : Prop :=
  ∀ i, WithinWatermark env.fs env.peek (connInit env.fs) (connEvents (callbacksOf i 0 es))

/-- The data frames of a stream. -/
def streamFrames (fs : Fstrm Control) (stream : List Byte) : List (Option (List Byte)) :=
  dataFrames (read (FrameReader.next fs) ⟨(connInit fs).toSession, 0⟩ stream).1.entries

/-- **A connection receives the data frames of its stream.** -/
theorem dataFrames_streamOf (hpeek : PeekLawful env.peek) {es : List LoopEvent} {i : ℕ}
    (hstop : StopLast env.fs (streamOf i es)) (hw : StaysWithinWatermark env es) :
    dataFrames ((callbacksOf i 0 es).foldl (Connection.callback env) (connInit env.fs)).entries =
      streamFrames env.fs (streamOf i es) := by
  obtain ⟨hsession, -⟩ := run_stream hpeek hstop rfl (hw i)
  exact congrArg (fun s => dataFrames s.entries) ((callbacks_session _ _).trans hsession)

/-- What a run within the first period has stored and counted. -/
theorem run_within (hpeek : PeekLawful env.peek) {options : Options} {config : GatherConfig}
    {now : BitVec 64} {s : HonasState} (hc : createState config now = some s)
    {es : List LoopEvent} (hes : ∀ e ∈ es, e.OfConnections) {c : GatherLoop Control}
    (hrun : (GatherLoop.start options config.toStateParams s).run env es = some c) :
    Represents config.toStateParams (.ofRegistrations env.sha256 config.toStateParams
      (registrationsOf env (Capture.start options s).subnets c.frames)) c.currentActiveState ∧
    c.counts = framesCounts env (Capture.start options s).subnets c.frames ∧
    ∀ i, (project i (untimed c.frames)).map some = dataFrames
      ((callbacksOf i 0 es).foldl (Connection.callback env) (connInit env.fs)).entries := by
  have hstart : (GatherLoop.start options config.toStateParams s).Sound env onHeap [] :=
    sound_start options hc
  obtain ⟨hparams, hperiods, hsubnets⟩ :=
    hstart.run_samePeriod hpeek (fun e he => (hes e he).not_isRecheck) hrun
  have hsound := hstart.run hpeek hrun
  refine ⟨?_, ?_, fun i => ?_⟩
  · have hrep := hsound.tallied.state.1
    rw [hparams, hsubnets] at hrep
    exact hrep
  · obtain ⟨added, hcounts, hall⟩ := hstart.run_counts hpeek hrun
    rw [reports_ofConnections hes, zero_add] at hcounts
    rw [hcounts.trans hall.symm, Globals.allCounts, hperiods, hsubnets]
    exact zero_add _
  · have hdecoded := hsound.decoded i
    rw [connAt_run hpeek i hstart.listens hrun, Globals.allFrames, hperiods] at hdecoded
    rw [untimed, project_map, List.map_map]
    exact hdecoded.symm

/-- **The order does not matter.**  Take two runs within a period whose connections receive
    the same streams, each cut into chunks and interleaved with the others in its own way,
    with other times and other blocks in the input buffers.  If one succeeds so does the
    other, and they store the same lookups and count the same. -/
theorem order_irrelevant {peek₂ : EvbufferPeek} (hpeek₁ : PeekLawful env.peek)
    (hpeek₂ : PeekLawful peek₂) {options : Options} {config : GatherConfig} {now : BitVec 64}
    {s : HonasState} (hc : createState config now = some s) {es₁ es₂ : List LoopEvent}
    (hes₁ : ∀ e ∈ es₁, e.OfConnections) (hes₂ : ∀ e ∈ es₂, e.OfConnections)
    (hsame : ∀ i, streamOf i es₂ = streamOf i es₁) (hstop : ∀ i, StopLast env.fs (streamOf i es₁))
    (hw₁ : StaysWithinWatermark env es₁)
    (hw₂ : StaysWithinWatermark { env with peek := peek₂ } es₂) {c₁ : GatherLoop Control}
    (hrun₁ : (GatherLoop.start options config.toStateParams s).run env es₁ = some c₁) :
    ∃ c₂, (GatherLoop.start options config.toStateParams s).run { env with peek := peek₂ } es₂ =
      some c₂ ∧
      SameStored config.toStateParams c₁.currentActiveState c₂.currentActiveState ∧
      c₂.counts = c₁.counts := by
  -- the connections receive the same data frames
  have hframes : ∀ i, dataFrames ((callbacksOf i 0 es₂).foldl
      (Connection.callback { env with peek := peek₂ }) (connInit env.fs)).entries = dataFrames
      ((callbacksOf i 0 es₁).foldl (Connection.callback env) (connInit env.fs)).entries := by
    intro i
    have hstop₂ : StopLast env.fs (streamOf i es₂) := (hsame i).symm ▸ hstop i
    have hread₂ : dataFrames ((callbacksOf i 0 es₂).foldl (Connection.callback
        { env with peek := peek₂ }) (connInit env.fs)).entries =
        streamFrames env.fs (streamOf i es₂) := dataFrames_streamOf hpeek₂ hstop₂ hw₂
    rw [hread₂, hsame i]
    exact (dataFrames_streamOf hpeek₁ (hstop i) hw₁).symm
  -- so they can all be decoded
  have hstart₁ : (GatherLoop.start options config.toStateParams s).Sound env onHeap [] :=
    sound_start options hc
  have hstart₂ : (GatherLoop.start options config.toStateParams s).Sound
    { env with peek := peek₂ } onHeap [] := sound_start options hc
  have hdecodable := (hstart₁.run_isSome hpeek₁ fun e he => (hes₁ e he).not_isRecheck).1 ⟨c₁, hrun₁⟩
  obtain ⟨c₂, hrun₂⟩ := (hstart₂.run_isSome hpeek₂ fun e he => (hes₂ e he).not_isRecheck).2
    fun i unpacked hu => hdecodable i unpacked ((congrArg (unpacked ∈ ·) (hframes i)).mp hu)
  obtain ⟨hrep₁, hcounts₁, hproject₁⟩ := run_within hpeek₁ hc hes₁ hrun₁
  obtain ⟨hrep₂, hcounts₂, hproject₂⟩ := run_within hpeek₂ hc hes₂ hrun₂
  have hperm : (untimed c₁.frames).Perm (untimed c₂.frames) := by
    refine perm_of_project fun i => .of_eq ?_
    refine List.map_injective_iff.2 (Option.some_injective _) ?_
    exact (hproject₁ i).trans ((hframes i).symm.trans (hproject₂ i).symm)
  refine ⟨c₂, hrun₂, sameStored_of_perm hrep₁ hrep₂ ?_, ?_⟩
  · rw [registrationsOf_untimed _ c₁.frames]
    exact (hperm.filterMap _).trans (.of_eq (registrationsOf_untimed _ c₂.frames).symm)
  · rw [hcounts₁, hcounts₂, framesCounts_untimed _ c₁.frames]
    calc _ = ((untimed c₂.frames).map fun x => DecodedFrame.counts env
          (Capture.start options s).subnets ⟨0, x.2⟩).sum := framesCounts_untimed _ c₂.frames
      _ = _ := (hperm.symm.map _).sum_eq

/-- A frame on each of two connections, one after the other. -/
def inTurn : List LoopEvent :=
  [.accept true, .accept true, .conn 0 (fun _ => 5) (.read [0, 0, 0, 1, 0]),
    .conn 1 (fun _ => 6) (.read [0, 0, 0, 1, 0])]

/-- The second one arrives in the middle of the first one. -/
def interleaved : List LoopEvent :=
  [.accept true, .conn 0 (fun _ => 7) (.read [0, 0]), .accept true,
    .conn 1 (fun _ => 8) (.read [0, 0, 0, 1, 0]), .conn 0 (fun _ => 9) (.read [0, 1, 0])]

theorem order_irrelevant_twoFrames : ∃ s c₁ c₂, createState hourlyConfig 5 = some s ∧
    (GatherLoop.start noOptions hourlyConfig.toStateParams s).run oneQuery inTurn = some c₁ ∧
    (GatherLoop.start noOptions hourlyConfig.toStateParams s).run { oneQuery with peek := oneBlock }
      interleaved = some c₂ ∧
    SameStored hourlyConfig.toStateParams c₁.currentActiveState c₂.currentActiveState ∧
    c₂.counts = c₁.counts := by
  obtain ⟨s, hc⟩ := exists_firstState 5
  have hinTurn : ∀ e ∈ inTurn, e.OfConnections :=
    List.forall_mem_cons.2 ⟨trivial, List.forall_mem_cons.2 ⟨trivial,
      List.forall_mem_cons.2 ⟨trivial, List.forall_mem_singleton.2 trivial⟩⟩⟩
  have hinterleaved : ∀ e ∈ interleaved, e.OfConnections :=
    List.forall_mem_cons.2 ⟨trivial, List.forall_mem_cons.2 ⟨trivial,
      List.forall_mem_cons.2 ⟨trivial, List.forall_mem_cons.2 ⟨trivial,
        List.forall_mem_singleton.2 trivial⟩⟩⟩⟩
  have hsame : ∀ i, streamOf i interleaved = streamOf i inTurn := by
    rintro (_ | _ | i)
    · rfl
    · rfl
    · rfl
  have hstop : ∀ i, StopLast oneQuery.fs (streamOf i inTurn) := by
    rintro i before frame after - ⟨-, control, hdecode, -⟩
    cases hdecode
  have hw₁ : StaysWithinWatermark oneQuery inTurn := by
    rintro (_ | _ | i)
    · refine ⟨?_, trivial⟩
      rintro _ ⟨rfl⟩ -
      decide
    · refine ⟨?_, trivial⟩
      rintro _ ⟨rfl⟩ -
      decide
    · trivial
  have hw₂ : StaysWithinWatermark { oneQuery with peek := oneBlock } interleaved := by
    rintro (_ | _ | i)
    · refine ⟨?_, ?_, trivial⟩ <;> rintro _ ⟨rfl⟩ - <;> decide
    · refine ⟨?_, trivial⟩
      rintro _ ⟨rfl⟩ -
      decide
    · trivial
  have hstart : (GatherLoop.start noOptions hourlyConfig.toStateParams s).Sound oneQuery onHeap [] :=
    sound_start noOptions hc
  obtain ⟨c₁, hrun₁⟩ := (hstart.run_isSome oneBlock_lawful
    fun e he => (hinTurn e he).not_isRecheck).2 (by
      rintro (_ | _ | i)
      · exact List.forall_mem_singleton.2 (oneQuery_decodable _)
      · exact List.forall_mem_singleton.2 (oneQuery_decodable _)
      · exact List.forall_mem_nil _)
  obtain ⟨c₂, hrun₂, hstored, hcounts⟩ := order_irrelevant oneBlock_lawful oneBlock_lawful hc
    hinTurn hinterleaved hsame hstop hw₁ hw₂ hrun₁
  exact ⟨s, c₁, c₂, hc, hrun₁, hrun₂, hstored, hcounts⟩

end Honas
