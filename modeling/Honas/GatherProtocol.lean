/-
  What the collector guarantees about a connection.

  `frameState` says what a control frame does to the state of a connection.

  * `run_chunks`: how the input is cut into arrivals does not matter.
  * `decoded_iff_handshakeKept`: data frames are decoded whatever the state is;
    they are decoded in `readingData` only if the peer keeps to the protocol.
  * `unpacked_frame`: what is unpacked is never the payload alone.
  * `frameCopied_iff`: which data frames fit in the local buffer.
-/
import Honas.GatherFrames

namespace Honas

open Bits Reader

variable {Control : Type*} {fs : Fstrm Control} {peek : EvbufferPeek}

/-! ## Control frames -/

variable (fs) in
/-- The content types of a READY frame can be read. -/
def contentTypesRead (control : Control) : Bool :=
  match fs.getNumFieldContentType control with
  | none => false
  | some n => (List.range n).all fun i => (fs.getFieldContentType control i).isSome

variable (fs) in
/-- An ACCEPT frame can be sent. -/
def acceptSent (control : Control) : Bool :=
  match fs.setType (fs.reset control) .accept with
  | none => false
  | some control =>
    match fs.addFieldContentType control CONTENT_TYPE with
    | none => false
    | some control =>
      match fs.encode control FSTRM_CONTROL_FRAME_LENGTH_MAX with
      | none => false
      | some frame => fs.write frame

variable (fs) in
/-- A FINISH frame can be sent. -/
def finishSent (control : Control) : Bool :=
  match fs.setType (fs.reset control) .finish with
  | none => false
  | some control =>
    match fs.encode control FSTRM_CONTROL_FRAME_LENGTH_MAX with
    | none => false
    | some frame => fs.write frame

variable (fs) in
/-- The state after a control frame; `none` if it is refused. -/
def controlState (state : ConnState) (control : Control) : Option ConnState :=
  match state, fs.getType control with
  | .readingControlReady, some .ready =>
    if contentTypesRead fs control && (fs.matchFieldContentType control CONTENT_TYPE &&
      acceptSent fs control) then some .readingControlStart else none
  | .readingControlStart, some .start =>
    if fs.matchFieldContentType control CONTENT_TYPE then some .readingData else none
  | .readingData, some .stop => if finishSent fs control then some .stopped else none
  | _, _ => none

variable (fs) in
/-- The state after a frame that holds a control frame. -/
def frameState (state : ConnState) (frame : List Byte) : Option ConnState :=
  if controlLengthBad frame ∨ frame.length ≥ FSTRM_CONTROL_FRAME_LENGTH_MAX then none
  else (fs.decode frame).bind (controlState fs state)

variable (fs) in
theorem writeControlFrame_eq (s : Session Control) :
    (writeControlFrame fs s).1 = (match fs.encode s.control FSTRM_CONTROL_FRAME_LENGTH_MAX with
      | none => false
      | some frame => fs.write frame) ∧
    (writeControlFrame fs s).2.state = s.state ∧
    (writeControlFrame fs s).2.entries = s.entries := by
  rw [writeControlFrame]
  cases fs.encode s.control FSTRM_CONTROL_FRAME_LENGTH_MAX with
  | none => exact ⟨rfl, rfl, rfl⟩
  | some frame =>
    dsimp only
    cases fs.write frame <;> exact ⟨rfl, rfl, rfl⟩

/-- What `process_control_frame` and its parts give: the next state, or a refusal. -/
def Gives (r : Bool × Session Control) (s : Session Control) (state : Option ConnState) : Prop :=
  r.1 = state.isSome ∧ r.2.state = state.getD s.state ∧ r.2.entries = s.entries

theorem gives_none {s s' : Session Control} (hst : s'.state = s.state)
    (he : s'.entries = s.entries) : Gives (false, s') s none :=
  ⟨rfl, hst, he⟩

/-- A check that may refuse. -/
theorem gives_and {s : Session Control} {r : Bool × Session Control} {b c : Bool} {st : ConnState}
    (h : b = true → Gives r s (if c then some st else none)) :
    Gives (if !b then (false, s) else r) s (if b && c then some st else none) := by
  cases b with
  | false => exact gives_none rfl rfl
  | true => exact h rfl

/-- Sending a frame, then changing the state. -/
theorem gives_write {s s' : Session Control} {st : ConnState} (hst : s'.state = s.state)
    (he : s'.entries = s.entries) :
    Gives (if !(writeControlFrame fs s').1 then (false, (writeControlFrame fs s').2)
      else (true, { (writeControlFrame fs s').2 with state := st })) s
      (if (match fs.encode s'.control FSTRM_CONTROL_FRAME_LENGTH_MAX with
        | none => false
        | some frame => fs.write frame) then some st else none) := by
  obtain ⟨hw, hs, hent⟩ := writeControlFrame_eq fs s'
  rw [← hw]
  rcases h : writeControlFrame fs s' with ⟨_ | _, s''⟩ <;> rw [h] at hs hent
  · exact gives_none (hs.trans hst) (hent.trans he)
  · exact ⟨rfl, rfl, hent.trans he⟩

theorem processControlFrameReady_gives (s : Session Control) :
    Gives (processControlFrameReady fs s) s
      (if contentTypesRead fs s.control && (fs.matchFieldContentType s.control CONTENT_TYPE &&
        acceptSent fs s.control) then some .readingControlStart else none) := by
  rw [processControlFrameReady, contentTypesRead]
  rcases fs.getNumFieldContentType s.control with _ | n
  · exact gives_none rfl rfl
  refine gives_and fun _ => gives_and fun _ => ?_
  rw [acceptSent]
  rcases Option.eq_none_or_eq_some (fs.setType (fs.reset s.control) .accept) with hc | ⟨control, hc⟩
  · simp only [hc]
    exact gives_none rfl rfl
  rcases Option.eq_none_or_eq_some (fs.addFieldContentType control CONTENT_TYPE) with
    hc' | ⟨control', hc'⟩
  · simp only [hc, hc']
    exact gives_none rfl rfl
  · simp only [hc, hc']
    exact gives_write rfl rfl

theorem processControlFrameStart_gives (s : Session Control) :
    Gives (processControlFrameStart fs s) s
      (if fs.matchFieldContentType s.control CONTENT_TYPE then some .readingData else none) := by
  rw [processControlFrameStart, matchContentType]
  cases fs.matchFieldContentType s.control CONTENT_TYPE with
  | false => exact gives_none rfl rfl
  | true => exact ⟨rfl, rfl, rfl⟩

theorem processControlFrameStop_gives (s : Session Control) :
    Gives (processControlFrameStop fs s) s
      (if finishSent fs s.control then some .stopped else none) := by
  rw [processControlFrameStop, finishSent]
  rcases Option.eq_none_or_eq_some (fs.setType (fs.reset s.control) .finish) with hc | ⟨control, hc⟩
  · simp only [hc]
    exact gives_none rfl rfl
  · simp only [hc]
    exact gives_write rfl rfl

variable (fs) in
/-- **What a control frame does.** -/
theorem processControlFrame_gives (s : Session Control) :
    Gives (processControlFrame fs s) s (controlState fs s.state s.control) := by
  rw [processControlFrame, controlState.eq_def]
  cases ht : fs.getType s.control with
  | none => cases s.state <;> exact gives_none rfl rfl
  | some type =>
    dsimp only
    cases s.state with
    | readingControlReady =>
      cases type with
      | ready => exact processControlFrameReady_gives s
      | _ => exact gives_none rfl rfl
    | readingControlStart =>
      cases type with
      | start => exact processControlFrameStart_gives s
      | _ => exact gives_none rfl rfl
    | readingData =>
      cases type with
      | stop => exact processControlFrameStop_gives s
      | _ => exact gives_none rfl rfl
    | stopped => cases type <;> exact gives_none rfl rfl

variable (fs) in
/-- Consuming a control frame: the state, and that the frame is recorded unless it
    ends the connection. -/
theorem consume_control_frame (s : Session Control) {frame : List Byte} (h0 : ntohl frame 0 = 0) :
    (s.consume fs frame).1 = (frameState fs s.state frame).isSome ∧
    (s.consume fs frame).2.state = (frameState fs s.state frame).getD s.state ∧
    ((s.consume fs frame).2.entries = s.entries ++ [.control s.state frame] ∨
      (s.consume fs frame).1 = false ∧ (s.consume fs frame).2.entries = s.entries) := by
  rw [frameState]
  by_cases hbad : controlLengthBad frame = true
  · rw [Session.consume_refused h0 (.inl hbad), if_pos (.inl hbad)]
    exact ⟨rfl, rfl, .inr ⟨rfl, rfl⟩⟩
  by_cases hlen : frame.length ≥ FSTRM_CONTROL_FRAME_LENGTH_MAX
  · rw [Session.consume_refused h0 (.inr (.inl hlen)), if_pos (.inr hlen)]
    exact ⟨rfl, rfl, .inr ⟨rfl, rfl⟩⟩
  rw [if_neg (not_or.2 ⟨hbad, hlen⟩)]
  cases hd : fs.decode frame with
  | none =>
    rw [Session.consume_refused h0 (.inr (.inr hd))]
    exact ⟨rfl, rfl, .inr ⟨rfl, rfl⟩⟩
  | some control =>
    rw [Session.consume_control h0 hbad hlen hd]
    obtain ⟨hok, hst, he⟩ := processControlFrame_gives fs { s with
      control := control, entries := s.entries ++ [.control s.state frame] }
    exact ⟨hok, hst, .inl he⟩

variable (fs) in
/-- Consuming a data frame. -/
theorem consume_data_frame (s : Session Control) {frame : List Byte} (h0 : 0 < ntohl frame 0) :
    ∃ valid unpacked, (s.consume fs frame).1 = true ∧ (s.consume fs frame).2.state = s.state ∧
      (s.consume fs frame).2.entries = s.entries ++ [.data s.state frame valid unpacked] := by
  rw [Session.consume, if_pos h0]
  exact ⟨_, _, rfl, rfl, rfl⟩

/-! ## The frames that are consumed -/

variable (fs) in
/-- The frames consumed are the first ones, and all if the connection does not end. -/
theorem consumeAll_frames : ∀ {frs : List (List Byte)} (s : Session Control),
    (∀ frame ∈ frs, frame.length ≤ CAPTURE_HIGH_WATERMARK) →
    ∃ consumed others, frs = consumed ++ others ∧
      (s.consumeAll fs frs).1.entries.map Entry.frame = s.entries.map Entry.frame ++ consumed ∧
      ((s.consumeAll fs frs).2 = true → others = [])
  | [], s, _ => ⟨[], [], rfl, (List.append_nil _).symm, fun _ => rfl⟩
  | frame :: rest, s, hfit => by
    have hfit' : ∀ frame ∈ rest, frame.length ≤ CAPTURE_HIGH_WATERMARK :=
      fun f hf => hfit f (List.mem_cons_of_mem _ hf)
    have hframe := hfit frame List.mem_cons_self
    have hrecorded : ((s.consume fs frame).2.entries.map Entry.frame =
        s.entries.map Entry.frame ++ [frame]) ∨ (s.consume fs frame).1 = false ∧
          (s.consume fs frame).2.entries = s.entries := by
      rcases Nat.eq_zero_or_pos (ntohl frame 0) with h0 | h0
      · rcases (consume_control_frame fs s h0).2.2 with he | he
        · exact .inl (by rw [he, List.map_append]; rfl)
        · exact .inr he
      · obtain ⟨valid, unpacked, -, -, he⟩ := consume_data_frame fs s h0
        exact .inl (by rw [he, List.map_append]; rfl)
    rw [Session.consumeAll, if_neg (by omega)]
    rcases hc : s.consume fs frame with ⟨_ | _, s'⟩ <;> rw [hc] at hrecorded
    · rcases hrecorded with he | ⟨-, he⟩
      · exact ⟨[frame], rest, rfl, he, fun hall => Bool.noConfusion hall⟩
      · exact ⟨[], frame :: rest, rfl, by dsimp only at he ⊢; rw [he, List.append_nil], fun hall => Bool.noConfusion hall⟩
    · obtain he | ⟨h, -⟩ := hrecorded
      · obtain ⟨consumed, others, hrest, hmap, hall⟩ := consumeAll_frames s' hfit'
        refine ⟨frame :: consumed, others, by rw [hrest]; rfl, ?_, hall⟩
        dsimp only at he ⊢
        rw [hmap, he, List.append_assoc, List.singleton_append]
      · cases h

variable (fs) in
/-- A STOP frame. -/
def IsStop (frame : List Byte) : Prop :=
  ntohl frame 0 = 0 ∧ ∃ control, fs.decode frame = some control ∧ fs.getType control = some .stop

theorem isStop_of_frameState {state : ConnState} {frame : List Byte} (h0 : ntohl frame 0 = 0)
    (h : frameState fs state frame = some .stopped) : IsStop fs frame := by
  rw [frameState] at h
  split_ifs at h
  obtain ⟨control, hd, hc⟩ := Option.bind_eq_some_iff.1 h
  refine ⟨h0, control, hd, ?_⟩
  rw [controlState.eq_def] at hc
  cases state <;> cases ht : fs.getType control with
  | none => rw [ht] at hc; cases hc
  | some type =>
    rw [ht] at hc
    cases type <;> first | rfl | (dsimp only at hc; split_ifs at hc <;> cases hc) | cases hc

/-- Only a STOP frame stops, and if nothing follows it the connection goes on until then. -/
theorem consumeAll_stopped : ∀ {frs : List (List Byte)} {s : Session Control},
    s.state ≠ .stopped → (s.consumeAll fs frs).1.state = .stopped →
    ∃ before frame after, frs = before ++ frame :: after ∧ IsStop fs frame ∧
      (after = [] → (s.consumeAll fs frs).2 = true)
  | [], s, h, hend => absurd hend h
  | frame :: rest, s, h, hend => by
    have hnext : ∀ {s' : Session Control}, s'.state ≠ .stopped →
        (s'.consumeAll fs rest).1.state = .stopped →
        ∃ before frame' after, frame :: rest = before ++ frame' :: after ∧ IsStop fs frame' ∧
          (after = [] → (s'.consumeAll fs rest).2 = true) := by
      intro s' h' hend'
      obtain ⟨before, frame', after, hrest, hstop, hall⟩ := consumeAll_stopped h' hend'
      exact ⟨frame :: before, frame', after, by rw [hrest]; rfl, hstop, hall⟩
    rw [Session.consumeAll] at hend ⊢
    by_cases hbig : ntohl frame 0 > 0 ∧ frame.length > CAPTURE_HIGH_WATERMARK
    · rw [if_pos hbig] at hend ⊢
      exact hnext h hend
    rw [if_neg hbig] at hend ⊢
    rcases Nat.eq_zero_or_pos (ntohl frame 0) with h0 | h0
    · obtain ⟨hok, hst, -⟩ := consume_control_frame fs s h0
      by_cases hstop : frameState fs s.state frame = some .stopped
      · refine ⟨[], frame, rest, rfl, isStop_of_frameState h0 hstop, fun hnil => ?_⟩
        rw [hstop] at hok
        rcases hc : s.consume fs frame with ⟨_ | _, s'⟩ <;> rw [hc] at hok
        · cases hok
        · rw [hnil]
          rfl
      · have hne : (s.consume fs frame).2.state ≠ .stopped := by
          rw [hst]
          cases hf : frameState fs s.state frame with
          | none => exact h
          | some state => exact fun h' => hstop (by rw [hf]; exact congrArg some h')
        rcases hc : s.consume fs frame with ⟨_ | _, s'⟩ <;> rw [hc] at hend hne
        · exact absurd hend hne
        · exact hnext hne hend
    · obtain ⟨valid, unpacked, -, hst, -⟩ := consume_data_frame fs s h0
      rcases hc : s.consume fs frame with ⟨_ | _, s'⟩ <;> rw [hc] at hend hst
      · exact absurd (hst.symm.trans hend) h
      · exact hnext (by rw [hst]; exact h) hend

/-! ## The arrivals do not matter -/

variable (fs) in
/-- Nothing follows a STOP frame in a stream. -/
def StopLast (stream : List Byte) : Prop :=
  ∀ before frame after, frames stream = before ++ frame :: after → IsStop fs frame →
    after = [] ∧ framesRest stream = []

/-- What a connection has done with a stream. -/
theorem run_stream (hpeek : PeekLawful peek) {stream : List Byte} {es : List ConnEvent}
    (hstop : StopLast fs stream) (ha : arrivals es = stream)
    (hw : WithinWatermark fs peek (connInit fs) es) :
    ((connInit fs).run fs peek es).toSession =
      (read (FrameReader.next fs) ⟨(connInit fs).toSession, 0⟩ stream).1.toSession ∧
    (((connInit fs).run fs peek es).closed =
        (read (FrameReader.next fs) ⟨(connInit fs).toSession, 0⟩ stream).2.isNone ∨
      ((connInit fs).run fs peek es).state = .stopped) := by
  rcases run_follows hpeek connInit_follows hw with hrun | ⟨seen, unseen, hs, -, hc, hst, hsess⟩
  · rw [List.nil_append, ha] at hrun
    rcases hr : read (FrameReader.next fs) ⟨(connInit fs).toSession, 0⟩ stream with
      ⟨s', _ | rest⟩ <;> rw [hr] at hrun
    · exact ⟨hrun.2, .inl hrun.1⟩
    · exact ⟨hrun.2.1, .inl hrun.1⟩
  · -- the STOP frame has been read, and nothing follows it
    rw [List.nil_append] at hsess
    have hsession := (read_frames fs (connInit fs).toSession seen).1
    obtain ⟨before, frame, after, hseen, hframe, -⟩ :=
      consumeAll_stopped (by rintro ⟨⟩) ((congrArg Session.state (hsess.trans hsession)).symm.trans hst)
    have hstream : seen ++ unseen = stream := hs.symm.trans ha
    obtain ⟨more, hmore⟩ := frames_append seen unseen
    rw [hstream, hseen, List.append_assoc, List.cons_append] at hmore
    obtain ⟨hafter, hrest⟩ := hstop before frame (after ++ more) hmore.symm hframe
    have hframes : frames stream = frames seen := by
      rw [← hmore, hseen, hafter, (List.append_eq_nil_iff.1 hafter).1]
    have hall : (frames seen).flatten = stream := by
      have := frames_prefix stream
      rwa [hrest, List.append_nil, hframes] at this
    have hlen : stream.length ≤ seen.length := by
      rw [← hall]
      conv => rhs; rw [← frames_prefix seen]
      rw [List.length_append]
      exact Nat.le_add_right _ _
    have hnil : unseen = [] := by
      rw [← hstream, List.length_append] at hlen
      exact List.eq_nil_of_length_eq_zero (by omega)
    rw [hnil, List.append_nil] at hstream
    rw [hstream] at hsess
    exact ⟨hsess, .inr hst⟩

/-- **How a stream is cut into arrivals does not matter.**  The same frames are
    consumed, with the same bytes and effects; these are the first frames of the
    stream, and all if the connection was not shut down.  A connection that has
    received a STOP is closed by the write callback. -/
theorem run_chunks {peek₁ peek₂ : EvbufferPeek} (hpeek₁ : PeekLawful peek₁)
    (hpeek₂ : PeekLawful peek₂) {stream : List Byte}
    (hfit : ∀ frame ∈ frames stream, frame.length ≤ CAPTURE_HIGH_WATERMARK)
    (hstop : StopLast fs stream) {es₁ es₂ : List ConnEvent}
    (ha₁ : arrivals es₁ = stream) (ha₂ : arrivals es₂ = stream)
    (hw₁ : WithinWatermark fs peek₁ (connInit fs) es₁)
    (hw₂ : WithinWatermark fs peek₂ (connInit fs) es₂) :
    let conn₁ := (connInit fs).run fs peek₁ es₁
    let conn₂ := (connInit fs).run fs peek₂ es₂
    conn₁.entries = conn₂.entries ∧ conn₁.state = conn₂.state ∧
    (conn₁.closed = conn₂.closed ∨ conn₁.state = .stopped) ∧
    conn₁.entries.map Entry.frame <+: frames stream ∧
    (conn₁.closed = false ∨ conn₁.state = .stopped →
      conn₁.entries.map Entry.frame = frames stream) := by
  intro conn₁ conn₂
  obtain ⟨hs₁, hc₁⟩ := run_stream hpeek₁ hstop ha₁ hw₁
  obtain ⟨hs₂, hc₂⟩ := run_stream hpeek₂ hstop ha₂ hw₂
  have hsession : conn₁.toSession = conn₂.toSession := hs₁.trans hs₂.symm
  have hstate : conn₁.state = conn₂.state := congrArg Session.state hsession
  obtain ⟨hread, hopen⟩ := read_frames fs (connInit fs).toSession stream
  obtain ⟨consumed, others, hframes, hmap, hall⟩ :=
    consumeAll_frames fs (connInit fs).toSession hfit
  have hentries : conn₁.entries.map Entry.frame = consumed := by
    have : conn₁.toSession = _ := hs₁.trans hread
    rw [show conn₁.entries = _ from congrArg Session.entries this, hmap]
    rfl
  refine ⟨congrArg Session.entries hsession, hstate, ?_, ?_, ?_⟩
  · rcases hc₁ with hc₁ | hc₁
    · rcases hc₂ with hc₂ | hc₂
      · exact .inl (hc₁.trans hc₂.symm)
      · exact .inr (hstate.trans hc₂)
    · exact .inr hc₁
  · rw [hentries, hframes]
    exact List.prefix_append _ _
  · intro hend
    have htrue : ((connInit fs).toSession.consumeAll fs (frames stream)).2 = true := by
      by_cases hst : conn₁.state = .stopped
      · rw [show conn₁.state = _ from congrArg Session.state (hs₁.trans hread)] at hst
        obtain ⟨before, frame, after, hfr, hframe, hafter⟩ := consumeAll_stopped (by rintro ⟨⟩) hst
        exact hafter (hstop before frame after hfr hframe).1
      · refine hopen fun hnone => ?_
        rw [hnone] at hc₁
        rcases hc₁ with hc₁ | hc₁
        · exact absurd (hend.resolve_right hst) (by rw [hc₁]; nofun)
        · exact hst hc₁
    rw [hentries, hframes, hall htrue, List.append_nil]

/-- A library that knows no control frame; enough for streams of data frames. -/
def noControlFstrm : Fstrm Unit where
  init := ()
  decode _ := none
  getType _ := none
  getNumFieldContentType _ := some 0
  getFieldContentType _ _ := none
  matchFieldContentType _ _ := true
  reset _ := ()
  setType _ _ := some ()
  addFieldContentType _ _ := some ()
  encode _ _ := none
  write _ := true

/-- An input buffer in one block. -/
def oneBlock : EvbufferPeek := fun _ buf n => [buf.take n]

theorem oneBlock_lawful : PeekLawful oneBlock := fun k buf n _ => by
  rw [oneBlock, List.flatten_singleton, List.take_take, Nat.min_self]

/-- One data frame, in one arrival or in two. -/
theorem run_chunks_dataFrame :
    ((connInit noControlFstrm).run noControlFstrm oneBlock [.arrive [0, 0, 0, 1, 0]]).entries =
    ((connInit noControlFstrm).run noControlFstrm oneBlock
      [.arrive [0, 0], .arrive [0, 1, 0]]).entries := by
  have hframes : frames [0, 0, 0, 1, 0] = [[0, 0, 0, 1, 0]] := by decide
  have hstop : StopLast noControlFstrm [0, 0, 0, 1, 0] := by
    intro before frame after hfr hframe
    have hmem : frame ∈ frames [0, 0, 0, 1, 0] := by rw [hfr]; simp
    rw [hframes, List.mem_singleton] at hmem
    rw [hmem] at hframe
    exact absurd hframe.1 (by decide)
  have hw₁ : WithinWatermark noControlFstrm oneBlock (connInit noControlFstrm)
      [.arrive [0, 0, 0, 1, 0]] := by
    refine ⟨?_, trivial⟩
    rintro _ ⟨rfl⟩ -
    decide
  have hw₂ : WithinWatermark noControlFstrm oneBlock (connInit noControlFstrm)
      [.arrive [0, 0], .arrive [0, 1, 0]] := by
    refine ⟨?_, ?_, trivial⟩ <;> rintro _ ⟨rfl⟩ - <;> decide
  exact (run_chunks oneBlock_lawful oneBlock_lawful (by rw [hframes]; decide) hstop rfl rfl hw₁ hw₂).1

/-! ## When data frames are decoded -/

/-- The control frames among those consumed. -/
def controlFrames (entries : List Entry) : List (List Byte) :=
  (entries.filter fun entry => !entry.isData).map Entry.frame

variable (fs) in
/-- A control frame of a type, with a content type that matches. -/
def Accepted (type : FstrmControlType) (frame : List Byte) : Prop :=
  ∃ control, fs.decode frame = some control ∧ fs.getType control = some type ∧
    fs.matchFieldContentType control CONTENT_TYPE = true

variable (fs) in
/-- Every data frame that reached the decoder did so in `readingData`: the control
    frames before it are a READY and a START that were accepted. -/
def DecodedWhileReading (entries : List Entry) : Prop :=
  ∀ before state frame valid unpacked after,
    entries = before ++ .data state frame valid unpacked :: after →
    state = .readingData ∧ ∃ ready start, controlFrames before = [ready, start] ∧
      Accepted fs .ready ready ∧ Accepted fs .start start

variable (fs) in
/-- The peer keeps to the protocol as long as it is not shut out: a data frame comes
    after READY and START and before STOP.  A data frame that does not fit in the
    input buffer does not count. -/
def HandshakeKept : ConnState → List (List Byte) → Prop
  | _, [] => True
  | state, frame :: rest =>
    if ntohl frame 0 > 0 then
      (frame.length ≤ CAPTURE_HIGH_WATERMARK → state = .readingData) ∧ HandshakeKept state rest
    else match frameState fs state frame with
      | none => True
      | some state' => HandshakeKept state' rest

variable (fs) in
/-- The control frames that have led to a state. -/
def Opened : ConnState → List (List Byte) → Prop
  | .readingControlReady, controls => controls = []
  | .readingControlStart, controls => ∃ ready, controls = [ready] ∧ Accepted fs .ready ready
  | .readingData, controls => ∃ ready start, controls = [ready, start] ∧
    Accepted fs .ready ready ∧ Accepted fs .start start
  | .stopped, _ => True

theorem opened_frameState {state state' : ConnState} {frame : List Byte}
    {controls : List (List Byte)} (h : Opened fs state controls)
    (hf : frameState fs state frame = some state') : Opened fs state' (controls ++ [frame]) := by
  rw [frameState] at hf
  split_ifs at hf
  obtain ⟨control, hd, hc⟩ := Option.bind_eq_some_iff.1 hf
  rw [controlState.eq_def] at hc
  cases ht : fs.getType control with
  | none => rw [ht] at hc; cases state <;> cases hc
  | some type =>
    rw [ht] at hc
    cases state with
    | readingControlReady =>
      cases type with
      | ready =>
        dsimp only at hc
        split_ifs at hc with hok
        cases hc
        rw [Bool.and_eq_true, Bool.and_eq_true] at hok
        rw [Opened] at h
        rw [h]
        exact ⟨frame, rfl, control, hd, ht, hok.2.1⟩
      | _ => cases hc
    | readingControlStart =>
      cases type with
      | start =>
        dsimp only at hc
        split_ifs at hc with hok
        cases hc
        obtain ⟨ready, rfl, hready⟩ := h
        exact ⟨ready, frame, rfl, hready, control, hd, ht, hok⟩
      | _ => cases hc
    | readingData =>
      cases type with
      | stop =>
        dsimp only at hc
        split_ifs at hc with hok
        cases hc
        trivial
      | _ => cases hc
    | stopped => cases type <;> cases hc

/-- One more frame. -/
theorem decodedWhileReading_concat {entries : List Entry} {entry : Entry}
    (h : DecodedWhileReading fs entries)
    (hentry : entry.isData = true → entry.state = .readingData ∧
      Opened fs .readingData (controlFrames entries)) :
    DecodedWhileReading fs (entries ++ [entry]) := by
  intro before state frame valid unpacked after he
  rcases List.eq_nil_or_concat after with rfl | ⟨after', last, rfl⟩
  · obtain ⟨rfl, h₁⟩ := List.append_inj' he rfl
    obtain rfl : entry = .data state frame valid unpacked := List.cons.inj h₁ |>.1
    obtain ⟨hst, hopen⟩ := hentry rfl
    exact ⟨hst, hopen⟩
  · rw [List.concat_eq_append, ← List.cons_append, ← List.append_assoc] at he
    obtain ⟨h₁, -⟩ := List.append_inj' he rfl
    exact h before state frame valid unpacked after' h₁

theorem controlFrames_control (entries : List Entry) (state : ConnState) (frame : List Byte) :
    controlFrames (entries ++ [.control state frame]) = controlFrames entries ++ [frame] := by
  rw [controlFrames, List.filter_append, List.map_append]
  rfl

theorem controlFrames_data (entries : List Entry) (state : ConnState) (frame : List Byte)
    (valid : Bool) (unpacked : Option (List Byte)) :
    controlFrames (entries ++ [.data state frame valid unpacked]) = controlFrames entries := by
  rw [controlFrames, List.filter_append, List.map_append]
  exact List.append_nil _

/-- If the peer keeps to the protocol, data frames are decoded in `readingData`. -/
theorem consumeAll_decoded : ∀ {frs : List (List Byte)} {s : Session Control},
    Opened fs s.state (controlFrames s.entries) → DecodedWhileReading fs s.entries →
    HandshakeKept fs s.state frs → DecodedWhileReading fs (s.consumeAll fs frs).1.entries
  | [], s, _, hd, _ => hd
  | frame :: rest, s, ho, hd, hk => by
    rw [HandshakeKept] at hk
    rw [Session.consumeAll]
    rcases Nat.eq_zero_or_pos (ntohl frame 0) with h0 | h0
    · rw [if_neg (by omega)] at hk ⊢
      obtain ⟨hok, hst, he⟩ := consume_control_frame fs s h0
      have hd' : DecodedWhileReading fs (s.consume fs frame).2.entries := by
        rcases he with he | ⟨-, he⟩
        · rw [he]
          exact decodedWhileReading_concat hd (by rintro ⟨⟩)
        · rw [he]
          exact hd
      rcases hc : s.consume fs frame with ⟨_ | _, s'⟩ <;> rw [hc] at hok hst he hd'
      · exact hd'
      · obtain ⟨state', hf⟩ := Option.isSome_iff_exists.1 hok.symm
        rw [hf] at hk hst
        have ho' : Opened fs s'.state (controlFrames s'.entries) := by
          obtain he | ⟨h, -⟩ := he
          · rw [he, controlFrames_control, hst]
            exact opened_frameState ho hf
          · cases h
        exact consumeAll_decoded ho' hd' (by rw [hst]; exact hk)
    · rw [if_pos h0] at hk
      by_cases hbig : frame.length > CAPTURE_HIGH_WATERMARK
      · rw [if_pos ⟨h0, hbig⟩]
        exact consumeAll_decoded ho hd hk.2
      · rw [if_neg fun h => hbig h.2]
        obtain ⟨valid, unpacked, hok, hst, he⟩ := consume_data_frame fs s h0
        have hreading := hk.1 (Nat.le_of_not_lt hbig)
        rcases hc : s.consume fs frame with ⟨_ | _, s'⟩ <;> rw [hc] at hok hst he
        · cases hok
        · have hd' : DecodedWhileReading fs s'.entries := by
            rw [he]
            exact decodedWhileReading_concat hd fun _ => ⟨hreading, by rw [← hreading]; exact ho⟩
          exact consumeAll_decoded (by rw [he, controlFrames_data, hst]; exact ho) hd'
            (by rw [hst]; exact hk.2)

variable (fs) in
/-- What was recorded stays. -/
theorem consumeAll_isPrefix : ∀ (frs : List (List Byte)) (s : Session Control),
    s.entries <+: (s.consumeAll fs frs).1.entries
  | [], _ => List.prefix_rfl
  | frame :: rest, s => by
    have hstep : s.entries <+: (s.consume fs frame).2.entries := by
      rcases Nat.eq_zero_or_pos (ntohl frame 0) with h0 | h0
      · rcases (consume_control_frame fs s h0).2.2 with he | ⟨-, he⟩ <;> rw [he]
        exact List.prefix_append _ _
      · obtain ⟨valid, unpacked, -, -, he⟩ := consume_data_frame fs s h0
        rw [he]
        exact List.prefix_append _ _
    rw [Session.consumeAll]
    split_ifs
    · exact consumeAll_isPrefix rest s
    · rcases hc : s.consume fs frame with ⟨_ | _, s'⟩ <;> rw [hc] at hstep
      · exact hstep
      · exact hstep.trans (consumeAll_isPrefix rest s')

/-- If data frames are decoded in `readingData`, the peer keeps to the protocol. -/
theorem consumeAll_kept : ∀ {frs : List (List Byte)} {s : Session Control},
    DecodedWhileReading fs (s.consumeAll fs frs).1.entries → HandshakeKept fs s.state frs
  | [], _, _ => trivial
  | frame :: rest, s, hd => by
    rw [HandshakeKept]
    rw [Session.consumeAll] at hd
    rcases Nat.eq_zero_or_pos (ntohl frame 0) with h0 | h0
    · rw [if_neg (by omega)] at hd ⊢
      obtain ⟨hok, hst, -⟩ := consume_control_frame fs s h0
      cases hf : frameState fs s.state frame with
      | none => trivial
      | some state' =>
        rw [hf] at hok hst
        rcases hc : s.consume fs frame with ⟨_ | _, s'⟩ <;> rw [hc] at hok hst hd
        · cases hok
        · have hkept := consumeAll_kept hd
          rwa [hst] at hkept
    · rw [if_pos h0]
      by_cases hbig : frame.length > CAPTURE_HIGH_WATERMARK
      · rw [if_pos ⟨h0, hbig⟩] at hd
        exact ⟨fun h => absurd hbig (Nat.not_lt.2 h), consumeAll_kept hd⟩
      · rw [if_neg fun h => hbig h.2] at hd
        obtain ⟨valid, unpacked, hok, hst, he⟩ := consume_data_frame fs s h0
        rcases hc : s.consume fs frame with ⟨_ | _, s'⟩ <;> rw [hc] at hok hst he hd
        · cases hok
        · obtain ⟨more, hmore⟩ := consumeAll_isPrefix fs rest s'
          rw [he, List.append_assoc] at hmore
          have hkept := consumeAll_kept hd
          rw [hst] at hkept
          exact ⟨fun _ => (hd s.entries s.state frame valid unpacked more hmore.symm).1, hkept⟩

/-- A prefix of a stream. -/
theorem handshakeKept_of_append : ∀ {frs more : List (List Byte)} {state : ConnState},
    HandshakeKept fs state (frs ++ more) → HandshakeKept fs state frs
  | [], _, _, _ => trivial
  | frame :: rest, more, state, h => by
    rw [List.cons_append, HandshakeKept] at h
    rw [HandshakeKept]
    split_ifs at h ⊢
    · exact ⟨h.1, handshakeKept_of_append h.2⟩
    · cases hf : frameState fs state frame with
      | none => trivial
      | some state' =>
        rw [hf] at h
        exact handshakeKept_of_append h

/-! ## Byte by byte -/

/-- A connection that can receive one more byte. -/
def Settled (conn : Connection Control) : Prop :=
  conn.closed = true ∨ conn.evInput.length < CAPTURE_HIGH_WATERMARK ∧
    (conn.bytesSkip = 0 → ∀ n, frameTotal conn.evInput = some n → n ≤ CAPTURE_HIGH_WATERMARK)

theorem cbReadLoop_settled (hpeek : PeekLawful peek) : ∀ {fuel : ℕ} {conn : Connection Control},
    conn.closed = false → conn.evInput.length < fuel →
    conn.evInput.length ≤ CAPTURE_HIGH_WATERMARK →
    (conn.evInput.length = CAPTURE_HIGH_WATERMARK → conn.bytesSkip = 0 →
      ∀ n, frameTotal conn.evInput = some n → n ≤ CAPTURE_HIGH_WATERMARK) →
    Settled (cbReadLoop fs peek fuel conn)
  | fuel + 1, conn, hclosed, hfuel, hmark, hfull => by
    have hround : Round fs conn (cbReadRound fs peek conn) := cbReadRound_round hpeek hclosed
    rw [cbReadLoop]
    rcases hr : cbReadRound fs peek conn with ⟨again, conn'⟩
    rw [hr] at hround
    dsimp only
    cases hround with
    | skip hne hskip hs hc hi hb' =>
      have hpos := List.length_pos_of_ne_nil hne
      have hlen : conn'.evInput.length < conn.evInput.length := by
        rw [hi, List.length_drop]; omega
      rw [if_pos rfl]
      exact cbReadLoop_settled hpeek (hc.trans hclosed) (by omega) (by omega) fun h => by omega
    | empty hnil hs hc hi hb' =>
      rw [if_neg Bool.false_ne_true]
      refine .inr ?_
      rw [hi, hnil]
      exact ⟨by decide, fun _ n hn => by cases hn⟩
    | wait hskip hw hs hc hi hb' =>
      rw [if_neg Bool.false_ne_true]
      refine .inr ?_
      rw [hi]
      refine ⟨?_, fun _ n hn => (hw n hn).2.1⟩
      cases hn : frameTotal conn.evInput with
      | none => exact (length_of_frameTotal_none hn).trans (by decide)
      | some n => exact (hw n hn).2.2.trans_le (hw n hn).2.1
    | oversized hskip hn hbad hbig hl hs hc hi hb' =>
      rw [if_neg Bool.false_ne_true]
      refine .inr ?_
      rw [hi]
      refine ⟨lt_of_le_of_ne hmark fun h => ?_, fun h => by omega⟩
      exact absurd (hfull h hskip _ hn) (Nat.not_le.2 hbig)
    | bad hskip hn hbad hs hc =>
      rw [if_neg Bool.false_ne_true]
      exact .inl hc
    | @frame _ n _ hskip hn hbad hl hs hc hb' hi =>
      cases again with
      | false => exact .inl hc
      | true =>
        have hpos := frameTotal_pos hn
        have hlen : conn'.evInput.length = conn.evInput.length - n := by
          rw [hi rfl, List.length_drop]
        rw [if_pos rfl]
        exact cbReadLoop_settled hpeek hc (by omega) (by omega) fun h => by omega

/-- One byte arrives. -/
theorem handle_settled (hpeek : PeekLawful peek) {conn : Connection Control} (h : Settled conn)
    (b : Byte) : Settled (conn.handle fs peek (.arrive [b])) := by
  rw [Connection.handle]
  split_ifs with hc
  · exact .inl hc
  · obtain h | ⟨hlen, hfit⟩ := h
    · exact absurd h hc
    rw [cbRead]
    refine cbReadLoop_settled hpeek (Bool.eq_false_of_not_eq_true hc) (Nat.lt_succ_self _) ?_ ?_
    · rw [List.length_append, List.length_singleton]
      exact hlen
    · intro hfull hskip n hn
      dsimp only at hfull hskip hn
      cases ho : frameTotal conn.evInput with
      | none =>
        have := length_of_frameTotal_none ho
        rw [List.length_append, List.length_singleton, CAPTURE_HIGH_WATERMARK] at hfull
        omega
      | some m =>
        rw [(frameTotal_append [b] ho).1] at hn
        exact Option.some.inj hn ▸ hfit hskip m ho

/-- The bytes of a stream, one after the other. -/
def byteByByte (stream : List Byte) : List ConnEvent := stream.map fun b => .arrive [b]

theorem arrivals_byteByByte : ∀ stream : List Byte, arrivals (byteByByte stream) = stream
  | [] => rfl
  | b :: stream => congrArg (b :: ·) (arrivals_byteByByte stream)

theorem withinWatermark_byteByByte (hpeek : PeekLawful peek) : ∀ {stream : List Byte}
    {conn : Connection Control}, Settled conn →
    WithinWatermark fs peek conn (byteByByte stream)
  | [], _, _ => trivial
  | b :: stream, conn, h => by
    refine ⟨?_, withinWatermark_byteByByte hpeek (handle_settled hpeek h b)⟩
    rintro _ ⟨rfl⟩ hc
    obtain h | ⟨hlen, -⟩ := h
    · rw [hc] at h; cases h
    · exact hlen

theorem entries_read (s : Session Control) (bytes : List Byte) :
    (read (FrameReader.next fs) ⟨s, 0⟩ bytes).1.entries =
      (s.consumeAll fs (frames bytes)).1.entries :=
  congrArg Session.entries (read_frames fs s bytes).1

/-- A connection that follows the reader has the entries of the frames. -/
theorem Follows.entries {conn : Connection Control} {s : Session Control} {bytes : List Byte}
    (h : Follows conn (read (FrameReader.next fs) ⟨s, 0⟩ bytes)) :
    conn.entries = (s.consumeAll fs (frames bytes)).1.entries := by
  rw [← entries_read]
  rcases hr : read (FrameReader.next fs) ⟨s, 0⟩ bytes with ⟨s', _ | rest⟩ <;> rw [hr] at h
  exacts [congrArg Session.entries h.2, congrArg Session.entries h.2.1]

/-- **The collector does not enforce the protocol.**  On all runs over a stream the
    data frames are decoded in `readingData` if and only if the peer keeps to the
    protocol. -/
theorem decoded_iff_handshakeKept (hpeek : PeekLawful peek) (stream : List Byte) :
    (∀ es, arrivals es = stream → WithinWatermark fs peek (connInit fs) es →
      DecodedWhileReading fs ((connInit fs).run fs peek es).entries) ↔
    HandshakeKept fs .readingControlReady (frames stream) := by
  constructor
  · intro h
    have hsettled : Settled (connInit fs) :=
      .inr ⟨(by decide : 0 < CAPTURE_HIGH_WATERMARK), fun _ n hn => by cases hn⟩
    have hw : WithinWatermark fs peek (connInit fs) (byteByByte stream) :=
      withinWatermark_byteByByte hpeek hsettled
    have hd := h _ (arrivals_byteByByte stream) hw
    rcases run_follows hpeek connInit_follows hw with hrun | ⟨_, _, -, hmem, -⟩
    · rw [List.nil_append, arrivals_byteByByte] at hrun
      have hentries : ((connInit fs).run fs peek (byteByByte stream)).entries =
          ((connInit fs).toSession.consumeAll fs (frames stream)).1.entries := hrun.entries
      rw [hentries] at hd
      exact consumeAll_kept hd
    · rw [byteByByte, List.mem_map] at hmem
      obtain ⟨b, -, hb⟩ := hmem
      cases hb
  · intro hkept es ha hw
    have hnil : DecodedWhileReading fs (connInit fs).entries := by
      intro before state frame valid unpacked after he
      cases before <;> cases he
    rcases run_follows hpeek connInit_follows hw with hrun | ⟨seen, unseen, hs, -, -, -, hsess⟩
    · rw [List.nil_append, ha] at hrun
      have hentries : ((connInit fs).run fs peek es).entries =
          ((connInit fs).toSession.consumeAll fs (frames stream)).1.entries := hrun.entries
      rw [hentries]
      exact consumeAll_decoded rfl hnil hkept
    · rw [List.nil_append] at hsess
      obtain ⟨more, hmore⟩ := frames_append seen unseen
      rw [← hs, ha] at hmore
      rw [← hmore] at hkept
      rw [show ((connInit fs).run fs peek es).entries = _ from
        (congrArg Session.entries hsess).trans (entries_read _ seen)]
      exact consumeAll_decoded rfl hnil (handshakeKept_of_append hkept)

theorem decoded_dataFrame_not_kept :
    ¬∀ es, arrivals es = [0, 0, 0, 1, 0] →
      WithinWatermark noControlFstrm oneBlock (connInit noControlFstrm) es →
      DecodedWhileReading noControlFstrm
        ((connInit noControlFstrm).run noControlFstrm oneBlock es).entries := by
  rw [decoded_iff_handshakeKept oneBlock_lawful]
  have hframes : frames [0, 0, 0, 1, 0] = [[0, 0, 0, 1, 0]] := by decide
  rw [hframes, HandshakeKept, if_pos (by decide)]
  rintro ⟨h, -⟩
  cases h (by decide)

/-- A data frame before any handshake. -/
theorem decoded_beforeHandshake :
    ¬DecodedWhileReading noControlFstrm
      ((connInit noControlFstrm).run noControlFstrm oneBlock [.arrive [0, 0, 0, 1, 0]]).entries := by
  intro h
  have hentries : ((connInit noControlFstrm).run noControlFstrm oneBlock
      [.arrive [0, 0, 0, 1, 0]]).entries =
      [.data .readingControlReady [0, 0, 0, 1, 0] false (some [0, 0, 0, 1, 0])] := by decide
  cases (h [] _ _ _ _ [] hentries).1

/-! ## What is unpacked -/

/-- **The length field is unpacked with the payload.**  However the input buffer is
    split into blocks, what is handed over for a data frame is the whole frame, so
    never its payload. -/
theorem unpacked_frame (hpeek : PeekLawful peek) {conn : Connection Control}
    {length payload more : List Byte} (h4 : length.length = 4)
    (hlength : ofLE length.reverse = payload.length) (hpos : 0 < payload.length)
    (hmax : payload.length ≤ 4092) (hin : conn.evInput = length ++ payload ++ more)
    (hbuf : conn.lenBuf = conn.evInput.length) :
    ∃ conn' valid, canReadFullFrame conn = (true, conn') ∧
      (processDataFrame fs peek conn').entries =
        conn.entries ++ [.data conn.state (length ++ payload) valid (some (length ++ payload))] ∧
      length ++ payload ≠ payload := by
  have h0 : ntohl conn.evInput 0 = payload.length := by
    rw [ntohl, List.drop_zero, hin, List.append_assoc, List.take_append_of_le_length (by omega),
      List.take_of_length_le (by omega), hlength]
  have hlen : conn.evInput.length = 4 + payload.length + more.length := by
    rw [hin, List.length_append, List.length_append, h4]
  have hn : frameTotal conn.evInput = some (4 + payload.length) := by
    rw [frameTotal, if_neg (by omega), if_neg (by omega), h0]
  have htake : conn.evInput.take (4 + payload.length) = length ++ payload := by
    rw [hin, List.take_append_of_le_length (by rw [List.length_append]; omega),
      List.take_of_length_le (by rw [List.length_append]; omega)]
  obtain ⟨total, hread⟩ := canReadFullFrame_some conn hbuf hn
  have hbad : ¬controlLengthBad conn.evInput = true := by
    rw [controlLengthBad, decide_eq_true_eq]
    intro h
    omega
  rw [if_neg hbad, frameArrived,
    if_neg (by dsimp only; omega)] at hread
  refine ⟨_, verifyContentType fs conn.control CONTENT_TYPE, hread, ?_, ?_⟩
  · rw [processDataFrame_eq hpeek (by dsimp only; omega)]
    dsimp only
    rw [if_pos (by rw [sizeofBuf]; omega), htake]
  · intro h
    have := congrArg List.length h
    rw [List.length_append] at this
    omega

theorem unpacked_frame_oneByte : ∃ conn' valid,
    canReadFullFrame { connInit noControlFstrm with evInput := [0, 0, 0, 1, 0], lenBuf := 5 } =
      (true, conn') ∧
    (processDataFrame noControlFstrm oneBlock conn').entries =
      [] ++ [.data .readingControlReady [0, 0, 0, 1, 0] valid (some [0, 0, 0, 1, 0])] ∧
    ([0, 0, 0, 1] ++ [0] : List Byte) ≠ [0] :=
  have hin : ({ connInit noControlFstrm with evInput := [0, 0, 0, 1, 0], lenBuf := 5 } :
      Connection Unit).evInput = [0, 0, 0, 1] ++ [0] ++ [] := rfl
  unpacked_frame oneBlock_lawful rfl (by decide) (by decide) (by decide) hin rfl

/-- The payload is the byte 0, but the frame is unpacked. -/
theorem unpacked_notPayload :
    ¬∃ entry ∈ ((connInit noControlFstrm).run noControlFstrm oneBlock
      [.arrive [0, 0, 0, 1, 0]]).entries, ∃ state frame valid,
      entry = .data state frame valid (some [0]) := by
  have hentries : ((connInit noControlFstrm).run noControlFstrm oneBlock
      [.arrive [0, 0, 0, 1, 0]]).entries =
      [.data .readingControlReady [0, 0, 0, 1, 0] false (some [0, 0, 0, 1, 0])] := by decide
  rw [hentries]
  rintro ⟨entry, hmem, state, frame, valid, rfl⟩
  rw [List.mem_singleton] at hmem
  cases hmem

/-! ## The copy of a data frame -/

/-- Every block is copied to `buf`, and what is there then is the frame. -/
def FrameCopied (conn : Connection Control) (vecs : List (List Byte)) : Prop :=
  ∃ buf, readVecs conn.lenFrameTotal vecs [] = some buf ∧ buf.length = conn.lenFrameTotal ∧
    buf = conn.evInput.take conn.lenFrameTotal

/-- A complete data frame is its length field and the payload. -/
theorem canReadFullFrame_data {conn conn' : Connection Control}
    (h : canReadFullFrame conn = (true, conn')) (hdata : conn'.lenFramePayload > 0) :
    conn'.lenFrameTotal = 4 + ntohl conn.evInput 0 ∧ conn'.evInput = conn.evInput := by
  have harrived : ∀ {c : Connection Control}, frameArrived c = (true, conn') → conn' = c := by
    intro c hc
    rw [frameArrived] at hc
    split_ifs at hc
    · cases hc
    · cases hc
    · exact (Prod.mk.inj hc).2.symm
  rw [canReadFullFrame] at h
  dsimp only at h
  split_ifs at h with h4 hz h8 hbad
  · cases h
  · cases h
  · cases h
  · -- the frame is a control frame
    rw [harrived h] at hdata
    exact absurd hdata (by dsimp only; omega)
  · obtain rfl := harrived h
    exact ⟨rfl, rfl⟩

/-- **The copy stays inside of `buf`**, whatever the blocks are, exactly if the frame
    has at most 4096 bytes. -/
theorem frameCopied_iff {conn conn' : Connection Control}
    (hfull : canReadFullFrame conn = (true, conn')) (hdata : conn'.lenFramePayload > 0)
    {vecs : List (List Byte)} (hvecs : vecs.flatten <+: conn.evInput)
    (hlen : conn'.lenFrameTotal ≤ vecs.flatten.length) :
    FrameCopied conn' vecs ↔ 4 + ntohl conn.evInput 0 ≤ sizeofBuf := by
  obtain ⟨htotal, hin⟩ := canReadFullFrame_data hfull hdata
  have hread : readVecs conn'.lenFrameTotal vecs [] = if conn'.lenFrameTotal ≤ sizeofBuf then
      some ((([] : List Byte) ++ vecs.flatten).take conn'.lenFrameTotal) else none :=
    readVecs_eq (Nat.zero_le _) (Nat.zero_le _) hlen
  rw [FrameCopied, hread, ← htotal]
  constructor
  · rintro ⟨buf, hbuf, -⟩
    by_contra hgt
    rw [if_neg hgt] at hbuf
    cases hbuf
  · intro hle
    rw [if_pos hle, List.nil_append]
    obtain ⟨more, hmore⟩ := hvecs
    refine ⟨_, rfl, ?_, ?_⟩
    · rw [List.length_take, Nat.min_eq_left hlen]
    · rw [hin, ← hmore, List.take_append_of_le_length hlen]

/-- A connection on which these bytes have arrived. -/
def arrived (bytes : List Byte) : Connection Unit :=
  { connInit noControlFstrm with evInput := bytes, lenBuf := bytes.length }

theorem frameCopied_iff_oneByte :
    FrameCopied (canReadFullFrame (arrived [0, 0, 0, 1, 0])).2 [[0, 0], [0, 1, 0]] ↔
      4 + ntohl (arrived [0, 0, 0, 1, 0]).evInput 0 ≤ sizeofBuf :=
  have hfull : canReadFullFrame (arrived [0, 0, 0, 1, 0]) =
    (true, (canReadFullFrame (arrived [0, 0, 0, 1, 0])).2) := rfl
  frameCopied_iff hfull (by decide) (by decide) (by decide)

/-- A frame of 4097 bytes, in one block. -/
def longFrame : List Byte := [0, 0, 15, 253] ++ List.replicate 4093 0

/-- The frame of 4097 bytes is reported as complete, but the copy overruns `buf`. -/
theorem frameCopied_overrun : ∃ conn', longFrame.length ≤ CAPTURE_HIGH_WATERMARK ∧
    canReadFullFrame (arrived longFrame) = (true, conn') ∧ conn'.lenFramePayload > 0 ∧
    [longFrame].flatten <+: (arrived longFrame).evInput ∧
    conn'.lenFrameTotal ≤ [longFrame].flatten.length ∧
    readVecs conn'.lenFrameTotal [longFrame] [] = none ∧ ¬ FrameCopied conn' [longFrame] := by
  have hlen : longFrame.length = 4097 := by
    rw [longFrame, List.length_append, List.length_replicate]
    rfl
  have h0 : ntohl longFrame 0 = 4093 := rfl
  have hfull : canReadFullFrame (arrived longFrame) = (true, { arrived longFrame with
      lenFramePayload := 4093, lenFrameTotal := 4097 }) := by
    have hbuf : (arrived longFrame).lenBuf = 4097 := hlen
    have h0' : ntohl (arrived longFrame).evInput 0 = 4093 := h0
    rw [canReadFullFrame]
    dsimp only
    rw [hbuf, if_neg (by decide), h0', if_neg (by decide), frameArrived]
    exact if_neg (by decide)
  have hflat : [longFrame].flatten = longFrame := List.append_nil _
  have hread : readVecs 4097 [longFrame] [] = none := by
    rw [readVecs_eq (Nat.zero_le _) (Nat.zero_le _) (by rw [List.nil_append, hflat, hlen]),
      if_neg (by decide)]
  refine ⟨_, by rw [hlen]; decide, hfull, by decide, ?_, ?_, hread, ?_⟩
  · rw [hflat]
    exact List.prefix_refl _
  · rw [hflat, hlen]
  · rintro ⟨buf, hbuf, -⟩
    rw [hread] at hbuf
    cases hbuf

end Honas
