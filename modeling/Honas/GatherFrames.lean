/-
  The frames of a stream, and what a connection makes of them.

  `frames` is the length-prefixed parse of a byte stream.  A connection that
  follows the stream is a reader in the sense of `Honas.Lib.Reader`: its decision
  about the first frame does not depend on what arrives later (`stable_next`).

  * `cbRead_follows`: `cb_read` is that reader, as long as the input buffer holds
    no more than the watermark.
  * `read_frames`: reading a stream is processing its frames one by one.
-/
import Honas.Lib.Reader
import Honas.Gather

namespace Honas

open Bits Reader

variable {Control : Type*} {fs : Fstrm Control} {peek : EvbufferPeek}

/-! ## The frames of a stream -/

/-- The length of the first frame, when its length fields are there. -/
def frameTotal (bytes : List Byte) : Option ℕ :=
  if bytes.length < 4 then none
  else if ntohl bytes 0 = 0 then
    if bytes.length < 8 then none else some (8 + ntohl bytes 4)
  else some (4 + ntohl bytes 0)

/-- A control frame whose length is out of range. -/
def controlLengthBad (bytes : List Byte) : Bool :=
  ntohl bytes 0 = 0 ∧ (ntohl bytes 4 < 4 ∨ ntohl bytes 4 > FSTRM_CONTROL_FRAME_LENGTH_MAX)

/-- The complete frames of at most `fuel` in a stream. -/
def framesLoop : ℕ → List Byte → List (List Byte)
  | 0, _ => []
  | fuel + 1, bytes =>
    match frameTotal bytes with
    | none => []
    | some n => if bytes.length < n then [] else bytes.take n :: framesLoop fuel (bytes.drop n)

/-- The complete frames of a stream. -/
def frames (bytes : List Byte) : List (List Byte) := framesLoop bytes.length bytes

/-- What follows the complete frames. -/
def framesRest (bytes : List Byte) : List Byte := bytes.drop (frames bytes).flatten.length

theorem ntohl_append {bytes : List Byte} {offset : ℕ} (more : List Byte)
    (h : offset + 4 ≤ bytes.length) : ntohl (bytes ++ more) offset = ntohl bytes offset := by
  rw [ntohl, ntohl, List.drop_append_of_le_length (by omega),
    List.take_append_of_le_length (by rw [List.length_drop]; omega)]

theorem ntohl_take {bytes : List Byte} {offset n : ℕ} (h : offset + 4 ≤ n) :
    ntohl (bytes.take n) offset = ntohl bytes offset := by
  rw [ntohl, ntohl, List.drop_take, List.take_take, Nat.min_eq_left (by omega)]

theorem frameTotal_pos {bytes : List Byte} {n : ℕ} (h : frameTotal bytes = some n) : 4 < n := by
  unfold frameTotal at h
  split_ifs at h <;> simp only [Option.some.injEq] at h <;> omega

theorem length_of_frameTotal {bytes : List Byte} {n : ℕ} (h : frameTotal bytes = some n) :
    4 ≤ bytes.length ∧ (ntohl bytes 0 = 0 → 8 ≤ bytes.length ∧ n = 8 + ntohl bytes 4) ∧
      (ntohl bytes 0 ≠ 0 → n = 4 + ntohl bytes 0) := by
  unfold frameTotal at h
  split_ifs at h with h₁ h₂ h₃ <;> simp only [Option.some.injEq] at h
  · exact ⟨by omega, fun _ => ⟨by omega, h.symm⟩, fun h' => absurd h₂ h'⟩
  · exact ⟨by omega, fun h' => absurd h' h₂, fun _ => h.symm⟩

/-- Short as long as the length fields are not there. -/
theorem length_of_frameTotal_none {bytes : List Byte} (h : frameTotal bytes = none) :
    bytes.length < 8 := by
  unfold frameTotal at h
  split_ifs at h <;> omega

/-- **The first frame's length does not depend on what follows.** -/
theorem frameTotal_append {bytes : List Byte} {n : ℕ} (more : List Byte)
    (h : frameTotal bytes = some n) :
    frameTotal (bytes ++ more) = some n ∧
      controlLengthBad (bytes ++ more) = controlLengthBad bytes := by
  obtain ⟨h₁, h₂, h₃⟩ := length_of_frameTotal h
  have h0 : ntohl (bytes ++ more) 0 = ntohl bytes 0 := ntohl_append more (by omega)
  by_cases hz : ntohl bytes 0 = 0
  · obtain ⟨h₄, rfl⟩ := h₂ hz
    have h4 : ntohl (bytes ++ more) 4 = ntohl bytes 4 := ntohl_append more (by omega)
    refine ⟨?_, by rw [controlLengthBad, controlLengthBad, h0, h4]⟩
    rw [frameTotal, if_neg (by rw [List.length_append]; omega), if_pos (by rw [h0, hz]),
      if_neg (by rw [List.length_append]; omega), h4]
  · refine ⟨?_, by simp only [controlLengthBad, h0, hz, false_and]⟩
    rw [frameTotal, if_neg (by rw [List.length_append]; omega), if_neg (by rw [h0]; exact hz), h0,
      h₃ hz]

/-- Enough fuel gives all frames. -/
theorem framesLoop_congr : ∀ {fuel fuel' : ℕ} {bytes : List Byte}, bytes.length ≤ fuel →
    bytes.length ≤ fuel' → framesLoop fuel bytes = framesLoop fuel' bytes
  | 0, fuel', bytes, h, _ => by
    rw [List.eq_nil_of_length_eq_zero (by omega : bytes.length = 0)]
    cases fuel' <;> rfl
  | fuel + 1, 0, bytes, _, h => by
    rw [List.eq_nil_of_length_eq_zero (by omega : bytes.length = 0)]
    rfl
  | fuel + 1, fuel' + 1, bytes, h, h' => by
    rw [framesLoop, framesLoop]
    cases hn : frameTotal bytes with
    | none => rfl
    | some n =>
      have hpos := frameTotal_pos hn
      have hl : (bytes.drop n).length ≤ fuel := by rw [List.length_drop]; omega
      have hl' : (bytes.drop n).length ≤ fuel' := by rw [List.length_drop]; omega
      dsimp only
      rw [framesLoop_congr hl hl']

/-- **The first frame, and the others.** -/
theorem frames_eq (bytes : List Byte) :
    frames bytes = match frameTotal bytes with
      | none => []
      | some n => if bytes.length < n then [] else bytes.take n :: frames (bytes.drop n) := by
  rw [frames, framesLoop_congr le_rfl (Nat.le_succ bytes.length), framesLoop]
  cases hn : frameTotal bytes with
  | none => rfl
  | some n =>
    have hpos := frameTotal_pos hn
    dsimp only
    rw [frames, framesLoop_congr (by rw [List.length_drop]; omega) le_rfl]

/-- **Induction on the frames of a stream.** -/
theorem frames_induction {P : List Byte → Prop} (stop : ∀ bytes, frames bytes = [] → P bytes)
    (frame : ∀ bytes n, frameTotal bytes = some n → n ≤ bytes.length →
      frames bytes = bytes.take n :: frames (bytes.drop n) → P (bytes.drop n) → P bytes)
    (bytes : List Byte) : P bytes := by
  induction hl : bytes.length using Nat.strongRecOn generalizing bytes with
  | _ len ih =>
    have heq := frames_eq bytes
    cases hn : frameTotal bytes with
    | none =>
      rw [hn] at heq
      exact stop bytes heq
    | some n =>
      have hpos := frameTotal_pos hn
      rw [hn] at heq
      dsimp only at heq
      split_ifs at heq with hlen
      · exact stop bytes heq
      · exact frame bytes n hn (Nat.le_of_not_lt hlen) heq
          (ih _ (by rw [List.length_drop]; omega) _ rfl)

/-! ## The reader -/

/-- A session, and how much of an oversized frame remains to be skipped. -/
structure FrameReader (Control : Type*) extends Session Control where
  skip : ℕ

variable (fs) in
/-- A session consumes a frame; `false` if it ends the connection. -/
def Session.consume (s : Session Control) (frame : List Byte) : Bool × Session Control :=
  if ntohl frame 0 > 0 then
    (true, { s with
      entries := s.entries ++ [.data s.state frame (verifyContentType fs s.control CONTENT_TYPE)
        (if frame.length ≤ sizeofBuf then some frame else none)]
      countRead := s.countRead + 1
      bytesRead := s.bytesRead + frame.length })
  else if controlLengthBad frame ∨ frame.length ≥ FSTRM_CONTROL_FRAME_LENGTH_MAX then (false, s)
  else match fs.decode frame with
    | none => (false, s)
    | some control =>
      processControlFrame fs { s with
        control := control
        entries := s.entries ++ [.control s.state frame] }

/-- A refused control frame. -/
theorem Session.consume_refused {s : Session Control} {frame : List Byte} (h0 : ntohl frame 0 = 0)
    (h : controlLengthBad frame = true ∨ frame.length ≥ FSTRM_CONTROL_FRAME_LENGTH_MAX ∨
      fs.decode frame = none) : s.consume fs frame = (false, s) := by
  rw [Session.consume, if_neg (by omega)]
  by_cases hl : controlLengthBad frame = true ∨ frame.length ≥ FSTRM_CONTROL_FRAME_LENGTH_MAX
  · rw [if_pos hl]
  · have hd : fs.decode frame = none := by
      rcases h with h | h | h
      exacts [absurd (.inl h) hl, absurd (.inr h) hl, h]
    rw [if_neg hl, hd]

/-- A control frame that libfstrm decodes. -/
theorem Session.consume_control {s : Session Control} {frame : List Byte} {control : Control}
    (h0 : ntohl frame 0 = 0) (hbad : ¬controlLengthBad frame = true)
    (hlen : ¬frame.length ≥ FSTRM_CONTROL_FRAME_LENGTH_MAX) (hd : fs.decode frame = some control) :
    s.consume fs frame = processControlFrame fs { s with
      control := control, entries := s.entries ++ [.control s.state frame] } := by
  rw [Session.consume, if_neg (by omega), if_neg (not_or.2 ⟨hbad, hlen⟩), hd]

variable (fs) in
/-- What a connection does when the first frame has length `n`. -/
def FrameReader.nextFrame (s : FrameReader Control) (buf : List Byte) (n : ℕ) :
    Reading (FrameReader Control) :=
  if controlLengthBad buf then .stop s
  else if n > CAPTURE_HIGH_WATERMARK then .take { s with skip := n - 1 } 1
  else if buf.length < n then .wait
  else match s.toSession.consume fs (buf.take n) with
    | (true, session) => .take { s with toSession := session } n
    | (false, session) => .stop { s with toSession := session }

variable (fs) in
/-- What a connection does with the bytes that have arrived. -/
def FrameReader.next (s : FrameReader Control) (buf : List Byte) : Reading (FrameReader Control) :=
  if s.skip > 0 then
    if buf = [] then .wait else .take { s with skip := s.skip - 1 } 1
  else match frameTotal buf with
    | none => .wait
    | some n => s.nextFrame fs buf n

theorem FrameReader.nextFrame_append {s : FrameReader Control} {buf : List Byte} {n : ℕ}
    (more : List Byte) (hn : frameTotal buf = some n) (h : s.nextFrame fs buf n ≠ .wait) :
    s.nextFrame fs (buf ++ more) n = s.nextFrame fs buf n := by
  unfold FrameReader.nextFrame at h ⊢
  rw [(frameTotal_append more hn).2]
  by_cases hbad : controlLengthBad buf = true
  · rw [if_pos hbad, if_pos hbad]
  rw [if_neg hbad] at h ⊢
  rw [if_neg hbad]
  by_cases hbig : n > CAPTURE_HIGH_WATERMARK
  · rw [if_pos hbig, if_pos hbig]
  rw [if_neg hbig] at h ⊢
  rw [if_neg hbig]
  by_cases hlen : buf.length < n
  · rw [if_pos hlen] at h
    exact absurd rfl h
  · rw [if_neg hlen, if_neg (by rw [List.length_append]; omega),
      List.take_append_of_le_length (by omega)]

/-- **What was decided stays.** -/
theorem FrameReader.next_append {s : FrameReader Control} {buf : List Byte} (more : List Byte)
    (h : s.next fs buf ≠ .wait) : s.next fs (buf ++ more) = s.next fs buf := by
  unfold FrameReader.next at h ⊢
  by_cases hskip : s.skip > 0
  · rw [if_pos hskip] at h ⊢
    rw [if_pos hskip]
    by_cases hbuf : buf = []
    · rw [if_pos hbuf] at h
      exact absurd rfl h
    · rw [if_neg hbuf, if_neg (by simp [hbuf])]
  · rw [if_neg hskip] at h ⊢
    rw [if_neg hskip]
    cases hn : frameTotal buf with
    | none => rw [hn] at h; exact absurd rfl h
    | some n =>
      rw [hn] at h
      rw [(frameTotal_append more hn).1]
      exact FrameReader.nextFrame_append more hn h

theorem FrameReader.next_take {s s' : FrameReader Control} {buf : List Byte} {n : ℕ}
    (h : s.next fs buf = .take s' n) : 0 < n ∧ n ≤ buf.length := by
  unfold FrameReader.next at h
  by_cases hskip : s.skip > 0
  · rw [if_pos hskip] at h
    by_cases hbuf : buf = []
    · rw [if_pos hbuf] at h; cases h
    · rw [if_neg hbuf] at h
      cases h
      exact ⟨Nat.one_pos, List.length_pos_of_ne_nil hbuf⟩
  rw [if_neg hskip] at h
  cases hn : frameTotal buf with
  | none => rw [hn] at h; cases h
  | some m =>
    rw [hn] at h
    have hpos := frameTotal_pos hn
    have hlen := (length_of_frameTotal hn).1
    dsimp only [FrameReader.nextFrame] at h
    split_ifs at h with hbad hbig hl
    · cases h; exact ⟨Nat.one_pos, by omega⟩
    rcases hc : s.toSession.consume fs (buf.take m) with ⟨_ | _, session⟩ <;> rw [hc] at h <;>
      cases h
    exact ⟨by omega, by omega⟩

/-- The decision about the first frame is final. -/
theorem stable_next : Stable (FrameReader.next fs) where
  take_pos := fun h => (FrameReader.next_take h).1
  take_le := fun h => (FrameReader.next_take h).2
  take_append := fun more h => by
    rw [FrameReader.next_append more (by rw [h]; nofun), h]
  stop_append := fun more h => by
    rw [FrameReader.next_append more (by rw [h]; nofun), h]

/-! ## The rounds of `cb_read` -/

/-- The blocks that `evbuffer_peek` gives hold the first bytes of the buffer. -/
def PeekLawful (peek : EvbufferPeek) : Prop :=
  ∀ k buf n, n ≤ buf.length → (peek k buf n).flatten.take n = buf.take n

/-- **The copy loop**: the first bytes of the blocks, if `buf` is large enough. -/
theorem readVecs_eq {total : ℕ} : ∀ {vecs : List (List Byte)} {buf : List Byte},
    buf.length ≤ total → buf.length ≤ sizeofBuf → total ≤ (buf ++ vecs.flatten).length →
    readVecs total vecs buf =
      if total ≤ sizeofBuf then some ((buf ++ vecs.flatten).take total) else none
  | [], buf, h, hs, htot => by
    rw [List.flatten_nil, List.append_nil] at htot ⊢
    rw [readVecs, if_pos (by omega), List.take_of_length_le h]
  | vec :: vecs, buf, h, hs, htot => by
    rw [List.flatten_cons, List.length_append, List.length_append] at htot
    rw [readVecs, List.flatten_cons]
    by_cases hv : buf.length + vec.length > total
    · -- the last block that is copied: the rest adds nothing
      rw [if_pos hv, show buf.length + (total - buf.length) = total by omega]
      by_cases ht : total ≤ sizeofBuf
      · have hlen : (buf ++ vec.take (total - buf.length)).length = total := by
          rw [List.length_append, List.length_take]; omega
        have htake : (buf ++ (vec ++ vecs.flatten)).take total =
            buf ++ vec.take (total - buf.length) := by
          rw [List.take_append, List.take_of_length_le h, List.take_append_of_le_length (by omega)]
        rw [if_neg (by omega), readVecs_eq (by omega) (by omega)
          (by rw [List.length_append, hlen]; omega), if_pos ht, if_pos ht, htake,
          List.take_append_of_le_length (by omega), List.take_of_length_le (by omega)]
      · rw [if_pos (by omega), if_neg ht]
    · rw [if_neg hv, List.take_length]
      by_cases hb : buf.length + vec.length > sizeofBuf
      · rw [if_pos hb, if_neg (by omega)]
      · rw [if_neg hb, readVecs_eq (by rw [List.length_append]; omega)
          (by rw [List.length_append]; omega)
          (by rw [List.length_append, List.length_append]; omega), List.append_assoc]

/-- **What reaches the decoder**: the whole frame, if it fits in `buf`. -/
theorem processDataFrame_eq (hpeek : PeekLawful peek) {conn : Connection Control}
    (hn : conn.lenFrameTotal ≤ conn.evInput.length) :
    processDataFrame fs peek conn = { conn with
      evInput := conn.evInput.drop conn.lenFrameTotal
      entries := conn.entries ++ [.data conn.state (conn.evInput.take conn.lenFrameTotal)
        (verifyContentType fs conn.control CONTENT_TYPE)
        (if conn.lenFrameTotal ≤ sizeofBuf then some (conn.evInput.take conn.lenFrameTotal)
          else none)]
      countRead := conn.countRead + 1
      bytesRead := conn.bytesRead + conn.lenFrameTotal } := by
  have htake := hpeek conn.countRead conn.evInput conn.lenFrameTotal hn
  have hlen : (conn.evInput.take conn.lenFrameTotal).length = conn.lenFrameTotal := by
    rw [List.length_take, Nat.min_eq_left hn]
  have hvecs : conn.lenFrameTotal ≤
      (peek conn.countRead conn.evInput conn.lenFrameTotal).flatten.length := by
    rw [← htake, List.length_take] at hlen
    omega
  rw [processDataFrame, readVecs_eq (Nat.zero_le _) (Nat.zero_le _) (by rw [List.nil_append]; exact hvecs),
    List.nil_append, htake]
  split_ifs with hs
  · rw [Option.filter_some, hlen, decide_eq_true rfl, if_pos rfl]
  · rfl

/-- The length fields are not there yet. -/
theorem canReadFullFrame_none (conn : Connection Control)
    (hl : conn.lenBuf = conn.evInput.length) (h : frameTotal conn.evInput = none) :
    ∃ total payload, canReadFullFrame conn =
      (false, { conn with lenFrameTotal := total, lenFramePayload := payload }) := by
  rw [canReadFullFrame]
  dsimp only
  rw [hl]
  by_cases h4 : conn.evInput.length < 4
  · exact ⟨0, _, by rw [if_pos h4]⟩
  · rw [frameTotal, if_neg h4] at h
    rw [if_neg h4]
    by_cases hz : ntohl conn.evInput 0 = 0
    · rw [if_pos hz] at h ⊢
      by_cases h8 : conn.evInput.length < 8
      · exact ⟨_, _, by rw [if_pos h8]⟩
      · rw [if_neg h8] at h; cases h
    · rw [if_neg hz] at h; cases h

/-- The length fields are there. -/
theorem canReadFullFrame_some (conn : Connection Control) {n : ℕ}
    (hl : conn.lenBuf = conn.evInput.length) (h : frameTotal conn.evInput = some n) :
    ∃ total, canReadFullFrame conn =
      if controlLengthBad conn.evInput then
        (false, cbCloseConn { conn with
          lenFrameTotal := total, lenFramePayload := ntohl conn.evInput 0 })
      else frameArrived { conn with
        lenFrameTotal := n, lenFramePayload := ntohl conn.evInput 0 } := by
  obtain ⟨h4, hctl, hdata⟩ := length_of_frameTotal h
  rw [canReadFullFrame]
  dsimp only
  rw [hl, if_neg (by omega)]
  by_cases hz : ntohl conn.evInput 0 = 0
  · obtain ⟨h8, rfl⟩ := hctl hz
    rw [if_pos hz, if_neg (by omega)]
    by_cases hbad : ntohl conn.evInput 4 < 4 ∨ ntohl conn.evInput 4 > FSTRM_CONTROL_FRAME_LENGTH_MAX
    · exact ⟨_, by rw [if_pos hbad, if_pos (by simp [controlLengthBad, hz, hbad])]⟩
    · refine ⟨0, ?_⟩
      rw [if_neg hbad, if_neg (by simp only [controlLengthBad, hz, hbad]; simp),
        show 0 + 4 + ntohl conn.evInput 0 + 4 = 8 by omega]
  · refine ⟨0, ?_⟩
    rw [if_neg hz, if_neg (by simp [controlLengthBad, hz]), hdata hz,
      show 0 + 4 + ntohl conn.evInput 0 = 4 + ntohl conn.evInput 0 by omega]

variable (fs) in
/-- What a round does to the session, the input buffer and what is skipped. -/
inductive Round (conn : Connection Control) : Bool × Connection Control → Prop
  | skip {conn'} (hne : conn.evInput ≠ []) (hskip : 0 < conn.bytesSkip)
      (hs : conn'.toSession = conn.toSession) (hc : conn'.closed = conn.closed)
      (hi : conn'.evInput = conn.evInput.drop (min conn.bytesSkip conn.evInput.length))
      (hb : conn'.bytesSkip = conn.bytesSkip - min conn.bytesSkip conn.evInput.length) :
      Round conn (true, conn')
  | empty {conn'} (hnil : conn.evInput = []) (hs : conn'.toSession = conn.toSession)
      (hc : conn'.closed = conn.closed) (hi : conn'.evInput = conn.evInput)
      (hb : conn'.bytesSkip = conn.bytesSkip) : Round conn (false, conn')
  | wait {conn'} (hskip : conn.bytesSkip = 0)
      (hw : ∀ n, frameTotal conn.evInput = some n → ¬controlLengthBad conn.evInput = true ∧
        n ≤ CAPTURE_HIGH_WATERMARK ∧ conn.evInput.length < n)
      (hs : conn'.toSession = conn.toSession) (hc : conn'.closed = conn.closed)
      (hi : conn'.evInput = conn.evInput) (hb : conn'.bytesSkip = 0) : Round conn (false, conn')
  | oversized {conn' n} (hskip : conn.bytesSkip = 0) (hn : frameTotal conn.evInput = some n)
      (hbad : ¬controlLengthBad conn.evInput = true) (hbig : CAPTURE_HIGH_WATERMARK < n)
      (hlen : conn.evInput.length < n) (hs : conn'.toSession = conn.toSession)
      (hc : conn'.closed = conn.closed) (hi : conn'.evInput = conn.evInput)
      (hb : conn'.bytesSkip = n) : Round conn (false, conn')
  | bad {conn' n} (hskip : conn.bytesSkip = 0) (hn : frameTotal conn.evInput = some n)
      (hbad : controlLengthBad conn.evInput = true) (hs : conn'.toSession = conn.toSession)
      (hc : conn'.closed = true) : Round conn (false, conn')
  | frame {conn' n ok} (hskip : conn.bytesSkip = 0) (hn : frameTotal conn.evInput = some n)
      (hbad : ¬controlLengthBad conn.evInput = true) (hlen : n ≤ conn.evInput.length)
      (hs : conn.toSession.consume fs (conn.evInput.take n) = (ok, conn'.toSession))
      (hc : conn'.closed = !ok) (hb : conn'.bytesSkip = 0)
      (hi : ok = true → conn'.evInput = conn.evInput.drop n) : Round conn (ok, conn')

theorem cbReadRound_nil {conn : Connection Control} (h : conn.evInput = []) :
    Round fs conn (cbReadRound fs peek conn) := by
  rw [cbReadRound, h]
  exact .empty h rfl rfl h.symm rfl

/-- Skipping. -/
theorem cbReadRound_skip {conn : Connection Control} (h : conn.evInput ≠ [])
    (hskip : 0 < conn.bytesSkip) : Round fs conn (cbReadRound fs peek conn) := by
  have hl : conn.evInput.length ≠ 0 := fun h0 => h (List.eq_nil_of_length_eq_zero h0)
  have hmin : (if conn.bytesSkip > conn.evInput.length then conn.evInput.length else conn.bytesSkip) =
      min conn.bytesSkip conn.evInput.length := by
    split_ifs <;> omega
  rw [cbReadRound]
  simp only [if_neg hl, if_neg (show ¬conn.bytesSkip = 0 by omega),
    if_pos (show conn.bytesSkip > 0 from hskip), Bool.not_true, Bool.false_eq_true, if_false, hmin]
  exact .skip h hskip rfl rfl rfl rfl

/-- Nothing is skipped: the first frame decides. -/
theorem cbReadRound_eq {conn conn' : Connection Control} {full : Bool} (h : conn.evInput ≠ [])
    (hskip : conn.bytesSkip = 0)
    (hc : canReadFullFrame { conn with lenBuf := conn.evInput.length } = (full, conn')) :
    cbReadRound fs peek conn =
      if !full then (false, conn')
      else if conn'.bytesSkip > 0 then
        (true, { conn' with
          evInput := conn'.evInput.drop (min conn'.bytesSkip conn'.lenBuf)
          bytesSkip := conn'.bytesSkip - min conn'.bytesSkip conn'.lenBuf })
      else processFrame fs peek conn' := by
  have hl : conn.evInput.length ≠ 0 := fun h0 => h (List.eq_nil_of_length_eq_zero h0)
  have hmin : (if conn'.bytesSkip > conn'.lenBuf then conn'.lenBuf else conn'.bytesSkip) =
      min conn'.bytesSkip conn'.lenBuf := by
    split_ifs <;> omega
  rw [cbReadRound]
  simp only [if_neg hl, if_pos hskip, hc, hmin]

/-- Waiting for the length fields. -/
theorem cbReadRound_none {conn : Connection Control} (hne : conn.evInput ≠ [])
    (hskip : conn.bytesSkip = 0) (h : frameTotal conn.evInput = none) :
    Round fs conn (cbReadRound fs peek conn) := by
  obtain ⟨total, payload, hc⟩ := canReadFullFrame_none
    { conn with lenBuf := conn.evInput.length } rfl h
  rw [cbReadRound_eq hne hskip hc]
  exact .wait hskip (fun n hn => by rw [h] at hn; cases hn) rfl rfl rfl hskip

variable (fs) in
/-- The frame at the start of the input is consumed, and taken off if the connection
    stays open. -/
structure FrameConsumed (conn : Connection Control) (r : Bool × Connection Control) : Prop where
  consume : conn.toSession.consume fs (conn.evInput.take conn.lenFrameTotal) = (r.1, r.2.toSession)
  closed : r.2.closed = !r.1
  bytesSkip : r.2.bytesSkip = conn.bytesSkip
  evInput : r.1 = true → r.2.evInput = conn.evInput.drop conn.lenFrameTotal

/-- `load_control_frame` and `process_control_frame` consume a control frame. -/
theorem processFrame_control (conn : Connection Control) (h : conn.lenFramePayload = 0)
    (h0 : ntohl (conn.evInput.take conn.lenFrameTotal) 0 = 0)
    (hbad : ¬controlLengthBad (conn.evInput.take conn.lenFrameTotal) = true)
    (hlen : (conn.evInput.take conn.lenFrameTotal).length = conn.lenFrameTotal)
    (hclosed : conn.closed = false) : FrameConsumed fs conn (processFrame fs peek conn) := by
  rw [processFrame, if_neg (by omega), loadControlFrame]
  by_cases hmax : conn.lenFrameTotal ≥ FSTRM_CONTROL_FRAME_LENGTH_MAX
  · have hconsume := @Session.consume_refused Control fs conn.toSession _ h0
      (.inr (.inl (by rw [hlen]; exact hmax)))
    rw [if_pos hmax]
    exact ⟨hconsume, rfl, rfl, fun hok => Bool.noConfusion hok⟩
  rw [if_neg hmax]
  dsimp only
  cases hd : fs.decode (conn.evInput.take conn.lenFrameTotal) with
  | none =>
    have hconsume := Session.consume_refused (s := conn.toSession) h0 (.inr (.inr hd))
    exact ⟨hconsume, rfl, rfl, fun hok => Bool.noConfusion hok⟩
  | some control =>
    have hconsume := Session.consume_control (s := conn.toSession) h0 hbad
      (by rw [hlen]; exact hmax) hd
    dsimp only
    rcases hr : processControlFrame fs { conn.toSession with
      control := control
      entries := conn.entries ++ [.control conn.state (conn.evInput.take conn.lenFrameTotal)] }
      with ⟨_ | _, session⟩
    · exact ⟨hconsume.trans hr, rfl, rfl, fun hok => Bool.noConfusion hok⟩
    · exact ⟨hconsume.trans hr, hclosed, rfl, fun _ => rfl⟩

/-- `process_data_frame` consumes a data frame. -/
theorem processFrame_data (hpeek : PeekLawful peek) (conn : Connection Control)
    (h : 0 < conn.lenFramePayload) (h0 : 0 < ntohl (conn.evInput.take conn.lenFrameTotal) 0)
    (hlen : conn.lenFrameTotal ≤ conn.evInput.length) (hclosed : conn.closed = false) :
    FrameConsumed fs conn (processFrame fs peek conn) := by
  have htake : (conn.evInput.take conn.lenFrameTotal).length = conn.lenFrameTotal := by
    rw [List.length_take, Nat.min_eq_left hlen]
  rw [processFrame, if_pos h, processDataFrame_eq hpeek hlen]
  refine ⟨?_, hclosed, rfl, fun _ => rfl⟩
  rw [Session.consume, if_pos h0, htake]

section

variable {conn : Connection Control} {n : ℕ} (hskip : conn.bytesSkip = 0)
  (h : frameTotal conn.evInput = some n)

include hskip h

/-- The length of a control frame is out of range. -/
theorem cbReadRound_bad (hbad : controlLengthBad conn.evInput = true) :
    Round fs conn (cbReadRound fs peek conn) := by
  have hne : conn.evInput ≠ [] := fun h0 => by rw [h0] at h; cases h
  obtain ⟨total, hc⟩ := canReadFullFrame_some
    { conn with lenBuf := conn.evInput.length } rfl h
  rw [cbReadRound_eq hne hskip (hc.trans (if_pos hbad))]
  exact .bad hskip h hbad rfl rfl

variable (hbad : ¬controlLengthBad conn.evInput = true)

include hbad

/-- The frame has not fully arrived. -/
theorem cbReadRound_incomplete (hlen : conn.evInput.length < n) :
    Round fs conn (cbReadRound fs peek conn) := by
  have hne : conn.evInput ≠ [] := fun h0 => by rw [h0] at h; cases h
  obtain ⟨total, hc⟩ := canReadFullFrame_some
    { conn with lenBuf := conn.evInput.length } rfl h
  rw [if_neg hbad, frameArrived, if_pos hlen] at hc
  split_ifs at hc with hn
  · rw [cbReadRound_eq hne hskip hc]
    exact .oversized hskip h hbad hn hlen rfl rfl rfl rfl
  · rw [cbReadRound_eq hne hskip hc]
    refine .wait hskip (fun m hm => ?_) rfl rfl rfl hskip
    obtain rfl : n = m := Option.some.inj (h.symm.trans hm)
    exact ⟨hbad, Nat.le_of_not_lt hn, hlen⟩

/-- **A complete frame is consumed.** -/
theorem cbReadRound_frame (hpeek : PeekLawful peek) (hlen : n ≤ conn.evInput.length)
    (hclosed : conn.closed = false) : Round fs conn (cbReadRound fs peek conn) := by
  have hne : conn.evInput ≠ [] := fun h0 => by rw [h0] at h; cases h
  have h4 := frameTotal_pos h
  have hctl := (length_of_frameTotal h).2.1
  have h0 : ntohl (conn.evInput.take n) 0 = ntohl conn.evInput 0 := ntohl_take (by omega)
  have htake : (conn.evInput.take n).length = n := by rw [List.length_take, Nat.min_eq_left hlen]
  obtain ⟨total, hc⟩ := canReadFullFrame_some
    { conn with lenBuf := conn.evInput.length } rfl h
  rw [if_neg hbad, frameArrived, if_neg (show ¬conn.evInput.length < n by omega)] at hc
  rw [cbReadRound_eq hne hskip hc, Bool.not_true, if_neg Bool.false_ne_true,
    if_neg (show ¬conn.bytesSkip > 0 by omega)]
  have hconsumed : ∀ loaded : Connection Control, loaded = { conn with
      lenBuf := conn.evInput.length
      lenFrameTotal := n
      lenFramePayload := ntohl conn.evInput 0 } →
      FrameConsumed fs loaded (processFrame fs peek loaded) := by
    rintro loaded rfl
    by_cases hz : ntohl conn.evInput 0 = 0
    · have hbad' : ¬controlLengthBad (conn.evInput.take n) = true := by
        have := hctl hz
        rw [controlLengthBad, h0, ntohl_take (by omega)]
        exact hbad
      exact processFrame_control _ hz (h0.trans hz) hbad' htake hclosed
    · have hpos := Nat.pos_of_ne_zero hz
      exact processFrame_data hpeek _ hpos (by rw [h0]; exact hpos) hlen hclosed
  obtain ⟨hconsume, hc', hb', hi'⟩ := hconsumed _ rfl
  exact .frame hskip h hbad hlen hconsume hc' (hb'.trans hskip) hi'

end

/-- **What a round does.** -/
theorem cbReadRound_round (hpeek : PeekLawful peek) {conn : Connection Control}
    (hclosed : conn.closed = false) : Round fs conn (cbReadRound fs peek conn) := by
  by_cases hne : conn.evInput = []
  · exact cbReadRound_nil hne
  rcases Nat.eq_zero_or_pos conn.bytesSkip with hskip | hskip
  · cases hn : frameTotal conn.evInput with
    | none => exact cbReadRound_none hne hskip hn
    | some n =>
      by_cases hbad : controlLengthBad conn.evInput = true
      · exact cbReadRound_bad hskip hn hbad
      rcases Nat.lt_or_ge conn.evInput.length n with hlen | hlen
      · exact cbReadRound_incomplete hskip hn hbad hlen
      · exact cbReadRound_frame hskip hn hbad hpeek hlen hclosed
  · exact cbReadRound_skip hne hskip

/-! ## `cb_read` is the reader -/

section

variable {s : Session Control} {buf : List Byte} {n : ℕ}

theorem next_nil {s : FrameReader Control} : s.next fs [] = .wait := by
  rw [FrameReader.next, if_pos (rfl : ([] : List Byte) = [])]
  split_ifs <;> rfl

theorem next_wait (h : ∀ n, frameTotal buf = some n → ¬controlLengthBad buf = true ∧
    n ≤ CAPTURE_HIGH_WATERMARK ∧ buf.length < n) : FrameReader.next fs ⟨s, 0⟩ buf = .wait := by
  rw [FrameReader.next, if_neg (Nat.lt_irrefl 0)]
  cases hn : frameTotal buf with
  | none => rfl
  | some n =>
    obtain ⟨hbad, hbig, hlen⟩ := h n hn
    dsimp only
    rw [FrameReader.nextFrame, if_neg hbad, if_neg (Nat.not_lt.2 hbig), if_pos hlen]

theorem next_bad (hn : frameTotal buf = some n) (hbad : controlLengthBad buf = true) :
    FrameReader.next fs ⟨s, 0⟩ buf = .stop ⟨s, 0⟩ := by
  rw [FrameReader.next, if_neg (Nat.lt_irrefl 0), hn]
  dsimp only
  rw [FrameReader.nextFrame, if_pos hbad]

theorem next_oversized (hn : frameTotal buf = some n) (hbad : ¬controlLengthBad buf = true)
    (hbig : CAPTURE_HIGH_WATERMARK < n) :
    FrameReader.next fs ⟨s, 0⟩ buf = .take ⟨s, n - 1⟩ 1 := by
  rw [FrameReader.next, if_neg (Nat.lt_irrefl 0), hn]
  dsimp only
  rw [FrameReader.nextFrame, if_neg hbad, if_pos hbig]

theorem next_frame (hn : frameTotal buf = some n) (hbad : ¬controlLengthBad buf = true)
    (hbig : n ≤ CAPTURE_HIGH_WATERMARK) (hlen : n ≤ buf.length) :
    FrameReader.next fs ⟨s, 0⟩ buf = match s.consume fs (buf.take n) with
      | (true, s') => .take ⟨s', 0⟩ n
      | (false, s') => .stop ⟨s', 0⟩ := by
  rw [FrameReader.next, if_neg (Nat.lt_irrefl 0), hn]
  dsimp only
  rw [FrameReader.nextFrame, if_neg hbad, if_neg (Nat.not_lt.2 hbig), if_neg (Nat.not_lt.2 hlen)]

/-- Skipping byte by byte. -/
theorem read_skip : ∀ {k : ℕ} {buf : List Byte}, read (FrameReader.next fs) ⟨s, k⟩ buf =
    if k ≤ buf.length then read (FrameReader.next fs) ⟨s, 0⟩ (buf.drop k)
    else (⟨s, k - buf.length⟩, some [])
  | 0, buf => by rw [if_pos (Nat.zero_le _), List.drop_zero]
  | k + 1, [] => by
    rw [if_neg (by simp), read_wait next_nil]
    rfl
  | k + 1, b :: buf => by
    have hnext : FrameReader.next fs ⟨s, k + 1⟩ (b :: buf) = .take ⟨s, k⟩ 1 := by
      rw [FrameReader.next, if_pos (Nat.succ_pos k), if_neg (List.cons_ne_nil b buf)]
      rfl
    rw [read_eq stable_next, hnext]
    dsimp only
    rw [List.drop_succ_cons, List.drop_zero, read_skip, List.drop_succ_cons, List.length_cons]
    by_cases hk : k ≤ buf.length
    · rw [if_pos hk, if_pos (by omega)]
    · rw [if_neg hk, if_neg (by omega), show k + 1 - (buf.length + 1) = k - buf.length by omega]

end

/-- A connection that has read what it can, and the reader.  A frame that is to be
    skipped may still be in the input buffer. -/
def Follows (conn : Connection Control) : FrameReader Control × Option (List Byte) → Prop
  | (s, some rest) =>
    conn.closed = false ∧ conn.toSession = s.toSession ∧
      ∃ skipped, conn.evInput = skipped ++ rest ∧ conn.bytesSkip = skipped.length + s.skip
  | (s, none) => conn.closed = true ∧ conn.toSession = s.toSession

/-- **The loop of `cb_read` follows the reader.** -/
theorem cbReadLoop_follows (hpeek : PeekLawful peek) : ∀ {fuel : ℕ} {conn : Connection Control}
    {skipped buf : List Byte} {k : ℕ}, conn.closed = false → conn.evInput = skipped ++ buf →
    conn.bytesSkip = skipped.length + k → conn.evInput.length ≤ CAPTURE_HIGH_WATERMARK →
    conn.evInput.length < fuel →
    Follows (cbReadLoop fs peek fuel conn) (read (FrameReader.next fs) ⟨conn.toSession, k⟩ buf)
  | fuel + 1, conn, skipped, buf, k, hclosed, hin, hb, hmark, hfuel => by
    have hround : Round fs conn (cbReadRound fs peek conn) := cbReadRound_round hpeek hclosed
    rw [cbReadLoop]
    have hlen : conn.evInput.length = skipped.length + buf.length := by rw [hin, List.length_append]
    rcases hr : cbReadRound fs peek conn with ⟨again, conn'⟩
    rw [hr] at hround
    dsimp only
    cases hround with
    | skip hne hskip hs hc hi hb' =>
      have hmin : conn'.evInput.length = conn.evInput.length - min conn.bytesSkip conn.evInput.length := by
        rw [hi, List.length_drop]
      have hpos := List.length_pos_of_ne_nil hne
      rw [if_pos rfl, read_skip, ← hs]
      by_cases hk : k ≤ buf.length
      · rw [if_pos hk]
        have hin' : conn'.evInput = [] ++ buf.drop k := by
          rw [hi, Nat.min_eq_left (by omega), hin, hb, List.drop_append,
            List.drop_eq_nil_of_le (by omega), show skipped.length + k - skipped.length = k by omega]
        have hb₀ : conn'.bytesSkip = ([] : List Byte).length + 0 := by
          rw [hb', List.length_nil]; omega
        exact cbReadLoop_follows hpeek (hc.trans hclosed) hin' hb₀ (by omega) (by omega)
      · rw [if_neg hk]
        have hnil : conn'.evInput = [] := List.eq_nil_of_length_eq_zero (by omega)
        have hb₀ : conn'.bytesSkip = ([] : List Byte).length + (k - buf.length) := by
          rw [hb', List.length_nil]; omega
        have hfollows := cbReadLoop_follows hpeek (hc.trans hclosed)
          (hnil.trans (List.append_nil []).symm) hb₀ (by omega) (show conn'.evInput.length < fuel by omega)
        rwa [read_wait next_nil] at hfollows
    | empty hnil hs hc hi hb' =>
      rw [if_neg Bool.false_ne_true]
      rw [hnil, eq_comm, List.append_eq_nil_iff] at hin
      obtain ⟨rfl, rfl⟩ := hin
      rw [read_wait next_nil]
      exact ⟨hc.trans hclosed, hs, [], hi.trans hnil, hb'.trans hb⟩
    | wait hskip hw hs hc hi hb' =>
      rw [if_neg Bool.false_ne_true]
      obtain rfl : skipped = [] := List.eq_nil_of_length_eq_zero (by omega)
      obtain rfl : k = 0 := by omega
      rw [List.nil_append] at hin
      rw [hin] at hw
      rw [read_wait (next_wait hw)]
      exact ⟨hc.trans hclosed, hs, [], hi.trans hin, hb'⟩
    | oversized hskip hn hbad hbig hl hs hc hi hb' =>
      rw [if_neg Bool.false_ne_true]
      obtain rfl : skipped = [] := List.eq_nil_of_length_eq_zero (by omega)
      obtain rfl : k = 0 := by omega
      rw [List.nil_append] at hin
      rw [hin] at hn hbad hl hi
      have h4 := (length_of_frameTotal hn).1
      rw [read_eq stable_next, next_oversized hn hbad hbig]
      dsimp only
      rw [read_skip, if_neg (by rw [List.length_drop]; omega)]
      refine ⟨hc.trans hclosed, hs, buf, by rw [hi, List.append_nil], ?_⟩
      rw [hb', List.length_drop]
      dsimp only
      omega
    | bad hskip hn hbad hs hc =>
      rw [if_neg Bool.false_ne_true]
      obtain rfl : skipped = [] := List.eq_nil_of_length_eq_zero (by omega)
      obtain rfl : k = 0 := by omega
      rw [List.nil_append] at hin
      rw [hin] at hn hbad
      rw [read_eq stable_next, next_bad hn hbad]
      exact ⟨hc, hs⟩
    | @frame _ n _ hskip hn hbad hl hs hc hb' hi =>
      obtain rfl : skipped = [] := List.eq_nil_of_length_eq_zero (by omega)
      obtain rfl : k = 0 := by omega
      rw [List.nil_append] at hin
      have hpos := frameTotal_pos hn
      have hdrop : (conn.evInput.drop n).length = conn.evInput.length - n := List.length_drop
      rw [← hin, read_eq stable_next, next_frame hn hbad (by omega) hl, hs]
      cases again with
      | false => exact ⟨hc, rfl⟩
      | true =>
        dsimp only
        rw [if_pos rfl, ← hi rfl]
        rw [← hi rfl] at hdrop
        exact cbReadLoop_follows hpeek hc (List.nil_append _).symm hb' (by omega) (by omega)

/-- An event that brings bytes. -/
theorem handle_follows (hpeek : PeekLawful peek) {conn : Connection Control}
    {r : FrameReader Control × Option (List Byte)} {chunk : List Byte} (h : Follows conn r)
    (hmark : conn.closed = false → conn.evInput.length + chunk.length ≤ CAPTURE_HIGH_WATERMARK) :
    Follows (conn.handle fs peek (.arrive chunk)) (feed (FrameReader.next fs) r chunk) := by
  rcases r with ⟨s, _ | rest⟩
  · obtain ⟨hc, hs⟩ := h
    rw [Connection.handle, if_pos hc]
    exact ⟨hc, hs⟩
  · obtain ⟨hc, hs, skipped, hin, hb⟩ := h
    rw [Connection.handle, if_neg (by rw [hc]; exact Bool.false_ne_true), cbRead, feed]
    have hin' : conn.evInput ++ chunk = skipped ++ (rest ++ chunk) := by rw [hin, List.append_assoc]
    have hfollows : Follows (cbReadLoop fs peek ((conn.evInput ++ chunk).length + 1)
        { conn with evInput := conn.evInput ++ chunk })
        (read (FrameReader.next fs) ⟨conn.toSession, s.skip⟩ (rest ++ chunk)) :=
      cbReadLoop_follows hpeek hc hin' hb (by rw [List.length_append]; exact hmark hc)
        (Nat.lt_succ_self _)
    have hs' : (⟨conn.toSession, s.skip⟩ : FrameReader Control) = s := by rw [hs]
    rw [hs'] at hfollows
    exact hfollows

theorem run_closed {conn : Connection Control} (hc : conn.closed = true) :
    ∀ es : List ConnEvent, conn.run fs peek es = conn
  | [] => rfl
  | .arrive chunk :: es => by
    rw [Connection.run, List.foldl_cons, Connection.handle, if_pos hc]
    exact run_closed hc es
  | .written :: es => by
    rw [Connection.run, List.foldl_cons, Connection.handle, if_pos hc]
    exact run_closed hc es

/-- **A connection follows the reader.**  It reads all that arrives, except that the
    write callback after a STOP closes it at some point. -/
theorem run_follows (hpeek : PeekLawful peek) {s : Session Control} :
    ∀ {es : List ConnEvent} {conn : Connection Control} {bytes : List Byte},
    Follows conn (read (FrameReader.next fs) ⟨s, 0⟩ bytes) → WithinWatermark fs peek conn es →
    Follows (conn.run fs peek es) (read (FrameReader.next fs) ⟨s, 0⟩ (bytes ++ arrivals es)) ∨
    ∃ seen unseen, arrivals es = seen ++ unseen ∧ ConnEvent.written ∈ es ∧
      (conn.run fs peek es).closed = true ∧ (conn.run fs peek es).state = .stopped ∧
      (conn.run fs peek es).toSession =
        (read (FrameReader.next fs) ⟨s, 0⟩ (bytes ++ seen)).1.toSession
  | [], conn, bytes, h, _ => by
    rw [arrivals, List.append_nil]
    exact .inl h
  | .arrive chunk :: es, conn, bytes, h, hw => by
    have hstep : Follows (conn.handle fs peek (.arrive chunk)) _ :=
      handle_follows hpeek h (hw.1 chunk rfl)
    rw [← read_append stable_next] at hstep
    rw [arrivals, Connection.run, List.foldl_cons, ← List.append_assoc]
    rcases run_follows hpeek hstep hw.2 with hrun | ⟨seen, unseen, ha, hmem, hc, hst, hs⟩
    · exact .inl hrun
    · refine .inr ⟨chunk ++ seen, unseen, ?_, List.mem_cons_of_mem _ hmem, hc, hst, ?_⟩
      · rw [ha, List.append_assoc]
      · rw [← List.append_assoc]
        exact hs
  | .written :: es, conn, bytes, h, hw => by
    rw [arrivals, Connection.run, List.foldl_cons]
    by_cases hstop : conn.closed = false ∧ conn.state = .stopped
    · -- the connection is closed, and what still arrives is not read
      have hhandle : conn.handle fs peek .written = cbCloseConn conn := by
        rw [Connection.handle, if_neg (by rw [hstop.1]; exact Bool.false_ne_true), cbWrite,
          if_neg (not_not.2 hstop.2)]
      have hrun : List.foldl (Connection.handle fs peek) (cbCloseConn conn) es = cbCloseConn conn :=
        run_closed rfl es
      refine .inr ⟨[], arrivals es, rfl, List.mem_cons_self, ?_, ?_, ?_⟩ <;> rw [hhandle, hrun]
      · rfl
      · exact hstop.2
      · rw [List.append_nil]
        rcases hr : read (FrameReader.next fs) ⟨s, 0⟩ bytes with ⟨s', _ | rest⟩ <;> rw [hr] at h
        exacts [h.2, h.2.1]
    · have hhandle : conn.handle fs peek .written = conn := by
        rw [Connection.handle]
        split_ifs with hc
        · rfl
        · rw [cbWrite, if_pos fun hst => hstop ⟨Bool.eq_false_of_not_eq_true hc, hst⟩]
      have hw' := hw.2
      rw [hhandle] at hw' ⊢
      rcases run_follows hpeek h hw' with hrun | ⟨seen, unseen, ha, hmem, hrest⟩
      · exact .inl hrun
      · exact .inr ⟨seen, unseen, ha, List.mem_cons_of_mem _ hmem, hrest⟩

theorem connInit_follows :
    Follows (connInit fs) (read (FrameReader.next fs) ⟨(connInit fs).toSession, 0⟩ []) := by
  rw [read_wait next_nil]
  exact ⟨rfl, rfl, [], rfl, rfl⟩

/-! ## Reading is processing the frames -/

variable (fs) in
/-- A session consumes frames one after the other; oversized data frames are
    skipped.  `false` if the connection ends. -/
def Session.consumeAll : Session Control → List (List Byte) → Session Control × Bool
  | s, [] => (s, true)
  | s, frame :: rest =>
    if ntohl frame 0 > 0 ∧ frame.length > CAPTURE_HIGH_WATERMARK then s.consumeAll rest
    else match s.consume fs frame with
      | (true, s') => s'.consumeAll rest
      | (false, s') => (s', false)

variable (fs) in
/-- **Reading a stream is processing its frames.** -/
theorem read_frames (s : Session Control) (bytes : List Byte) :
    (read (FrameReader.next fs) ⟨s, 0⟩ bytes).1.toSession = (s.consumeAll fs (frames bytes)).1 ∧
    ((read (FrameReader.next fs) ⟨s, 0⟩ bytes).2 ≠ none →
      (s.consumeAll fs (frames bytes)).2 = true) := by
  induction hl : bytes.length using Nat.strongRecOn generalizing s bytes with
  | _ len ih =>
    rw [frames_eq]
    cases hn : frameTotal bytes with
    | none =>
      rw [read_wait (next_wait fun n hn' => by rw [hn] at hn'; cases hn')]
      exact ⟨rfl, fun _ => rfl⟩
    | some n =>
      have hn4 := frameTotal_pos hn
      obtain ⟨-, hctl, -⟩ := length_of_frameTotal hn
      have h0 : ntohl (bytes.take n) 0 = ntohl bytes 0 := ntohl_take (by omega)
      dsimp only
      by_cases hbad : controlLengthBad bytes = true
      · have hz : ntohl bytes 0 = 0 := by
          rw [controlLengthBad, decide_eq_true_eq] at hbad
          exact hbad.1
        rw [read_eq stable_next, next_bad hn hbad]
        split_ifs with hlen
        · exact ⟨rfl, fun h => absurd rfl h⟩
        · have hbad' : controlLengthBad (bytes.take n) = true := by
            have := hctl hz
            rw [controlLengthBad, h0, ntohl_take (by omega)]
            exact hbad
          rw [Session.consumeAll, if_neg (by rw [h0]; omega),
            Session.consume_refused (h0.trans hz) (.inl hbad')]
          exact ⟨rfl, fun h => absurd rfl h⟩
      rcases Nat.lt_or_ge CAPTURE_HIGH_WATERMARK n with hbig | hbig
      · rw [read_eq stable_next, next_oversized hn hbad hbig]
        dsimp only
        rw [read_skip, List.length_drop, List.drop_drop]
        have hz : 0 < ntohl bytes 0 := by
          rcases Nat.eq_zero_or_pos (ntohl bytes 0) with hz | hz
          · have := hctl hz
            simp only [controlLengthBad, hz, true_and, decide_eq_true_eq, not_or, not_lt] at hbad
            rw [FSTRM_CONTROL_FRAME_LENGTH_MAX] at hbad
            rw [CAPTURE_HIGH_WATERMARK] at hbig
            omega
          · exact hz
        by_cases hlen : bytes.length < n
        · rw [if_neg (by omega), if_pos hlen]
          exact ⟨rfl, fun _ => rfl⟩
        · rw [if_pos (by omega), if_neg hlen, show 1 + (n - 1) = n by omega, Session.consumeAll,
            if_pos ⟨by rw [h0]; exact hz, by rw [List.length_take]; omega⟩]
          exact ih _ (by rw [List.length_drop]; omega) _ _ rfl
      by_cases hlen : bytes.length < n
      · rw [read_wait (next_wait fun m hm => ?_), if_pos hlen]
        · exact ⟨rfl, fun _ => rfl⟩
        · obtain rfl : n = m := Option.some.inj (hn.symm.trans hm)
          exact ⟨hbad, hbig, hlen⟩
      · rw [if_neg hlen, read_eq stable_next, next_frame hn hbad hbig (Nat.le_of_not_lt hlen),
          Session.consumeAll, if_neg (by rw [List.length_take]; omega)]
        rcases s.consume fs (bytes.take n) with ⟨_ | _, s'⟩
        · exact ⟨rfl, fun h => absurd rfl h⟩
        · exact ih _ (by rw [List.length_drop]; omega) _ _ rfl

/-- The complete frames begin the stream. -/
theorem frames_prefix (bytes : List Byte) : (frames bytes).flatten ++ framesRest bytes = bytes := by
  have hpre : (frames bytes).flatten <+: bytes := by
    induction bytes using frames_induction with
    | stop bytes hframes =>
      rw [hframes]
      exact List.nil_prefix
    | frame bytes n hn hlen hframes ih =>
      rw [hframes, List.flatten_cons]
      conv => rhs; rw [← List.take_append_drop n bytes]
      exact (List.prefix_append_right_inj _).2 ih
  exact List.prefix_iff_eq_append.1 hpre

/-- More input only adds frames. -/
theorem frames_append (bytes more : List Byte) : frames bytes <+: frames (bytes ++ more) := by
  induction bytes using frames_induction with
  | stop bytes hframes =>
    rw [hframes]
    exact List.nil_prefix
  | frame bytes n hn hlen hframes ih =>
    rw [hframes, frames_eq (bytes ++ more), (frameTotal_append more hn).1]
    dsimp only
    rw [if_neg (by rw [List.length_append]; omega), List.take_append_of_le_length (by omega),
      List.drop_append_of_le_length (by omega)]
    exact (List.prefix_cons_inj _).2 ih

end Honas
