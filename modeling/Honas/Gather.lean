/-
  A connection of the collector (`src/bin/honas_gather.c`).

  A name server connects to a socket and speaks Frame Streams: a control frame
  is a zero length, a second length and that many bytes; a data frame is its
  length and that many bytes.  `cb_read` is called when bytes have arrived. It
  takes the complete frames from the input buffer: control frames go through
  libfstrm and move the connection from state to state, data frames go to the
  decoder.

  libfstrm and libevent are parameters.  What reaches the decoder is recorded
  (`Session.entries`), with the state of the connection at that moment.
-/
import Honas.Lib.Bits

namespace Honas

open Bits

/-- `fstrm_control_type`. -/
inductive FstrmControlType where
  | accept
  | start
  | stop
  | ready
  | finish
deriving DecidableEq

/-- `conn_state`. -/
inductive ConnState where
  | readingControlReady
  | readingControlStart
  | readingData
  | stopped
deriving DecidableEq

/-- `CONTENT_TYPE`: `protobuf:dnstap.Dnstap`. -/
def CONTENT_TYPE : List Byte :=
  [0x70, 0x72, 0x6f, 0x74, 0x6f, 0x62, 0x75, 0x66, 0x3a, 0x64, 0x6e, 0x73, 0x74, 0x61, 0x70,
    0x2e, 0x44, 0x6e, 0x73, 0x74, 0x61, 0x70]

/-- `CAPTURE_HIGH_WATERMARK`. -/
def CAPTURE_HIGH_WATERMARK : ℕ := 262144

/-- `FSTRM_CONTROL_FRAME_LENGTH_MAX`. -/
def FSTRM_CONTROL_FRAME_LENGTH_MAX : ℕ := 512

/-- The functions of libfstrm on a `struct fstrm_control`, and
    `bufferevent_write`.  `none` and `false` are the results other than success. -/
structure Fstrm (Control : Type*) where
  init : Control
  decode : List Byte → Option Control
  getType : Control → Option FstrmControlType
  getNumFieldContentType : Control → Option ℕ
  getFieldContentType : Control → ℕ → Option (List Byte)
  matchFieldContentType : Control → List Byte → Bool
  reset : Control → Control
  setType : Control → FstrmControlType → Option Control
  addFieldContentType : Control → List Byte → Option Control
  encode : Control → ℕ → Option (List Byte)
  write : List Byte → Bool

/-- `evbuffer_peek`: the memory blocks that hold the first bytes of the input
    buffer.  The blocks may be others for each frame. -/
abbrev EvbufferPeek := ℕ → List Byte → ℕ → List (List Byte)

/-- A frame taken from the input buffer, with the state of the connection then.
    Of a data frame also whether its content type was found valid, and what is
    unpacked (`none` if the program does not get there). -/
inductive Entry where
  | control (state : ConnState) (frame : List Byte)
  | data (state : ConnState) (frame : List Byte) (valid : Bool) (unpacked : Option (List Byte))
deriving DecidableEq

namespace Entry

/-- The state of the connection. -/
def state : Entry → ConnState
  | control state _ => state
  | data state _ _ _ => state

/-- The bytes of the frame. -/
def frame : Entry → List Byte
  | control _ frame => frame
  | data _ frame _ _ => frame

/-- A data frame. -/
def isData : Entry → Bool
  | control _ _ => false
  | data _ _ _ _ => true

end Entry

/-- The fields of `struct connection` that frames change. -/
structure Session (Control : Type*) where
  state : ConnState
  countRead : ℕ
  bytesRead : ℕ
  control : Control
  evOutput : List Byte
  entries : List Entry

/-- `struct connection`; `closed` is set by `cb_close_conn`. -/
structure Connection (Control : Type*) extends Session Control where
  bytesSkip : ℕ
  lenBuf : ℕ
  lenFramePayload : ℕ
  lenFrameTotal : ℕ
  evInput : List Byte
  closed : Bool

variable {Control : Type*} (fs : Fstrm Control) (peek : EvbufferPeek)

/-- `conn_init`. -/
def connInit : Connection Control where
  state := .readingControlReady
  countRead := 0
  bytesRead := 0
  control := fs.init
  evOutput := []
  entries := []
  bytesSkip := 0
  lenBuf := 0
  lenFramePayload := 0
  lenFrameTotal := 0
  evInput := []
  closed := false

/-- `cb_close_conn`. -/
def cbCloseConn (conn : Connection Control) : Connection Control :=
  { conn with closed := true }

/-- `ntohl` of the four bytes at an offset. -/
def ntohl (bytes : List Byte) (offset : ℕ) : ℕ := ofLE ((bytes.drop offset).take 4).reverse

/-! ## The next frame -/

/-- The end of `can_read_full_frame`: has the frame fully arrived? -/
def frameArrived (conn : Connection Control) : Bool × Connection Control :=
  if conn.lenBuf < conn.lenFrameTotal then
    if conn.lenFrameTotal > CAPTURE_HIGH_WATERMARK then
      (false, { conn with bytesSkip := conn.lenFrameTotal })
    else (false, conn)
  else (true, conn)

/-- `can_read_full_frame`. -/
def canReadFullFrame (conn : Connection Control) : Bool × Connection Control :=
  let conn := { conn with lenFrameTotal := 0 }
  if conn.lenBuf < 4 then (false, conn)
  else
    let conn := { conn with lenFramePayload := ntohl conn.evInput 0 }
    let conn := { conn with lenFrameTotal := conn.lenFrameTotal + 4 }
    let conn := { conn with lenFrameTotal := conn.lenFrameTotal + conn.lenFramePayload }
    if conn.lenFramePayload = 0 then
      if conn.lenBuf < 2 * 4 then (false, conn)
      else
        let lenControlFrame := ntohl conn.evInput 4
        let conn := { conn with lenFrameTotal := conn.lenFrameTotal + 4 }
        if lenControlFrame < 4 ∨ lenControlFrame > FSTRM_CONTROL_FRAME_LENGTH_MAX then
          (false, cbCloseConn conn)
        else frameArrived { conn with lenFrameTotal := conn.lenFrameTotal + lenControlFrame }
    else frameArrived conn

/-! ## Data frames -/

/-- `verify_content_type`. -/
def verifyContentType (control : Control) (contentType : List Byte) : Bool :=
  match fs.getNumFieldContentType control with
  | none => false
  | some nContentType =>
    if nContentType > 0 then
      match fs.getFieldContentType control 0 with
      | none => false
      | some rContentType =>
        if contentType.length ≠ rContentType.length then false else contentType = rContentType
    else false

/-- The size of `buf` in `process_data_frame`. -/
def sizeofBuf : ℕ := 4096

/-- The loop of `process_data_frame` that copies the blocks to `buf`; `none` when
    it writes past its end. -/
def readVecs (total : ℕ) : List (List Byte) → List Byte → Option (List Byte)
  | [], buf => some buf
  | vec :: vecs, buf =>
    let len := if buf.length + vec.length > total then total - buf.length else vec.length
    if buf.length + len > sizeofBuf then none else readVecs total vecs (buf ++ vec.take len)

/-- `process_data_frame`.  The content type is verified, but the frame is unpacked
    in any case. -/
def processDataFrame (conn : Connection Control) : Connection Control :=
  let vecs := peek conn.countRead conn.evInput conn.lenFrameTotal
  let buf := (readVecs conn.lenFrameTotal vecs []).filter fun buf => buf.length = conn.lenFrameTotal
  let frame := conn.evInput.take conn.lenFrameTotal
  let valid := verifyContentType fs conn.control CONTENT_TYPE
  { conn with
    evInput := conn.evInput.drop conn.lenFrameTotal
    entries := conn.entries ++ [.data conn.state frame valid buf]
    countRead := conn.countRead + 1
    bytesRead := conn.bytesRead + conn.lenFrameTotal }

/-! ## Control frames -/

/-- `match_content_type`. -/
def matchContentType (conn : Session Control) : Bool :=
  fs.matchFieldContentType conn.control CONTENT_TYPE

/-- `load_control_frame`. -/
def loadControlFrame (conn : Connection Control) : Bool × Connection Control :=
  if conn.lenFrameTotal ≥ FSTRM_CONTROL_FRAME_LENGTH_MAX then (false, conn)
  else
    let controlFrame := conn.evInput.take conn.lenFrameTotal
    match fs.decode controlFrame with
    | none => (false, conn)
    | some control =>
      (true, { conn with
        control := control
        entries := conn.entries ++ [.control conn.state controlFrame]
        evInput := conn.evInput.drop conn.lenFrameTotal })

/-- `write_control_frame`, with `send_frame`. -/
def writeControlFrame (conn : Session Control) : Bool × Session Control :=
  match fs.encode conn.control FSTRM_CONTROL_FRAME_LENGTH_MAX with
  | none => (false, conn)
  | some controlFrame =>
    if fs.write controlFrame then (true, { conn with evOutput := conn.evOutput ++ controlFrame })
    else (false, conn)

/-- `process_control_frame_ready`. -/
def processControlFrameReady (conn : Session Control) : Bool × Session Control :=
  match fs.getNumFieldContentType conn.control with
  | none => (false, conn)
  | some nContentType =>
    if !(List.range nContentType).all fun i => (fs.getFieldContentType conn.control i).isSome then
      (false, conn)
    else if !matchContentType fs conn then (false, conn)
    else
      let conn := { conn with control := fs.reset conn.control }
      match fs.setType conn.control .accept with
      | none => (false, conn)
      | some control =>
        let conn := { conn with control := control }
        match fs.addFieldContentType conn.control CONTENT_TYPE with
        | none => (false, conn)
        | some control =>
          let conn := { conn with control := control }
          let (written, conn) := writeControlFrame fs conn
          if !written then (false, conn)
          else (true, { conn with state := .readingControlStart })

/-- `process_control_frame_start`. -/
def processControlFrameStart (conn : Session Control) : Bool × Session Control :=
  if !matchContentType fs conn then (false, conn)
  else (true, { conn with state := .readingData })

/-- `process_control_frame_stop`. -/
def processControlFrameStop (conn : Session Control) : Bool × Session Control :=
  let conn := { conn with control := fs.reset conn.control }
  match fs.setType conn.control .finish with
  | none => (false, conn)
  | some control =>
    let conn := { conn with control := control }
    let (written, conn) := writeControlFrame fs conn
    if !written then (false, conn) else (true, { conn with state := .stopped })

/-- `process_control_frame`. -/
def processControlFrame (conn : Session Control) : Bool × Session Control :=
  match fs.getType conn.control with
  | none => (false, conn)
  | some type =>
    match conn.state with
    | .readingControlReady =>
      if type ≠ .ready then (false, conn) else processControlFrameReady fs conn
    | .readingControlStart =>
      if type ≠ .start then (false, conn) else processControlFrameStart fs conn
    | .readingData =>
      if type ≠ .stop then (false, conn) else processControlFrameStop fs conn
    | .stopped => (false, conn)

/-! ## The callbacks -/

/-- The end of the loop body of `cb_read`: a complete frame is processed, and
    `false` returns from `cb_read`. -/
def processFrame (conn : Connection Control) : Bool × Connection Control :=
  if conn.lenFramePayload > 0 then (true, processDataFrame fs peek conn)
  else
    let (loaded, conn) := loadControlFrame fs conn
    if !loaded then (false, cbCloseConn conn)
    else
      let (processed, session) := processControlFrame fs conn.toSession
      let conn := { conn with toSession := session }
      if !processed then (false, cbCloseConn conn) else (true, conn)

/-- The loop body of `cb_read`; `false` returns from `cb_read`. -/
def cbReadRound (conn : Connection Control) : Bool × Connection Control :=
  let conn := { conn with lenBuf := conn.evInput.length }
  if conn.lenBuf = 0 then (false, conn)
  else
    let (full, conn) := if conn.bytesSkip = 0 then canReadFullFrame conn else (true, conn)
    if !full then (false, conn)
    else if conn.bytesSkip > 0 then
      let skip := if conn.bytesSkip > conn.lenBuf then conn.lenBuf else conn.bytesSkip
      (true, { conn with evInput := conn.evInput.drop skip, bytesSkip := conn.bytesSkip - skip })
    else processFrame fs peek conn

/-- At most `fuel` rounds of the loop of `cb_read`. -/
def cbReadLoop : ℕ → Connection Control → Connection Control
  | 0, conn => conn
  | fuel + 1, conn =>
    let (again, conn) := cbReadRound fs peek conn
    if again then cbReadLoop fuel conn else conn

/-- `cb_read`.  Each round but the last one removes something from the input
    buffer, so the fuel suffices. -/
def cbRead (conn : Connection Control) : Connection Control :=
  cbReadLoop fs peek (conn.evInput.length + 1) conn

/-- `cb_write`. -/
def cbWrite (conn : Connection Control) : Connection Control :=
  if conn.state ≠ .stopped then conn else cbCloseConn conn

/-- What happens on a connection: bytes arrive and `cb_read` is called, or the
    output buffer has been written and `cb_write` is called. -/
inductive ConnEvent where
  | arrive (chunk : List Byte)
  | written

/-- An event; nothing happens on a closed connection. -/
def Connection.handle (conn : Connection Control) : ConnEvent → Connection Control
  | .arrive chunk =>
    if conn.closed then conn else cbRead fs peek { conn with evInput := conn.evInput ++ chunk }
  | .written => if conn.closed then conn else cbWrite conn

/-- All events of a connection. -/
def Connection.run (conn : Connection Control) (events : List ConnEvent) : Connection Control :=
  events.foldl (Connection.handle fs peek) conn

/-- The bytes that arrive. -/
def arrivals : List ConnEvent → List Byte
  | [] => []
  | .arrive chunk :: events => chunk ++ arrivals events
  | .written :: events => arrivals events

/-- The input buffer never holds more than the watermark. -/
def WithinWatermark (conn : Connection Control) : List ConnEvent → Prop
  | [] => True
  | event :: events =>
    (∀ chunk, event = .arrive chunk → conn.closed = false →
      conn.evInput.length + chunk.length ≤ CAPTURE_HIGH_WATERMARK) ∧
    WithinWatermark (conn.handle fs peek event) events

end Honas
