/-
  The event loop of the collector (`main` and its callbacks in `src/bin/honas_gather.c`).

  libevent calls one function at a time: a connection is accepted, bytes have arrived on
  one of the connections, its output has been written, or it has failed; a timer looks at
  the clock, writes the instrumentation, or ends an hour or a day of the dry run.  All of
  them work on the same globals.

  Recorded are the data frames that are decoded, with their connections, and the periods
  that have ended (`Globals.frames`, `Globals.periods`).
-/
import Honas.Registration
import Honas.GatherFrames
import Honas.GatherRotate

namespace Honas

open Bits

/-- What the event loop uses of libfstrm, libevent, protobuf, OpenSSL and ldns, and of
    floating point.  `unpack` gives the message of a frame, if there is one; `none` if it
    cannot be unpacked. -/
structure Externals (Control : Type) where
  fs : Fstrm Control
  peek : EvbufferPeek
  unpack : List Byte → Option (Option DnstapMessage)
  sha256 : List Byte → Digest
  ldnsWire2pkt : List Byte → Option (List LdnsRr)
  fprExceeds : ℕ → ℕ → ℕ → Bool
  estimate : ℚ → ℕ → BitVec 64

/-- A data frame that has been decoded: the time, and the bytes in `buf`. -/
structure DecodedFrame where
  now : BitVec 64
  buf : List Byte

/-- A period that has ended: the parameters of its state, the subnets that were looked up
    in it, the frames decoded in it, each with the index of its connection, and the
    rotation that ended it. -/
structure Period where
  params : StateParams
  subnets : Option SubnetActivity
  frames : List (ℕ × DecodedFrame)
  rotation : Rotation

/-- The globals.  Beside the context these are the number of invalid frames, the maxima of
    the dry run, and the number of connections that may still be accepted; the last three
    fields are those of the current period, and the periods before it. -/
structure Globals extends Capture where
  nInvalidFrames : ℕ
  hourlyMaximum : ℕ
  dailyMaximum : ℕ
  remainingConnections : ℤ
  listening : Bool
  params : StateParams
  frames : List (ℕ × DecodedFrame)
  periods : List Period

/-- The program: the globals, and the connections in the order in which they were accepted. -/
structure GatherLoop (Control : Type) extends Globals where
  conns : List (Connection Control)

variable {Control : Type} (env : Externals Control)

/-! ## Data frames -/

/-- The end of `process_data_frame`: the frame is unpacked, and its message decoded. -/
def Globals.decodeFrame (i : ℕ) (now : BitVec 64) (buf : List Byte) (g : Globals) :
    Option Globals :=
  let g := { g with frames := g.frames ++ [(i, ⟨now, buf⟩)] }
  match env.unpack buf with
  | some (some m) => do
    let (decoded, ctx) ← decodeDnstapMessage env.sha256 env.ldnsWire2pkt env.fprExceeds now
      g.toCapture m
    let g := { g with toCapture := ctx }
    some (if !decoded then { g with nInvalidFrames := g.nInvalidFrames + 1 } else g)
  | some none => some g
  | none => some g

/-- What is unpacked of the data frames among some entries. -/
def dataFrames (entries : List Entry) : List (Option (List Byte)) :=
  entries.filterMap fun
    | .control _ _ => none
    | .data _ _ _ unpacked => some unpacked

/-- The data frames that have been recorded between two points of a connection are decoded;
    `now k` is the time at the data frame with number `k`.  `none` when `buf` is too small
    for one of them, or the program stops. -/
def Globals.decodeNew (i : ℕ) (now : ℕ → BitVec 64) (before after : List Entry) (g : Globals) :
    Option Globals :=
  ((dataFrames (after.drop before.length)).zipIdx (dataFrames before).length).foldlM
    (fun g x => x.1.bind fun buf => g.decodeFrame env i (now x.2) buf) g

/-- The loop of `cb_read`, with the decoding: after each round the data frame that it has
    processed, if there is one, is decoded. -/
def Globals.readLoop (i : ℕ) (now : ℕ → BitVec 64) :
    ℕ → Connection Control → Globals → Option (Connection Control × Globals)
  | 0, conn, g => some (conn, g)
  | fuel + 1, conn, g => do
    let (again, conn') := cbReadRound env.fs env.peek conn
    let g ← g.decodeNew env i now conn.entries conn'.entries
    if again then Globals.readLoop i now fuel conn' g else some (conn', g)

/-! ## Connections -/

/-- The end of `cb_close_conn`. -/
def Globals.connClosed (g : Globals) : Globals :=
  let g := { g with remainingConnections := g.remainingConnections + 1 }
  if g.remainingConnections = 1 then { g with listening := true } else g

/-- The end of `cb_accept_conn`. -/
def Globals.connAccepted (g : Globals) : Globals :=
  let g := { g with remainingConnections := g.remainingConnections - 1 }
  if g.remainingConnections = 0 then { g with listening := false } else g

/-- The callbacks of a `bufferevent`: `cb_read` when bytes have arrived, `cb_write`, and
    `cb_close_conn` when there is an error or the peer has closed. -/
inductive BufferEvent where
  | read (chunk : List Byte)
  | write
  | error

/-- A callback of an open connection. -/
def Globals.callback (i : ℕ) (now : ℕ → BitVec 64) (conn : Connection Control) (g : Globals) :
    BufferEvent → Option (Connection Control × Globals)
  | .read chunk =>
    let conn := { conn with evInput := conn.evInput ++ chunk }
    g.readLoop env i now (conn.evInput.length + 1) conn
  | .write => some (cbWrite conn, g)
  | .error => some (cbCloseConn conn, g)

/-- A callback of the connection with an index; there is none after `bufferevent_free`. -/
def GatherLoop.connEvent (c : GatherLoop Control) (i : ℕ) (now : ℕ → BitVec 64)
    (e : BufferEvent) : Option (GatherLoop Control) :=
  match c.conns[i]? with
  | none => some c
  | some conn =>
    if conn.closed then some c
    else do
      let (conn, g) ← c.toGlobals.callback env i now conn e
      some ⟨if conn.closed then g.connClosed else g, c.conns.set i conn⟩

/-- `cb_accept_conn`, where `accepted` says whether there is a `bufferevent`. -/
def GatherLoop.accept (c : GatherLoop Control) (accepted : Bool) : GatherLoop Control :=
  if c.listening && accepted then ⟨c.connAccepted, c.conns ++ [connInit env.fs]⟩ else c

/-! ## Timers -/

/-- `recheck_handler`. -/
def Globals.recheck (now : BitVec 64) (config : GatherConfig) (subnets : SubnetActivity)
    (g : Globals) : Option Globals := do
  let (ctx, rotation) ← recheckHandler now config subnets g.toCapture
  match rotation with
  | none => some { g with toCapture := ctx }
  | some rotation =>
    some { g with
      toCapture := ctx
      params := config.toStateParams
      frames := []
      periods := g.periods ++ [⟨g.params, g.toCapture.subnets, g.frames, rotation⟩] }

/-- `instrumentation_event`: the counters are written and reset. -/
def Globals.instrumentationEvent (g : Globals) : Globals :=
  { g with instData := g.instData.reset, nInvalidFrames := 0 }

/-- The maxima in `dry_run_advice`. -/
def Globals.dryRunAdvice (g : Globals) : Globals :=
  match g.dryRun with
  | none => g
  | some dryrun =>
    let (hourlyGlobal, hourly) := hllCount env.estimate dryrun.hourlyGlobal
    let (dailyGlobal, daily) := hllCount env.estimate dryrun.dailyGlobal
    { g with
      dryRun := some { dryrun with hourlyGlobal, dailyGlobal }
      hourlyMaximum := max g.hourlyMaximum hourly.toNat
      dailyMaximum := max g.dailyMaximum daily.toNat }

/-- `dry_run_hourly_event`, at the time `now`. -/
def Globals.dryRunHourlyEvent (now : BitVec 64) (g : Globals) : Globals :=
  match g.dryRun with
  | none => g
  | some dryrun =>
    let current := (hllCount env.estimate dryrun.hourlyGlobal).2
    let g := { g with
      hourlyMaximum := max g.hourlyMaximum current.toNat
      dryRun := some { dryrun with hourlyGlobal := hllInit, hourlyTotalQueries := 0 } }
    if (Calendar.gmtime now.toInt).hour = 0 then g.dryRunAdvice env else g

/-- `dry_run_daily_event`. -/
def Globals.dryRunDailyEvent (g : Globals) : Globals :=
  match g.dryRun with
  | none => g
  | some dryrun =>
    let current := (hllCount env.estimate dryrun.dailyGlobal).2
    { g with
      dailyMaximum := max g.dailyMaximum current.toNat
      dryRun := some { dryrun with dailyGlobal := hllInit, dailyTotalQueries := 0 } }

/-! ## The loop -/

/-- A call that libevent makes. -/
inductive LoopEvent where
  | accept (accepted : Bool)
  | conn (i : ℕ) (now : ℕ → BitVec 64) (e : BufferEvent)
  | recheck (now : BitVec 64) (config : GatherConfig) (subnets : SubnetActivity)
  | instrumentation
  | dryRunHourly (now : BitVec 64)
  | dryRunDaily

/-- One call; `none` when the program stops, or writes past the end of a buffer. -/
def GatherLoop.step (c : GatherLoop Control) : LoopEvent → Option (GatherLoop Control)
  | .accept accepted => some (c.accept env accepted)
  | .conn i now e => c.connEvent env i now e
  | .recheck now config subnets => do
    let g ← c.toGlobals.recheck now config subnets
    some ⟨g, c.conns⟩
  | .instrumentation => some ⟨c.instrumentationEvent, c.conns⟩
  | .dryRunHourly now => some ⟨c.dryRunHourlyEvent env now, c.conns⟩
  | .dryRunDaily => some ⟨c.dryRunDailyEvent env, c.conns⟩

/-- `event_base_dispatch`: a run of the loop. -/
def GatherLoop.run (c : GatherLoop Control) (events : List LoopEvent) :
    Option (GatherLoop Control) :=
  events.foldlM (GatherLoop.step env) c

/-- The program before the loop: a state has been created, and there is no connection.
    Any number of connections is allowed. -/
def GatherLoop.start (options : Options) (params : StateParams) (state : HonasState) :
    GatherLoop Control where
  toCapture := .start options state
  nInvalidFrames := 0
  hourlyMaximum := 0
  dailyMaximum := 0
  remainingConnections := -1
  listening := true
  params := params
  frames := []
  periods := []
  conns := []

end Honas
