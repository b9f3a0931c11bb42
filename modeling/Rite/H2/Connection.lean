import Rite.H2.Stream
import Rite.Hpack.Parser

/-!
# The HTTP/2 connection (`connection<h2::protocol>`)

The state machine of `src/protocols/h2/connection.cpp`. A call of `process` gets the octets of the
packet from `pos` to `end` and returns, with its result, those it has left; what it has changed
before an exception stays changed. The frames that it writes to the socket are kept in the order
in which they are written; a write never fails.

A store past the variable of `decode_uri_component` is a fault, behind which nothing is known of the
process. The connection notes that there has been one, and goes on as it would if the octets behind
the variable did not matter.
-/

namespace Rite

namespace H2

open Hpack (Header Parser)

/-- A frame of permitted length whose payload has not fully arrived. -/
structure Partial where
  /-- The frame so far. -/
  frame : Frame
  /-- Some of the payload is missing. -/
  short : frame.data.length < frame.length.toNat
  /-- The length has been checked. -/
  bounded : frame.length.toNat ≤ maxFrameSize

/-- `connection<h2::protocol>::connection_state`. -/
inductive ConnectionState
  | clientPreface | waitClientSettings | idle | open | rsvLocal | hcRemote
  deriving DecidableEq

/-- `connection<h2::protocol>::result`. -/
inductive Result
  | newRequest | settings | invalid | eof | more
  deriving DecidableEq

/-- `connection<h2::protocol>`. -/
structure Connection where
  /-- `state_`. -/
  state : ConnectionState
  /-- `unfinished_frame_`. -/
  unfinishedFrame : Option Partial
  /-- `parameters_->hpack.rx`. -/
  rx : Parser
  /-- `streams_`. -/
  streams : AList fun _ : UInt32 => Stream
  /-- `request`, once there has been one. -/
  request : Option Request
  /-- `closed_`. -/
  closed : Bool
  /-- The frames that `process` has written to the socket. -/
  written : List Frame
  /-- The value of the uninitialised variable in `decode_uri_component`. -/
  ch : Octet
  /-- There has been a store past this variable. -/
  overrun : Bool

/-- A call of a member function of the connection. -/
abbrev ConnectionM := EStateM Fault Connection

/-- `HTTP2_CLIENT_PREFACE`. -/
def clientPreface : Octets := octets "PRI * HTTP/2.0\x0d\n\x0d\nSM\x0d\n\x0d\n"

/-- What a client sends first: the preface and empty settings. -/
def handshake : Octets := clientPreface ++ Frame.wire ⟨0, .settings, 0, 0, []⟩

namespace Connection

/-- A new connection. `STATIC_HEADER_TABLE` is the one the process has by then. -/
def fresh (table : Hpack.StaticTable) (ch : Octet) : Connection where
  state := .clientPreface
  unfinishedFrame := none
  rx := { table }
  streams := ∅
  request := none
  closed := false
  written := []
  ch := ch
  overrun := false

/-- `write`. -/
def write (frame : Frame) : ConnectionM Unit :=
  modify fun c => { c with written := c.written ++ [frame] }

/-- `terminate`. -/
def terminate : ConnectionM Unit := modify fun c => { c with closed := true }

/-- `streams_[id]`: a missing stream is value-initialised. -/
def stream (c : Connection) (id : UInt32) : Stream := (c.streams.lookup id).getD {}

/-- Assign to members of `streams_[id]`. -/
def updateStream (id : UInt32) (u : Stream → Stream) : ConnectionM Unit :=
  modify fun c => { c with streams := c.streams.insert id (u (c.stream id)) }

/-- A call on `parameters_->hpack.rx`. -/
def onRx {α : Type} (x : Hpack.ParserM α) : ConnectionM α := fun c =>
  match x.run c.rx with
  | .ok a rx => .ok a { c with rx }
  | .error e rx => .error e { c with rx }

/-! ## Reading frames -/

/-- The part of `read_frame` behind the header: add octets to the payload of a frame. -/
def accumulate (frame : Frame) (h : frame.length.toNat ≤ maxFrameSize) (pos : Octets) :
    ConnectionM (Except FrameState Frame × Octets) := do
  let missing := frame.length.toNat - frame.data.length
  let frame' := { frame with data := frame.data ++ pos.take missing }
  if hshort : frame'.data.length < frame'.length.toNat then
    -- wait for the next packet
    modify fun c => { c with unfinishedFrame := some ⟨frame', hshort, h⟩ }
    return (.error .insufficientData, pos.drop missing)
  else
    modify fun c => { c with unfinishedFrame := none }
    return (.ok frame', pos.drop missing)

/-- `read_frame`. -/
def readFrame (pos : Octets) : ConnectionM (Except FrameState Frame × Octets) := do
  match (← get).unfinishedFrame with
  | some unfinished => accumulate unfinished.frame unfinished.bounded pos
  | none =>
    match Frame.unpack pos with
    | none => return (.error .invalid, pos)
    | some frame =>
      if h : frame.length.toNat ≤ maxFrameSize then accumulate frame h (pos.drop frameSize)
      else return (.error .tooBig, pos)

/-! ## Handling frames -/

/-- `request = finish_stream(streams_[id])`. -/
def deliver (id : UInt32) : ConnectionM Unit := do
  let c ← get
  let (request, stream) := (c.stream id).finishStream c.ch
  updateStream id fun _ => stream
  modify fun c' => { c' with
    request := some request
    overrun := c'.overrun || (c.stream id).overruns c.ch }

/-- The case HEADERS, and CONTINUATION, which falls through to it. -/
def handleHeaders (frame : Frame) : ConnectionM Result := do
  let id := frame.streamIdentifier
  updateStream id fun s => { s with state := .open }
  match ← onRx (Parser.parse frame) with
  | .unknownHeader | .invalid =>
    terminate
    return .invalid
  | .sizeUpdate =>
    write ⟨0, .settings, Characteristics.Settings.ack, 0, []⟩
    return .more
  | .more => return .more
  | .done =>
    let (headers, rx) := (← get).rx.result
    modify fun c => { c with rx }
    updateStream id fun s => { s with headers }
    if frame.flags &&& Characteristics.Headers.endStream = 0 then return .more
    updateStream id fun s => { s with state := .halfClosed }
    deliver id
    return .newRequest

/-- The case DATA. -/
def handleData (frame : Frame) : ConnectionM Result := do
  let id := frame.streamIdentifier
  if id ∉ (← get).streams then
    terminate
    return .invalid
  updateStream id fun s => { s with data := s.data ++ frame.data }
  if frame.flags &&& Characteristics.Data.endStream ≠ 0 then
    deliver id
    return .newRequest
  return .more

/-- What `process` does with a frame in the state `IDLE`. -/
def handle (frame : Frame) : ConnectionM Result := do
  let id := frame.streamIdentifier
  updateStream id fun s => { s with streamId := id }
  match frame.type with
  | .settings =>
    if frame.flags &&& Characteristics.Settings.ack ≠ 1 then
      write ⟨0, .settings, Characteristics.Settings.ack, 0, []⟩
    return .settings
  | .ping =>
    write ⟨8, .ping, Characteristics.Ping.ack, id, List.replicate 8 0⟩
    return .settings
  | .windowUpdate => return .settings
  | .continuation | .headers => handleHeaders frame
  | .data => handleData frame
  | .rstStream =>
    updateStream id fun s => { s with state := .closed }
    return .more
  | _ => return .more

/-- What `process` does with the first frame, in the state `WAIT_CLIENT_SETTINGS`. -/
def handleClientSettings (settings : Frame) : ConnectionM Result := do
  if settings.type ≠ .settings then
    throw (.std (.runtimeError
      ("Expected client settings, but got " ++ toString settings.type.toOctet)))
  if settings.length % 6 ≠ 0 then
    terminate
    return .invalid
  write ⟨0, .settings, 0, 0, []⟩
  modify fun c => { c with state := .idle }
  return .settings

/-- `process`. -/
def process (pos : Octets) : ConnectionM (Result × Octets) := do
  if pos = [] then return (.eof, pos)
  match (← get).state with
  | .clientPreface =>
    if pos.take clientPreface.length ≠ clientPreface then
      throw (.std (.runtimeError "Invalid client preface"))
    modify fun c => { c with state := .waitClientSettings }
    return (.settings, pos.drop clientPreface.length)
  | .waitClientSettings =>
    match ← readFrame pos with
    | (.error .insufficientData, rest) => return (.more, rest)
    | (.error _, _) =>
      throw (.std (.runtimeError "Expected client settings, but got stream error"))
    | (.ok settings, rest) => return (← handleClientSettings settings, rest)
  | .idle =>
    match ← readFrame pos with
    | (.error .insufficientData, rest) => return (.more, rest)
    | (.error _, _) =>
      terminate
      throw .exit
    | (.ok frame, rest) => return (← handle frame, rest)
  | _ => throw .exit

end Connection

end H2

end Rite
