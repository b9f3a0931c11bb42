import Rite.H2.Codec
import Rite.H2.Exchange
import Rite.H2.Segmentation
import Rite.Hpack.Refinement

/-!
# What a client asks for

A server that follows the specification reads a message on each stream: one header block, then a
body, of which the last frame says that it is complete. It keeps one header decoder for all streams.
Whatever else a client sends does not change the messages.

The connection does what this server does, for frames that it supports: it makes a request of every
message, in the order in which they are complete.

## Main results

* `Refines.handle`: a frame that the server accepts is handled like that;
* `refines_receive`: and so are the frames of a client, behind the preface;
* `delivers_messages`: the requests that come of a connection, in whatever packets its octets
  arrive.
-/

namespace Rite

open Hpack (Header)

/-! ## The specification -/

namespace Rfc7540

open Characteristics

/-- A request as the client has sent it. -/
structure Message where
  /-- The stream. -/
  streamIdentifier : UInt32
  /-- The header list. -/
  headers : List Header
  /-- The body. -/
  body : Octets
  deriving DecidableEq

/-- What a stream has got. -/
inductive Phase
  /-- Nothing. -/
  | idle
  /-- The headers, and some of the body. -/
  | open (headers : List Header) (body : Octets)
  /-- The message is complete, or has been cancelled. -/
  | closed
  deriving DecidableEq

/-- A server. -/
structure Server where
  /-- The header decoder. -/
  decoder : Rfc7541.Decoder
  /-- The streams. -/
  phase : UInt32 → Phase

namespace Server

/-- A new server, with a dynamic table of at most `limit` octets. -/
def initial (limit : ℕ) : Server := ⟨.initial limit, fun _ => .idle⟩

/-- A stream goes on with its headers and what there is of its body; with END_STREAM the message is
complete. -/
def advance (s : Server) (f : Frame) (headers : List Header) (body : Octets) :
    Server × List Message :=
  let id := f.streamIdentifier
  if f.flags &&& Headers.endStream = 0 then
    ({ s with phase := Function.update s.phase id (.open headers body) }, [])
  else ({ s with phase := Function.update s.phase id .closed }, [⟨id, headers, body⟩])

/-- A frame is accepted, unless it comes where it must not, or its headers cannot be decoded: what
becomes of the server, and the message that is complete. -/
def receive (limit : ℕ) (s : Server) (f : Frame) : Option (Server × List Message) :=
  match f.type with
  | .headers =>
    if s.phase f.streamIdentifier = .idle then do
      let (headers, decoder) ← s.decoder.decode limit (HeadersPayload.fragment f)
      return ({ s with decoder } : Server).advance f headers []
    else none
  | .data =>
    match s.phase f.streamIdentifier with
    | .open headers body => some (s.advance f headers (body ++ f.applicationData))
    | _ => none
  | .rstStream =>
    some ({ s with phase := Function.update s.phase f.streamIdentifier .closed }, [])
  | .continuation => none
  | _ => some (s, [])

/-- Frames are accepted one after the other. -/
def receiveAll (limit : ℕ) (s : Server) : List Frame → Option (Server × List Message)
  | [] => some (s, [])
  | f :: frames => do
    let (s, messages) ← s.receive limit f
    let (s, messages') ← s.receiveAll limit frames
    return (s, messages ++ messages')

end Server

end Rfc7540

namespace H2

open Rfc7540 (Message)
open Characteristics

/-- The stream that is made of a message. -/
def Stream.ofMessage (m : Message) : Stream where
  streamId := m.streamIdentifier
  headers := m.headers
  data := m.body

/-- The request that is made of a message. -/
def requestOf (ch : Octet) (m : Message) : Request :=
  ((Stream.ofMessage m).finishStream ch).1

/-- A frame that the connection supports: a header block is in one frame, the padding of which is
not longer than the fields in front of the block, and does not refer to the last static index; and
a body is not padded. -/
structure Supported (f : Frame) : Prop where
  /-- The length is the one that is announced, and permitted. -/
  fits : f.Fits
  /-- The header block is complete, can be had, and avoids that index. -/
  block : f.type = .headers → f.flags &&& Headers.endHeaders ≠ 0 ∧ HeadersPayload.Readable f ∧
    Hpack.Avoids 61 (HeadersPayload.fragment f)
  /-- There is no padding around a body. -/
  unpadded : f.type = .data → ¬ f.Padded

/-- The stream of the connection has what the specification has. -/
def Matches (s : Stream) : Rfc7540.Phase → Prop
  | .idle => s.data = []
  | .open headers body => s.headers = headers ∧ s.data = body
  | .closed => True

/-- The connection is behind its settings and between two frames, and has what the server of the
specification has. -/
structure Refines (limit : ℕ) (s : Rfc7540.Server) (c : Connection) : Prop where
  /-- The header decoders are in step. -/
  hpack : Hpack.Sim limit s.decoder c.rx
  /-- No headers are left. -/
  decoded : c.rx.decoded = []
  /-- The connection is idle. -/
  state : c.state = .idle
  /-- No frame is unfinished. -/
  between : c.unfinishedFrame = none
  /-- The streams have got the same. -/
  streams : ∀ id, Matches (c.stream id) (s.phase id)

/-- A request depends on the headers and the body of its stream. -/
theorem finishStream_eq_ofMessage (ch : Octet) (s : Stream) :
    (s.finishStream ch).1 = requestOf ch ⟨s.streamId, s.headers, s.data⟩ := by
  simp only [requestOf, Stream.finishStream, Stream.ofMessage, Stream.getHeader,
    Stream.errorRequest]
  split <;> rfl

/-- So does whether it has a number behind a `%` in its query. -/
theorem overruns_eq_ofMessage (ch : Octet) (s : Stream) :
    s.overruns ch = (Stream.ofMessage ⟨s.streamId, s.headers, s.data⟩).overruns ch := rfl

/-- A stream that gets a frame without headers and data keeps what it has. -/
theorem Matches.control {s : Stream} {p : Rfc7540.Phase} (h : Matches s p) (streamId : UInt32)
    (state : StreamState) : Matches { s with streamId, state } p := by
  cases p <;> exact h

variable {limit : ℕ} {s s' : Rfc7540.Server} {c : Connection} {f : Frame} {messages : List Message}

/-- A header block that the specification can decode is decoded alike. -/
theorem exists_parse (hlimit : limit < 2 ^ 32) (hf : Supported f) (htype : f.type = .headers)
    {d d' : Rfc7541.Decoder} {p : Hpack.Parser} (hsim : Hpack.Sim limit d p)
    {headers : List Header}
    (hdecode : d.decode limit (HeadersPayload.fragment f) = some (headers, d')) :
    ∃ p', (Hpack.Parser.parse f).run p = .ok .done p' ∧ Hpack.Sim limit d' p' ∧
      p'.decoded = p.decoded ++ headers := by
  obtain ⟨hend, hreadable, havoids⟩ := hf.block htype
  obtain ⟨fields, hfields, hsteps⟩ := Option.bind_eq_some_iff.mp hdecode
  have hlength : (HeadersPayload.fragment f).length < 2 ^ 32 := by
    have hle : (HeadersPayload.fragment f).length ≤ f.data.length := by
      simp only [HeadersPayload.fragment, List.length_drop, List.length_take]
      omega
    have hlt := f.length.toNat_lt
    have heq := hf.fits.1
    omega
  have hall : ListReader.all Rfc7541.Field.read () (HeadersPayload.fragment f).length
      (HeadersPayload.fragment f) = .ok fields := by
    unfold Rfc7541.fields at hfields
    cases h : ListReader.all Rfc7541.Field.read () (HeadersPayload.fragment f).length
      (HeadersPayload.fragment f) with
    | error e => simp [h, Except.toOption] at hfields
    | ok fs => simpa [h, Except.toOption] using hfields
  obtain ⟨hmany, p', hrun, hsim', hdecoded⟩ := Hpack.many_refines hlimit
    (ListReader.many_of_all hall) hlength (havoids fields hfields) hsim hsteps
  refine ⟨p', ?_, hsim', hdecoded⟩
  -- END_HEADERS is set, so that the block is complete
  have hdone : f.flags &&& (Headers.endHeaders ||| Headers.endStream) ≠ 0 := fun h =>
    hend (Headers.and_flags_eq_zero_iff.mp h).1
  rw [Hpack.parse_of_applyAll hreadable hmany hrun, Hpack.Parser.completion, if_pos hdone]

/-! ## A step of the connection -/

/-- A stream of the connection changes with one of the specification. -/
theorem Refines.setStream (h : Refines limit s c) (id : UInt32) {p : Rfc7540.Phase} {st : Stream}
    (hst : Matches st p) :
    Refines limit { s with phase := Function.update s.phase id p } (c.setStream id st) where
  hpack := h.hpack
  decoded := h.decoded
  state := h.state
  between := h.between
  streams id' := by
    by_cases hid : id' = id
    · subst hid
      simpa using hst
    · rw [Connection.stream_setStream_of_ne hid]
      simpa [Function.update_of_ne hid] using h.streams id'

/-- A message is complete when a request is made of its stream. -/
theorem Refines.dispatch (h : Refines limit s c) (id : UInt32) (st : Stream) :
    Refines limit { s with phase := Function.update s.phase id .closed } (c.dispatch id st) :=
  have hset : Refines limit { s with phase := Function.update s.phase id .closed }
      (c.setStream id (st.finishStream c.ch).2) := h.setStream id trivial
  ⟨hset.hpack, hset.decoded, hset.state, hset.between, hset.streams⟩

/-- The headers of a block move into their stream. -/
theorem Refines.moved (h : Refines limit s c) {d : Rfc7541.Decoder} {rx : Hpack.Parser}
    (hsim : Hpack.Sim limit d rx) : Refines limit { s with decoder := d } (c.moved rx) where
  hpack := ⟨hsim.table_eq, hsim.isPrefix, hsim.total_le, hsim.maxSize_le⟩
  decoded := rfl
  state := h.state
  between := h.between
  streams := h.streams

/-- How the connection ends the handling of a frame of a message, if it holds `st` for the stream:
with a request if the message is complete. -/
def advanceEnd (c : Connection) (f : Frame) (st : Stream) :
    EStateM.Result Fault Connection Result :=
  if f.flags &&& Headers.endStream = 0 then .ok .more (c.setStream f.streamIdentifier st)
  else .ok .newRequest (c.dispatch f.streamIdentifier st)

/-- The connection does as the specification, and writes what it owes. -/
structure Follows (limit : ℕ) (c : Connection) (f : Frame)
    (spec : Rfc7540.Server × List Message) (r : EStateM.Result Fault Connection Result) : Prop where
  /-- The call returns, and has made requests of the messages. -/
  returned : ∃ v c', r = .ok v c' ∧ Refines limit spec.1 c' ∧
    Connection.requests v c' = spec.2.map (requestOf c.ch) ∧ c'.ch = c.ch ∧
    c'.written = c.written ++ Connection.answer f ∧ c'.closed = c.closed ∧
    c'.overrun = (c.overrun || spec.2.any fun m => (Stream.ofMessage m).overruns c.ch)

theorem Refines.advance (h : Refines limit s c) (st : Stream) {headers : List Header}
    {body : Octets} (hid : st.streamId = f.streamIdentifier) (hheaders : st.headers = headers)
    (hdata : st.data = body) (hanswer : Connection.answer f = []) :
    Follows limit c f (s.advance f headers body) (advanceEnd c f st) := by
  subst hheaders hdata
  unfold advanceEnd Rfc7540.Server.advance
  split_ifs with hend
  · exact ⟨_, _, rfl, h.setStream _ ⟨rfl, rfl⟩, rfl, rfl,
      by rw [hanswer, List.append_nil]; rfl, rfl, (Bool.or_false _).symm⟩
  · refine ⟨_, _, rfl, h.dispatch _ st, ?_, rfl, by rw [hanswer, List.append_nil]; rfl, rfl, ?_⟩
    · simp [Connection.requests, Connection.dispatch, finishStream_eq_ofMessage, hid]
    · simp [Connection.dispatch, overruns_eq_ofMessage c.ch st, hid]

/-- A frame that the specification accepts is handled as it says. -/
theorem Refines.handle (h : Refines limit s c) (hlimit : limit < 2 ^ 32) (hf : Supported f)
    {spec : Rfc7540.Server × List Message} (hreceive : s.receive limit f = some spec) :
    Follows limit c f spec ((Connection.handle f).run c) := by
  have hstream := h.streams f.streamIdentifier
  by_cases hheaders : f.type = .headers
  · -- the first frame of a message
    simp only [Rfc7540.Server.receive, hheaders] at hreceive
    split_ifs at hreceive with hphase
    obtain ⟨⟨headers, d⟩, hdecode, hreceive⟩ := Option.bind_eq_some_iff.mp hreceive
    obtain rfl := Option.some_inj.mp hreceive
    obtain ⟨rx, hparse, hsim, hdecoded⟩ := exists_parse hlimit hf hheaders h.hpack hdecode
    rw [h.decoded, List.nil_append] at hdecoded
    rw [hphase] at hstream
    have hadvance := (h.moved hsim).advance (c.stored f rx.decoded
      (if f.flags &&& Headers.endStream = 0 then .open else .halfClosed)) rfl hdecoded hstream
      (Connection.answer_of_carriesHeaders (.inl hheaders))
    rw [Connection.handle_headers (.inl hheaders), hparse, Connection.headersEnd_done]
    unfold advanceEnd at hadvance
    split_ifs at hadvance ⊢ with hend
    · exact ⟨hadvance.returned⟩
    · exact ⟨hadvance.returned⟩
  · by_cases hdata : f.type = .data
    · -- some of the body
      simp only [Rfc7540.Server.receive, hdata] at hreceive
      split at hreceive
      next headers body hphase =>
        obtain rfl := Option.some_inj.mp hreceive
        rw [hphase] at hstream
        have happlication : f.applicationData = f.data := if_neg (hf.unpadded hdata)
        have hadvance := h.advance (c.received f) rfl hstream.1
          (show _ = body ++ f.data by rw [← hstream.2]; rfl) (by simp [Connection.answer, hdata])
        rw [Connection.handle_data hdata, happlication]
        unfold advanceEnd at hadvance
        by_cases hend : f.flags &&& Data.endStream = 0
        · rw [if_neg (not_not.mpr hend)]
          rwa [if_pos (show f.flags &&& Headers.endStream = 0 from hend)] at hadvance
        · rw [if_pos hend]
          rwa [if_neg (show ¬ f.flags &&& Headers.endStream = 0 from hend)] at hadvance
      next => cases hreceive
    · have hcontinuation : f.type ≠ .continuation := fun htype => by
        simp [Rfc7540.Server.receive, htype] at hreceive
      have hcarries : ¬ f.CarriesHeaders := not_or.mpr ⟨hheaders, hcontinuation⟩
      obtain ⟨v, state, hv, hrun⟩ := Connection.handle_control hcarries hdata c
      have hrequests : ∀ c', Connection.requests v c' = [] := fun c' => by
        rcases hv with rfl | rfl <;> rfl
      rw [hrun]
      by_cases hreset : f.type = .rstStream
      · simp only [Rfc7540.Server.receive, hreset, Option.some_inj] at hreceive
        subst hreceive
        have hset : Refines limit
            { s with phase := Function.update s.phase f.streamIdentifier .closed }
            (c.setStream f.streamIdentifier
              { c.stream f.streamIdentifier with streamId := f.streamIdentifier, state }) :=
          h.setStream _ trivial
        exact ⟨_, _, rfl, ⟨hset.hpack, hset.decoded, hset.state, hset.between, hset.streams⟩,
          hrequests _, rfl, rfl, rfl, (Bool.or_false _).symm⟩
      · have hspec : spec = (s, []) := by
          cases htype : f.type <;> simp_all [Rfc7540.Server.receive]
        subst hspec
        have hset := h.setStream f.streamIdentifier
          (hstream.control f.streamIdentifier state)
        rw [Function.update_eq_self] at hset
        exact ⟨_, _, rfl, ⟨hset.hpack, hset.decoded, hset.state, hset.between, hset.streams⟩,
          hrequests _, rfl, rfl, rfl, (Bool.or_false _).symm⟩

/-! ## Runs -/

/-- Between two frames nothing is unfinished. -/
theorem Refines.ready_eq (h : Refines limit s c) : c.ready = c := by
  rw [Connection.ready, ← h.between]

/-- The frames of a client are handled as the specification says. -/
theorem refines_receive (hlimit : limit < 2 ^ 32) {frames : List Frame}
    (hframes : ∀ f ∈ frames, Supported f) (h : Refines limit s c)
    (hspec : s.receiveAll limit frames = some (s', messages)) :
    ∃ c', (Connection.receive (frames.flatMap Frame.wire)).run c =
        .ok (messages.map (requestOf c.ch)) c' ∧
      Refines limit s' c' ∧ c'.written = c.written ++ frames.flatMap Connection.answer ∧
      c'.closed = c.closed ∧
      c'.overrun = (c.overrun || messages.any fun m => (Stream.ofMessage m).overruns c.ch) := by
  induction frames generalizing s c messages with
  | nil =>
    cases hspec
    exact ⟨c, Connection.receive_nil c, h, (List.append_nil _).symm, rfl, (Bool.or_false _).symm⟩
  | cons f frames ih =>
    obtain ⟨⟨s₁, m₁⟩, hfirst, hspec⟩ := Option.bind_eq_some_iff.mp hspec
    obtain ⟨⟨s₂, m₂⟩, hrest, heq⟩ := Option.bind_eq_some_iff.mp hspec
    cases heq
    have hf := hframes f List.mem_cons_self
    obtain ⟨v, c₁, hrun, hc₁, hrequests, hch, hwritten, hclosed, hoverrun⟩ :=
      (h.handle hlimit hf hfirst).returned
    obtain ⟨c', hrun', hc', hwritten', hclosed', hoverrun'⟩ :=
      ih (fun g hg => hframes g (List.mem_cons_of_mem f hg)) hc₁ hrest
    refine ⟨c', ?_, hc', ?_, hclosed'.trans hclosed, ?_⟩
    · -- the first call of `process` reads the frame, and leaves the others
      have horderly : c.Orderly := fun hstate => by
        rw [h.state] at hstate
        cases hstate
      have hne : f.wire ++ frames.flatMap Frame.wire ≠ [] :=
        List.append_ne_nil_of_left_ne_nil f.wire_ne_nil _
      rw [List.flatMap_cons, Connection.receive_run horderly hne,
        Connection.process_reading (.inr h.state) hne, h.between,
        Reading.ofOctets_wire_append hf.fits, Connection.readingEnd, if_pos h.state, h.ready_eq,
        hrun]
      simp only [EStateM.Result.map, Connection.drainEnd, hrun', hrequests, hch, List.map_append]
    · rw [hwritten', hwritten, List.flatMap_cons, List.append_assoc]
    · rw [hoverrun', hoverrun, hch, List.any_append, Bool.or_assoc]

/-- A new connection that has got the preface and the settings of the client. -/
theorem exists_refines (hlimit : limit < 2 ^ 32) {settings : Frame} (hfits : settings.Fits)
    (htype : settings.type = .settings) (hlength : settings.length % 6 = 0) (ch : Octet)
    {frames : List Frame} (hframes : ∀ f ∈ frames, Supported f)
    (hspec : (Rfc7540.Server.initial limit).receiveAll limit frames = some (s', messages)) :
    ∃ c', (Connection.receive
        (clientPreface ++ settings.wire ++ frames.flatMap Frame.wire)).run
          (.fresh Hpack.staticHeaderTable ch) = .ok (messages.map (requestOf ch)) c' ∧
      c'.written = ⟨0, .settings, 0, 0, []⟩ :: frames.flatMap Connection.answer ∧
      c'.closed = false ∧
      c'.overrun = messages.any fun m => (Stream.ofMessage m).overruns ch := by
  set rest := frames.flatMap Frame.wire with hrest
  have hpreface : clientPreface ++ settings.wire ++ rest ≠ [] := by
    rw [List.append_assoc]
    exact List.append_ne_nil_of_left_ne_nil (by decide) _
  have hsettings : settings.wire ++ rest ≠ [] :=
    List.append_ne_nil_of_left_ne_nil settings.wire_ne_nil _
  -- the calls for the preface and for the settings
  set c₁ : Connection := { Connection.fresh Hpack.staticHeaderTable ch with
    state := .waitClientSettings } with hc₁
  set c₂ : Connection := { c₁ with
    state := .idle
    written := [⟨0, .settings, 0, 0, []⟩] } with hc₂
  have hfirst : (Connection.process (clientPreface ++ settings.wire ++ rest)).run
      (.fresh Hpack.staticHeaderTable ch) = .ok (.settings, settings.wire ++ rest) c₁ := by
    rw [Connection.process_preface rfl hpreface, List.append_assoc, List.take_left,
      List.drop_left, if_pos rfl]
  have hsecond : (Connection.process (settings.wire ++ rest)).run c₁ =
      .ok (.settings, rest) c₂ := by
    have hidle : c₁.state ≠ .idle := by simp [hc₁]
    rw [Connection.process_reading (.inl rfl) hsettings,
      show c₁.unfinishedFrame = none from rfl, Reading.ofOctets_wire_append hfits,
      Connection.readingEnd, if_neg hidle, Connection.handleClientSettings_run,
      if_neg (not_not.mpr htype), if_neg (not_not.mpr hlength)]
    rfl
  have hrefines : Refines limit (Rfc7540.Server.initial limit) c₂ :=
    ⟨Hpack.Sim.initial limit, rfl, rfl, rfl, fun _ => rfl⟩
  obtain ⟨c', hrun, -, hwritten, hclosed, hoverrun⟩ :=
    refines_receive hlimit hframes hrefines hspec
  refine ⟨c', ?_, hwritten, hclosed, hoverrun⟩
  rw [Connection.receive_run (fun _ => rfl) hpreface, hfirst]
  simp only [Connection.drainEnd]
  rw [Connection.receive_run (fun h => by cases h) hsettings, hsecond]
  rw [← hrest] at hrun
  simp only [Connection.drainEnd, hrun]
  rfl

/-- A client sends the preface, its settings, and frames that the connection supports, and that a
server of the specification accepts. In whatever packets they arrive, if no cut is inside the
preface or a frame header, `on_read` delivers the messages of the specification in their order,
answers the control frames, and does not close the connection. It stores past the variable of
`decode_uri_component` exactly if the query of a message has a number behind a `%`. -/
theorem delivers_messages {limit : ℕ} (hlimit : limit < 2 ^ 32) {settings : Frame}
    (hfits : settings.Fits) (htype : settings.type = .settings) (hlength : settings.length % 6 = 0)
    {frames : List Frame} (hframes : ∀ f ∈ frames, Supported f) {s : Rfc7540.Server}
    {messages : List Message}
    (hspec : (Rfc7540.Server.initial limit).receiveAll limit frames = some (s, messages))
    {packet : Octets} {packets : List Octets}
    (hwire : (packet :: packets).flatten =
      clientPreface ++ settings.wire ++ frames.flatMap Frame.wire)
    (hcuts : ∀ k, ¬ Inside (packet :: packets).flatten ((packet :: packets).take k).flatten.length)
    (ch : Octet) :
    ∃ ks n c, ks = (Server.accept Hpack.staticHeaderTable ch packet packets).calls
        (List.replicate n .returned) ∧
      ks.flatMap (·.delivered.toList) = messages.map (requestOf ch) ∧
      ks.getLast?.map Call.after = some c ∧
      c.written = ⟨0, .settings, 0, 0, []⟩ :: frames.flatMap Connection.answer ∧
      c.closed = false ∧
      c.overrun = messages.any fun m => (Stream.ofMessage m).overruns ch := by
  obtain ⟨c, hrun, hwritten, hclosed, hoverrun⟩ :=
    exists_refines hlimit hfits htype hlength ch hframes hspec
  have hfresh : (Connection.fresh Hpack.staticHeaderTable ch).Orderly := fun _ => rfl
  rw [← hwire] at hrun
  have hcutInside : ∀ k, ¬ (Connection.fresh Hpack.staticHeaderTable ch).CutInside
      (packet :: packets).flatten ((packet :: packets).take k).flatten.length := hcuts
  -- the octets read in one piece are read the same way in packets, if no cut is inside
  rcases Connection.receiveAll_of_receive hfresh hrun with ⟨hall, -⟩ | ⟨-, k, hk⟩
  · obtain ⟨n, hdelivered, hlast⟩ := Server.calls_of_receiveAll hfresh hall
    exact ⟨_, n, c, rfl, hdelivered, hlast, hwritten, hclosed, hoverrun⟩
  · exact absurd hk (hcutInside k)

/-- Between two frames is not inside a header. -/
theorem not_inHeader_take {frames : List Frame} (hfits : ∀ f ∈ frames, f.Fits) (k : ℕ) :
    ¬ InHeader (frames.flatMap Frame.wire) ((frames.take k).flatMap Frame.wire).length := by
  induction frames generalizing k with
  | nil =>
    rw [List.take_nil]
    exact not_inHeader_zero _
  | cons f frames ih =>
    cases k with
    | zero => exact not_inHeader_zero _
    | succ k =>
      -- behind the first frame it is a question of the others
      have hf := hfits f List.mem_cons_self
      have hunpack := Frame.unpack_append (Frame.unpack_wire hf) (frames.flatMap Frame.wire)
      have hlength : f.wire.length = frameSize + f.length.toNat := by
        rw [Frame.wire, List.length_append, Frame.length_pack, hf.1]
      have hdrop : (f.wire ++ frames.flatMap Frame.wire).drop (frameSize + f.length.toNat) =
          frames.flatMap Frame.wire := by
        rw [← hlength, List.drop_left]
      have hnext := inHeader_next_iff hunpack
        (n := ((frames.take k).flatMap Frame.wire).length)
      rw [hdrop] at hnext
      rw [List.take_succ_cons, List.flatMap_cons, List.flatMap_cons, List.length_append, hlength]
      exact hnext.not.mpr (ih (fun g hg => hfits g (List.mem_cons_of_mem f hg)) k)

/-- The packets of a client that sends the preface and each frame in a packet of its own. -/
def packetsOf (frames : List Frame) : List Octets := clientPreface :: frames.map Frame.wire

theorem flatten_packetsOf (frames : List Frame) :
    (packetsOf frames).flatten = clientPreface ++ frames.flatMap Frame.wire := by
  rw [packetsOf, List.flatten_cons, List.flatMap_def]

/-- They do not end inside the preface or a frame header. -/
theorem not_inside_packetsOf {frames : List Frame} (hfits : ∀ f ∈ frames, f.Fits) (k : ℕ) :
    ¬ Inside (packetsOf frames).flatten ((packetsOf frames).take k).flatten.length := by
  cases k with
  | zero => exact Connection.not_cutInside_zero (.fresh Hpack.staticHeaderTable 0) _
  | succ k =>
    have hlength : ((packetsOf frames).take (k + 1)).flatten.length =
        clientPreface.length + ((frames.take k).flatMap Frame.wire).length := by
      rw [packetsOf, List.take_succ_cons, ← List.map_take, List.flatten_cons, List.length_append,
        List.flatMap_def]
    rw [hlength, flatten_packetsOf]
    refine inside_add_iff.not.mpr ?_
    rw [List.drop_left]
    exact not_inHeader_take hfits k

/-- Whether frames are supported can be computed. -/
theorem supported_of_all {frames : List Frame} (h : ∀ f ∈ frames, f.Fits ∧
    (f.type = .data → ¬ f.Padded) ∧
    (f.type = .headers → f.flags &&& Headers.endHeaders ≠ 0 ∧ HeadersPayload.Readable f ∧
      Hpack.Avoids 61 (HeadersPayload.fragment f))) : ∀ f ∈ frames, Supported f := by
  intro f hf
  obtain ⟨hfits, hunpadded, hblock⟩ := h f hf
  exact ⟨hfits, hblock, hunpadded⟩

/-- Two messages on streams that overlap, a PING and a stream that is given up. -/
def sampleFrames : List Frame :=
  [⟨2, .headers, 0x4, 1, [0x82, 0x84]⟩, ⟨2, .headers, 0x4, 5, [0x83, 0x84]⟩,
    ⟨7, .headers, 0x5, 3, [0x82, 0x84] ++ Hpack.insertion⟩,
    ⟨8, .ping, 0, 0, [1, 2, 3, 4, 5, 6, 7, 8]⟩, ⟨4, .rstStream, 0, 5, [0, 0, 0, 8]⟩,
    ⟨1, .data, 0x0, 1, [0x61]⟩, ⟨1, .data, 0x1, 1, [0x62]⟩]

theorem supported_sample : ∀ f ∈ sampleFrames, Supported f := supported_of_all (by decide)

/-- The messages of the sample. -/
def sampleMessages : List Message :=
  [⟨3, [⟨octets ":method", octets "GET"⟩, ⟨octets ":path", octets "/"⟩,
      ⟨octets "a", octets "b"⟩], []⟩,
    ⟨1, [⟨octets ":method", octets "GET"⟩, ⟨octets ":path", octets "/"⟩], [0x61, 0x62]⟩]

/-- A server of the specification accepts the frames of the sample. -/
theorem accepted_sample : ∃ s, (Rfc7540.Server.initial 4096).receiveAll 4096 sampleFrames =
    some (s, sampleMessages) := by
  have hmessages : ((Rfc7540.Server.initial 4096).receiveAll 4096 sampleFrames).map Prod.snd =
      some sampleMessages := by decide
  obtain ⟨⟨s, messages⟩, hspec, rfl⟩ := Option.map_eq_some_iff.mp hmessages
  exact ⟨s, hspec⟩

/-- The client sends each frame in a packet of its own. -/
theorem delivers_sample :
    ∃ ks n c, ks = (Server.accept Hpack.staticHeaderTable 0 clientPreface
        (Frame.wire ⟨0, .settings, 0, 0, []⟩ :: sampleFrames.map Frame.wire)).calls
        (List.replicate n .returned) ∧
      ks.flatMap (·.delivered.toList) = sampleMessages.map (requestOf 0) ∧
      ks.getLast?.map Call.after = some c ∧
      c.written = ⟨0, .settings, 0, 0, []⟩ :: sampleFrames.flatMap Connection.answer ∧
      c.closed = false ∧
      c.overrun = sampleMessages.any fun m => (Stream.ofMessage m).overruns 0 := by
  have hfits : ∀ f ∈ (⟨0, .settings, 0, 0, []⟩ : Frame) :: sampleFrames, f.Fits := by decide
  obtain ⟨s, hspec⟩ := accepted_sample
  refine delivers_messages (by decide) (hfits _ List.mem_cons_self) rfl rfl supported_sample hspec
    ?_ (not_inside_packetsOf hfits) 0
  exact (flatten_packetsOf _).trans (List.append_assoc ..).symm

end H2

end Rite
