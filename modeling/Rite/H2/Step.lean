import Rite.H2.Connection
import Rite.Hpack.Block

/-!
# What a call of `process` does

`process` is taken apart into the reading of a frame, which depends on the octets and the
unfinished frame alone, and the handling of a complete frame in the state `IDLE`. The equations
here say all that each of them does; nothing after this module unfolds the code.

## Main results

* `readFrame_run`: what `read_frame` makes of the octets it gets;
* `handle_headers`, `handle_data`, `handle_control`: what is done with a frame;
* `process_of_handled`, `process_cases`: a call of `process` handles a frame, or leaves the
  streams and the header decoder alone.
-/

namespace Rite

namespace H2

open Hpack (Header Parser)
open Characteristics

/-! ## Reading a frame -/

/-- The number of octets that a frame still needs. -/
def Partial.missing (p : Partial) : ℕ := p.frame.length.toNat - p.frame.data.length

/-- Where the reading of a frame ends. -/
inductive Reading
  | complete (frame : Frame) (rest : Octets)
  | incomplete (unfinished : Partial)
  | failed (e : FrameState) (h : e ≠ .insufficientData)

namespace Reading

/-- Add octets to the payload of a frame. -/
def absorb (frame : Frame) (h : frame.length.toNat ≤ maxFrameSize) (pos : Octets) : Reading :=
  if hshort : frame.data.length + pos.length < frame.length.toNat then
    .incomplete ⟨{ frame with data := frame.data ++ pos }, by simpa using hshort, h⟩
  else
    let missing := frame.length.toNat - frame.data.length
    .complete { frame with data := frame.data ++ pos.take missing } (pos.drop missing)

/-- Read a frame, or the rest of an unfinished one. -/
def ofOctets (unfinished : Option Partial) (pos : Octets) : Reading :=
  match unfinished with
  | some p => absorb p.frame p.bounded pos
  | none =>
    match Frame.unpack pos with
    | none => .failed .invalid (by decide)
    | some frame =>
      if h : frame.length.toNat ≤ maxFrameSize then absorb frame h (pos.drop frameSize)
      else .failed .tooBig (by decide)

theorem absorb_ne_failed (frame : Frame) (h : frame.length.toNat ≤ maxFrameSize) (pos : Octets)
    (e : FrameState) (he : e ≠ .insufficientData) : absorb frame h pos ≠ .failed e he := by
  unfold absorb
  split_ifs <;> simp

/-- Reading fails if a header is due, and there is none or its length is not permitted. -/
theorem ofOctets_failed_iff {unfinished : Option Partial} {pos : Octets} :
    (∃ e he, ofOctets unfinished pos = .failed e he) ↔
      unfinished = none ∧
        ¬ ∃ header, Frame.unpack pos = some header ∧ header.length.toNat ≤ maxFrameSize := by
  unfold ofOctets
  cases unfinished with
  | some p => simp [absorb_ne_failed]
  | none =>
    cases hunpack : Frame.unpack pos with
    | none => simp
    | some header =>
      by_cases hlen : header.length.toNat ≤ maxFrameSize
      · simp [hlen, absorb_ne_failed]
      · simp [hlen]

/-- Behind a header the payload is read. -/
theorem ofOctets_of_unpack {pos : Octets} {header : Frame} (h : Frame.unpack pos = some header)
    (hlen : header.length.toNat ≤ maxFrameSize) :
    ofOctets none pos = absorb header hlen (pos.drop frameSize) := by
  simp only [ofOctets, h, dif_pos hlen]

/-- If reading does not fail where a header is due, then there is one. -/
theorem exists_unpack_of_ne_failed {p : Octets} (h : ∀ e he, ofOctets none p ≠ .failed e he) :
    ∃ header, Frame.unpack p = some header ∧ header.length.toNat ≤ maxFrameSize := by
  by_contra hno
  obtain ⟨e, he, hfailed⟩ := ofOctets_failed_iff.mpr ⟨rfl, hno⟩
  exact h e he hfailed

/-- The octets of a frame are read as that frame. -/
theorem ofOctets_wire {frame : Frame} (h : frame.Fits) :
    ofOctets none frame.wire = .complete frame [] := by
  have hdrop : frame.wire.drop frameSize = frame.data := by
    rw [Frame.wire, ← Frame.length_pack frame, List.drop_left]
  have htake : frame.data.take frame.length.toNat = frame.data :=
    List.take_of_length_le h.1.le
  have hrest : frame.data.drop frame.length.toNat = [] := List.drop_of_length_le h.1.le
  simp [ofOctets, Frame.unpack_wire h, h.2, hdrop, absorb, h.1, htake, hrest]

/-- What `read_frame` returns and does to the connection. -/
def outcome (c : Connection) (pos : Octets) :
    Reading → EStateM.Result Fault Connection (Except FrameState Frame × Octets)
  | .complete frame rest => .ok (.ok frame, rest) { c with unfinishedFrame := none }
  | .incomplete p => .ok (.error .insufficientData, []) { c with unfinishedFrame := some p }
  | .failed e _ => .ok (.error e, pos) c

end Reading

namespace Connection

private theorem accumulate_run {frame : Frame} (h : frame.length.toNat ≤ maxFrameSize)
    (hdata : frame.data.length ≤ frame.length.toNat) (c : Connection) (pos pos' : Octets) :
    (accumulate frame h pos).run c = (Reading.absorb frame h pos).outcome c pos' := by
  unfold accumulate Reading.absorb
  by_cases hshort : frame.data.length + pos.length < frame.length.toNat
  · -- all the octets go into the payload
    have hle : pos.length ≤ frame.length.toNat - frame.data.length := by omega
    have htake : pos.take (frame.length.toNat - frame.data.length) = pos :=
      List.take_of_length_le hle
    have hdrop : pos.drop (frame.length.toNat - frame.data.length) = [] :=
      List.drop_of_length_le hle
    simp [htake, hdrop, hshort, Reading.outcome]
  · have hlen : ¬ frame.data.length + min (frame.length.toNat - frame.data.length) pos.length <
        frame.length.toNat := by omega
    simp [hshort, hlen, Reading.outcome]

/-- What `read_frame` makes of the octets it gets. -/
theorem readFrame_run (c : Connection) (pos : Octets) :
    (readFrame pos).run c = (Reading.ofOctets c.unfinishedFrame pos).outcome c pos := by
  unfold readFrame Reading.ofOctets
  cases hu : c.unfinishedFrame with
  | some p => simpa [hu] using accumulate_run p.bounded p.short.le c pos pos
  | none =>
    cases hunpack : Frame.unpack pos with
    | none => simp [hu, Reading.outcome]
    | some frame =>
      by_cases hlen : frame.length.toNat ≤ maxFrameSize
      · have hdata : frame.data = [] := Frame.unpack_data hunpack
        simpa [hu, hlen] using
          accumulate_run hlen (by simp [hdata]) c (pos.drop frameSize) pos
      · simp [hu, hlen, Reading.outcome]

/-! ## Handling a frame -/

/-- The connection with `streams_[id]` replaced. -/
def setStream (c : Connection) (id : UInt32) (s : Stream) : Connection :=
  { c with streams := c.streams.insert id s }

@[simp] theorem stream_setStream (c : Connection) (id : UInt32) (s : Stream) :
    (c.setStream id s).stream id = s := by
  simp [setStream, stream]

theorem stream_setStream_of_ne {id id' : UInt32} (h : id' ≠ id) (c : Connection) (s : Stream) :
    (c.setStream id s).stream id' = c.stream id' := by
  simp [setStream, stream, AList.lookup_insert_ne h]

@[simp] theorem setStream_setStream (c : Connection) (id : UInt32) (s s' : Stream) :
    (c.setStream id s).setStream id s' = c.setStream id s' := by
  simp [setStream]

/-- The headers of the streams. -/
def headers (c : Connection) : UInt32 → List Header := fun id => (c.stream id).headers

theorem headers_setStream (c : Connection) (id : UInt32) (s : Stream) :
    (c.setStream id s).headers = Function.update c.headers id s.headers := by
  ext1 id'
  by_cases h : id' = id
  · subst h
    simp [headers]
  · simp [headers, Function.update_of_ne h, stream_setStream_of_ne h]

/-- A stream that keeps its headers. -/
theorem headers_setStream_of_eq {c : Connection} {id : UInt32} {s : Stream}
    (h : s.headers = (c.stream id).headers) : (c.setStream id s).headers = c.headers := by
  rw [headers_setStream, h]
  exact Function.update_eq_self id c.headers

theorem write_run (c : Connection) (frame : Frame) :
    (write frame).run c = .ok () { c with written := c.written ++ [frame] } := rfl

theorem updateStream_run (c : Connection) (id : UInt32) (u : Stream → Stream) :
    (updateStream id u).run c = .ok () (c.setStream id (u (c.stream id))) := rfl

/-- The connection once a frame has set the identifier of its stream. -/
def touch (c : Connection) (frame : Frame) : Connection :=
  c.setStream frame.streamIdentifier
    { c.stream frame.streamIdentifier with streamId := frame.streamIdentifier }

/-- The connection once a request has been made of `streams_[id]`, with `s` for that stream. -/
def dispatch (c : Connection) (id : UInt32) (s : Stream) : Connection :=
  { c.setStream id (s.finishStream c.ch).2 with
    request := some (s.finishStream c.ch).1
    overrun := c.overrun || s.overruns c.ch }

@[simp] theorem dispatch_setStream (c : Connection) (id : UInt32) (s s' : Stream) :
    (c.setStream id s).dispatch id s' = c.dispatch id s' := by
  simp [dispatch, setStream]

theorem deliver_run (c : Connection) (id : UInt32) :
    (deliver id).run c = .ok () (c.dispatch id (c.stream id)) := rfl

/-- How the case HEADERS goes on behind the call of `parse`, where `c` is the connection with the
stream opened. -/
def headersEnd (frame : Frame) (c : Connection) :
    EStateM.Result Fault Parser Hpack.Error → EStateM.Result Fault Connection Result
  | .error e rx => .error e { c with rx }
  | .ok .unknownHeader rx | .ok .invalid rx => .ok .invalid { c with rx, closed := true }
  | .ok .sizeUpdate rx => .ok .more { c with
      rx
      written := c.written ++ [⟨0, .settings, Settings.ack, 0, []⟩] }
  | .ok .more rx => .ok .more { c with rx }
  | .ok .done rx =>
    let id := frame.streamIdentifier
    let c' := { c with rx := { rx with decoded := [] } }
    let s := { c.stream id with headers := rx.decoded }
    if frame.flags &&& Headers.endStream = 0 then .ok .more (c'.setStream id s)
    else .ok .newRequest (c'.dispatch id { s with state := .halfClosed })

/-- The stream of a HEADERS or CONTINUATION frame is open from then on. -/
def opened (c : Connection) (frame : Frame) : Connection :=
  c.setStream frame.streamIdentifier
    { c.stream frame.streamIdentifier with streamId := frame.streamIdentifier, state := .open }

theorem onRx_run {α : Type} (x : Hpack.ParserM α) (c : Connection) :
    (onRx x).run c =
      match x.run c.rx with
      | .ok a rx => .ok a { c with rx }
      | .error e rx => .error e { c with rx } := rfl

private theorem handleHeaders_run (c : Connection) (frame : Frame) :
    (handleHeaders frame).run c =
      headersEnd frame
        (c.setStream frame.streamIdentifier { c.stream frame.streamIdentifier with state := .open })
        ((Parser.parse frame).run c.rx) := by
  unfold handleHeaders
  simp only [EStateM.run_bind, updateStream_run, onRx_run]
  -- opening the stream leaves the decoder alone
  set c' := c.setStream frame.streamIdentifier
    { c.stream frame.streamIdentifier with state := .open } with hc'
  rw [show c.rx = c'.rx from rfl]
  cases (Parser.parse frame).run c'.rx with
  | error e rx => rfl
  | ok e rx =>
    cases e with
    | done =>
      simp only [headersEnd]
      by_cases hend : frame.flags &&& Headers.endStream = 0
      · simp [hend, Parser.result, updateStream_run]
        rfl
      · simp [hend, Parser.result, updateStream_run, deliver_run]
        rfl
    | _ => rfl

/-- A HEADERS or CONTINUATION frame opens its stream and is decoded. -/
theorem handle_headers {frame : Frame} (h : frame.CarriesHeaders) (c : Connection) :
    (handle frame).run c =
      headersEnd frame (c.opened frame) ((Parser.parse frame).run c.rx) := by
  have hrun := handleHeaders_run (c.touch frame) frame
  rw [touch, stream_setStream, setStream_setStream] at hrun
  rcases h with h | h
  all_goals
    simp only [handle, EStateM.run_bind, updateStream_run, h]
    exact hrun

@[simp] theorem mem_setStream {c : Connection} {id id' : UInt32} {s : Stream} :
    id' ∈ (c.setStream id s).streams ↔ id' = id ∨ id' ∈ c.streams :=
  AList.mem_insert c.streams

private theorem handleData_run {c : Connection} {frame : Frame}
    (h : frame.streamIdentifier ∈ c.streams) :
    (handleData frame).run c =
      if frame.flags &&& Data.endStream ≠ 0 then
        .ok .newRequest (c.dispatch frame.streamIdentifier
          { c.stream frame.streamIdentifier with
            data := (c.stream frame.streamIdentifier).data ++ frame.data })
      else
        .ok .more (c.setStream frame.streamIdentifier
          { c.stream frame.streamIdentifier with
            data := (c.stream frame.streamIdentifier).data ++ frame.data }) := by
  unfold handleData
  by_cases hend : frame.flags &&& Data.endStream = 0
  · simp [h, hend, updateStream_run]
  · simp [h, hend, updateStream_run, deliver_run]

/-- The stream of a DATA frame once its payload has been added to the body. -/
def received (c : Connection) (frame : Frame) : Stream :=
  { c.stream frame.streamIdentifier with
    streamId := frame.streamIdentifier
    data := (c.stream frame.streamIdentifier).data ++ frame.data }

/-- A DATA frame adds to the body of its stream, and its END_STREAM completes the request. The
guard in front of this never fails: the stream has just been created if it was missing. -/
theorem handle_data {frame : Frame} (h : frame.type = .data) (c : Connection) :
    (handle frame).run c =
      if frame.flags &&& Data.endStream ≠ 0 then
        .ok .newRequest (c.dispatch frame.streamIdentifier (c.received frame))
      else .ok .more (c.setStream frame.streamIdentifier (c.received frame)) := by
  have hmem : frame.streamIdentifier ∈ (c.touch frame).streams := mem_setStream.mpr (.inl rfl)
  have hrun := handleData_run hmem
  rw [touch, stream_setStream, dispatch_setStream, setStream_setStream] at hrun
  simp only [handle, EStateM.run_bind, updateStream_run, h]
  exact hrun

/-- What is written in answer to a frame that carries neither headers nor data. -/
def answer (frame : Frame) : List Frame :=
  match frame.type with
  | .settings =>
    if frame.flags &&& Settings.ack ≠ 1 then [⟨0, .settings, Settings.ack, 0, []⟩] else []
  | .ping => [⟨8, .ping, Ping.ack, frame.streamIdentifier, List.replicate 8 0⟩]
  | _ => []

/-- The other frames leave the decoder and the headers and bodies of the streams alone. -/
theorem handle_control {frame : Frame} (hh : ¬ frame.CarriesHeaders) (hd : frame.type ≠ .data)
    (c : Connection) :
    ∃ r state, (r = .settings ∨ r = .more) ∧
      (handle frame).run c = .ok r
        { c.setStream frame.streamIdentifier
            { c.stream frame.streamIdentifier with streamId := frame.streamIdentifier, state } with
          written := c.written ++ answer frame } := by
  cases htype : frame.type with
  | headers => exact absurd (.inl htype) hh
  | continuation => exact absurd (.inr htype) hh
  | data => exact absurd htype hd
  | settings =>
    refine ⟨.settings, (c.stream frame.streamIdentifier).state, .inl rfl, ?_⟩
    simp only [handle, EStateM.run_bind, updateStream_run, htype, answer]
    by_cases hack : frame.flags &&& Settings.ack = 1
    · simp [hack]
      rfl
    · simp [hack, write_run]
      rfl
  | ping =>
    refine ⟨.settings, (c.stream frame.streamIdentifier).state, .inl rfl, ?_⟩
    simp only [handle, EStateM.run_bind, updateStream_run, htype, answer]
    rfl
  | windowUpdate =>
    refine ⟨.settings, (c.stream frame.streamIdentifier).state, .inl rfl, ?_⟩
    simp only [handle, EStateM.run_bind, updateStream_run, htype, answer, List.append_nil]
    rfl
  | rstStream =>
    refine ⟨.more, .closed, .inr rfl, ?_⟩
    simp only [handle, EStateM.run_bind, updateStream_run, htype, answer, List.append_nil,
      stream_setStream, setStream_setStream]
    rfl
  | _ =>
    refine ⟨.more, (c.stream frame.streamIdentifier).state, .inr rfl, ?_⟩
    simp only [handle, EStateM.run_bind, updateStream_run, htype, answer, List.append_nil]
    rfl

/-! ## The ways to handle a frame -/

/-- The stream of a frame whose headers are complete. -/
def stored (c : Connection) (frame : Frame) (headers : List Header) (state : StreamState) :
    Stream :=
  { c.stream frame.streamIdentifier with streamId := frame.streamIdentifier, state, headers }

/-- The connection whose decoder has handed over its headers. -/
def moved (c : Connection) (rx : Parser) : Connection := { c with rx := { rx with decoded := [] } }

/-- The ways in which the handling of a frame can end. -/
inductive HandleEnd (frame : Frame) (c : Connection) :
    EStateM.Result Fault Connection Result → Prop
  /-- The frame is answered, or nothing is done. -/
  | control {r : Result} {state : StreamState} :
    ¬ frame.CarriesHeaders → frame.type ≠ .data → r = .settings ∨ r = .more →
    HandleEnd frame c (.ok r
      { c.setStream frame.streamIdentifier
          { c.stream frame.streamIdentifier with streamId := frame.streamIdentifier, state } with
        written := c.written ++ answer frame })
  /-- The body becomes longer. -/
  | body : frame.type = .data → frame.flags &&& Data.endStream = 0 →
    HandleEnd frame c (.ok .more (c.setStream frame.streamIdentifier (c.received frame)))
  /-- The body is complete. -/
  | bodyRequest : frame.type = .data → frame.flags &&& Data.endStream ≠ 0 →
    HandleEnd frame c (.ok .newRequest (c.dispatch frame.streamIdentifier (c.received frame)))
  /-- An exception leaves `parse`. -/
  | fault {e : Fault} {rx : Parser} : frame.CarriesHeaders →
    (Parser.parse frame).run c.rx = .error e rx →
    HandleEnd frame c (.error e { c.opened frame with rx })
  /-- The fragment cannot be decoded. -/
  | rejected {e : Hpack.Error} {rx : Parser} : frame.CarriesHeaders →
    (Parser.parse frame).run c.rx = .ok e rx → e = .unknownHeader ∨ e = .invalid →
    HandleEnd frame c (.ok .invalid { c.opened frame with rx, closed := true })
  /-- The header block goes on in another frame. -/
  | fragment {rx : Parser} : frame.CarriesHeaders → (Parser.parse frame).run c.rx = .ok .more rx →
    frame.flags &&& Headers.endStream = 0 →
    HandleEnd frame c (.ok .more { c.opened frame with rx })
  /-- The headers are complete. -/
  | block {rx : Parser} : frame.CarriesHeaders → (Parser.parse frame).run c.rx = .ok .done rx →
    frame.flags &&& Headers.endStream = 0 →
    HandleEnd frame c (.ok .more
      ((c.moved rx).setStream frame.streamIdentifier (c.stored frame rx.decoded .open)))
  /-- The headers are complete, and there is no body. -/
  | blockRequest {rx : Parser} : frame.CarriesHeaders →
    (Parser.parse frame).run c.rx = .ok .done rx → frame.flags &&& Headers.endStream ≠ 0 →
    HandleEnd frame c (.ok .newRequest
      ((c.moved rx).dispatch frame.streamIdentifier (c.stored frame rx.decoded .halfClosed)))

theorem headersEnd_done (frame : Frame) (c : Connection) (rx : Parser) :
    headersEnd frame (c.opened frame) (.ok .done rx) =
      if frame.flags &&& Headers.endStream = 0 then
        .ok .more ((c.moved rx).setStream frame.streamIdentifier (c.stored frame rx.decoded .open))
      else .ok .newRequest
        ((c.moved rx).dispatch frame.streamIdentifier
          (c.stored frame rx.decoded .halfClosed)) := by
  simp [headersEnd, opened, moved, stored, dispatch, setStream, stream]

/-- The ways in which the handling of a frame can end. -/
theorem handle_cases (frame : Frame) (c : Connection) :
    HandleEnd frame c ((handle frame).run c) := by
  by_cases hh : frame.CarriesHeaders
  · rw [handle_headers hh]
    have hparse := Hpack.parse_cases Hpack.closed_true frame c.rx
    generalize hrun : (Parser.parse frame).run c.rx = r at hparse ⊢
    cases hparse with
    | payload => exact .fault hh hrun
    | failed he =>
      rcases he with rfl | rfl
      · exact .rejected hh hrun (.inl rfl)
      · exact .rejected hh hrun (.inr rfl)
    | raised => exact .fault hh hrun
    | completed =>
      -- END_STREAM alone completes a block too
      by_cases hdone : frame.flags &&& (Headers.endHeaders ||| Headers.endStream) = 0
      · -- neither flag is set
        have hmore : Parser.completion frame.flags = .more := by simp [Parser.completion, hdone]
        rw [hmore] at hrun ⊢
        exact .fragment hh hrun (Headers.and_flags_eq_zero_iff.mp hdone).2
      · have hdone' : Parser.completion frame.flags = .done := by
          simp [Parser.completion, hdone]
        rw [hdone'] at hrun ⊢
        rw [headersEnd_done]
        split_ifs with hend
        · exact .block hh hrun hend
        · exact .blockRequest hh hrun hend
  · by_cases hd : frame.type = .data
    · rw [handle_data hd]
      split_ifs with hend
      · exact .bodyRequest hd hend
      · exact .body hd (not_not.mp hend)
    · obtain ⟨r, state, hr, hrun⟩ := handle_control hh hd c
      rw [hrun]
      exact .control hh hd hr

/-- A request is made of a stream whose body is complete, or whose headers are. -/
theorem HandleEnd.newRequest_cases {frame : Frame} {c c' : Connection}
    (h : HandleEnd frame c (.ok .newRequest c')) :
    (frame.type = .data ∧ frame.flags &&& Data.endStream ≠ 0 ∧
        c' = c.dispatch frame.streamIdentifier (c.received frame)) ∨
      frame.CarriesHeaders ∧ frame.flags &&& Headers.endStream ≠ 0 ∧
        ∃ rx, (Parser.parse frame).run c.rx = .ok .done rx ∧
          c' = (c.moved rx).dispatch frame.streamIdentifier
            (c.stored frame rx.decoded .halfClosed) := by
  generalize hr : EStateM.Result.ok Result.newRequest c' = r at h
  cases h with
  | control _ _ hctl => rcases hctl with rfl | rfl <;> cases hr
  | bodyRequest hd hends => exact .inl ⟨hd, hends, (EStateM.Result.ok.inj hr).2⟩
  | blockRequest hh hrun hends =>
    exact .inr ⟨hh, hends, _, hrun, (EStateM.Result.ok.inj hr).2⟩
  | _ => cases hr

/-! ## What holds of every frame -/

/-- The connection that a call leaves. -/
def final {α : Type} : EStateM.Result Fault Connection α → Connection
  | .ok _ c => c
  | .error _ c => c

/-- What a call returns, if it does. -/
def value {α : Type} : EStateM.Result Fault Connection α → Option α
  | .ok a _ => some a
  | .error _ _ => none

theorem value_eq_some_iff {α : Type} {r : EStateM.Result Fault Connection α} {a : α} :
    value r = some a ↔ ∃ c, r = .ok a c := by
  cases r <;> simp [value]

/-- What handling a frame does, however it ends. -/
structure Effect (frame : Frame) (c c' : Connection) : Prop where
  /-- The state stays as it is. -/
  state : c'.state = c.state
  /-- So does the unfinished frame. -/
  unfinishedFrame : c'.unfinishedFrame = c.unfinishedFrame
  /-- And the uninitialised variable. -/
  ch : c'.ch = c.ch
  /-- The stream of the frame exists from then on. -/
  mem_streams : ∀ id, id ∈ c'.streams ↔ id = frame.streamIdentifier ∨ id ∈ c.streams
  /-- The connection is not opened again. -/
  closed : c.closed → c'.closed
  /-- The answer to the frame is all that is written. -/
  written : c'.written = c.written ++ answer frame

theorem answer_of_carriesHeaders {frame : Frame} (h : frame.CarriesHeaders) :
    answer frame = [] := by
  rcases h with h | h <;> simp [answer, h]

/-- What handling a frame does, however it ends. -/
theorem HandleEnd.effect {frame : Frame} {c : Connection}
    {r : EStateM.Result Fault Connection Result} (h : HandleEnd frame c r) :
    Effect frame c (final r) := by
  have hmem : ∀ s id, id ∈ (c.setStream frame.streamIdentifier s).streams ↔
    id = frame.streamIdentifier ∨ id ∈ c.streams := fun _ _ => mem_setStream
  have hwritten : answer frame = [] → c.written = c.written ++ answer frame := fun h => by
    rw [h, List.append_nil]
  cases h with
  | control => exact ⟨rfl, rfl, rfl, hmem _, id, rfl⟩
  | body hd => exact ⟨rfl, rfl, rfl, hmem _, id, hwritten (by simp [answer, hd])⟩
  | bodyRequest hd => exact ⟨rfl, rfl, rfl, hmem _, id, hwritten (by simp [answer, hd])⟩
  | fault hh => exact ⟨rfl, rfl, rfl, hmem _, id, hwritten (answer_of_carriesHeaders hh)⟩
  | rejected hh =>
    exact ⟨rfl, rfl, rfl, hmem _, fun _ => rfl, hwritten (answer_of_carriesHeaders hh)⟩
  | fragment hh => exact ⟨rfl, rfl, rfl, hmem _, id, hwritten (answer_of_carriesHeaders hh)⟩
  | block hh => exact ⟨rfl, rfl, rfl, hmem _, id, hwritten (answer_of_carriesHeaders hh)⟩
  | blockRequest hh => exact ⟨rfl, rfl, rfl, hmem _, id, hwritten (answer_of_carriesHeaders hh)⟩

/-! ## `process` -/

@[simp] theorem process_nil (c : Connection) : (process []).run c = .ok (.eof, []) c := rfl

/-- The first call takes the preface. -/
theorem process_preface {c : Connection} (hstate : c.state = .clientPreface) {pos : Octets}
    (hpos : pos ≠ []) :
    (process pos).run c =
      if pos.take clientPreface.length = clientPreface then
        .ok (.settings, pos.drop clientPreface.length) { c with state := .waitClientSettings }
      else .error (.std (.runtimeError "Invalid client preface")) c := by
  unfold process
  by_cases hpre : pos.take clientPreface.length = clientPreface
  · simp [hpos, hstate, hpre]
  · simp [hpos, hstate, hpre]

/-- The connection that handles a frame. -/
def ready (c : Connection) : Connection := { c with unfinishedFrame := none }

/-- What is done with a frame that has been read. -/
def readingEnd (c : Connection) : Reading → EStateM.Result Fault Connection (Result × Octets)
  | .complete frame rest =>
    ((if c.state = .idle then handle frame else handleClientSettings frame).run c.ready).map
      (·, rest)
  | .incomplete p => .ok (.more, []) { c with unfinishedFrame := some p }
  | .failed _ _ =>
    if c.state = .idle then .error .exit { c with closed := true }
    else .error (.std (.runtimeError "Expected client settings, but got stream error")) c

/-- The later calls read a frame. -/
theorem process_reading {c : Connection} (hstate : c.state = .waitClientSettings ∨ c.state = .idle)
    {pos : Octets} (hpos : pos ≠ []) :
    (process pos).run c = c.readingEnd (Reading.ofOctets c.unfinishedFrame pos) := by
  unfold process
  rcases hstate with hstate | hstate
  all_goals
    simp only [hpos, if_false, EStateM.run_bind, EStateM.run_get, hstate, readFrame_run]
    cases Reading.ofOctets c.unfinishedFrame pos with
    | complete frame rest => simp [Reading.outcome, readingEnd, ready, hstate]
    | incomplete p => rfl
    | failed e he =>
      cases e with
      | insufficientData => exact absurd rfl he
      | _ => simp [Reading.outcome, readingEnd, hstate, Hpack.run_throw, terminate]

/-- The states that the connection gets into. -/
def Regular (c : Connection) : Prop :=
  c.state = .clientPreface ∨ c.state = .waitClientSettings ∨ c.state = .idle

/-- There are no cases for the other states. -/
theorem process_unexpected {c : Connection} (h : ¬ c.Regular) {pos : Octets} (hpos : pos ≠ []) :
    (process pos).run c = .error .exit c := by
  unfold process
  simp only [hpos, if_false, EStateM.run_bind, EStateM.run_get]
  cases hstate : c.state with
  | clientPreface => exact absurd (.inl hstate) h
  | waitClientSettings => exact absurd (.inr (.inl hstate)) h
  | idle => exact absurd (.inr (.inr hstate)) h
  | _ => rfl

/-- The frame that a call of `process` handles in the state `IDLE`, and the octets behind it. -/
def handled (c : Connection) (pos : Octets) : Option (Frame × Octets) :=
  if c.state = .idle ∧ pos ≠ [] then
    match Reading.ofOctets c.unfinishedFrame pos with
    | .complete frame rest => some (frame, rest)
    | _ => none
  else none

/-- A call that has a complete frame handles it. -/
theorem process_of_handled {c : Connection} {pos rest : Octets} {frame : Frame}
    (h : c.handled pos = some (frame, rest)) :
    c.state = .idle ∧ (process pos).run c = ((handle frame).run c.ready).map (·, rest) := by
  unfold handled at h
  split_ifs at h with hidle
  refine ⟨hidle.1, ?_⟩
  rw [process_reading (.inr hidle.1) hidle.2]
  split at h
  next frame' rest' hreading =>
    cases h
    simp [hreading, readingEnd, hidle.1, ready]
  next => cases h

/-- The ways in which a call of `process` can end that handles no frame in the state `IDLE`. -/
inductive QuietEnd (c : Connection) (pos : Octets) :
    EStateM.Result Fault Connection (Result × Octets) → Prop
  /-- There are no octets. -/
  | eof : pos = [] → QuietEnd c pos (.ok (.eof, []) c)
  /-- The preface has been read. -/
  | preface : c.state = .clientPreface →
    QuietEnd c pos
      (.ok (.settings, pos.drop clientPreface.length) { c with state := .waitClientSettings })
  /-- The frame goes on in the next packet. -/
  | incomplete {p : Partial} : c.state = .waitClientSettings ∨ c.state = .idle →
    QuietEnd c pos (.ok (.more, []) { c with unfinishedFrame := some p })
  /-- The client has sent its settings. -/
  | settings {frame : Frame} {rest : Octets} : c.state = .waitClientSettings → pos ≠ [] →
    Reading.ofOctets c.unfinishedFrame pos = .complete frame rest →
    frame.type = .settings → frame.length % 6 = 0 →
    QuietEnd c pos (.ok (.settings, rest)
      { c.ready with state := .idle, written := c.written ++ [⟨0, .settings, 0, 0, []⟩] })
  /-- The length of the settings is wrong. -/
  | invalid {rest : Octets} : c.state = .waitClientSettings →
    QuietEnd c pos (.ok (.invalid, rest) { c.ready with closed := true })
  /-- An exception before the connection is set up. -/
  | raised {e : StdException} {unfinishedFrame : Option Partial} :
    c.state = .clientPreface ∨ c.state = .waitClientSettings →
    QuietEnd c pos (.error (.std e) { c with unfinishedFrame })
  /-- A frame header that cannot be read. -/
  | unreadable {e : FrameState} {he : e ≠ .insufficientData} : c.state = .idle → pos ≠ [] →
    Reading.ofOctets c.unfinishedFrame pos = .failed e he →
    QuietEnd c pos (.error .exit { c with closed := true })
  /-- A state that the connection never gets into. -/
  | unexpected : ¬ c.Regular → QuietEnd c pos (.error .exit c)

theorem handleClientSettings_run (frame : Frame) (c : Connection) :
    (handleClientSettings frame).run c =
      if frame.type ≠ .settings then
        .error (.std (.runtimeError
          ("Expected client settings, but got " ++ toString frame.type.toOctet))) c
      else if frame.length % 6 ≠ 0 then .ok .invalid { c with closed := true }
      else .ok .settings
        { c with state := .idle, written := c.written ++ [⟨0, .settings, 0, 0, []⟩] } := by
  unfold handleClientSettings
  by_cases htype : frame.type = .settings
  · by_cases hlen : frame.length % 6 = 0
    · simp [htype, hlen, write_run]
    · simp [htype, hlen, terminate]
  · simp [htype, Hpack.throw_bind, Hpack.run_throw]

/-- The ways in which a call of `process` can end that handles no frame in the state `IDLE`. -/
theorem process_cases {c : Connection} {pos : Octets} (h : c.handled pos = none) :
    QuietEnd c pos ((process pos).run c) := by
  by_cases hpos : pos = []
  · subst hpos
    exact .eof rfl
  · -- the cases of the `switch`
    cases hstate : c.state with
    | clientPreface =>
      rw [process_preface hstate hpos]
      split_ifs
      · exact .preface hstate
      · exact .raised (.inl hstate)
    | waitClientSettings =>
      have hidle : c.state ≠ .idle := by simp [hstate]
      rw [process_reading (.inl hstate) hpos]
      cases hreading : Reading.ofOctets c.unfinishedFrame pos with
      | complete frame rest =>
        simp only [readingEnd, hidle, if_false, handleClientSettings_run]
        split_ifs with htype hlen
        · exact .raised (.inr hstate)
        · exact .invalid hstate
        · exact .settings hstate hpos hreading (not_not.mp htype) (not_not.mp hlen)
      | incomplete p => exact .incomplete (.inl hstate)
      | failed e he =>
        rw [readingEnd, if_neg hidle]
        exact .raised (.inr hstate)
    | idle =>
      rw [process_reading (.inr hstate) hpos]
      cases hreading : Reading.ofOctets c.unfinishedFrame pos with
      | complete frame rest => simp [handled, hstate, hpos, hreading] at h
      | incomplete p => exact .incomplete (.inr hstate)
      | failed e he =>
        rw [readingEnd, if_pos hstate]
        exact .unreadable hstate hpos hreading
    | _ =>
      have hregular : ¬ c.Regular := by simp [Regular, hstate]
      rw [process_unexpected hregular hpos]
      exact .unexpected hregular

end Connection

end H2

end Rite
