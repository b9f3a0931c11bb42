import Rite.H2.Server

/-!
# Requests with a body

The frames of the other streams, and the control frames, do nothing to the headers and the body
that a stream has gathered. What a stream holds in front of a call is therefore made by the HEADERS,
CONTINUATION and DATA frames that were sent on it, whatever came between them.

The case DATA appends the whole payload, although PADDED is declared for DATA too. And each header
block takes the place of the one before it, so that trailers take away what the request is made of.

## Main results

* `data_before`: the body in front of a call is made of the payloads of the DATA frames;
* `body_iff`: the request has the application data for its body exactly if no frame is padded, or
  there is nothing to leave out;
* `Trailers.stream_before`, `Trailers.delivered`: the request is there in front of the trailers,
  and they turn it into the one for `/error`, or there is no request at all.
-/

namespace Rite

/-! ## The frames of a message -/

namespace Frame

/-- The frame is part of a message: of its header blocks or its body. -/
def CarriesMessage (f : Frame) : Prop := f.CarriesHeaders ∨ f.type = .data

instance (f : Frame) : Decidable f.CarriesMessage := inferInstanceAs (Decidable (_ ∨ _))

/-- What a frame adds to the body of its stream. -/
def content (f : Frame) : Octets := if f.type = .data then f.data else []

/-- A DATA frame with the flag PADDED. -/
def Padded (f : Frame) : Prop := f.flags &&& Characteristics.Data.padded ≠ 0

instance (f : Frame) : Decidable f.Padded := inferInstanceAs (Decidable (_ ≠ _))

/-- The pad length, which is the first octet of the payload. -/
def padLength (f : Frame) : ℕ := (f.data.headD 0).toNat

/-- The payload has room for the pad length and the padding. -/
def PaddingFits (f : Frame) : Prop := f.Padded → f.padLength < f.data.length

instance (f : Frame) : Decidable f.PaddingFits := inferInstanceAs (Decidable (_ → _))

/-- The application data of a DATA frame: the payload without the pad length and the padding. -/
def applicationData (f : Frame) : Octets :=
  if f.Padded then (f.data.take (f.data.length - f.padLength)).tail else f.data

theorem length_applicationData {f : Frame} (h : f.PaddingFits) :
    f.applicationData.length + (if f.Padded then f.padLength + 1 else 0) = f.data.length := by
  unfold applicationData
  split_ifs with hpadded
  · have := h hpadded
    simp only [List.length_tail, List.length_take]
    omega
  · rfl

/-- Padding makes a payload longer, and nothing else does. -/
theorem flatMap_data_eq_iff {frames : List Frame} (h : ∀ f ∈ frames, f.PaddingFits) :
    frames.flatMap data = frames.flatMap applicationData ↔ ∀ f ∈ frames, ¬ f.Padded := by
  constructor
  · intro heq f hf hpadded
    have hle : ∀ g ∈ frames, g.applicationData.length ≤ g.data.length := fun g hg => by
      have := length_applicationData (h g hg)
      omega
    have hlt : f.applicationData.length < f.data.length := by
      have := length_applicationData (h f hf)
      rw [if_pos hpadded] at this
      omega
    have hsum := List.sum_lt_sum (fun g => g.applicationData.length) (fun g => g.data.length)
      hle ⟨f, hf, hlt⟩
    have hlength := congrArg List.length heq
    simp only [List.length_flatMap] at hlength
    omega
  · intro hpadded
    refine List.flatMap_congr fun f hf => ?_
    rw [applicationData, if_neg (hpadded f hf)]

end Frame

namespace H2

open Hpack (Header Parser)
open Connection (final HandleEnd)

namespace Call

/-- The frame of the call, if it is part of a message on the stream `id`. -/
def messageFrame (id : UInt32) (k : Call) : Option Frame :=
  k.frame.filter fun f => f.streamIdentifier = id ∧ f.CarriesMessage

theorem messageFrame_eq_some_iff {id : UInt32} {k : Call} {f : Frame} :
    k.messageFrame id = some f ↔
      k.frame = some f ∧ f.streamIdentifier = id ∧ f.CarriesMessage := by
  simp [messageFrame, Option.filter_eq_some_iff]

end Call

/-- The frames of the calls that are part of messages on the stream `id`. -/
def messageFrames (id : UInt32) (ks : List Call) : List Frame := ks.filterMap (Call.messageFrame id)

/-! ## What a call does to a stream -/

section Step

variable {frame : Frame} {c : Connection} {r : EStateM.Result Fault Connection Result}

/-- The other streams stay as they are. -/
theorem HandleEnd.stream_of_ne (h : HandleEnd frame c r) {id : UInt32}
    (hid : id ≠ frame.streamIdentifier) : (final r).stream id = c.stream id := by
  cases h <;> exact Connection.stream_setStream_of_ne hid _ _

/-- Unless a request is made of the stream, its body becomes longer by the content of the frame. -/
theorem HandleEnd.data (h : HandleEnd frame c r) (hends : ¬ frame.EndsStream) :
    ((final r).stream frame.streamIdentifier).data =
      (c.stream frame.streamIdentifier).data ++ frame.content := by
  have hcontent : frame.CarriesHeaders → frame.content = [] := by
    rintro (h | h) <;> simp [Frame.content, h]
  have hstream : ∀ s : Stream, ((c.setStream frame.streamIdentifier s).stream
      frame.streamIdentifier).data = s.data := fun s => by rw [Connection.stream_setStream]
  cases h with
  | control _ hd =>
    rw [Frame.content, if_neg hd, List.append_nil]
    exact hstream _
  | body hd =>
    rw [Frame.content, if_pos hd]
    exact hstream _
  -- `finish_stream` would move the body out
  | bodyRequest hd hflag => exact absurd ⟨.inr hd, hflag⟩ hends
  | blockRequest hh _ hflag => exact absurd ⟨.inl hh, hflag⟩ hends
  | fault hh | rejected hh | fragment hh | block hh =>
    rw [hcontent hh, List.append_nil]
    exact hstream _

/-- A frame without headers leaves the headers of its stream alone. -/
theorem HandleEnd.headers (h : HandleEnd frame c r) (hh : ¬ frame.CarriesHeaders) :
    (final r).headers = c.headers := by
  cases h with
  | control => exact Connection.headers_setStream_of_eq rfl
  | body => exact Connection.headers_setStream_of_eq rfl
  | bodyRequest => exact Connection.headers_setStream_of_eq (finishStream_headers _ _)
  | fault h | rejected h | fragment h | block h | blockRequest h => exact absurd h hh

end Step

namespace Call

variable {k : Call} {id : UInt32}

theorem stream_after (k : Call) (id : UInt32) : k.after.stream id = (final k.result).stream id := by
  unfold Connection.stream
  rw [streams_after]

/-- A call whose frame is not on the stream does not touch it. -/
theorem stream_of_ne (h : ∀ f ∈ k.frame, f.streamIdentifier ≠ id) :
    k.after.stream id = k.before.stream id := by
  cases hframe : k.frame with
  | none =>
    unfold Connection.stream
    rw [(after_of_no_frame hframe).2.1]
  | some frame =>
    obtain ⟨-, rest, r, hend, hresult⟩ := result_of_frame hframe
    rw [stream_after, hresult, final_map]
    exact HandleEnd.stream_of_ne hend (h frame hframe).symm

/-- The body of a stream becomes longer by the frames of its message that do not end it. -/
theorem data_after (h : ∀ f ∈ k.messageFrame id, ¬ f.EndsStream) :
    (k.after.stream id).data =
      (k.before.stream id).data ++ (messageFrames id [k]).flatMap Frame.content := by
  by_cases hother : ∀ f ∈ k.frame, f.streamIdentifier ≠ id
  · have hnone : k.messageFrame id = none :=
      Option.filter_eq_none_iff.mpr fun f hf => by simp [hother f hf]
    simp [messageFrames, hnone, stream_of_ne hother]
  · push Not at hother
    obtain ⟨frame, hframe, rfl⟩ := hother
    obtain ⟨-, rest, r, hend, hresult⟩ := result_of_frame hframe
    have hmessage : ∀ hf : frame.CarriesMessage,
        k.messageFrame frame.streamIdentifier = some frame :=
      fun hf => messageFrame_eq_some_iff.mpr ⟨hframe, rfl, hf⟩
    have hends : ¬ frame.EndsStream := fun hf => h frame (hmessage hf.1) hf
    rw [stream_after, hresult, final_map, HandleEnd.data hend hends]
    by_cases hf : frame.CarriesMessage
    · simp [messageFrames, hmessage hf, Connection.ready, Connection.stream]
    · have hdata : ¬ frame.type = .data := fun hd => hf (.inr hd)
      have hnone : k.messageFrame frame.streamIdentifier = none := by
        simp [messageFrame, Option.mem_def.mp hframe, hf]
      simp [messageFrames, hnone, Frame.content, hdata, Connection.ready, Connection.stream]

/-- The headers of a stream stay as they are while the frames of its message are DATA. -/
theorem headers_after_of_data (h : ∀ f ∈ k.messageFrame id, f.type = .data) :
    (k.after.stream id).headers = (k.before.stream id).headers := by
  by_cases hother : ∀ f ∈ k.frame, f.streamIdentifier ≠ id
  · rw [stream_of_ne hother]
  · push Not at hother
    obtain ⟨frame, hframe, rfl⟩ := hother
    obtain ⟨-, rest, r, hend, hresult⟩ := result_of_frame hframe
    have hh : ¬ frame.CarriesHeaders := by
      intro hf
      have htype := h frame (messageFrame_eq_some_iff.mpr ⟨hframe, rfl, .inl hf⟩)
      simp [Frame.CarriesHeaders, htype] at hf
    rw [stream_after, hresult, final_map]
    exact congrFun (HandleEnd.headers hend hh) frame.streamIdentifier

/-- DATA with END_STREAM makes a request of its stream. -/
theorem delivered_of_data {frame : Frame} (hframe : k.frame = some frame)
    (hd : frame.type = .data) (hends : frame.EndsStream) :
    k.delivered = some ((k.before.received frame).finishStream k.before.ch).1 := by
  obtain ⟨-, rest, r, hend, hresult⟩ := result_of_frame hframe
  cases hend with
  | control _ h => exact absurd hd h
  | body _ hflag => exact absurd hflag hends.2
  | bodyRequest =>
    unfold delivered
    rw [hresult]
    rfl
  | fault h | rejected h | fragment h | block h | blockRequest h =>
    simp [Frame.CarriesHeaders, hd] at h

end Call

/-! ## The body -/

/-- The body in front of a call is made of the payloads of the DATA frames of the stream. -/
theorem data_before {table : Hpack.StaticTable} {ch : Octet} {id : UInt32} {ks later : List Call}
    {k : Call} (hrun : Run Call.before Call.after (.fresh table ch) (ks ++ k :: later))
    (hends : ∀ f ∈ messageFrames id ks, ¬ f.EndsStream) :
    (k.before.stream id).data = (messageFrames id ks).flatMap Frame.content := by
  refine hrun.of_append (I := fun earlier c =>
    (c.stream id).data = (messageFrames id earlier).flatMap Frame.content) rfl ?_
  intro earlier a ha hdata
  have hends' : ∀ f ∈ a.messageFrame id, ¬ f.EndsStream := fun f hf =>
    hends f (List.mem_filterMap.mpr ⟨a, ha, hf⟩)
  rw [Call.data_after hends', hdata, messageFrames, messageFrames, messageFrames,
    List.filterMap_append, List.flatMap_append]

/-- The stream has what it takes to make a request other than the one for `/error`. -/
def Stream.Complete (s : Stream) : Prop :=
  (s.getHeader (octets ":path")).isSome ∧ (s.getHeader (octets ":method")).isSome

instance (s : Stream) : Decidable s.Complete := inferInstanceAs (Decidable (_ ∧ _))

theorem Stream.finishStream_of_not_complete {ch : Octet} {s : Stream} (h : ¬ s.Complete) :
    s.finishStream ch = (s.errorRequest, s) := by
  unfold Stream.finishStream
  split
  next hpath hmethod => exact absurd ⟨by rw [hpath]; rfl, by rw [hmethod]; rfl⟩ h
  next => rfl

/-- The body and the headers of a request that is not the one for `/error`. -/
theorem Stream.finishStream_of_complete (ch : Octet) {s : Stream} (h : s.Complete) :
    (s.finishStream ch).1.body = s.data ∧ (s.finishStream ch).1.headers = headerMap s.headers := by
  obtain ⟨path, hpath⟩ := Option.isSome_iff_exists.mp h.1
  obtain ⟨method, hmethod⟩ := Option.isSome_iff_exists.mp h.2
  simp [finishStream, hpath, hmethod]

theorem Stream.body_finishStream (ch : Octet) (s : Stream) :
    (s.finishStream ch).1.body = if s.Complete then s.data else [] := by
  split_ifs with h
  · exact (finishStream_of_complete ch h).1
  · rw [finishStream_of_not_complete h]
    rfl

/-- A header block and DATA frames on the stream `id`, none of them with END_STREAM, among the
calls `ks`, and a last DATA frame in the call `k`. -/
structure Upload (id : UInt32) (ks : List Call) (k : Call) (data : List Frame) (last : Frame) :
    Prop where
  /-- The frames of the message in front of the last one. -/
  frames : ∃ block, messageFrames id ks = block ++ data ∧ block ≠ [] ∧
    ∀ f ∈ block, f.CarriesHeaders ∧ ¬ f.EndsStream
  /-- The DATA frames do not end the stream. -/
  goesOn : ∀ f ∈ data, f.type = .data ∧ ¬ f.EndsStream
  /-- The last frame does. -/
  ends : k.messageFrame id = some last ∧ last.type = .data ∧ last.EndsStream
  /-- Where there is padding, it is in the payload. -/
  fits : ∀ f ∈ data ++ [last], f.PaddingFits

/-- The request that the call delivers has the given body. -/
def Call.DeliversBody (k : Call) (body : Octets) : Prop :=
  ∃ request ∈ k.delivered, request.body = body

instance (k : Call) (body : Octets) : Decidable (k.DeliversBody body) :=
  inferInstanceAs (Decidable (∃ request ∈ k.delivered, request.body = body))

section Upload

variable {table : Hpack.StaticTable} {ch : Octet} {id : UInt32} {ks later : List Call} {k : Call}
  {data : List Frame} {last : Frame} {body : Octets}

/-- The body is made of whole payloads, if there is a path and a method. -/
theorem Upload.deliversBody_iff (h : Upload id ks k data last)
    (hrun : Run Call.before Call.after (.fresh table ch) (ks ++ k :: later)) :
    k.DeliversBody body ↔
      body = if (k.before.stream id).Complete then (data ++ [last]).flatMap Frame.data else [] := by
  obtain ⟨block, hframes, -, hblock⟩ := h.frames
  obtain ⟨hlast, htype, hends⟩ := h.ends
  obtain ⟨hframe, rfl, -⟩ := Call.messageFrame_eq_some_iff.mp hlast
  -- the frames of the header block add nothing to the body
  have hbefore : (k.before.stream last.streamIdentifier).data = data.flatMap Frame.data := by
    rw [data_before hrun, hframes, List.flatMap_append]
    · have hnil : block.flatMap Frame.content = [] := by
        refine List.flatMap_eq_nil_iff.mpr fun f hf => ?_
        rcases (hblock f hf).1 with hheaders | hheaders <;> simp [Frame.content, hheaders]
      rw [hnil, List.nil_append]
      exact List.flatMap_congr fun f hf => if_pos (h.goesOn f hf).1
    · intro f hf
      rw [hframes] at hf
      rcases List.mem_append.mp hf with hf | hf
      · exact (hblock f hf).2
      · exact (h.goesOn f hf).2
  have hreceived : (k.before.received last).data = (data ++ [last]).flatMap Frame.data := by
    simp [Connection.received, hbefore]
  have hcomplete : (k.before.received last).Complete ↔
    (k.before.stream last.streamIdentifier).Complete := Iff.rfl
  unfold Call.DeliversBody
  rw [Call.delivered_of_data hframe htype hends]
  simp only [Option.mem_def, Option.some_inj, exists_eq_left', Stream.body_finishStream, hcomplete,
    hreceived]
  exact eq_comm

/-- The request has the application data for its body exactly if no frame is padded, or, in a
request for `/error`, if there is no application data. -/
theorem body_iff (hrun : Run Call.before Call.after (.fresh table ch) (ks ++ k :: later))
    (h : Upload id ks k data last) :
    k.DeliversBody ((data ++ [last]).flatMap Frame.applicationData) ↔
      if (k.before.stream id).Complete then ∀ f ∈ data ++ [last], ¬ f.Padded
      else ∀ f ∈ data ++ [last], f.applicationData = [] := by
  rw [h.deliversBody_iff hrun]
  split_ifs
  · rw [eq_comm]
    exact Frame.flatMap_data_eq_iff h.fits
  · exact List.flatMap_eq_nil_iff

end Upload

/-- A body in two DATA frames, with frames of another stream and of the connection in between. -/
theorem body_sample :
    ∃ k ∈ (Server.accept Hpack.staticHeaderTable 0
        (handshake ++ Frame.wire ⟨2, .headers, 0x4, 1, [0x83, 0x84]⟩ ++
          Frame.wire ⟨2, .headers, 0x4, 3, [0x83, 0x84]⟩ ++
          Frame.wire ⟨1, .data, 0x0, 1, [0x61]⟩ ++
          Frame.wire ⟨8, .ping, 0x0, 0, List.replicate 8 0⟩ ++
          Frame.wire ⟨1, .data, 0x1, 3, [0x78]⟩ ++
          Frame.wire ⟨1, .data, 0x1, 1, [0x62]⟩) []).calls (List.replicate 8 .returned),
      k.DeliversBody (octets "ab") := by
  refine ⟨_, List.getElem_mem (n := 7) ?_, ?_⟩
  · decide
  · refine (body_iff ((Server.run_accept ..).split _)
      (show Upload 1 _ _ [⟨1, .data, 0x0, 1, [0x61]⟩] ⟨1, .data, 0x1, 1, [0x62]⟩ from
        ⟨⟨[⟨2, .headers, 0x4, 1, [0x83, 0x84]⟩], ?_, ?_, ?_⟩, ?_, ?_, ?_⟩)).mpr ?_
    all_goals decide

/-- The pad length and the padding of a DATA frame go into the body. -/
theorem not_body :
    ¬ ∀ (table : Hpack.StaticTable) (ch : Octet) (id : UInt32) (ks later : List Call) (k : Call)
        (data : List Frame) (last : Frame),
      Run Call.before Call.after (.fresh table ch) (ks ++ k :: later) → Upload id ks k data last →
      k.DeliversBody ((data ++ [last]).flatMap Frame.applicationData) := by
  intro h
  have hrun := Server.run_accept Hpack.staticHeaderTable 0
    (handshake ++ Frame.wire ⟨2, .headers, 0x4, 1, [0x83, 0x84]⟩ ++
      Frame.wire ⟨3, .data, 0x9, 1, [0x1, 0x61, 0x0]⟩) [] (List.replicate 4 .returned)
  have hbody := h _ _ 1 _ _ _ [] ⟨3, .data, 0x9, 1, [0x1, 0x61, 0x0]⟩
    (hrun.split (i := 3) (by decide))
    ⟨⟨[⟨2, .headers, 0x4, 1, [0x83, 0x84]⟩], by decide, by decide, by decide⟩, by decide,
      by decide, by decide⟩
  exact absurd hbody (by decide)

/-! ## Trailers -/

/-- The header block that the call completes on the stream `id`. -/
def Call.block (id : UInt32) (k : Call) : Option (List Header) :=
  match k.messageFrame id with
  | none => none
  | some frame =>
    if frame.CarriesHeaders then
      match (Parser.parse frame).run k.before.rx with
      | .ok .done rx => some rx.decoded
      | _ => none
    else none

/-- A pseudo-header: its name begins with a colon. -/
def Pseudo (h : Header) : Prop := h.key.head? = some 0x3A

instance (h : Header) : Decidable (Pseudo h) := inferInstanceAs (Decidable (_ = _))

/-- A header block, DATA frames and trailers on the stream `id`, in a run that goes on. The call `k`
is that for the frame of the trailers with END_STREAM, whether or not its octets can be decoded. -/
structure Trailers (table : Hpack.StaticTable) (ch : Octet) (id : UInt32) (first : List Header)
    (data : List Frame) (k : Call) : Prop where
  /-- The calls in front of that which completes the first block, that call, and the calls behind
  it. -/
  run : ∃ ks₁ k₁ ks₂ later,
    Run Call.before Call.after (.fresh table ch) (ks₁ ++ k₁ :: (ks₂ ++ k :: later)) ∧
    (∀ f ∈ messageFrames id ks₁, f.CarriesHeaders ∧ ¬ f.EndsStream) ∧
    k₁.block id = some first ∧ (∀ f ∈ k₁.messageFrame id, ¬ f.EndsStream) ∧
    messageFrames id ks₂ = data
  /-- The first block has a path and a method. -/
  complete : Stream.Complete { headers := first }
  /-- The DATA frames do not end the stream. -/
  goesOn : ∀ f ∈ data, f.type = .data ∧ ¬ f.EndsStream
  /-- The trailers do. -/
  ends : ∃ f ∈ k.messageFrame id, f.CarriesHeaders ∧ f.EndsStream
  /-- They have no pseudo-headers. -/
  regular : ∀ trailers ∈ k.block id, ∀ h ∈ trailers, ¬ Pseudo h

/-- The call delivers a request with the method, path, query, headers and body of a stream with
the given headers and DATA frames. -/
def Call.Keeps (k : Call) (first : List Header) (data : List Frame) : Prop :=
  ∃ request ∈ k.delivered,
    let original := (Stream.finishStream k.before.ch
      { headers := first, data := data.flatMap Frame.applicationData }).1
    request.method = original.method ∧ request.path = original.path ∧
      request.query = original.query ∧ request.headers = original.headers ∧
      request.body = original.body

theorem Call.block_eq_some_iff {id : UInt32} {k : Call} {headers : List Header} :
    k.block id = some headers ↔
      ∃ frame rx, k.messageFrame id = some frame ∧ frame.CarriesHeaders ∧
        (Parser.parse frame).run k.before.rx = .ok .done rx ∧ rx.decoded = headers := by
  unfold Call.block
  cases k.messageFrame id with
  | none => simp
  | some frame =>
    by_cases hh : frame.CarriesHeaders
    · simp only [hh, if_true, Option.some_inj]
      constructor
      · intro h
        split at h
        next rx hrun =>
          cases h
          exact ⟨frame, rx, rfl, hh, hrun, rfl⟩
        next => cases h
      · rintro ⟨_, rx, rfl, -, hrun, rfl⟩
        rw [hrun]
    · simp only [hh, if_false, Option.some_inj]
      constructor
      · intro h
        cases h
      · rintro ⟨_, rx, rfl, hh', -⟩
        exact absurd hh' hh

section Block

variable {k : Call} {id : UInt32} {block : List Header}

/-- A call that completes a block stores it, and makes a request of the stream if it ends. -/
theorem Call.result_of_block (h : k.block id = some block) :
    ∃ frame rest rx, k.messageFrame id = some frame ∧ frame.streamIdentifier = id ∧
      frame.CarriesHeaders ∧
      k.result =
        if frame.flags &&& Characteristics.Headers.endStream = 0 then
          .ok (.more, rest)
            ((k.before.ready.moved rx).setStream id (k.before.ready.stored frame block .open))
        else .ok (.newRequest, rest)
          ((k.before.ready.moved rx).dispatch id
            (k.before.ready.stored frame block .halfClosed)) := by
  obtain ⟨frame, rx, hmessage, hh, hrun, rfl⟩ := Call.block_eq_some_iff.mp h
  obtain ⟨hframe, rfl, -⟩ := messageFrame_eq_some_iff.mp hmessage
  obtain ⟨⟨frame, rest⟩, hhandled, rfl⟩ := Option.map_eq_some_iff.mp hframe
  have hrun' : (Parser.parse frame).run k.before.ready.rx = .ok .done rx := hrun
  refine ⟨frame, rest, rx, hmessage, rfl, hh, ?_⟩
  have hresult := (Connection.process_of_handled hhandled).2
  rw [Connection.handle_headers hh, hrun', Connection.headersEnd_done] at hresult
  unfold result
  rw [hresult]
  split_ifs <;> rfl

/-- A block without END_STREAM is stored, and the body stays as it is. -/
theorem Call.stream_after_block (h : k.block id = some block)
    (hends : ∀ f ∈ k.messageFrame id, ¬ f.EndsStream) :
    (k.after.stream id).headers = block ∧
      (k.after.stream id).data = (k.before.stream id).data := by
  obtain ⟨frame, rest, rx, hmessage, rfl, hh, hresult⟩ := Call.result_of_block h
  have hflag : frame.flags &&& Characteristics.Headers.endStream = 0 := by
    by_contra hflag
    exact hends frame hmessage ⟨.inl hh, hflag⟩
  rw [stream_after, hresult, if_pos hflag, final, Connection.stream_setStream]
  exact ⟨rfl, rfl⟩

/-- A block with END_STREAM makes a request of its stream, with the headers of that block. -/
theorem Call.delivered_of_block (h : k.block id = some block)
    (hends : ∀ f ∈ k.messageFrame id, f.EndsStream) :
    ∃ s : Stream, s.headers = block ∧ s.streamId = id ∧
      k.delivered = some (s.finishStream k.before.ch).1 := by
  obtain ⟨frame, rest, rx, hmessage, rfl, -, hresult⟩ := Call.result_of_block h
  refine ⟨k.before.ready.stored frame block .halfClosed, rfl, rfl, ?_⟩
  unfold delivered
  rw [hresult, if_neg (hends frame hmessage).2]
  rfl

/-- A frame with headers that does not complete a block makes no request. -/
theorem Call.delivered_of_no_block {frame : Frame} (hframe : k.frame = some frame)
    (hh : frame.CarriesHeaders) (h : k.block frame.streamIdentifier = none) :
    k.delivered = none := by
  cases hdelivered : k.delivered with
  | none => rfl
  | some request =>
    obtain ⟨frame', -, c, hframe', -, hend, -⟩ := Call.frame_of_delivered hdelivered
    obtain rfl : frame = frame' := Option.some_inj.mp (hframe.symm.trans hframe')
    rcases hend.newRequest_cases with ⟨hd, -⟩ | ⟨-, -, rx, hrun, -⟩
    · simp [Frame.CarriesHeaders, hd] at hh
    · -- a request is made of a stream whose block is complete
      have hmessage : k.messageFrame frame.streamIdentifier = some frame :=
        Call.messageFrame_eq_some_iff.mpr ⟨hframe, rfl, .inl hh⟩
      have hblock : k.block frame.streamIdentifier = some rx.decoded :=
        Call.block_eq_some_iff.mpr ⟨frame, rx, hmessage, hh, hrun, rfl⟩
      rw [h] at hblock
      cases hblock

end Block

namespace Trailers

variable {table : Hpack.StaticTable} {ch : Octet} {id : UInt32} {first : List Header}
  {data : List Frame} {k : Call}

/-- In front of the trailers the stream has all that the request is to be made of. -/
theorem stream_before (h : Trailers table ch id first data k) :
    (k.before.stream id).headers = first ∧
      (k.before.stream id).data = data.flatMap Frame.data := by
  obtain ⟨ks₁, k₁, ks₂, later, hrun, hblock, hfirst, hends, rfl⟩ := h.run
  -- the first block finds no body
  have hempty : (k₁.before.stream id).data = [] := by
    rw [data_before hrun fun f hf => (hblock f hf).2]
    refine List.flatMap_eq_nil_iff.mpr fun f hf => ?_
    rcases (hblock f hf).1 with hheaders | hheaders <;> simp [Frame.content, hheaders]
  obtain ⟨hheaders₁, hdata₁⟩ := Call.stream_after_block hfirst hends
  -- the invariant of the DATA frames: the headers stay, and the body grows
  have hinv := hrun.tail_of_append.of_append (I := fun earlier c =>
    (c.stream id).headers = first ∧
      (c.stream id).data = (messageFrames id earlier).flatMap Frame.content)
    ⟨hheaders₁, hdata₁.trans hempty⟩ fun earlier a ha hI => by
      have hgoesOn : ∀ f ∈ a.messageFrame id, f.type = .data ∧ ¬ f.EndsStream := fun f hf =>
        h.goesOn f (List.mem_filterMap.mpr ⟨a, ha, hf⟩)
      refine ⟨(Call.headers_after_of_data fun f hf => (hgoesOn f hf).1).trans hI.1, ?_⟩
      rw [Call.data_after fun f hf => (hgoesOn f hf).2, hI.2, messageFrames, messageFrames,
        messageFrames, List.filterMap_append, List.flatMap_append]
  refine ⟨hinv.1, hinv.2.trans ?_⟩
  exact List.flatMap_congr fun f hf => if_pos (h.goesOn f hf).1

/-- Behind the trailers neither a path nor a method is left, if the trailers can be decoded. -/
theorem delivered (h : Trailers table ch id first data k) :
    k.delivered = if (k.block id).isSome then some (Stream.errorRequest { streamId := id })
      else none := by
  obtain ⟨frame, hmessage, hh, hends⟩ := h.ends
  cases hblock : k.block id with
  | none =>
    obtain ⟨hframe, rfl, -⟩ := Call.messageFrame_eq_some_iff.mp hmessage
    exact Call.delivered_of_no_block hframe hh hblock
  | some trailers =>
    have hall : ∀ f ∈ k.messageFrame id, f.EndsStream := by
      intro f hf
      obtain rfl : frame = f := Option.some_inj.mp (hmessage.symm.trans hf)
      exact hends
    obtain ⟨s, hheaders, hid, hdelivered⟩ := Call.delivered_of_block hblock hall
    -- the stream has the headers of the trailers alone, and there is no `:path` among them
    have hcomplete : ¬ s.Complete := by
      rintro ⟨hpath, -⟩
      simp only [Stream.getHeader, Option.isSome_map, List.find?_isSome, decide_eq_true_eq,
        hheaders] at hpath
      obtain ⟨header, hmem, hkey⟩ := hpath
      refine h.regular trailers hblock header hmem ?_
      rw [Pseudo, hkey]
      rfl
    rw [hdelivered, Stream.finishStream_of_not_complete hcomplete]
    simp [Stream.errorRequest, hid]

/-- Nor any other header. -/
theorem headers_ne (h : Trailers table ch id first data k) {request : Request}
    (hrequest : request ∈ k.delivered) (body : Octets) :
    request.headers ≠
      (Stream.finishStream k.before.ch { headers := first, data := body }).1.headers := by
  intro hheaders
  obtain rfl : Stream.errorRequest { streamId := id } = request := by
    rw [h.delivered] at hrequest
    split_ifs at hrequest
    · exact Option.some_inj.mp hrequest
    · cases hrequest
  -- the first block has a path, and the request for `/error` has no headers
  have hpath := h.complete.1
  simp only [Stream.getHeader, Option.isSome_map, List.find?_isSome] at hpath
  obtain ⟨path, hmem, -⟩ := hpath
  have hcomplete : Stream.Complete { headers := first, data := body } := h.complete
  have hkey := key_mem_headerMap hmem
  rw [← (Stream.finishStream_of_complete k.before.ch hcomplete).2, ← hheaders] at hkey
  cases hkey

end Trailers

/-- Trailers never leave the request as it is. -/
theorem not_keeps {table : Hpack.StaticTable} {ch : Octet} {id : UInt32} {first : List Header}
    {data : List Frame} {k : Call} (h : Trailers table ch id first data k) :
    ¬ k.Keeps first data := by
  rintro ⟨request, hrequest, -, -, -, hheaders, -⟩
  exact h.headers_ne hrequest _ hheaders

/-- Two header blocks and a body on one stream, and a frame of another stream in between. -/
def trailersRun : List Call :=
  (Server.accept Hpack.staticHeaderTable 0
    (handshake ++ Frame.wire ⟨2, .headers, 0x4, 1, [0x83, 0x84]⟩ ++
      Frame.wire ⟨2, .headers, 0x5, 3, [0x82, 0x84]⟩ ++
      Frame.wire ⟨1, .data, 0x0, 1, [0x61]⟩ ++
      Frame.wire ⟨5, .headers, 0x5, 1, [0x00, 0x01, 0x78, 0x01, 0x79]⟩) []).calls
    (List.replicate 6 .returned)

private theorem trailers_sample :
    ∃ k ∈ trailersRun, Trailers Hpack.staticHeaderTable 0 1
      [⟨octets ":method", octets "POST"⟩, ⟨octets ":path", octets "/"⟩]
      [⟨1, .data, 0x0, 1, [0x61]⟩] k := by
  refine ⟨_, List.mem_of_mem_drop (i := 3) (List.getElem_mem (n := 2) ?_), ?_⟩
  · decide +kernel
  · refine ⟨⟨_, _, _, _, ((Server.run_accept ..).split (i := 2) ?_).split_later _, ?_, ?_, ?_, ?_⟩,
      ?_, ?_, ?_, ?_⟩
    all_goals decide

/-- The trailer `x: y` behind a POST request with a body of one octet. -/
theorem not_keeps_sample :
    ∃ k ∈ trailersRun,
      ¬ k.Keeps [⟨octets ":method", octets "POST"⟩, ⟨octets ":path", octets "/"⟩]
        [⟨1, .data, 0x0, 1, [0x61]⟩] := by
  obtain ⟨k, hk, htrailers⟩ := trailers_sample
  exact ⟨k, hk, not_keeps htrailers⟩

/-- The request is not what the first block and the body say. -/
theorem not_keeps_request :
    ¬ ∀ (table : Hpack.StaticTable) (ch : Octet) (id : UInt32) (first : List Header)
        (data : List Frame) (k : Call),
      Trailers table ch id first data k → k.Keeps first data := by
  intro h
  obtain ⟨k, -, htrailers⟩ := trailers_sample
  obtain ⟨request, hrequest, -, -, -, hheaders, -⟩ := h _ _ _ _ _ k htrailers
  exact htrailers.headers_ne hrequest _ hheaders

end H2

end Rite
