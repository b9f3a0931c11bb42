import Rite.H2.Exchange

/-!
# The octets of a body

What a stream has got of a body is kept until a request is made of the stream, which takes all of
it; the request for `/error` takes none, and leaves it for the next one.

## Main results

* `HandleEnd.body_append`: the octets that a frame brings are in the request that is made, or are
  kept in the stream;
* `conservation`: the payloads of DATA on a stream are the bodies of the requests that have been
  made of it, and what is kept, in every run: no octet is lost, comes twice or changes its place or
  its stream.
-/

namespace Rite

namespace H2

open Hpack (Parser)
open Connection (final HandleEnd)

/-- A request and its stream share the body. -/
theorem Stream.body_append_data (ch : Octet) (s : Stream) :
    (s.finishStream ch).1.body ++ (s.finishStream ch).2.data = s.data := by
  unfold finishStream
  split
  · exact List.append_nil _
  · rfl

/-- The requests that have been made when a call returns. -/
def made {α : Type} (result : α → Result) :
    EStateM.Result Fault Connection α → List Request
  | .ok v c => Connection.requests (result v) c
  | .error _ _ => []

/-- What a frame brings to its stream is in the request, or stays in the stream. -/
theorem HandleEnd.body_append {frame : Frame} {c : Connection}
    {r : EStateM.Result Fault Connection Result} (h : HandleEnd frame c r) :
    (made id r).flatMap Request.body ++ ((final r).stream frame.streamIdentifier).data =
      (c.stream frame.streamIdentifier).data ++ frame.content := by
  have hcontent : frame.CarriesHeaders → frame.content = [] := by
    rintro (h | h) <;> simp [Frame.content, h]
  have hstream : ∀ s : Stream, ((c.setStream frame.streamIdentifier s).stream
      frame.streamIdentifier).data = s.data := fun s => by rw [Connection.stream_setStream]
  -- a request takes the body out of the stream
  have hdispatch : ∀ (c' : Connection) (s : Stream),
      (made id (.ok .newRequest (c'.dispatch frame.streamIdentifier s))).flatMap Request.body ++
        ((c'.dispatch frame.streamIdentifier s).stream frame.streamIdentifier).data = s.data :=
    fun c' s => by
      have hs : ((c'.dispatch frame.streamIdentifier s).stream frame.streamIdentifier) =
          (s.finishStream c'.ch).2 := Connection.stream_setStream ..
      rw [hs, ← s.body_append_data c'.ch]
      simp [made, Connection.requests, Connection.dispatch]
  cases h with
  | control _ hd hr =>
    rw [Frame.content, if_neg hd, List.append_nil]
    rcases hr with rfl | rfl
    · exact hstream _
    · exact hstream _
  | body hd =>
    rw [Frame.content, if_pos hd]
    exact hstream _
  | bodyRequest hd =>
    rw [Frame.content, if_pos hd]
    exact hdispatch c _
  | fault hh | rejected hh | fragment hh | block hh =>
    rw [hcontent hh, List.append_nil]
    exact hstream _
  | blockRequest hh =>
    rw [hcontent hh, List.append_nil]
    exact hdispatch _ _

/-- The requests that calls have made of the stream `id`. -/
def requestsOf (id : UInt32) (ks : List Call) : List Request :=
  ks.flatMap fun k => k.delivered.toList.filter (·.streamId = some id)

/-- The request of a call is the one that `process` has made. -/
theorem Call.delivered_eq (k : Call) : k.delivered.toList = made Prod.fst k.result := by
  unfold delivered made
  split
  next rest c hresult => rw [hresult]; rfl
  next hne =>
    cases hresult : k.result with
    | error e c => rfl
    | ok v c =>
      obtain ⟨v, rest⟩ := v
      cases v with
      | newRequest => exact absurd hresult (hne rest c)
      | _ => rfl

/-- A call takes from the body of a stream what it delivers, and adds what it reads. -/
theorem Call.body_append (k : Call) (id : UInt32) :
    (requestsOf id [k]).flatMap Request.body ++ (k.after.stream id).data =
      (k.before.stream id).data ++ (messageFrames id [k]).flatMap Frame.content := by
  by_cases hother : ∀ f ∈ k.frame, f.streamIdentifier ≠ id
  · have hnone : k.messageFrame id = none :=
      Option.filter_eq_none_iff.mpr fun f hf => by simp [hother f hf]
    -- a request is made of the stream of the frame
    have hrequests : requestsOf id [k] = [] := by
      simp only [requestsOf, List.flatMap_singleton, List.filter_eq_nil_iff]
      intro request hrequest
      obtain ⟨frame, -, -, hframe, -, -, -, -, hid⟩ :=
        frame_of_delivered (Option.mem_toList.mp hrequest)
      have hne := hother frame hframe
      simp [hid, hne]
    simp [hrequests, messageFrames, hnone, stream_of_ne hother]
  · push Not at hother
    obtain ⟨frame, hframe, rfl⟩ := hother
    obtain ⟨-, rest, r, hend, hresult⟩ := result_of_frame hframe
    have hrequests : requestsOf frame.streamIdentifier [k] = made id r := by
      have hmade : made Prod.fst k.result = made id r := by
        rw [hresult]
        cases r <;> rfl
      simp only [requestsOf, List.flatMap_singleton]
      rw [List.filter_eq_self.mpr, delivered_eq, hmade]
      intro request hrequest
      obtain ⟨frame', -, -, hframe', -, -, -, -, hid⟩ :=
        frame_of_delivered (Option.mem_toList.mp hrequest)
      obtain rfl := Option.some_inj.mp (hframe.symm.trans hframe')
      simpa using hid
    have hcontent : (messageFrames frame.streamIdentifier [k]).flatMap Frame.content =
        frame.content := by
      by_cases hf : frame.CarriesMessage
      · have hmessage : k.messageFrame frame.streamIdentifier = some frame :=
          messageFrame_eq_some_iff.mpr ⟨hframe, rfl, hf⟩
        simp [messageFrames, hmessage]
      · have hdata : ¬ frame.type = .data := fun hd => hf (.inr hd)
        have hnone : k.messageFrame frame.streamIdentifier = none := by
          simp [messageFrame, Option.mem_def.mp hframe, hf]
        simp [messageFrames, hnone, Frame.content, hdata]
    rw [stream_after, hrequests, hcontent, hresult, final_map]
    have hbody := HandleEnd.body_append hend
    exact hbody

/-- The connection behind calls. -/
def Connection.behind (c : Connection) (ks : List Call) : Connection :=
  (ks.getLast?.map Call.after).getD c

/-- The payloads of DATA that the calls of a run have read on a stream are the bodies of the
requests that have been made of it, and what the stream keeps. -/
theorem conservation {table : Hpack.StaticTable} {ch : Octet} {ks : List Call}
    (hrun : Run Call.before Call.after (.fresh table ch) ks) (id : UInt32) :
    (requestsOf id ks).flatMap Request.body ++
        (((Connection.fresh table ch).behind ks).stream id).data =
      (messageFrames id ks).flatMap Frame.content := by
  have hstep : ∀ (earlier : List Call) (k : Call),
      (requestsOf id earlier).flatMap Request.body ++ (k.before.stream id).data =
        (messageFrames id earlier).flatMap Frame.content →
      (requestsOf id (earlier ++ [k])).flatMap Request.body ++ (k.after.stream id).data =
        (messageFrames id (earlier ++ [k])).flatMap Frame.content := fun earlier k h => by
    have hcall := k.body_append id
    rw [requestsOf, List.flatMap_append, List.flatMap_append, List.append_assoc, messageFrames,
      List.filterMap_append, List.flatMap_append, ← messageFrames, ← messageFrames, ← h,
      ← requestsOf, ← requestsOf, hcall, List.append_assoc]
  rcases List.eq_nil_or_concat' ks with rfl | ⟨ks, k, rfl⟩
  · rfl
  · have hbefore : (requestsOf id ks).flatMap Request.body ++ (k.before.stream id).data =
        (messageFrames id ks).flatMap Frame.content :=
      hrun.of_append (I := fun earlier c =>
        (requestsOf id earlier).flatMap Request.body ++ (c.stream id).data =
          (messageFrames id earlier).flatMap Frame.content)
        rfl fun earlier a _ h => hstep earlier a h
    rw [Connection.behind, List.getLast?_concat, Option.map_some, Option.getD_some]
    exact hstep ks k hbefore

/-- A body without headers stays in its stream when END_STREAM comes, and is in the request that is
made when they have come. -/
theorem conservation_sample :
    let ks := (Server.accept Hpack.staticHeaderTable 0
      (handshake ++ Frame.wire ⟨1, .data, 0x1, 1, [0x61]⟩ ++
        Frame.wire ⟨2, .headers, 0x4, 1, [0x82, 0x84]⟩ ++ Frame.wire ⟨1, .data, 0x1, 1, [0x62]⟩)
      []).calls (List.replicate 6 .returned)
    (requestsOf 1 ks).length = 2 ∧
      (requestsOf 1 ks).flatMap Request.body ++
          (((Connection.fresh Hpack.staticHeaderTable 0).behind ks).stream 1).data =
        (messageFrames 1 ks).flatMap Frame.content :=
  ⟨by decide, conservation (Server.run_accept ..) 1⟩

end H2

end Rite
