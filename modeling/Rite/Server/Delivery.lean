import Rite.Hpack.BlockSize
import Rite.Hpack.Conformance
import Rite.Server.Multiplexing
import Rite.ToMathlib.Inevitable

/-!
# What a client gets

A client that follows the specification reads the frames of a connection one after the other. It
decodes the header blocks with one decoder for all streams, and collects for each stream the
headers, the body and whether it has come to its end. It refuses a frame that is too long, a body
without headers, and one behind its end.

## Main results

* `exists_receiveAll`: a client accepts what has been written, and gets on each stream what its
  frames carry;
* `delivered_of_run`: in a run that serializes one response at a time, a response whose callback has
  no frames left has arrived: its status and headers, its body, and its end unless its last buffer
  is empty;
* `inevitable_delivered`: all responses arrive that are being written.
-/

namespace Rite

/-- The body of a response: the buffers of its channel up to the last one. -/
def body : List Buffer → Octets
  | [] => []
  | buf :: channel => buf.data ++ if buf.last then [] else body channel

/-- The channel comes to a last buffer, and that is not empty. -/
def EndsFull : List Buffer → Prop
  | [] => False
  | buf :: channel => if buf.last then buf.data ≠ [] else EndsFull channel

instance EndsFull.decidable : (channel : List Buffer) → Decidable (EndsFull channel)
  | [] => inferInstanceAs (Decidable False)
  | buf :: channel =>
    have := EndsFull.decidable channel
    inferInstanceAs (Decidable (if buf.last then buf.data ≠ [] else EndsFull channel))

namespace H2

theorem flatMap_bodyFrames (streamId : UInt32) (channel : List Buffer) :
    (bodyFrames streamId channel).flatMap Frame.data = body channel := by
  induction channel with
  | nil => rfl
  | cons buf channel ih =>
    rw [bodyFrames, body, List.flatMap_append, flatMap_slices, List.drop_zero]
    split_ifs
    · rfl
    · rw [ih]

/-- One of the frames ends the stream if and only if the last buffer is not empty. -/
theorem exists_ends_bodyFrames_iff (streamId : UInt32) (channel : List Buffer) :
    (∃ f ∈ bodyFrames streamId channel, Ends f) ↔ EndsFull channel := by
  induction channel with
  | nil => simp [bodyFrames, EndsFull]
  | cons buf channel ih =>
    rw [bodyFrames, EndsFull]
    by_cases hlast : buf.last
    · simp only [hlast, if_true, List.append_nil]
      refine ⟨?_, fun hne => ?_⟩
      · rintro ⟨f, hf, _⟩ hnil
        rw [slices_eq_nil_iff.mpr hnil] at hf
        cases hf
      · obtain ⟨init, last, hslices, hends, -⟩ :=
          endsOnce_slices hlast (List.length_pos_iff.mpr hne) streamId
        exact ⟨last, by simp [hslices], hends⟩
    · simp only [hlast, Bool.false_eq_true, if_false, List.mem_append, or_and_right, exists_or, ih]
      refine or_iff_right ?_
      rintro ⟨f, hf, hends⟩
      exact not_ends_of_mem_slices hlast f hf hends

end H2

namespace H2

/-- The frames of the serializer do not end a stream. -/
theorem not_ends_of_flags {f : Frame} (h : f.flags = Characteristics.Headers.endHeaders) :
    ¬ Ends f := by
  rw [Ends, h]
  decide

/-- A frame that ends the stream is the last one. -/
theorem pairwise_bodyFrames (streamId : UInt32) (channel : List Buffer) :
    (bodyFrames streamId channel).Pairwise fun a _ => ¬ Ends a := by
  have hslices : ∀ buf : Buffer,
      (slices streamId buf 0).Pairwise fun a _ => ¬ Ends a := fun buf => by
    by_cases hnil : buf.data = []
    · rw [slices_eq_nil_iff.mpr hnil]
      exact .nil
    · by_cases hlast : buf.last
      · obtain ⟨init, last, heq, -, hinit⟩ :=
          endsOnce_slices hlast (List.length_pos_iff.mpr hnil) streamId
        rw [heq, List.pairwise_append]
        exact ⟨List.pairwise_of_forall_mem_list fun a ha _ _ => hinit a ha,
          List.pairwise_singleton .., fun a ha _ _ => hinit a ha⟩
      · exact List.pairwise_of_forall_mem_list fun a ha _ _ => not_ends_of_mem_slices hlast a ha
  induction channel with
  | nil => exact .nil
  | cons buf channel ih =>
    rw [bodyFrames]
    by_cases hlast : buf.last
    · simpa [hlast] using hslices buf
    · simp only [hlast, Bool.false_eq_true, if_false, List.pairwise_append]
      exact ⟨hslices buf, ih, fun a ha _ _ => not_ends_of_mem_slices hlast a ha⟩

end H2

namespace Multiplexing

open Hpack (Header)
open H2 (Ends bodyFrames)
open Characteristics

/-! ## The client -/

/-- What a client has of a stream. -/
structure Received where
  /-- The headers of each block. -/
  headers : List (List Header) := []
  /-- The body. -/
  body : Octets := []
  /-- The stream has ended. -/
  ended : Bool := false
  deriving DecidableEq

namespace Received

/-- There are headers, and the stream has not ended. -/
def Open (r : Received) : Prop := r.headers ≠ [] ∧ ¬ r.ended

instance (r : Received) : Decidable r.Open := inferInstanceAs (Decidable (_ ∧ _))

/-- Add what a frame carries, which is `list` if these are headers. -/
def add (list : List Header) (r : Received) (f : Frame) : Received :=
  match f.type with
  | .headers => { r with headers := r.headers ++ [list], ended := r.ended || Ends f }
  | .data => { r with body := r.body ++ f.data, ended := r.ended || Ends f }
  | _ => r

/-- A body is added octet by octet. -/
theorem foldl_add_data (list : List Header) (r : Received) {frames : List Frame}
    (hdata : ∀ f ∈ frames, f.type = .data) :
    frames.foldl (add list) r =
      { r with
        body := r.body ++ frames.flatMap Frame.data
        ended := r.ended || decide (∃ f ∈ frames, Ends f) } := by
  induction frames generalizing r with
  | nil => simp
  | cons f frames ih =>
    have hf : f.type = .data := hdata f List.mem_cons_self
    rw [List.foldl_cons, ih _ fun g hg => hdata g (List.mem_cons_of_mem f hg), add]
    simp [hf, Bool.or_assoc]

end Received

/-- The largest payload that a client accepts that has not allowed larger ones:
`SETTINGS_MAX_FRAME_SIZE`. -/
def initialMaxFrameSize : ℕ := 16384

/-- A client. -/
structure Client where
  /-- The header decoder. -/
  decoder : Rfc7541.Decoder
  /-- The streams. -/
  streams : UInt32 → Received

namespace Client

/-- What a frame does to its stream. -/
def update (c : Client) (list : List Header) (f : Frame) : UInt32 → Received :=
  Function.update c.streams f.streamIdentifier ((c.streams f.streamIdentifier).add list f)

/-- A frame is received, unless it is an error. The dynamic table may grow to `limit`. -/
def receive (limit : ℕ) (c : Client) (f : Frame) : Option Client :=
  if initialMaxFrameSize < f.data.length then none
  else match f.type with
  | .headers =>
    if f.flags &&& Headers.endHeaders = 0 then none
    else do
      let (list, decoder) ← c.decoder.decode limit f.data
      return ⟨decoder, c.update list f⟩
  | .data =>
    if (c.streams f.streamIdentifier).Open then some { c with streams := c.update [] f } else none
  | _ => some c

/-- Frames are received one after the other. -/
def receiveAll (limit : ℕ) (c : Client) (frames : List Frame) : Option Client :=
  frames.foldlM (receive limit) c

/-- A new client. -/
def fresh (decoder : Rfc7541.Decoder) : Client := ⟨decoder, fun _ => {}⟩

end Client

section Client

variable {ι : Type} [DecidableEq ι] {order : List (ℕ × Header)}
  {responses : ι → UInt32 × Response} {s : State ι}

/-- The headers of a response, as a decoder finds them. -/
def responseHeaders (response : Response) : List Header :=
  (H2.headerList response).map Rfc7541.received

/-- What a client is to have when it has got all frames of a response. -/
def whole (response : Response) : Received where
  headers := [responseHeaders response]
  body := body response.channel
  ended := EndsFull response.channel

/-- What the frames of a response come to. -/
theorem foldl_add_frames {preload : Frame} (htype : preload.type = .headers)
    (hends : ¬ Ends preload) (streamId : UInt32) (response : Response) :
    (preload :: bodyFrames streamId response.channel).foldl
      (Received.add (responseHeaders response)) {} = whole response := by
  have hdata : ∀ f ∈ bodyFrames streamId response.channel, f.type = .data :=
    fun f hf => (H2.sized_of_mem_bodyFrames f hf).type
  rw [List.foldl_cons, Received.foldl_add_data _ _ hdata, H2.flatMap_bodyFrames]
  simp only [H2.exists_ends_bodyFrames_iff]
  simp [Received.add, htype, hends, whole]

/-- The frames of a thread. -/
def framesOf (t : Option ι) (sent : List (Option ι × Frame)) : List Frame :=
  (sent.filter (·.1 = t)).map Prod.snd

@[simp] theorem framesOf_nil (t : Option ι) : framesOf t [] = [] := rfl

theorem framesOf_concat (t : Option ι) (sent : List (Option ι × Frame)) (e : Option ι × Frame) :
    framesOf t (sent ++ [e]) = framesOf t sent ++ if e.1 = t then [e.2] else [] := by
  by_cases h : e.1 = t <;> simp [framesOf, h]

/-- What the frames carry that have been sent can be received: the headers can be decoded, and the
blocks are not too long. -/
structure Receivable (order : List (ℕ × Header)) (response : Response) : Prop where
  /-- The strings can be written. -/
  fits : ∀ h ∈ H2.headerList response, h.Fits
  /-- The block is not longer than a frame may be. -/
  short : (ResponseHeaders.encoding order response).length ≤ initialMaxFrameSize

/-- A response with short headers can be received. -/
theorem receivable_of_length (horder : order.Perm Hpack.staticHeaderTable.items)
    {response : Response} (h : ((H2.headerList response).map fun h =>
      13 + 4 * (h.key.length + h.value.length)).sum ≤ initialMaxFrameSize) :
    Receivable order response where
  fits e he := by
    have hle := List.single_le_sum (by simp) _ (List.mem_map_of_mem
      (f := fun h : Header => 13 + 4 * (h.key.length + h.value.length)) he)
    have hsize : initialMaxFrameSize = 16384 := rfl
    exact Header.fits_of_length (by omega) (by omega)
  short := by
    rw [ResponseHeaders.encoding, Hpack.Serializer.length_serialize (.inl rfl) horder]
    refine le_trans ?_ h
    rw [List.length_nil, Nat.zero_add]
    exact List.sum_le_sum fun e _ => Hpack.Serializer.fieldSize_le _ e

/-- The callback has come to `serialize`, or behind it. -/
def Begun (s : State ι) (i : ι) : Prop := s.headers.phase i ≠ .idle

/-- The callbacks that have begun are on different streams. -/
def Distinct (responses : ι → UInt32 × Response) (s : State ι) : Prop :=
  ∀ i j, Begun s i → Begun s j → (responses i).1 = (responses j).1 → i = j

omit [DecidableEq ι] in
theorem distinct_of_injective (hinj : Function.Injective fun i => (responses i).1) (s : State ι) :
    Distinct responses s := fun _ _ _ _ h => hinj h

omit [DecidableEq ι] in
/-- The next frame of a response is received. -/
theorem exists_receive {preload f : Frame} {init rest : List Frame} {i : ι}
    (horder : order.Perm Hpack.staticHeaderTable.items)
    (hreceivable : Receivable order (responses i).2)
    (hcarries : ResponseHeaders.Carries order (responses i) preload)
    (hflags : preload.flags = Headers.endHeaders)
    (hnext : init ++ f :: rest = preload :: bodyFrames (responses i).1 (responses i).2.channel)
    (limit : ℕ) {c : Client}
    (hc : c.streams (responses i).1 =
      init.foldl (Received.add (responseHeaders (responses i).2)) {}) :
    ∃ decoder, c.receive limit f =
      some ⟨decoder, c.update (responseHeaders (responses i).2) f⟩ := by
  cases init with
  | nil =>
    -- this is the HEADERS frame
    obtain ⟨rfl, -⟩ := List.cons.inj hnext
    obtain ⟨htype, -, hdata⟩ := hcarries
    have hblock : f.data = (H2.headerList (responses i).2).flatMap
        (Hpack.Serializer.field order) := by
      rw [hdata, ResponseHeaders.encoding, Hpack.Serializer.serialize_payload, List.nil_append]
    have hle : ¬ initialMaxFrameSize < f.data.length := not_lt.mpr (hdata ▸ hreceivable.short)
    have hend : ¬ f.flags &&& Headers.endHeaders = 0 := by
      rw [hflags]
      decide
    obtain ⟨decoder, hdecode⟩ :=
      Rfc7541.decode_serialize limit horder hreceivable.fits c.decoder
    rw [← hblock] at hdecode
    refine ⟨decoder, ?_⟩
    simp only [Client.receive, hle, if_false, htype, hend, hdecode]
    rfl
  | cons g init =>
    -- the frames in front of it are the headers and some of the body, which does not end
    obtain ⟨rfl, hbody⟩ := List.cons.inj hnext
    rw [List.append_eq] at hbody
    have hmem : f ∈ bodyFrames (responses i).1 (responses i).2.channel := by simp [← hbody]
    have hsized := H2.sized_of_mem_bodyFrames f hmem
    have hopen : ∀ g' ∈ init, ¬ Ends g' := by
      have hpairwise := H2.pairwise_bodyFrames (responses i).1 (responses i).2.channel
      rw [← hbody, List.pairwise_append] at hpairwise
      exact fun g' hg' => hpairwise.2.2 g' hg' f (by simp)
    have hdata : ∀ g' ∈ init, g'.type = .data := fun g' hg' =>
      (H2.sized_of_mem_bodyFrames g' (hbody ▸ List.mem_append_left (f :: rest) hg')).type
    have hg : ¬ Ends g := H2.not_ends_of_flags hflags
    have hle : ¬ initialMaxFrameSize < f.data.length := not_lt.mpr hsized.le
    have hstream : (c.streams f.streamIdentifier).Open := by
      rw [hsized.streamIdentifier, hc, List.foldl_cons, Received.foldl_add_data _ _ hdata]
      have hnone : ¬ ∃ g' ∈ init, Ends g' := by
        rintro ⟨g', hg', hends⟩
        exact hopen g' hg' hends
      simp [Received.Open, Received.add, hcarries.1, hg, hnone]
    refine ⟨c.decoder, ?_⟩
    simp only [Client.receive, hle, if_false, hsized.type, hstream, if_true]
    simp [Client.update, Received.add, hsized.type]

/-- A client accepts what has been sent, has on the stream of each callback what its frames carry,
and has nothing on the others. -/
theorem exists_receiveAll {sent : List (Option ι × Frame)} (hs : Multiplexed responses s sent)
    (hseparate : s.headers.Separate order responses)
    (hdistinct : Distinct responses s) (horder : order.Perm Hpack.staticHeaderTable.items)
    (hreceivable : ∀ i, Begun s i → Receivable order (responses i).2) (limit : ℕ)
    (decoder : Rfc7541.Decoder) {read : List (Option ι × Frame)} (hread : read <+: sent) :
    ∃ c, (Client.fresh decoder).receiveAll limit (read.map Prod.snd) = some c ∧
      (∀ i, Begun s i → c.streams (responses i).1 =
        (framesOf (some i) read).foldl (Received.add (responseHeaders (responses i).2)) {}) ∧
      ∀ id, (∀ i, Begun s i → (responses i).1 ≠ id) → c.streams id = {} := by
  induction read using List.reverseRecOn with
  | nil => exact ⟨_, rfl, fun i _ => rfl, fun id _ => rfl⟩
  | append_singleton read e ih =>
    obtain ⟨c, hc, hstreams, hothers⟩ := ih ((List.prefix_append read [e]).trans hread)
    have hmem := hs.mem_added (hread.subset (by simp : e ∈ read ++ [e]))
    suffices ∃ c', c.receive limit e.2 = some c' ∧ (∀ i, Begun s i → c'.streams (responses i).1 =
        (framesOf (some i) (read ++ [e])).foldl
          (Received.add (responseHeaders (responses i).2)) {}) ∧
        ∀ id, (∀ i, Begun s i → (responses i).1 ≠ id) → c'.streams id = {} by
      obtain ⟨c', hc', hstreams'⟩ := this
      refine ⟨c', ?_, hstreams'⟩
      rw [Client.receiveAll, List.map_append, List.foldlM_append]
      rw [Client.receiveAll] at hc
      simp [hc, hc']
    obtain ⟨t, f⟩ := e
    cases t with
    | none =>
      -- a reply is on no stream of a response
      obtain ⟨hreply, -, hlength⟩ := hs.replies f hmem
      have hle : ¬ initialMaxFrameSize < f.data.length := not_lt.mpr (hlength.trans (by decide))
      refine ⟨c, ?_, fun i hi => ?_, hothers⟩
      · rcases hreply with htype | htype <;> simp [Client.receive, hle, htype]
      · simpa [framesOf_concat] using hstreams i hi
    | some i =>
      have hon := hs.on_of_mem_handed hmem
      -- the frame is the next one of its callback
      have hprefix : framesOf (some i) read ++ [f] <+: handed responses s.headers i := by
        have hsent : framesOf (some i) (read ++ [(some i, f)]) <+: framesOf (some i) sent :=
          (hread.filter _).map _
        rw [framesOf_concat, if_pos rfl] at hsent
        exact hsent.trans ⟨_, hs.serialized.order (some i)⟩
      obtain ⟨rest, hrest⟩ := hprefix
      unfold handed at hrest
      split at hrest
      next preload hphase =>
        have hi : Begun s i := by simp [Begun, hphase]
        obtain ⟨tx, htx⟩ := hs.preloads i preload (.inr hphase)
        obtain ⟨decoder', hreceive⟩ := exists_receive horder (hreceivable i hi)
          (hseparate.carries i preload (.inr hphase)) (by rw [htx]; rfl)
          (by simpa using hrest) limit (hstreams i hi)
        refine ⟨_, hreceive, fun j hj => ?_, fun id hid => ?_⟩
        · by_cases hji : j = i
          · subst hji
            have hid : f.streamIdentifier = (responses j).1 := hon.1
            rw [framesOf_concat, if_pos rfl, List.foldl_append, ← hstreams j hj]
            simp [Client.update, hid]
          · have hne : (responses j).1 ≠ f.streamIdentifier := fun heq =>
              hji (hdistinct j i hj hi (heq.trans hon.1))
            rw [framesOf_concat, if_neg (by simpa using Ne.symm hji), List.append_nil,
              ← hstreams j hj]
            exact Function.update_of_ne hne ..
        · have hne : id ≠ f.streamIdentifier := fun heq => hid i hi (heq.trans hon.1).symm
          exact (Function.update_of_ne hne ..).trans (hothers id hid)
      next => simp at hrest

/-- What a client has of a stream is the beginning of `w`, and if the stream has ended, then it is
`w`. -/
structure Received.Within (r w : Received) : Prop where
  /-- The headers are. -/
  headers : r.headers <+: w.headers
  /-- The body is. -/
  body : r.body <+: w.body
  /-- Nothing is missing at the end. -/
  ended : r.ended → r = w

/-- What a client has of a response is its beginning. -/
theorem within_of_append {preload : Frame} {got rest : List Frame} {streamId : UInt32}
    {response : Response} (htype : preload.type = .headers) (hends : ¬ Ends preload)
    (h : got ++ rest = preload :: bodyFrames streamId response.channel) :
    (got.foldl (Received.add (responseHeaders response)) {}).Within (whole response) := by
  cases got with
  | nil => exact ⟨List.nil_prefix, List.nil_prefix, by simp⟩
  | cons g got =>
    obtain ⟨rfl, hbody⟩ := List.cons.inj h
    rw [List.append_eq] at hbody
    have hdata : ∀ f ∈ got, f.type = .data := fun f hf =>
      (H2.sized_of_mem_bodyFrames f (hbody ▸ List.mem_append_left rest hf)).type
    rw [List.foldl_cons, Received.foldl_add_data _ _ hdata]
    have hwhole : body response.channel = got.flatMap Frame.data ++ rest.flatMap Frame.data := by
      rw [← List.flatMap_append, hbody, H2.flatMap_bodyFrames]
    refine ⟨by simp [Received.add, htype, whole], ?_, fun hended => ?_⟩
    · simp [Received.add, htype, whole, hwhole]
    · -- the frame that ends the stream is the last one
      have hpairwise := H2.pairwise_bodyFrames streamId response.channel
      rw [← hbody, List.pairwise_append] at hpairwise
      obtain ⟨f, hf, hends'⟩ : ∃ f ∈ got, Ends f := by
        simpa [Received.add, htype, hends] using hended
      have hrest : rest = [] := by
        by_contra hne
        obtain ⟨g', rest', rfl⟩ := List.exists_cons_of_ne_nil hne
        exact hpairwise.2.2 f hf g' List.mem_cons_self hends'
      subst hrest
      rw [List.append_nil] at hbody
      rw [← foldl_add_frames htype hends streamId response, ← hbody, List.foldl_cons,
        Received.foldl_add_data _ _ hdata]

/-- What a client that follows the specification has from the socket: the beginning of each response
that has been begun, all of a response whose callback has written its frames, and nothing on other
streams. -/
def Delivered (responses : ι → UInt32 × Response) (limit : ℕ) (decoder : Rfc7541.Decoder)
    (s : State ι) : Prop :=
  ∃ sent c, ReadAs s.socket.output.flatten sent ∧
    (Client.fresh decoder).receiveAll limit sent = some c ∧
    (∀ i, Begun s i → (c.streams (responses i).1).Within (whole (responses i).2)) ∧
    (∀ i, (s.headers.phase i).sent.isSome → s.socket.queue (some i) = [] →
      c.streams (responses i).1 = whole (responses i).2) ∧
    ∀ id, (∀ i, Begun s i → (responses i).1 ≠ id) → c.streams id = {}

/-- Wherever the lock is free, and the responses have been kept apart. -/
theorem delivered_of_multiplexed {sent : List (Option ι × Frame)}
    (hs : Multiplexed responses s sent) (hseparate : s.headers.Separate order responses)
    (hdistinct : Distinct responses s) (horder : order.Perm Hpack.staticHeaderTable.items)
    (hreceivable : ∀ i, Begun s i → Receivable order (responses i).2)
    (hfree : s.socket.holder = none) (limit : ℕ) (decoder : Rfc7541.Decoder) :
    Delivered responses limit decoder s := by
  have hshort : ShortHeaders s.headers := fun i preload hi => by
    have hphase := ResponseHeaders.Phase.sent_eq_some_iff.mp hi
    rw [(hseparate.carries i preload (.inr hphase)).2.2]
    exact (hreceivable i (by simp [Begun, hphase])).short.trans (by decide)
  obtain ⟨c, hc, hstreams, hothers⟩ := exists_receiveAll hs hseparate hdistinct horder hreceivable
    limit decoder (List.prefix_refl sent)
  refine ⟨sent.map Prod.snd, c, readAs_output hs hfree hshort, hc, fun i hi => ?_,
    fun i hi hqueue => ?_, hothers⟩
  · -- what has been sent for a callback is the beginning of its frames
    rw [hstreams i hi]
    have hframes := hs.serialized.order (some i)
    simp only [added, handed] at hframes
    split at hframes
    next preload hphase =>
      obtain ⟨tx, htx⟩ := hs.preloads i preload (.inr hphase)
      exact within_of_append (by rw [htx]; rfl) (H2.not_ends_of_flags (by rw [htx]; rfl)) hframes
    next =>
      -- the callback has no frames yet
      have hnil : framesOf (some i) sent = [] := (List.append_eq_nil_iff.mp hframes).1
      rw [hnil]
      exact ⟨List.nil_prefix, List.nil_prefix, by simp⟩
  · -- nothing is queued, so that it is all of them
    obtain ⟨preload, hpreload⟩ := Option.isSome_iff_exists.mp hi
    have hphase := ResponseHeaders.Phase.sent_eq_some_iff.mp hpreload
    obtain ⟨tx, htx⟩ := hs.preloads i preload (.inr hphase)
    have hframes : framesOf (some i) sent =
        preload :: bodyFrames (responses i).1 (responses i).2.channel := by
      have horder' := hs.serialized.order (some i)
      rw [hqueue, List.append_nil] at horder'
      rw [framesOf, horder', added, handed, hphase]
    rw [hstreams i (by simp [Begun, hphase]), hframes]
    exact foldl_add_frames (by rw [htx]; rfl) (H2.not_ends_of_flags (by rw [htx]; rfl)) _ _

end Client

/-! ## Runs -/

section Run

variable {ι : Type} [DecidableEq ι] {order : List (ℕ × Header)}
  {responses : ι → UInt32 × Response} {ks : List (Transition (step order responses))}
  {table : Hpack.StaticTable} {ch : Octet}

/-- The step does not call `serialize` while the payload of another response is there. -/
def Clear (k : Transition (step order responses)) : Prop :=
  ∀ i, k.action = .respond (.serialize i) → k.before.headers.tx.payload = []

instance [Fintype ι] (k : Transition (step order responses)) : Decidable (Clear k) :=
  inferInstanceAs (Decidable (∀ _, _))

/-- The responses are kept apart by a step that does not serialize one while the payload of another
is there. -/
theorem separate_of_step {s s' : State ι} {a : Action ι} (h : step order responses s a = some s')
    (hs : s.headers.Separate order responses)
    (hclear : ∀ i, a = .respond (.serialize i) → s.headers.tx.payload = []) :
    s'.headers.Separate order responses := by
  rcases step_cases h with ⟨_, _, -, -, -, hheaders, -⟩ | ⟨b, hb, hstep, -, -⟩ |
    ⟨_, -, -, hheaders, -⟩
  · rwa [hheaders]
  · exact ResponseHeaders.separate_step hs hstep fun i hi => hclear i (by rw [hb, hi])
  · rwa [hheaders]

/-- A callback that has begun had begun before, or begins with `serialize`. -/
theorem begun_of_step {s s' : State ι} {a : Action ι} (h : step order responses s a = some s')
    {i : ι} (hi : Begun s' i) : Begun s i ∨ a = .respond (.serialize i) := by
  unfold Begun at hi ⊢
  rcases step_cases h with ⟨_, _, -, -, -, hheaders, -⟩ | ⟨b, rfl, hstep, -, -⟩ |
    ⟨_, -, -, hheaders, -⟩
  · exact .inl (hheaders ▸ hi)
  · rcases ResponseHeaders.step_cases hstep with ⟨j, rfl, -, hj⟩ | ⟨j, rfl, hphase, hj⟩ |
      ⟨j, preload, rfl, hphase, hj⟩
    all_goals
      rw [hj] at hi
      by_cases hij : i = j
      · subst hij
        first
          | exact .inr rfl
          | exact .inl (by simp [hphase])
      · exact .inl (by simpa [hij] using hi)
  · exact .inl (hheaders ▸ hi)

/-- The responses are kept apart in a run that serializes one at a time. -/
theorem separate_of_run (hrun : Transition.Runs (.fresh table ch) ks)
    (hclear : ∀ k ∈ ks, Clear k) :
    ∀ k ∈ ks, k.after.headers.Separate order responses := by
  refine hrun.forall_dst (I := fun s => s.headers.Separate order responses)
    ResponseHeaders.separate_fresh hclear fun k hs hk => separate_of_step k.valid hs hk

/-- In a run that serializes one response at a time, what has been written is delivered wherever the
lock is free. -/
theorem delivered_of_run (hrun : Transition.Runs (.fresh table ch) ks)
    (hclear : ∀ k ∈ ks, Clear k) (hinj : Function.Injective fun i => (responses i).1)
    (horder : order.Perm Hpack.staticHeaderTable.items)
    (hreceivable : ∀ i, Receivable order (responses i).2)
    {k : Transition (step order responses)} (hk : k ∈ ks) (hfree : k.after.socket.holder = none)
    (limit : ℕ) (decoder : Rfc7541.Decoder) : Delivered responses limit decoder k.after := by
  obtain ⟨sent, hs⟩ := multiplexed_of_run hrun k hk
  exact delivered_of_multiplexed hs (separate_of_run hrun hclear k hk)
    (distinct_of_injective hinj _) horder (fun i _ => hreceivable i) hfree limit decoder

/-- The machine in which only frames are written. -/
def writes (order : List (ℕ × Header)) (responses : ι → UInt32 × Response) (s : State ι) :
    Action ι → Option (State ι)
  | .process _ _ | .respond _ => none
  | a => step order responses s a

/-- Writing leaves the serializer and the callbacks alone, and brings the end nearer. -/
theorem step_of_writes [Fintype ι] {s s' : State ι} {a : Action ι}
    (h : writes order responses s a = some s') :
    step order responses s a = some s' ∧ s'.headers = s.headers ∧
      s'.socket.work pieces Finset.univ < s.socket.work pieces Finset.univ := by
  have hstep : step order responses s a = some s' ∧ (∀ input b, a ≠ .process input b) ∧
      ∀ b, a ≠ .respond b := by
    cases a <;> simp_all [writes]
  refine ⟨hstep.1, ?_⟩
  rcases step_cases hstep.1 with ⟨input, b, rfl, -⟩ | ⟨b, rfl, -⟩ | ⟨b, hb, -, hheaders, hsocket⟩
  · exact absurd rfl (hstep.2.1 input b)
  · exact absurd rfl (hstep.2.2 b)
  · refine ⟨hheaders, CriticalSection.work_lt hsocket (fun i items => ?_)
      fun i _ => Finset.mem_univ i⟩
    rcases hb with ⟨i, -, rfl⟩ | ⟨t, -, rfl⟩ | ⟨t, -, rfl⟩ <;> simp

/-- Where no frame can be written any more, all of them have been. -/
theorem done_of_stops {s : State ι} {sent : List (Option ι × Frame)}
    (hs : Multiplexed responses s sent) (hstops : Stops (writes order responses) s) :
    s.socket.Done := by
  by_contra hdone
  obtain ⟨t, b, socket, hb, hsocket⟩ := CriticalSection.exists_step_of_not_done pieces hdone
  simp only [List.mem_cons, List.not_mem_nil, or_false] at hb
  rcases hb with rfl | rfl | rfl
  · cases t with
    | none =>
      -- `process` has nothing to take the lock for
      rcases CriticalSection.step_cases hsocket with ⟨_, _, heq, _⟩ |
        ⟨t, item, items, heq, -, hqueue, -⟩ | ⟨_, _, _, heq, _⟩ | ⟨_, heq, _⟩
      all_goals cases heq
      rw [hs.replied] at hqueue
      cases hqueue
    | some i =>
      have hnone := hstops (.acquire i)
      simp [writes, step, hsocket] at hnone
  · have hnone := hstops (.write t)
    simp [writes, step, hsocket] at hnone
  · have hnone := hstops (.release t)
    simp [writes, step, hsocket] at hnone

/-- In a run that serializes one response at a time, all the responses whose callbacks have come to
their writes are delivered in the end, whatever the order is in which the frames are written. -/
theorem inevitable_delivered [Fintype ι] (hrun : Transition.Runs (.fresh table ch) ks)
    (hclear : ∀ k ∈ ks, Clear k) (hinj : Function.Injective fun i => (responses i).1)
    (horder : order.Perm Hpack.staticHeaderTable.items)
    (hreceivable : ∀ i, Receivable order (responses i).2)
    {k : Transition (step order responses)} (hk : k ∈ ks) (limit : ℕ)
    (decoder : Rfc7541.Decoder) :
    Inevitable (writes order responses)
      (fun s => s.headers = k.after.headers ∧ s.socket.Done ∧ Delivered responses limit decoder s)
      k.after := by
  refine Inevitable.of_measure (I := fun s => (∃ sent, Multiplexed responses s sent) ∧
    s.headers = k.after.headers) (fun s => s.socket.work pieces Finset.univ) ?_ ?_
    ⟨multiplexed_of_run hrun k hk, rfl⟩
  · rintro s a s' ⟨⟨sent, hs⟩, hheaders⟩ h
    obtain ⟨hstep, hheaders', hlt⟩ := step_of_writes h
    exact ⟨⟨hs.step hstep, hheaders'.trans hheaders⟩, hlt⟩
  · rintro s ⟨⟨sent, hs⟩, hheaders⟩ hstops
    have hdone := done_of_stops hs hstops
    refine ⟨hheaders, hdone, delivered_of_multiplexed hs ?_ (distinct_of_injective hinj s) horder
      (fun i _ => hreceivable i) hdone.1 limit decoder⟩
    rw [hheaders]
    exact separate_of_run hrun hclear k hk

end Run

private theorem receivable_sample (i : Bool) :
    Receivable Hpack.staticHeaderTable.items (sampleResponses i).2 where
  fits h hh := by
    have hlength : h.key.length < 2 ^ 30 ∧ h.value.length < 2 ^ 30 := by
      revert h i
      decide
    exact Hpack.Header.fits_of_length hlength.1 hlength.2
  short := by
    revert i
    decide +kernel

private theorem clear_sample : ∀ k ∈ sampleRun, Clear k := by decide +kernel

/-- At the end of the sample. -/
theorem delivered_sample :
    ∃ k ∈ sampleRun.getLast?,
      Delivered sampleResponses 4096 (Rfc7541.Decoder.initial 4096) k.after := by
  have hsome : sampleRun.getLast?.isSome := by decide +kernel
  have hfree : ∀ k ∈ sampleRun.getLast?, k.after.socket.holder = none := by decide +kernel
  obtain ⟨k, hk⟩ := Option.isSome_iff_exists.mp hsome
  exact ⟨k, hk, delivered_of_run (Transition.run_trace ..) clear_sample (by decide)
    (List.Perm.refl _) receivable_sample (List.mem_of_mem_getLast? hk) (hfree k hk) _ _⟩

/-- Inside a frame of the sample, with others still to be written. -/
theorem inevitable_sample :
    ∃ k ∈ sampleRun, k.after.socket.holder.isSome ∧
      Inevitable (writes Hpack.staticHeaderTable.items sampleResponses)
        (fun s => s.headers = k.after.headers ∧ s.socket.Done ∧
          Delivered sampleResponses 4096 (Rfc7541.Decoder.initial 4096) s) k.after := by
  obtain ⟨k, hk, hholder⟩ : ∃ k ∈ sampleRun, k.after.socket.holder.isSome := by decide +kernel
  exact ⟨k, hk, hholder, inevitable_delivered (Transition.run_trace ..) clear_sample (by decide)
    (List.Perm.refl _) receivable_sample hk _ _⟩

end Multiplexing

end Rite
