import Rite.Hpack.Serializer

/-!
# Response callbacks

The callbacks that `rite::server<https>::on_read` and `rite::server<http>::on_read` hand to
`handle`: they write the headers of a response, then take buffers from its channel until they have
got one with the flag `last`. The callback of HTTP/2 slices the buffers into DATA frames, that of
HTTP/1.1 writes them as they are. The channel is a queue of the buffers that the endpoint will have
put there, in that order; the event handlers of a response only add to it.

What a socket returns is an argument, by the number of the writes so far. A write is recorded
whatever it returns.

## Main results

* `H2.run_respond`, `Http.run_respond`: what the callbacks write, and what they leave in the
  channel;
* `H2.endsOnce_iff`: a response ends its stream exactly once if and only if its last buffer is not
  empty;
* `sameBody`: the DATA frames and the octets behind the headers of HTTP/1.1 are the same body.
-/

namespace Rite

open Hpack (Header Serializer)

/-- `rite::buffer`. The length is that of the data. -/
structure Buffer where
  /-- `data`, of length `len`. -/
  data : Octets
  /-- `last`. -/
  last : Bool
  deriving DecidableEq

namespace Buffer

/-- `rite::buffer::finish`. -/
def finish : Buffer := ⟨[], true⟩

end Buffer

/-- `http_response`, with the buffers of its channel. -/
structure Response where
  /-- `status_code_`. -/
  statusCode : ℕ
  /-- `headers_`, in the order of its keys. -/
  headers : List (Octets × Octets)
  /-- `channel`. -/
  channel : List Buffer

/-- Why a callback does not return. -/
inductive Stop
  /-- `rx.wait()` has nothing to wait for. -/
  | waiting
  /-- An exception leaves the callback. -/
  | raised (e : StdException)
  deriving DecidableEq

/-- A callback that writes to a socket: what it has written is kept. -/
abbrev CallbackM (α : Type) := EStateM Stop (List α)

/-- `write`. -/
def CallbackM.write {α : Type} (results : ℕ → ℤ) (what : α) : CallbackM α ℤ := do
  let written ← get
  set (written ++ [what])
  return results written.length

open CallbackM (write)

/-- All writes succeed. -/
def NoneFails (results : ℕ → ℤ) : Prop := ∀ n, 0 ≤ results n

namespace H2

/-- The largest slice. -/
def sliceSize : ℕ := 16384

/-- The frame for the slice at `offset`. -/
def sliceFrame (streamId : UInt32) (buf : Buffer) (offset : ℕ) : Frame :=
  let totalLength := buf.data.length
  let size := min sliceSize (totalLength - offset)
  { length := UInt32.ofNat size
    type := .data
    flags := if totalLength ≤ offset + size ∧ buf.last then Characteristics.Data.endStream else 0
    streamIdentifier := streamId
    data := (buf.data.drop offset).take size }

/-- The loop over the slices of a buffer. -/
def sendBuffer (results : ℕ → ℤ) (streamId : UInt32) (buf : Buffer) (offset : ℕ) :
    CallbackM Frame Unit := do
  let totalLength := buf.data.length
  if offset < totalLength then
    let result ← write results (sliceFrame streamId buf offset)
    if result < 0 then throw (.raised (.runtimeError "failed to write data to sock"))
    sendBuffer results streamId buf (offset + min sliceSize (totalLength - offset))
termination_by buf.data.length - offset
decreasing_by
  unfold sliceSize
  omega

/-- The loop over the buffers of the channel, which leaves those behind the last one. -/
def sendBody (results : ℕ → ℤ) (streamId : UInt32) : List Buffer → CallbackM Frame (List Buffer)
  | [] => throw .waiting
  | buf :: channel => do
    sendBuffer results streamId buf 0
    if buf.last then return channel
    sendBody results streamId channel

/-- The header list of a response: its status, then its headers. -/
def headerList (response : Response) : List Header :=
  ⟨octets ":status", octets (toString response.statusCode)⟩ ::
    response.headers.map fun e => ⟨e.1, e.2⟩

/-- The response callback of `rite::server<https>`, where `preload` is the HEADERS frame. -/
def respondWith (results : ℕ → ℤ) (streamId : UInt32) (preload : Frame) (response : Response) :
    CallbackM Frame (List Buffer) := do
  -- the result of this write is not looked at
  let _ ← write results preload
  sendBody results streamId response.channel

/-- The response callback, where no other response uses the serializer in between. -/
def respond (results : ℕ → ℤ) (order : List (ℕ × Header)) (tx : Serializer) (streamId : UInt32)
    (response : Response) : CallbackM Frame (List Buffer) :=
  let (preload, _) := (tx.serialize order (headerList response)).finish streamId
  respondWith results streamId preload response

end H2

namespace Http

/-- The header section of a response: `serializer<http_response>`. -/
def headerSection (response : Response) : Octets :=
  octets "HTTP/1.1 " ++ octets (toString response.statusCode) ++ octets "\r\n" ++
    response.headers.flatMap (fun e => e.1 ++ octets ": " ++ e.2 ++ octets "\r\n") ++
    octets "\r\n"

/-- The loop over the buffers of the channel. -/
def sendBody (results : ℕ → ℤ) : List Buffer → CallbackM Octets (List Buffer)
  | [] => throw .waiting
  | slice :: channel => do
    let _ ← write results slice.data
    if slice.last then return channel
    sendBody results channel

/-- The response callback of `rite::server<http>`. -/
def respond (results : ℕ → ℤ) (response : Response) : CallbackM Octets (List Buffer) := do
  let _ ← write results (headerSection response)
  sendBody results response.channel

end Http

theorem CallbackM.write_run {α : Type} (results : ℕ → ℤ) (what : α) (written : List α) :
    (write results what).run written = .ok (results written.length) (written ++ [what]) := rfl

/-! ## The slices of a buffer -/

namespace H2

variable {results : ℕ → ℤ} {streamId : UInt32} {buf : Buffer} {offset : ℕ}

/-- The frames for a buffer, from `offset` on. -/
def slices (streamId : UInt32) (buf : Buffer) (offset : ℕ) : List Frame :=
  if offset < buf.data.length then
    sliceFrame streamId buf offset ::
      slices streamId buf (offset + min sliceSize (buf.data.length - offset))
  else []
termination_by buf.data.length - offset
decreasing_by
  unfold sliceSize
  omega

/-- The loop writes the slices, one after the other. -/
theorem sendBuffer_run (hresults : NoneFails results) (offset : ℕ) (written : List Frame) :
    (sendBuffer results streamId buf offset).run written =
      .ok () (written ++ slices streamId buf offset) := by
  fun_induction slices streamId buf offset generalizing written with
  | case1 offset hlt ih =>
    -- the write does not fail, so the loop goes on
    have hresult : ¬ results written.length < 0 := not_lt.mpr (hresults _)
    rw [sendBuffer]
    simp only [hlt, if_true, EStateM.run_bind, CallbackM.write_run, hresult, if_false]
    rw [ih, List.append_assoc, List.singleton_append]
  | case2 offset hle =>
    rw [sendBuffer]
    simp [hle]

/-- A DATA frame of the stream whose length is that of its payload, within the limits. -/
structure Sized (streamId : UInt32) (f : Frame) : Prop where
  /-- It is DATA. -/
  type : f.type = .data
  /-- It is on the stream. -/
  streamIdentifier : f.streamIdentifier = streamId
  /-- The length is that of the payload. -/
  length : f.length.toNat = f.data.length
  /-- There is a payload. -/
  pos : 1 ≤ f.data.length
  /-- It is not longer than a slice. -/
  le : f.data.length ≤ sliceSize

theorem sized_sliceFrame (h : offset < buf.data.length) :
    Sized streamId (sliceFrame streamId buf offset) := by
  have hlength : (sliceFrame streamId buf offset).data.length =
      min sliceSize (buf.data.length - offset) := by
    simp [sliceFrame]
  have hsize : sliceSize = 16384 := rfl
  refine ⟨rfl, rfl, ?_, ?_, ?_⟩
  · rw [hlength]
    refine UInt32.toNat_ofNat_of_lt ?_
    rw [hsize]
    have : (UInt32.size : ℕ) = 2 ^ 32 := rfl
    omega
  all_goals
    rw [hlength, hsize]
    omega

/-- Every slice is sized. -/
theorem sized_of_mem_slices : ∀ f ∈ slices streamId buf offset, Sized streamId f := by
  fun_induction slices streamId buf offset with
  | case1 offset hlt ih =>
    intro f hf
    rcases List.mem_cons.mp hf with rfl | hf
    · exact sized_sliceFrame hlt
    · exact ih f hf
  | case2 offset hle => simp

/-- The slices are the rest of the buffer. -/
theorem flatMap_slices (offset : ℕ) :
    (slices streamId buf offset).flatMap Frame.data = buf.data.drop offset := by
  fun_induction slices streamId buf offset with
  | case1 offset hlt ih =>
    rw [List.flatMap_cons, ih, ← List.drop_drop]
    exact List.take_append_drop _ _
  | case2 offset hle => exact (List.drop_of_length_le (not_lt.mp hle)).symm

/-- The frame ends its stream. -/
def Ends (f : Frame) : Prop := f.flags &&& Characteristics.Data.endStream ≠ 0

instance (f : Frame) : Decidable (Ends f) := inferInstanceAs (Decidable (_ ≠ _))

/-- Exactly one of the frames ends the stream, and it is the last one. -/
def EndsOnce (frames : List Frame) : Prop :=
  ∃ init last, frames = init ++ [last] ∧ Ends last ∧ ∀ f ∈ init, ¬ Ends f

theorem ends_sliceFrame_iff :
    Ends (sliceFrame streamId buf offset) ↔
      buf.data.length ≤ offset + min sliceSize (buf.data.length - offset) ∧ buf.last := by
  unfold Ends sliceFrame
  dsimp only
  split_ifs with h
  · exact iff_of_true (by decide) h
  · exact iff_of_false (by decide) h

/-- The slices of a buffer that is not the last one do not end the stream. -/
theorem not_ends_of_mem_slices (hlast : ¬ buf.last) :
    ∀ f ∈ slices streamId buf offset, ¬ Ends f := by
  fun_induction slices streamId buf offset with
  | case1 offset hlt ih =>
    intro f hf
    rcases List.mem_cons.mp hf with rfl | hf
    · exact fun hends => hlast (ends_sliceFrame_iff.mp hends).2
    · exact ih f hf
  | case2 offset hle => simp

/-- The last slice of the last buffer ends the stream, and no other does. -/
theorem endsOnce_slices (hlast : buf.last) (hlt : offset < buf.data.length) (streamId : UInt32) :
    EndsOnce (slices streamId buf offset) := by
  fun_induction slices streamId buf offset with
  | case1 offset _ ih =>
    by_cases hmore : offset + min sliceSize (buf.data.length - offset) < buf.data.length
    · -- this is not the last slice
      obtain ⟨init, last, heq, hends, hinit⟩ := ih hmore
      refine ⟨sliceFrame streamId buf offset :: init, last, ?_, hends, fun f hf => ?_⟩
      · rw [heq, List.cons_append]
      · rcases List.mem_cons.mp hf with rfl | hf
        · exact fun hends => not_le.mpr hmore (ends_sliceFrame_iff.mp hends).1
        · exact hinit f hf
    · -- nothing is left behind it
      refine ⟨[], sliceFrame streamId buf offset, ?_, ?_, by simp⟩
      · rw [slices, if_neg hmore, List.nil_append]
      · exact ends_sliceFrame_iff.mpr ⟨not_lt.mp hmore, hlast⟩
  | case2 offset hle => exact absurd hlt hle

theorem slices_eq_nil_iff : slices streamId buf 0 = [] ↔ buf.data = [] := by
  rw [slices]
  split_ifs with h
  · simp [List.length_pos_iff.mp h]
  · simpa [List.length_pos_iff] using h

/-! ## The callback of HTTP/2 -/

/-- The loop over the buffers comes to an end at the last one, and leaves what is behind it. -/
theorem sendBody_run (hresults : NoneFails results) {init : List Buffer} {final : Buffer}
    (hinit : ∀ b ∈ init, ¬ b.last) (hfinal : final.last) (later : List Buffer)
    (written : List Frame) :
    (sendBody results streamId (init ++ final :: later)).run written =
      .ok later (written ++ (init ++ [final]).flatMap fun b => slices streamId b 0) := by
  induction init generalizing written with
  | nil =>
    rw [List.nil_append, sendBody]
    simp [sendBuffer_run hresults, hfinal]
  | cons b init ih =>
    have hb : b.last = false := by simpa using hinit b List.mem_cons_self
    rw [List.cons_append, sendBody]
    simp only [EStateM.run_bind, sendBuffer_run hresults, hb, Bool.false_eq_true, if_false]
    rw [ih (fun b' hb' => hinit b' (List.mem_cons_of_mem b hb')), List.append_assoc,
      List.cons_append, List.flatMap_cons]

/-- The callback writes the HEADERS frame and the slices of the buffers. -/
theorem run_respond (hresults : NoneFails results) {response : Response} {init : List Buffer}
    {final : Buffer} {later : List Buffer} (hchannel : response.channel = init ++ final :: later)
    (hinit : ∀ b ∈ init, ¬ b.last) (hfinal : final.last) (order : List (ℕ × Header))
    (tx : Serializer) (streamId : UInt32) :
    ∃ preload : Frame, preload.type = .headers ∧ ¬ Ends preload ∧
      (respond results order tx streamId response).run [] = .ok later
        (preload :: (init ++ [final]).flatMap fun b => slices streamId b 0) := by
  refine ⟨((tx.serialize order (headerList response)).finish streamId).1, rfl, ?_, ?_⟩
  · exact not_not.mpr (by decide : Characteristics.Headers.endHeaders &&&
      Characteristics.Data.endStream = 0)
  · simp only [respond, respondWith, EStateM.run_bind, CallbackM.write_run, hchannel,
      sendBody_run hresults hinit hfinal, List.nil_append, List.singleton_append]

/-- What comes in front of the last buffer does not end the stream. -/
private theorem not_ends_of_mem_init {preload : Frame} (hpreload : ¬ Ends preload)
    {init : List Buffer} (hinit : ∀ b ∈ init, ¬ b.last) (streamId : UInt32) :
    ∀ f ∈ preload :: init.flatMap (fun b => slices streamId b 0), ¬ Ends f := by
  intro f hf
  rcases List.mem_cons.mp hf with rfl | hf
  · exact hpreload
  · obtain ⟨b, hb, hf⟩ := List.mem_flatMap.mp hf
    exact not_ends_of_mem_slices (hinit b hb) f hf

/-- Without data in the last buffer nothing ends the stream. -/
theorem not_ends_of_empty (hresults : NoneFails results) {response : Response}
    {init : List Buffer} {final : Buffer} (hchannel : response.channel = init ++ [final])
    (hinit : ∀ b ∈ init, ¬ b.last) (hfinal : final.last) (hnil : final.data = [])
    (order : List (ℕ × Header)) (tx : Serializer) (streamId : UInt32) :
    ∃ frames, (respond results order tx streamId response).run [] = .ok [] frames ∧
      ∀ f ∈ frames, ¬ Ends f := by
  obtain ⟨preload, -, hpreload, hrun⟩ := run_respond hresults hchannel hinit hfinal order tx
    streamId
  rw [List.flatMap_append, List.flatMap_singleton, slices_eq_nil_iff.mpr hnil,
    List.append_nil] at hrun
  exact ⟨_, hrun, not_ends_of_mem_init hpreload hinit streamId⟩

/-- A response ends its stream exactly once if and only if its last buffer is not empty. -/
theorem endsOnce_iff (hresults : NoneFails results) {response : Response} {init : List Buffer}
    {final : Buffer} (hchannel : response.channel = init ++ [final])
    (hinit : ∀ b ∈ init, ¬ b.last) (hfinal : final.last) (order : List (ℕ × Header))
    (tx : Serializer) (streamId : UInt32) :
    (∃ rest frames, (respond results order tx streamId response).run [] = .ok rest frames ∧
      EndsOnce frames) ↔ final.data ≠ [] := by
  constructor
  · rintro ⟨rest, frames, hrun, init', last, rfl, hends, -⟩ hnil
    obtain ⟨frames', hrun', hopen⟩ := not_ends_of_empty hresults hchannel hinit hfinal hnil order
      tx streamId
    rw [hrun] at hrun'
    -- the callback has one result, in which nothing ends the stream
    cases hrun'
    exact hopen last (List.mem_append_right _ (List.mem_singleton.mpr rfl)) hends
  · intro hne
    obtain ⟨preload, -, hpreload, hrun⟩ := run_respond hresults hchannel hinit hfinal order
      tx streamId
    have hopen := not_ends_of_mem_init hpreload hinit streamId
    obtain ⟨init', last, hslices, hends, hinit'⟩ :=
      endsOnce_slices hfinal (List.length_pos_iff.mpr hne) streamId
    rw [List.flatMap_append, List.flatMap_singleton, ← List.cons_append] at hrun
    refine ⟨_, _, hrun, preload :: init.flatMap (fun b => slices streamId b 0) ++ init', last, ?_,
      hends, fun f hf => ?_⟩
    · rw [hslices, List.append_assoc]
    · rcases List.mem_append.mp hf with hf | hf
      · exact hopen f hf
      · exact hinit' f hf

/-- Two octets, in two buffers. -/
theorem endsOnce_sample :
    ∃ rest frames, (respond (fun _ => 1) Hpack.staticHeaderTable.items {} 1
        ⟨200, [], [⟨[0x61], false⟩, ⟨[0x62], true⟩]⟩).run [] = .ok rest frames ∧ EndsOnce frames :=
  (endsOnce_iff (fun _ => zero_le_one) (show _ = [⟨[0x61], false⟩] ++ [⟨[0x62], true⟩] from rfl)
    (by decide) rfl _ _ _).mpr (by decide)

/-- The empty body of a response, or `rite::buffer::finish` behind the data, ends nothing. -/
theorem not_endsOnce :
    ¬ ∀ (results : ℕ → ℤ) (order : List (ℕ × Header)) (tx : Serializer) (streamId : UInt32)
        (response : Response) (init : List Buffer) (final : Buffer), NoneFails results →
      response.channel = init ++ [final] → (∀ b ∈ init, ¬ b.last) → final.last →
      ∃ rest frames, (respond results order tx streamId response).run [] = .ok rest frames ∧
        EndsOnce frames := by
  intro h
  have hresults : NoneFails fun _ => 1 := fun _ => zero_le_one
  obtain ⟨rest, frames, hrun, init, last, rfl, hends, -⟩ := h _ Hpack.staticHeaderTable.items {} 1
    ⟨200, [], [.finish]⟩ [] .finish hresults rfl (by simp) rfl
  obtain ⟨frames', hrun', hopen⟩ := not_ends_of_empty hresults
    (show (⟨200, [], [.finish]⟩ : Response).channel = [] ++ [.finish] from rfl) (by simp) rfl rfl
    Hpack.staticHeaderTable.items {} 1
  rw [hrun] at hrun'
  cases hrun'
  exact hopen last (List.mem_append_right _ (List.mem_singleton.mpr rfl)) hends

end H2

/-! ## The callback of HTTP/1.1 -/

namespace Http

/-- The loop over the buffers comes to an end at the last one, and leaves what is behind it. -/
theorem sendBody_run {results : ℕ → ℤ} {init : List Buffer} {final : Buffer}
    (hinit : ∀ b ∈ init, ¬ b.last) (hfinal : final.last) (later : List Buffer)
    (written : List Octets) :
    (sendBody results (init ++ final :: later)).run written =
      .ok later (written ++ (init ++ [final]).map Buffer.data) := by
  induction init generalizing written with
  | nil =>
    rw [List.nil_append, sendBody]
    simp [CallbackM.write_run, hfinal]
  | cons b init ih =>
    have hb : b.last = false := by simpa using hinit b List.mem_cons_self
    rw [List.cons_append, sendBody]
    simp only [EStateM.run_bind, CallbackM.write_run, hb, Bool.false_eq_true, if_false]
    rw [ih (fun b' hb' => hinit b' (List.mem_cons_of_mem b hb')), List.append_assoc]
    rfl

/-- The callback writes the header section and the buffers. -/
theorem run_respond {results : ℕ → ℤ} {response : Response} {init : List Buffer} {final : Buffer}
    {later : List Buffer} (hchannel : response.channel = init ++ final :: later)
    (hinit : ∀ b ∈ init, ¬ b.last) (hfinal : final.last) :
    (respond results response).run [] =
      .ok later (headerSection response :: (init ++ [final]).map Buffer.data) := by
  simp only [respond, EStateM.run_bind, CallbackM.write_run, hchannel,
    sendBody_run hinit hfinal, List.nil_append, List.singleton_append]

end Http

/-- Both callbacks take the buffers up to the last one, and leave what is behind it. The DATA
frames are sized, and their payloads are the contents of the buffers, which are what HTTP/1.1
writes behind the header section. -/
theorem sameBody {response : Response} {init : List Buffer} {final : Buffer} {later : List Buffer}
    (hchannel : response.channel = init ++ final :: later) (hinit : ∀ b ∈ init, ¬ b.last)
    (hfinal : final.last) {results : ℕ → ℤ} (hresults : NoneFails results) (results' : ℕ → ℤ)
    (order : List (ℕ × Header)) (tx : Serializer) (streamId : UInt32) :
    ∃ preload frames chunks,
      (H2.respond results order tx streamId response).run [] = .ok later (preload :: frames) ∧
      preload.type = .headers ∧ (∀ f ∈ frames, H2.Sized streamId f) ∧
      (Http.respond results' response).run [] =
        .ok later (Http.headerSection response :: chunks) ∧
      frames.flatMap Frame.data = (init ++ [final]).flatMap Buffer.data ∧
      chunks.flatten = frames.flatMap Frame.data := by
  obtain ⟨preload, htype, -, hrun⟩ := H2.run_respond hresults hchannel hinit hfinal order tx
    streamId
  have hbody : ((init ++ [final]).flatMap fun b => H2.slices streamId b 0).flatMap Frame.data =
      (init ++ [final]).flatMap Buffer.data := by
    rw [List.flatMap_assoc]
    exact List.flatMap_congr fun b _ => H2.flatMap_slices 0
  refine ⟨preload, _, _, hrun, htype, fun f hf => ?_, Http.run_respond hchannel hinit hfinal, hbody,
    ?_⟩
  · obtain ⟨b, -, hf⟩ := List.mem_flatMap.mp hf
    exact H2.sized_of_mem_slices f hf
  · rw [hbody, List.flatMap_def]

/-- A header, an empty buffer, and one that comes too late. -/
theorem sameBody_sample :
    ∃ preload frames chunks,
      (H2.respond (fun _ => 1) Hpack.staticHeaderTable.items {} 1
        ⟨200, [(octets "content-type", octets "text/html")],
          [⟨[0x61], false⟩, ⟨[], false⟩, ⟨[0x62], true⟩, .finish]⟩).run [] =
        .ok [.finish] (preload :: frames) ∧
      preload.type = .headers ∧ (∀ f ∈ frames, H2.Sized 1 f) ∧
      (Http.respond (fun _ => 1)
        ⟨200, [(octets "content-type", octets "text/html")],
          [⟨[0x61], false⟩, ⟨[], false⟩, ⟨[0x62], true⟩, .finish]⟩).run [] =
        .ok [.finish] (Http.headerSection ⟨200, [(octets "content-type", octets "text/html")],
          [⟨[0x61], false⟩, ⟨[], false⟩, ⟨[0x62], true⟩, .finish]⟩ :: chunks) ∧
      frames.flatMap Frame.data = [0x61, 0x62] ∧ chunks.flatten = frames.flatMap Frame.data :=
  sameBody (show _ = [⟨[0x61], false⟩, ⟨[], false⟩] ++ ⟨[0x62], true⟩ :: [.finish] from rfl)
    (by decide) rfl (fun _ => zero_le_one) _ _ _ _

end Rite
