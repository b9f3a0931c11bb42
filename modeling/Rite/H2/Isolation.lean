import Rite.H2.Server

/-!
# Header isolation between streams

All header blocks of a connection go through one vector, `decoded_`, which is emptied only when a
block has been decoded to its end. An `Assembly` keeps the headers apart as the frames have them:
by the header block, and by the stream that the block is on. A request is isolated if it is made
of the last complete block of its stream.

## Main results

* `isolated_of_unmixed`: every request of a run is isolated if each frame with headers finds
  `decoded_` empty, or continues the open block of its stream;
* `not_isolated`: what a block leaves behind that cannot be decoded goes into the next request.
-/

namespace Rite

namespace H2

open Hpack (Header Parser)
open Connection (final)

/-- The header blocks that have been received. -/
structure Assembly where
  /-- The block that has not been completed: its stream, and the headers decoded so far. -/
  unfinished : Option (UInt32 × List Header)
  /-- The last complete block of each stream. -/
  complete : UInt32 → List Header

namespace Assembly

/-- Nothing has been received. -/
def empty : Assembly := ⟨none, fun _ => []⟩

/-- The headers that a frame adds to: those of the open block if it continues that. -/
def base (a : Assembly) (frame : Frame) : List Header :=
  match a.unfinished with
  | some (id, headers) =>
    if frame.type = .continuation ∧ frame.streamIdentifier = id then headers else []
  | none => []

/-- The headers that `parse` has decoded from the last frame. -/
def fragment (before after : Parser) : List Header := after.decoded.drop before.decoded.length

/-- Add the frame of a call to the header block it belongs to. -/
def update (a : Assembly) (k : Call) : Assembly :=
  match k.frame with
  | none => a
  | some frame =>
    if frame.CarriesHeaders then
      let id := frame.streamIdentifier
      match (Parser.parse frame).run k.before.rx with
      | .ok .more rx =>
        let headers := a.base frame ++ fragment k.before.rx rx
        { a with unfinished := some (id, headers) }
      | .ok .done rx =>
        let headers := a.base frame ++ fragment k.before.rx rx
        { unfinished := none, complete := Function.update a.complete id headers }
      | _ => { a with unfinished := none }
    else a

end Assembly

/-- If the call delivers a request, then one made of the last complete header block on its stream,
and of that block alone. -/
def Isolated (a : Assembly) (k : Call) : Prop :=
  ∀ request ∈ k.delivered, ∃ s : Stream, s.headers = (a.update k).complete s.streamId ∧
    request = (s.finishStream k.before.ch).1

/-- If the call delivers a request, then every header of it is in the last complete header block
on its stream. -/
def Attributed (a : Assembly) (k : Call) : Prop :=
  ∀ request ∈ k.delivered, ∀ id ∈ request.streamId, ∀ e ∈ request.headers.entries,
    ⟨e.1, e.2⟩ ∈ (a.update k).complete id

instance (a : Assembly) (k : Call) : Decidable (Attributed a k) :=
  decidable_of_iff
    (k.delivered.all fun request => request.streamId.all fun id =>
      request.headers.entries.all fun e => decide (⟨e.1, e.2⟩ ∈ (a.update k).complete id))
    (by simp [Attributed, Option.all_eq_true])

/-- The headers of an isolated request are those of the block. -/
theorem Isolated.attributed {a : Assembly} {k : Call} (h : Isolated a k) : Attributed a k := by
  intro request hrequest id hid e he
  obtain ⟨s, hs, rfl⟩ := h request hrequest
  rw [Option.mem_def, finishStream_streamId, Option.some_inj] at hid
  rw [← hid, ← hs]
  exact mem_headers_finishStream (AList.mem_lookup_iff.mpr he)

/-- If the call handles a frame with headers, then it finds `decoded_` empty, or the frame is a
CONTINUATION of the open block. -/
def Unmixed (a : Assembly) (k : Call) : Prop :=
  ∀ frame ∈ k.frame, frame.CarriesHeaders → k.before.rx.decoded = [] ∨
    frame.type = .continuation ∧ a.unfinished.map Prod.fst = some frame.streamIdentifier

instance (a : Assembly) (k : Call) : Decidable (Unmixed a k) :=
  inferInstanceAs (Decidable (∀ frame ∈ k.frame, _))

/-- `decoded_` holds the headers of the open block, and each stream those of its last one. -/
structure Apart (a : Assembly) (c : Connection) : Prop where
  /-- If a block is open, then `decoded_` holds its headers. -/
  unfinished : ∀ id headers, a.unfinished = some (id, headers) → headers = c.rx.decoded
  /-- The streams hold the headers of the complete blocks. -/
  complete : c.headers = a.complete

theorem apart_fresh (table : Hpack.StaticTable) (ch : Octet) :
    Apart .empty (.fresh table ch) where
  unfinished _ _ h := by cases h
  complete := rfl

section Step

variable {a : Assembly} {k : Call} {frame : Frame}

theorem Assembly.update_of_no_headers (hframe : k.frame = some frame)
    (hh : ¬ frame.CarriesHeaders) : a.update k = a := by
  simp [Assembly.update, hframe, hh]

/-- The headers that `parse` has decoded by then are those of the block. -/
private theorem base_append_fragment (hapart : Apart a k.before) (hunmixed : Unmixed a k)
    (hframe : k.frame = some frame) (hh : frame.CarriesHeaders) {e : Hpack.Error} {rx : Parser}
    (hrun : (Parser.parse frame).run k.before.rx = .ok e rx) :
    a.base frame ++ Assembly.fragment k.before.rx rx = rx.decoded := by
  obtain ⟨added, hadded⟩ := Hpack.rel_of_parse_ok Hpack.closed_decoded hrun
  have hfragment : Assembly.fragment k.before.rx rx = added := by
    simp [Assembly.fragment, ← hadded]
  have hbase : a.base frame = k.before.rx.decoded := by
    unfold Assembly.base
    rcases hunmixed frame hframe hh with hnil | ⟨hcont, hopen⟩
    · -- nothing is left of the open block, if there is one
      split
      next id headers hun =>
        split_ifs
        · exact hapart.unfinished id headers hun
        · exact hnil.symm
      next => exact hnil.symm
    · obtain ⟨⟨id, headers⟩, hun, rfl⟩ := Option.map_eq_some_iff.mp hopen
      rw [hun]
      simp only [hcont, and_self, if_true]
      exact hapart.unfinished _ headers hun
  rw [hbase, hfragment, hadded]

private theorem update_more (hapart : Apart a k.before) (hunmixed : Unmixed a k)
    (hframe : k.frame = some frame) (hh : frame.CarriesHeaders) {rx : Parser}
    (hrun : (Parser.parse frame).run k.before.rx = .ok .more rx) :
    a.update k = { a with unfinished := some (frame.streamIdentifier, rx.decoded) } := by
  simp [Assembly.update, hframe, hh, hrun, base_append_fragment hapart hunmixed hframe hh hrun]

private theorem update_done (hapart : Apart a k.before) (hunmixed : Unmixed a k)
    (hframe : k.frame = some frame) (hh : frame.CarriesHeaders) {rx : Parser}
    (hrun : (Parser.parse frame).run k.before.rx = .ok .done rx) :
    a.update k =
      ⟨none, Function.update a.complete frame.streamIdentifier rx.decoded⟩ := by
  simp [Assembly.update, hframe, hh, hrun, base_append_fragment hapart hunmixed hframe hh hrun]

/-- A call keeps the headers apart. -/
theorem Apart.step (hapart : Apart a k.before) (hunmixed : Unmixed a k) :
    Apart (a.update k) k.after := by
  cases hframe : k.frame with
  | none =>
    obtain ⟨hrx, hstreams, -⟩ := Call.after_of_no_frame hframe
    have hupdate : a.update k = a := by simp [Assembly.update, hframe]
    rw [hupdate]
    refine ⟨by rw [hrx]; exact hapart.unfinished, ?_⟩
    rw [← hapart.complete]
    unfold Connection.headers Connection.stream
    rw [hstreams]
  | some frame =>
    obtain ⟨-, rest, r, hend, hresult⟩ := Call.result_of_frame hframe
    have hrx : k.after.rx = (final r).rx := by rw [k.rx_after, hresult, Call.final_map]
    have hheaders : k.after.headers = (final r).headers := by
      rw [k.headers_after, hresult, Call.final_map]
    -- the stream of the frame keeps its headers unless a block is complete
    have hkeep : ∀ s : Stream,
        s.headers = (k.before.ready.stream frame.streamIdentifier).headers →
        (k.before.ready.setStream frame.streamIdentifier s).headers = a.complete := fun s hs =>
      (Connection.headers_setStream_of_eq hs).trans hapart.complete
    cases hend with
    -- frames without headers
    | control hh =>
      rw [Assembly.update_of_no_headers hframe hh]
      exact ⟨by rw [hrx]; exact hapart.unfinished, hheaders.trans (hkeep _ rfl)⟩
    | body hd =>
      rw [Assembly.update_of_no_headers hframe (by simp [Frame.CarriesHeaders, hd])]
      exact ⟨by rw [hrx]; exact hapart.unfinished, hheaders.trans (hkeep _ rfl)⟩
    | bodyRequest hd =>
      rw [Assembly.update_of_no_headers hframe (by simp [Frame.CarriesHeaders, hd])]
      exact ⟨by rw [hrx]; exact hapart.unfinished,
        hheaders.trans (hkeep _ (finishStream_headers _ _))⟩
    -- a block that fails is given up
    | fault hh hrun =>
      have hrun' : (Parser.parse frame).run k.before.rx = _ := hrun
      have hupdate : a.update k = { a with unfinished := none } := by
        simp [Assembly.update, hframe, hh, hrun']
      rw [hupdate]
      exact ⟨(fun _ _ h => by cases h), hheaders.trans (hkeep _ rfl)⟩
    | rejected hh hrun he =>
      have hrun' : (Parser.parse frame).run k.before.rx = _ := hrun
      have hupdate : a.update k = { a with unfinished := none } := by
        rcases he with rfl | rfl <;> simp [Assembly.update, hframe, hh, hrun']
      rw [hupdate]
      exact ⟨(fun _ _ h => by cases h), hheaders.trans (hkeep _ rfl)⟩
    -- a fragment is kept by the parser, a block by the stream
    | fragment hh hrun =>
      rw [update_more hapart hunmixed hframe hh hrun]
      refine ⟨fun _ _ h => ?_, hheaders.trans (hkeep _ rfl)⟩
      cases h
      rw [hrx]
      rfl
    | block hh hrun =>
      rw [update_done hapart hunmixed hframe hh hrun]
      refine ⟨(fun _ _ h => by cases h), hheaders.trans ?_⟩
      rw [← hapart.complete]
      exact Connection.headers_setStream _ _ _
    | blockRequest hh hrun =>
      rw [update_done hapart hunmixed hframe hh hrun]
      refine ⟨(fun _ _ h => by cases h), hheaders.trans ?_⟩
      rw [← hapart.complete]
      refine (Connection.headers_setStream _ _ _).trans ?_
      rw [finishStream_headers]
      rfl

/-- A request that is made while the headers are apart is isolated. -/
theorem Apart.isolated (hapart : Apart a k.before) (hunmixed : Unmixed a k) : Isolated a k := by
  intro request hdelivered
  obtain ⟨frame, rest, c, hframe, -, hend, -, hrequest, -⟩ := Call.frame_of_delivered hdelivered
  rcases hend.newRequest_cases with ⟨hd, -, rfl⟩ | ⟨hh, -, rx, hrun, rfl⟩
  · cases hrequest
    rw [Assembly.update_of_no_headers hframe (by simp [Frame.CarriesHeaders, hd]),
      ← hapart.complete]
    exact ⟨k.before.received frame, rfl, rfl⟩
  · cases hrequest
    rw [update_done hapart hunmixed hframe hh hrun]
    refine ⟨k.before.stored frame _ .halfClosed, ?_, rfl⟩
    simp [Connection.stored]

end Step

/-- Every request of a run is isolated if each frame with headers finds `decoded_` empty, or
continues the open block of its stream. -/
theorem isolated_of_unmixed {table : Hpack.StaticTable} {ch : Octet} {calls : List Call}
    (hrun : Run Call.before Call.after (.fresh table ch) calls)
    (hunmixed : Along Assembly.update Unmixed .empty calls) :
    Along Assembly.update Isolated .empty calls := by
  have hinv := hrun.along hunmixed (apart_fresh table ch) fun a k hapart hk => hapart.step hk
  exact hinv.mono fun a k h => h.1.isolated h.2

/-- Four frames on two streams, one header block in two of them, keep the streams apart. -/
theorem isolated_sample :
    Along Assembly.update Isolated .empty
      ((Server.accept Hpack.staticHeaderTable 0
        (handshake ++ Frame.wire ⟨2, .headers, 0x5, 1, [0x82, 0x84]⟩ ++
          Frame.wire ⟨1, .headers, 0x0, 3, [0x83]⟩ ++
          Frame.wire ⟨1, .continuation, 0x4, 3, [0x84]⟩ ++
          Frame.wire ⟨1, .data, 0x1, 3, [0x21]⟩) []).calls (List.replicate 6 .returned)) :=
  isolated_of_unmixed (Server.run_accept ..) (by decide)

/-- What is left of a header block that cannot be decoded goes into the next request: the block on
stream 1 fails behind `:method: GET`, and the one on stream 3 is a path alone. -/
theorem not_isolated :
    ¬ ∀ (table : Hpack.StaticTable) (ch : Octet) (calls : List Call),
      Run Call.before Call.after (.fresh table ch) calls →
      Along Assembly.update Attributed .empty calls := by
  intro h
  have hrun := Server.run_accept Hpack.staticHeaderTable 0
    (handshake ++ Frame.wire ⟨2, .headers, 0x5, 1, [0x82, 0xBE]⟩ ++
      Frame.wire ⟨1, .headers, 0x5, 3, [0x84]⟩) [] (List.replicate 4 .returned)
  exact absurd (h _ _ _ hrun) (by decide)

end H2

end Rite
