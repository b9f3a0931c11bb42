import Rite.H2.Server

/-!
# Header blocks in several frames

Fragments of a header block are decoded frame by frame, without keeping the octets of a field that
is cut in two, and a frame with END_STREAM ends the header block whether or not it has END_HEADERS.

## Main results

* `feedAll_frames`: a block that is cut where its fields end is decoded as it is in one frame;
* `transparent_conditions`: fragmentation is transparent for such a block, and never for a request
  without a body or with a fragment that cannot be taken out of its frame;
* `not_transparent`: a request without a body is delivered behind its first fragment.
-/

namespace Rite

namespace H2

open Hpack (Field Parser applyAll)
open Characteristics ListReader

namespace Connection

/-- A call of `process` on the octets of a frame. -/
def feed (frame : Frame) : ConnectionM Result := return (← process frame.wire).1

/-- Calls of `process` on the octets of frames. -/
def feedAll (frames : List Frame) : ConnectionM (List Result) := frames.mapM feed

/-- A connection that is between two frames. -/
def Between (c : Connection) : Prop := c.state = .idle ∧ c.unfinishedFrame = none

end Connection

open Connection

/-- The frames that carry a header block in fragments. -/
structure Fragments where
  /-- The HEADERS frame. -/
  first : Frame
  /-- The CONTINUATION frames but the last. -/
  middle : List Frame
  /-- The last CONTINUATION frame. -/
  last : Frame

/-- The frames in their order. -/
def Fragments.frames (s : Fragments) : List Frame := s.first :: (s.middle ++ [s.last])

/-- The frames carry the header block of the HEADERS frame `single`: its octets are cut into
fragments, END_STREAM stays with HEADERS, and END_HEADERS goes to the last frame. -/
structure Splits (single : Frame) (s : Fragments) : Prop where
  /-- The payloads have the announced lengths. -/
  fits : ∀ f ∈ single :: s.frames, f.Fits
  /-- All the frames are on one stream. -/
  streamIdentifier : ∀ f ∈ s.frames, f.streamIdentifier = single.streamIdentifier
  /-- The frame is HEADERS with END_HEADERS. -/
  whole : single.type = .headers ∧ single.flags &&& Headers.endHeaders ≠ 0
  /-- The first fragment is in HEADERS without END_HEADERS. -/
  first : s.first.type = .headers ∧ s.first.flags &&& Headers.endHeaders = 0 ∧
    s.first.flags &&& Headers.endStream = single.flags &&& Headers.endStream
  /-- The next ones are in CONTINUATION without flags. -/
  middle : ∀ f ∈ s.middle, f.type = .continuation ∧ f.flags = 0
  /-- The last one is in CONTINUATION with END_HEADERS. -/
  last : s.last.type = .continuation ∧ s.last.flags = Headers.endHeaders
  /-- Together the fragments are the block. -/
  block : (s.frames.map HeadersPayload.fragment).flatten = HeadersPayload.fragment single

/-- `process` accepts the frame. -/
def Accepts (c : Connection) (single : Frame) : Prop :=
  ∃ r ∈ value ((feed single).run c), r ≠ .invalid

instance (c : Connection) (single : Frame) : Decidable (Accepts c single) :=
  inferInstanceAs (Decidable (∃ r ∈ value ((feed single).run c), r ≠ .invalid))

/-- All the frames but the last only make `process` ask for more, and the last makes it return
what it returns for the block in one frame, and leaves the connection the same. -/
def Transparent (c : Connection) (single : Frame) (s : Fragments) : Prop :=
  match (feed single).run c with
  | .ok r c' =>
    (feedAll s.frames).run c = .ok (List.replicate (s.middle.length + 1) .more ++ [r]) c'
  | .error _ _ => False

/-! ## Calls on whole frames -/

/-- Between two frames, a whole frame is handled. -/
theorem feed_run {c : Connection} (hc : c.Between) {frame : Frame} (h : frame.Fits) :
    (feed frame).run c = (handle frame).run c := by
  have hready : c.ready = c := by
    obtain ⟨-, hnone⟩ := hc
    cases c
    cases hnone
    rfl
  have hhandled : c.handled frame.wire = some (frame, []) := by
    rw [handled, if_pos ⟨hc.1, frame.wire_ne_nil⟩, hc.2, Reading.ofOctets_wire h]
  unfold feed
  rw [EStateM.run_bind, (process_of_handled hhandled).2, hready]
  cases (handle frame).run c <;> rfl

theorem feedAll_cons {c c' : Connection} {frame : Frame} {frames : List Frame} {r : Result}
    (h : (feed frame).run c = .ok r c') :
    (feedAll (frame :: frames)).run c = ((feedAll frames).run c').map (r :: ·) := by
  unfold feedAll
  rw [List.mapM_cons, EStateM.run_bind, h]
  cases hrun : (frames.mapM feed).run c' <;> simp [hrun, EStateM.Result.map]

/-- Calls that all return, one after the other. -/
theorem feedAll_cons_eq_ok {c c'' : Connection} {frame : Frame} {frames : List Frame}
    {rs : List Result} (h : (feedAll (frame :: frames)).run c = .ok rs c'') :
    ∃ r c' rs', (feed frame).run c = .ok r c' ∧ (feedAll frames).run c' = .ok rs' c'' ∧
      rs = r :: rs' := by
  cases hfeed : (feed frame).run c with
  | error e c' =>
    rw [feedAll, List.mapM_cons, EStateM.run_bind, hfeed] at h
    cases h
  | ok r c' =>
    rw [feedAll_cons hfeed] at h
    cases hrest : (feedAll frames).run c' with
    | error e c₂ =>
      rw [hrest] at h
      cases h
    | ok rs' c₂ =>
      rw [hrest] at h
      cases h
      exact ⟨r, c', rs', rfl, hrest, rfl⟩

/-! ## The decoder over fragments -/

section Decoding

variable {c : Connection} {frame : Frame}

/-- A frame that leaves the header block open. -/
private theorem handle_more {p p' : Parser} (hh : frame.CarriesHeaders)
    (hrun : (Parser.parse frame).run p = .ok .more p') (c : Connection) :
    (handle frame).run { c.opened frame with rx := p } =
      .ok .more { c.opened frame with rx := p' } := by
  rw [handle_headers hh, hrun]
  simp [headersEnd, opened, setStream, stream]

/-- A frame that ends the header block but not the stream. -/
private theorem handle_done {p p' : Parser} (hh : frame.CarriesHeaders)
    (hend : frame.flags &&& Headers.endStream = 0)
    (hrun : (Parser.parse frame).run p = .ok .done p') (c : Connection) :
    (handle frame).run { c.opened frame with rx := p } =
      .ok .more
        ((c.moved p').setStream frame.streamIdentifier (c.stored frame p'.decoded .open)) := by
  rw [handle_headers hh, hrun, headersEnd_done, if_pos hend]
  simp [opened, moved, stored, setStream, stream]

/-- The flags decide what `parse` returns. -/
private theorem completion_eq_more {flags : UInt8} (h : flags &&& Headers.endHeaders = 0)
    (h' : flags &&& Headers.endStream = 0) : Parser.completion flags = .more := by
  rw [Parser.completion, if_neg (not_not.mpr (Headers.and_flags_eq_zero_iff.mpr ⟨h, h'⟩))]

private theorem completion_eq_done {flags : UInt8} (h : flags &&& Headers.endHeaders ≠ 0) :
    Parser.completion flags = .done := by
  rw [Parser.completion, if_pos fun h' => h (Headers.and_flags_eq_zero_iff.mp h').1]

/-- The connection goes on being between frames. -/
private theorem between_opened {rx : Parser} (hc : c.Between) :
    Connection.Between { c.opened frame with rx } := hc

/-- A connection that has opened the stream does so again. -/
private theorem opened_congr {frame frame' : Frame}
    (h : frame.streamIdentifier = frame'.streamIdentifier) (c : Connection) :
    c.opened frame = c.opened frame' := by
  rw [opened, opened, h]

private theorem stored_congr {frame frame' : Frame}
    (h : frame.streamIdentifier = frame'.streamIdentifier) (c : Connection) :
    c.stored frame = c.stored frame' := by
  ext1 headers
  ext1 state
  rw [stored, stored, h]

/-- What the continuations of a header block have in common. -/
private structure Continues (single frame : Frame) : Prop where
  /-- The payload has the announced length. -/
  fits : frame.Fits
  /-- The type. -/
  type : frame.type = .continuation
  /-- The stream. -/
  streamIdentifier : frame.streamIdentifier = single.streamIdentifier
  /-- There is a fragment in the frame. -/
  readable : HeadersPayload.Readable frame

/-- The continuations of a header block add their fields, and the last one completes it. -/
private theorem feedAll_continuations {single last : Frame} (hc : c.Between)
    (hlast : Continues single last) (hlastFlags : last.flags = Headers.endHeaders)
    {middle : List Frame} (hmiddle : ∀ f ∈ middle, Continues single f ∧ f.flags = 0)
    {fieldss : List (List Field)}
    (hfields : List.Forall₂ (fun o fields => Many Field.read o fields [])
      ((middle ++ [last]).map HeadersPayload.fragment) fieldss)
    {p p' : Parser} (happly : (applyAll fieldss.flatten).run p = .ok () p') :
    (feedAll (middle ++ [last])).run { c.opened single with rx := p } =
      .ok (List.replicate (middle.length + 1) .more)
        ((c.moved p').setStream single.streamIdentifier (c.stored single p'.decoded .open)) := by
  induction middle generalizing fieldss p with
  | nil =>
    -- the last frame: END_HEADERS completes the block
    obtain ⟨fields, rest, hmany, hnil, rfl⟩ := List.forall₂_cons_left_iff.mp hfields
    cases hnil
    rw [List.flatten_cons, List.flatten_nil, List.append_nil] at happly
    have hparse := Hpack.parse_of_applyAll hlast.readable hmany happly
    rw [hlastFlags, completion_eq_done (by decide)] at hparse
    have hhandle := handle_done (.inr hlast.type) (by rw [hlastFlags]; decide) hparse c
    rw [opened_congr hlast.streamIdentifier, stored_congr hlast.streamIdentifier,
      hlast.streamIdentifier] at hhandle
    rw [List.nil_append, feedAll_cons ((feed_run (between_opened hc) hlast.fits).trans hhandle)]
    rfl
  | cons f middle ih =>
    -- a frame without flags: the parser keeps its fields
    obtain ⟨fields, rest, hmany, hrest, rfl⟩ := List.forall₂_cons_left_iff.mp hfields
    obtain ⟨hf, hflags⟩ := hmiddle f (List.mem_cons_self ..)
    rw [List.flatten_cons] at happly
    obtain ⟨p₁, hfirst, hothers⟩ := Hpack.applyAll_append_eq_ok happly
    have hparse := Hpack.parse_of_applyAll hf.readable hmany hfirst
    rw [hflags, completion_eq_more (by decide) (by decide)] at hparse
    have hhandle := handle_more (.inr hf.type) hparse c
    rw [opened_congr hf.streamIdentifier] at hhandle
    rw [List.cons_append, feedAll_cons ((feed_run (between_opened hc) hf.fits).trans hhandle),
      ih (fun g hg => hmiddle g (List.mem_cons_of_mem _ hg)) hrest hothers]
    rfl

end Decoding

/-! ## Fragmentation -/

section Fragmentation

variable {c : Connection} {single : Frame} {s : Fragments}

/-- A block that is accepted and does not end the stream: its fields can be applied, and its
headers are stored. -/
private theorem exists_applyAll_of_accepts (hc : c.Between) (hsplit : Splits single s)
    (haccept : Accepts c single) (hend : single.flags &&& Headers.endStream = 0)
    {fields : List Field}
    (hmany : Many Field.read (HeadersPayload.fragment single) fields []) :
    ∃ p', (applyAll fields).run c.rx = .ok () p' ∧
      (feed single).run c = .ok .more
        ((c.moved p').setStream single.streamIdentifier (c.stored single p'.decoded .open)) := by
  have hh : single.CarriesHeaders := .inl hsplit.whole.1
  have hfeed := feed_run hc (hsplit.fits single (List.mem_cons_self ..))
  obtain ⟨r, hr, hvalid⟩ := haccept
  rw [hfeed, handle_headers hh] at hr ⊢
  cases hpayload : HeadersPayload.ofFrame single with
  | error e =>
    rw [Hpack.parse_of_ofFrame_error hpayload] at hr
    cases hr
  | ok payload =>
    have hreadable := HeadersPayload.readable_of_ofFrame hpayload
    cases happly : (applyAll fields).run c.rx with
    | ok u p' =>
      refine ⟨p', rfl, ?_⟩
      rw [Hpack.parse_of_applyAll hreadable hmany happly, completion_eq_done hsplit.whole.2,
        headersEnd_done, if_pos hend]
    | error e p' =>
      -- an index is in no table, and the frame is not accepted
      have hkeeps := Hpack.keeps_applyAll Hpack.closed_true fields c.rx
      rw [happly] at hkeeps
      obtain rfl : e = .hpack .unknownHeader := hkeeps.2
      obtain ⟨payload', hpayload', hdata⟩ := HeadersPayload.ofFrame_eq_ok_iff.mpr hreadable
      rw [Hpack.parse_of_many hpayload' (hdata.symm ▸ hmany), happly] at hr
      cases hr
      exact absurd rfl hvalid

/-- A block that is cut where its fields end is decoded as it is in one frame. -/
theorem feedAll_frames (hc : c.Between) (hsplit : Splits single s) (haccept : Accepts c single)
    (hend : single.flags &&& Headers.endStream = 0)
    (hreadable : ∀ f ∈ s.frames, HeadersPayload.Readable f)
    (hcuts : CutsAt Field.read (s.frames.map HeadersPayload.fragment)) :
    Transparent c single s := by
  have hne : ∀ o ∈ s.frames.map HeadersPayload.fragment, o ≠ [] := by
    intro o ho
    obtain ⟨f, hf, rfl⟩ := List.mem_map.mp ho
    exact HeadersPayload.fragment_ne_nil (hreadable f hf)
  obtain ⟨fieldss, hfields, hmany⟩ := hcuts.exists_items Hpack.local_read hne
  rw [hsplit.block] at hmany
  obtain ⟨p', happly, hfeed⟩ := exists_applyAll_of_accepts hc hsplit haccept hend hmany
  unfold Transparent
  rw [hfeed]
  show _ = EStateM.Result.ok (List.replicate (s.middle.length + 1) Result.more ++ [Result.more]) _
  -- the first fragment, in HEADERS
  obtain ⟨fields, rest, hfirst, hrest, rfl⟩ := List.forall₂_cons_left_iff.mp hfields
  rw [List.flatten_cons] at happly
  obtain ⟨p₁, hp₁, hothers⟩ := Hpack.applyAll_append_eq_ok happly
  have hmem : s.first ∈ s.frames := List.mem_cons_self ..
  have hparse := Hpack.parse_of_applyAll (hreadable _ hmem) hfirst hp₁
  rw [completion_eq_more hsplit.first.2.1 (hsplit.first.2.2.trans hend)] at hparse
  have hhandle : (handle s.first).run c = .ok .more { c.opened single with rx := p₁ } := by
    rw [handle_headers (.inl hsplit.first.1), hparse,
      opened_congr (hsplit.streamIdentifier _ hmem)]
    rfl
  have hfits := hsplit.fits s.first (List.mem_cons_of_mem _ hmem)
  -- the others, in CONTINUATION
  have hcontinues : ∀ f ∈ s.middle ++ [s.last], f.type = .continuation → Continues single f :=
    fun f hf htype => ⟨hsplit.fits f (List.mem_cons_of_mem _ (List.mem_cons_of_mem _ hf)), htype,
      hsplit.streamIdentifier f (List.mem_cons_of_mem _ hf),
      hreadable f (List.mem_cons_of_mem _ hf)⟩
  have hrun := feedAll_continuations hc
    (hcontinues s.last (by simp) hsplit.last.1) hsplit.last.2
    (fun f hf => ⟨hcontinues f (by simp [hf]) (hsplit.middle f hf).1, (hsplit.middle f hf).2⟩)
    hrest hothers
  rw [Fragments.frames, feedAll_cons ((feed_run hc hfits).trans hhandle), hrun,
    ← List.replicate_succ']
  rfl

/-- A frame with headers for which `process` returns has a fragment that can be taken out. -/
private theorem readable_of_feed {frame : Frame} {r : Result} {c c' : Connection} (hc : c.Between)
    (hfits : frame.Fits) (hh : frame.CarriesHeaders) (h : (feed frame).run c = .ok r c') :
    HeadersPayload.Readable frame ∧ c'.Between := by
  rw [feed_run hc hfits] at h
  have heffect := (handle_cases frame c).effect
  rw [h] at heffect
  refine ⟨?_, heffect.state.trans hc.1, heffect.unfinishedFrame.trans hc.2⟩
  cases hpayload : HeadersPayload.ofFrame frame with
  | error e =>
    rw [handle_headers hh, Hpack.parse_of_ofFrame_error hpayload] at h
    cases h
  | ok payload => exact HeadersPayload.readable_of_ofFrame hpayload

private theorem readable_of_feedAll {frames : List Frame} {rs : List Result}
    {c c' : Connection} (hc : c.Between) (hfits : ∀ f ∈ frames, f.Fits)
    (hh : ∀ f ∈ frames, f.CarriesHeaders) (h : (feedAll frames).run c = .ok rs c') :
    ∀ f ∈ frames, HeadersPayload.Readable f := by
  induction frames generalizing c rs with
  | nil => simp
  | cons f frames ih =>
    obtain ⟨r, c₁, rs', hfeed, hrest, -⟩ := feedAll_cons_eq_ok h
    obtain ⟨hf, hc₁⟩ := readable_of_feed hc (hfits f (List.mem_cons_self ..))
      (hh f (List.mem_cons_self ..)) hfeed
    intro g hg
    rcases List.mem_cons.mp hg with rfl | hg
    · exact hf
    · exact ih hc₁ (fun f hf => hfits f (List.mem_cons_of_mem _ hf))
        (fun f hf => hh f (List.mem_cons_of_mem _ hf)) hrest g hg

/-- If `process` asks for more behind the first fragment, then END_STREAM is clear. -/
private theorem endStream_eq_zero_of_more {frame : Frame} {c c' : Connection}
    (hh : frame.CarriesHeaders) (h : (handle frame).run c = .ok .more c') :
    frame.flags &&& Headers.endStream = 0 := by
  have hend := handle_cases frame c
  rw [h] at hend
  generalize hr : EStateM.Result.ok Result.more c' = r at hend
  cases hend with
  | control hno => exact absurd hh hno
  | body hd => simp [Frame.CarriesHeaders, hd] at hh
  | fragment _ _ hzero => exact hzero
  | block _ _ hzero => exact hzero
  | _ => cases hr

/-- Fragmentation is transparent if END_STREAM is clear, every frame has a fragment that can be
taken out, and the block is cut where its fields end; and it never is without the first two. -/
theorem transparent_conditions (hc : c.Between) (hsplit : Splits single s)
    (haccept : Accepts c single) :
    (single.flags &&& Headers.endStream = 0 ∧
        (∀ f ∈ s.frames, HeadersPayload.Readable f) ∧
        CutsAt Field.read (s.frames.map HeadersPayload.fragment) → Transparent c single s) ∧
      (Transparent c single s →
        single.flags &&& Headers.endStream = 0 ∧
          ∀ f ∈ s.frames, HeadersPayload.Readable f) := by
  refine ⟨fun h => feedAll_frames hc hsplit haccept h.1 h.2.1 h.2.2, fun h => ?_⟩
  unfold Transparent at h
  cases hsingle : (feed single).run c with
  | error e c' =>
    rw [hsingle] at h
    exact h.elim
  | ok r c' =>
    rw [hsingle] at h
    have hfits : ∀ f ∈ s.frames, f.Fits := fun f hf => hsplit.fits f (List.mem_cons_of_mem _ hf)
    have hh : ∀ f ∈ s.frames, f.CarriesHeaders := by
      intro f hf
      rcases List.mem_cons.mp hf with rfl | hf
      · exact .inl hsplit.first.1
      · rcases List.mem_append.mp hf with hf | hf
        · exact .inr (hsplit.middle f hf).1
        · obtain rfl := List.mem_singleton.mp hf
          exact .inr hsplit.last.1
    refine ⟨?_, readable_of_feedAll hc hfits hh h⟩
    -- behind the first fragment a call returns `eMore`, which it does not with END_STREAM
    obtain ⟨r₁, c₁, rs, hfirst, -, hresults⟩ := feedAll_cons_eq_ok h
    have hmore : r₁ = .more := by
      rw [List.replicate_succ, List.cons_append] at hresults
      exact (List.cons.inj hresults).1.symm
    have hmem : s.first ∈ s.frames := List.mem_cons_self ..
    rw [feed_run hc (hfits _ hmem), hmore] at hfirst
    rw [← hsplit.first.2.2]
    exact endStream_eq_zero_of_more (hh _ hmem) hfirst

end Fragmentation

/-! ## Two blocks in two frames -/

/-- The connection behind the handshake. -/
private def established : Connection :=
  { Connection.fresh Hpack.staticHeaderTable 0 with
    state := .idle, written := [⟨0, .settings, 0, 0, []⟩] }

/-- Two fields in two frames, in front of a body. -/
theorem transparent_sample :
    Transparent established ⟨2, .headers, 0x4, 1, [0x83, 0x84]⟩
      ⟨⟨1, .headers, 0x0, 1, [0x83]⟩, [], ⟨1, .continuation, 0x4, 1, [0x84]⟩⟩ :=
  (transparent_conditions ⟨rfl, rfl⟩
    ⟨by decide, by decide, by decide, by decide, by decide, by decide, by decide⟩
    (by decide)).1
    ⟨by decide, by decide, ⟨[.indexed 3], .cons rfl (.nil _)⟩, ⟨[.indexed 4], .cons rfl (.nil _)⟩,
      trivial⟩

/-- The same in front of no body. -/
private def bodiless : Fragments :=
  ⟨⟨1, .headers, 0x1, 1, [0x83]⟩, [], ⟨1, .continuation, 0x4, 1, [0x84]⟩⟩

/-- With END_STREAM a request is delivered behind the first fragment: the method alone. -/
theorem not_transparent :
    ¬ ∀ (c : Connection) (single : Frame) (s : Fragments), c.Between → Splits single s →
      Accepts c single → Transparent c single s := by
  intro h
  have htrans := h established ⟨2, .headers, 0x5, 1, [0x83, 0x84]⟩ bodiless ⟨rfl, rfl⟩
    ⟨by decide, by decide, by decide, by decide, by decide, by decide, by decide⟩
    (by decide)
  have hfirst : (value ((feedAll bodiless.frames).run established)).bind List.head? =
      some .newRequest := by decide +kernel
  unfold Transparent at htrans
  split at htrans
  · rw [htrans] at hfirst
    cases hfirst
  · exact htrans

end H2

end Rite
