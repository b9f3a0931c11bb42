import Rite.H2.Server

/-!
# The life cycle of a stream

`process` writes the state of a stream in several places and reads it nowhere, so nothing keeps a
stream from being completed twice, or after it has been reset.

## Main results

* `delivers_once`: a run delivers a stream once, and not behind RST_STREAM, if no frame with
  END_STREAM arrives on a stream that has been delivered or reset;
* `not_delivers_once`: a second HEADERS frame with END_STREAM is a second request.
-/

namespace Rite

namespace H2

namespace Call

/-- The call handles a RST_STREAM of the stream `id`. -/
def Resets (k : Call) (id : UInt32) : Prop :=
  ∃ frame ∈ k.frame, frame.type = .rstStream ∧ frame.streamIdentifier = id

/-- The stream `id` has been delivered or reset. -/
def Finishes (k : Call) (id : UInt32) : Prop := k.Delivers id ∨ k.Resets id

instance (k : Call) (id : UInt32) : Decidable (k.Resets id) :=
  inferInstanceAs (Decidable (∃ frame ∈ k.frame, _))

instance (k : Call) (id : UInt32) : Decidable (k.Finishes id) := inferInstanceAs (Decidable (_ ∨ _))

end Call

/-- Every stream is delivered at most once, and not behind a RST_STREAM. -/
def DeliversOnce (calls : List Call) : Prop :=
  calls.Pairwise fun a b => ∀ id, a.Finishes id → ¬ b.Delivers id

/-- `on_read` delivers every stream at most once, and not behind a RST_STREAM, if no frame with
END_STREAM arrives on a stream that has been delivered or reset. -/
theorem delivers_once {table : Hpack.StaticTable} {ch : Octet} {packet : Octets}
    {packets : List Octets} {bs : List Behaviour}
    (h : ((Server.accept table ch packet packets).calls bs).Pairwise fun a b =>
      ∀ frame ∈ b.frame, frame.EndsStream → ¬ a.Finishes frame.streamIdentifier) :
    DeliversOnce ((Server.accept table ch packet packets).calls bs) := by
  refine h.imp fun {a b} hab id hfinish hdeliver => ?_
  -- a request is delivered for the stream of a frame with END_STREAM
  obtain ⟨frame, hframe, hends, hid⟩ := hdeliver.frame
  exact hab frame hframe hends (hid ▸ hfinish)

/-- A stream is reset, and two others are completed, one of them by DATA. -/
theorem delivers_once_sample :
    DeliversOnce ((Server.accept Hpack.staticHeaderTable 0
      (handshake ++ Frame.wire ⟨2, .headers, 0x4, 1, [0x82, 0x84]⟩ ++
        Frame.wire ⟨2, .headers, 0x5, 3, [0x82, 0x84]⟩ ++
        Frame.wire ⟨4, .rstStream, 0x0, 5, [0, 0, 0, 8]⟩ ++
        Frame.wire ⟨1, .data, 0x1, 1, [0x21]⟩) []).calls (List.replicate 6 .returned)) :=
  delivers_once (by decide)

/-- The same headers twice are two requests. -/
theorem not_delivers_once :
    ¬ ∀ (table : Hpack.StaticTable) (ch : Octet) (packet : Octets) (packets : List Octets)
      (bs : List Behaviour),
      DeliversOnce ((Server.accept table ch packet packets).calls bs) := by
  intro h
  have hcalls := h Hpack.staticHeaderTable 0
    (handshake ++ Frame.wire ⟨2, .headers, 0x5, 1, [0x82, 0x84]⟩ ++
      Frame.wire ⟨2, .headers, 0x5, 1, [0x82, 0x84]⟩) [] (List.replicate 4 .returned)
  have hone := hcalls.imp fun {a b} hab => hab 1
  exact absurd hone (by decide)

end H2

end Rite
