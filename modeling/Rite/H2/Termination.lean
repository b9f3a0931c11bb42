import Rite.H2.Server

/-!
# Connections that have been terminated

`terminate` sets a flag that neither `process` nor `on_read` looks at, so a terminated connection
goes on answering its peer.

## Main results

* `silent_of_unanswerable`: what a call must find to deliver a request or to write a frame;
* `silent_of_terminates`: a terminated connection is silent in every run in which no such frame
  arrives behind the termination;
* `not_silent`: a request is delivered behind `eInvalid`.
-/

namespace Rite

namespace H2

namespace Call

/-- `process` has returned `eInvalid`, or the connection has been terminated by the end of the
call. -/
def Terminates (k : Call) : Prop := k.returned = some .invalid ∨ k.after.closed

/-- `process` neither returns `eNewRequest` nor writes a frame. -/
def Silent (k : Call) : Prop :=
  k.returned ≠ some .newRequest ∧ k.after.written = k.before.written

instance (k : Call) : Decidable k.Terminates := inferInstanceAs (Decidable (_ ∨ _))

instance (k : Call) : Decidable k.Silent := inferInstanceAs (Decidable (_ ∧ _))

/-- The frame that the call completes while the client's settings are waited for. -/
def clientSettings (k : Call) : Option Frame :=
  if k.before.state = .waitClientSettings ∧ k.input ≠ [] then
    match Reading.ofOctets k.before.unfinishedFrame k.input with
    | .complete frame _ => some frame
    | _ => none
  else none

/-- The call completes no frame that calls for an answer: no SETTINGS without ACK, PING, or
HEADERS, CONTINUATION or DATA with END_STREAM in the state `IDLE`, and no settings of permitted
length before that. -/
def Unanswerable (k : Call) : Prop :=
  (∀ frame ∈ k.frame, Connection.answer frame = [] ∧ ¬ frame.EndsStream) ∧
    ∀ frame ∈ k.clientSettings, frame.type = .settings → frame.length % 6 ≠ 0

instance (k : Call) : Decidable k.Unanswerable := inferInstanceAs (Decidable (_ ∧ _))

end Call

open Call

variable {k : Call}

/-- A call that completes no such frame is silent. -/
theorem silent_of_unanswerable (h : k.Unanswerable) : k.Silent := by
  obtain ⟨hframes, hsettings⟩ := h
  refine ⟨fun hnew => ?_, ?_⟩
  · obtain ⟨frame, -, -, hframe, hends, -, -⟩ := frame_of_newRequest hnew
    exact (hframes frame hframe).2 hends
  · rw [written_after]
    cases hframe : k.frame with
    | some frame =>
      rw [(effect_of_frame hframe).written, (hframes frame hframe).1, List.append_nil]
      rfl
    | none =>
      have hquiet := result_of_no_frame hframe
      generalize k.result = r at hquiet
      cases hquiet with
      | @settings frame rest hwait hinput hreading htype hlen =>
        -- the answer to the settings of the client
        have hread : k.clientSettings = some frame := by
          simp only [clientSettings, hwait, hinput, ne_eq, not_false_eq_true, and_self, if_true,
            hreading]
        exact absurd hlen (hsettings _ hread htype)
      | _ => rfl

/-- A terminated connection is silent in every run in which no call completes a frame that calls
for an answer once the connection has been terminated. -/
theorem silent_of_terminates {table : Hpack.StaticTable} {ch : Octet} {packet : Octets}
    {packets : List Octets} {bs : List Behaviour}
    (h : ∀ k ∈ (Server.accept table ch packet packets).calls bs,
      k.before.closed → k.Unanswerable) :
    ((Server.accept table ch packet packets).calls bs).Pairwise fun a b =>
      a.Terminates → b.Silent := by
  have hclosed := (Server.run_accept table ch packet packets bs).pairwise
    (I := fun c => c.closed = true) fun _ => closed_after
  refine hclosed.imp_of_mem fun {a b} _ hb hab hterm => silent_of_unanswerable (h b hb (hab ?_))
  exact hterm.elim closed_of_invalid id

/-- Behind invalid headers come a WINDOW_UPDATE and headers without END_STREAM. -/
theorem silent_sample :
    ((Server.accept Hpack.staticHeaderTable 0
      (handshake ++ Frame.wire ⟨1, .headers, 0x4, 1, [0xBE]⟩ ++
        Frame.wire ⟨4, .windowUpdate, 0x0, 1, [0, 0, 0, 1]⟩)
      [Frame.wire ⟨1, .headers, 0x4, 3, [0x82]⟩]).calls (List.replicate 6 .returned)).Pairwise
        fun a b => a.Terminates → b.Silent :=
  silent_of_terminates (by decide)

/-- A terminated connection takes the next request: the headers on stream 1 are invalid, and those
on stream 3 are not. -/
theorem not_silent :
    ¬ ∀ (table : Hpack.StaticTable) (ch : Octet) (packet : Octets) (packets : List Octets)
      (bs : List Behaviour), ((Server.accept table ch packet packets).calls bs).Pairwise
        fun a b => a.Terminates → b.Silent := by
  intro h
  have hcalls := h Hpack.staticHeaderTable 0
    (handshake ++ Frame.wire ⟨1, .headers, 0x5, 1, [0xBE]⟩ ++
      Frame.wire ⟨2, .headers, 0x5, 3, [0x82, 0x84]⟩) [] (List.replicate 4 .returned)
  exact absurd hcalls (by decide)

end H2

end Rite
