import Rite.H2.Server

/-!
# Whether the server process survives its peer

`on_read` catches a `std::exception`. The process goes down at a failed `assert`, at `std::exit`,
and at any other exception that leaves `process`: the frame header is checked in one place by
`std::exit`, and the payload of a frame with headers in another by an `assert` and a thrown
`h2::frame_state`. It does not survive a store past the variable of `decode_uri_component` either,
which `finish_stream` comes to if there is a query.

## Main results

* `survives_iff`: the process survives a call exactly if a header that is due is there and
  announces a permitted length, every frame with headers has an octet of them in front of its
  padding, and no query has a `%` in front of a number;
* `survives_calls_iff`: the same for all the calls of `on_read`;
* `not_survives`: a packet of one octet takes the process down.
-/

namespace Rite

namespace H2

open Hpack (Parser)
open Characteristics
open Connection (final)

/-- The exceptions that `on_read` catches. -/
def caught : Fault → Bool
  | .std _ => true
  | _ => false

/-- The stream of which a request is made when a frame is handled. -/
def Connection.finished (c : Connection) (frame : Frame) : Option Stream :=
  match frame.type with
  | .data => if frame.flags &&& Data.endStream = 0 then none else some (c.received frame)
  | .headers | .continuation =>
    -- the headers are not complete unless the parser is done
    match (Parser.parse frame).run c.rx with
    | .ok .done rx =>
      if frame.flags &&& Headers.endStream = 0 then none
      else some (c.stored frame rx.decoded .halfClosed)
    | _ => none
  | _ => none

namespace Call

/-- The exception that leaves `process`, or the other way in which it does not return. -/
def raised (k : Call) : Option Fault :=
  match k.result with
  | .ok _ _ => none
  | .error e _ => some e

/-- How `process` ends if it does not return, or if nothing is known of the process behind it. -/
def fault (k : Call) : Option Fault := if k.after.overrun then some .overrun else k.raised

/-- The process is still there behind the call. -/
def Survives (k : Call) : Prop := ∀ e ∈ k.fault, caught e

instance (k : Call) : Decidable k.Survives :=
  inferInstanceAs (Decidable (∀ e ∈ k.fault, caught e = true))

/-- If a frame header is due in the state `IDLE`, then the packet holds one, and the length it
announces is permitted. -/
def HeaderReadable (k : Call) : Prop :=
  k.before.state = .idle → k.input ≠ [] → k.before.unfinishedFrame = none →
    ∃ header, Frame.unpack k.input = some header ∧ header.length.toNat ≤ maxFrameSize

/-- If the call handles a frame with headers, then some octet of these is left between the fields
in front of them and the padding. -/
def PayloadReadable (k : Call) : Prop :=
  ∀ frame ∈ k.frame, frame.CarriesHeaders →
    HeadersPayload.offset frame + (HeadersPayload.padding frame).toNat < frame.data.length

/-- If the call makes a request of a stream with a path and a method, then no key or value in the
query of the path, as `uri_decode` leaves it, has a `%` in front of a number. -/
def QueryReadable (k : Call) : Prop :=
  ∀ frame ∈ k.frame, ∀ s ∈ k.before.ready.finished frame, s.QueryReadable

end Call

variable {k : Call}

/-- The connection stays in these states. -/
theorem Connection.Regular.after (h : k.before.Regular) : k.after.Regular := by
  unfold Connection.Regular
  rw [k.state_after]
  cases hframe : k.frame with
  | some frame => rwa [(Call.effect_of_frame hframe).state]
  | none =>
    have hquiet := Call.result_of_no_frame hframe
    generalize k.result = r at hquiet
    cases hquiet with
    | preface => exact .inr (.inl rfl)
    | settings => exact .inr (.inr rfl)
    | _ => exact h

/-! ## Stores past the variable -/

theorem Connection.finished_data {frame : Frame} (h : frame.type = .data) (c : Connection) :
    c.finished frame =
      if frame.flags &&& Data.endStream = 0 then none else some (c.received frame) := by
  simp only [finished, h]

theorem Connection.finished_headers {frame : Frame} (h : frame.CarriesHeaders) (c : Connection) :
    c.finished frame =
      match (Parser.parse frame).run c.rx with
      | .ok .done rx =>
        if frame.flags &&& Headers.endStream = 0 then none
        else some (c.stored frame rx.decoded .halfClosed)
      | _ => none := by
  rcases h with h | h
  all_goals simp only [finished, h]

theorem Connection.finished_control {frame : Frame} (hh : ¬ frame.CarriesHeaders)
    (hd : frame.type ≠ .data) (c : Connection) : c.finished frame = none := by
  unfold finished
  split
  · exact absurd ‹_› hd
  · exact absurd (.inl ‹_›) hh
  · exact absurd (.inr ‹_›) hh
  · rfl

/-- A store past the variable can only be made where a request is. -/
theorem Connection.HandleEnd.overrun {frame : Frame} {c : Connection}
    {r : EStateM.Result Fault Connection Result} (h : HandleEnd frame c r) :
    (final r).overrun = (c.overrun || (c.finished frame).any (·.overruns c.ch)) := by
  -- the query is parsed in the two ends that make a request
  cases h with
  | control hh hd => simp [finished_control hh hd, final, setStream]
  | body hd hend => simp [finished_data hd, hend, final, setStream]
  | bodyRequest hd hend => simp [finished_data hd, hend, final, dispatch, setStream]
  | fault hh hrun => simp [finished_headers hh, hrun, final, opened, setStream]
  | rejected hh hrun he =>
    rcases he with rfl | rfl
    all_goals simp [finished_headers hh, hrun, final, opened, setStream]
  | fragment hh hrun => simp [finished_headers hh, hrun, final, opened, setStream]
  | block hh hrun hend => simp [finished_headers hh, hrun, hend, final, moved, setStream]
  | blockRequest hh hrun hend =>
    simp [finished_headers hh, hrun, hend, final, moved, dispatch, setStream]

/-- There has been one behind a call if there had been one in front of it, or if the query of the
request that it makes has a number behind a `%`. -/
theorem Call.overrun_final (k : Call) :
    (final k.result).overrun = (k.before.overrun ||
      k.frame.any fun frame => (k.before.ready.finished frame).any (·.overruns k.before.ch)) := by
  cases hframe : k.frame with
  | none =>
    have hquiet := result_of_no_frame hframe
    generalize k.result = r at hquiet
    rw [Option.any_none, Bool.or_false]
    cases hquiet <;> rfl
  | some frame =>
    obtain ⟨-, rest, r, hend, hresult⟩ := result_of_frame hframe
    rw [hresult, final_map, hend.overrun]
    rfl

theorem Call.overrun_after (k : Call) : k.after.overrun = (final k.result).overrun := by
  obtain ⟨closed, hafter, -⟩ := k.after_eq
  rw [hafter]

theorem overrun_after_eq_false_iff (hbefore : k.before.overrun = false) :
    k.after.overrun = false ↔ k.QueryReadable := by
  rw [k.overrun_after, k.overrun_final, hbefore, Bool.false_or]
  simp only [Call.QueryReadable, Option.any_eq_false, Option.mem_def,
    Stream.overruns_eq_false_iff]

/-- A store past the variable is not forgotten. -/
theorem Connection.overrun_of_process {c c' : Connection} {pos : Octets} {v : Result × Octets}
    (h : (process pos).run c = .ok v c') (hoverrun : c'.overrun = false) : c.overrun = false := by
  have hfinal := (⟨c, pos, .returned⟩ : Call).overrun_final
  rw [show (⟨c, pos, .returned⟩ : Call).result = .ok v c' from h] at hfinal
  exact (Bool.or_eq_false_iff.mp (hfinal.symm.trans hoverrun)).1

/-! ## What a call survives -/

/-- There has been no store past the variable, and the exception is caught. -/
theorem Call.survives_iff_raised (k : Call) :
    k.Survives ↔ (∀ e ∈ k.raised, caught e) ∧ k.after.overrun = false := by
  unfold Survives fault
  -- behind such a store nothing is known of the process, however the call ends
  cases k.after.overrun <;> simp [caught]

/-- An exception that takes the process down leaves a call whose header cannot be read. -/
private theorem not_caught_of_header (h : ¬ k.HeaderReadable) : ¬ ∀ e ∈ k.raised, caught e := by
  simp only [Call.HeaderReadable, not_forall] at h
  obtain ⟨hidle, hinput, hunfinished, hheader⟩ := h
  obtain ⟨e, he, hreading⟩ := Reading.ofOctets_failed_iff.mpr ⟨hunfinished, hheader⟩
  have hresult : k.result = .error .exit { k.before with closed := true } := by
    rw [Call.result, Connection.process_reading (.inr hidle) hinput, hreading,
      Connection.readingEnd, if_pos hidle]
  simp [Call.raised, hresult, caught]

/-- Without a frame to handle, the header is all that matters. -/
private theorem caught_of_no_frame (hregular : k.before.Regular) (hframe : k.frame = none)
    (hheader : k.HeaderReadable) : ∀ e ∈ k.raised, caught e := by
  have hquiet := Call.result_of_no_frame hframe
  unfold Call.raised
  generalize hresult : k.result = r at hquiet
  cases hquiet with
  | unreadable hidle hinput hreading =>
    obtain ⟨hunfinished, hno⟩ := Reading.ofOctets_failed_iff.mp ⟨_, _, hreading⟩
    exact absurd (hheader hidle hinput hunfinished) hno
  | unexpected h => exact absurd hregular h
  | _ => simp [caught]

/-- If `parse` returns, then there has been an octet to decode. -/
private theorem offset_add_padding_lt_of_parse_ok {frame : Frame} {p p' : Parser} {e : Hpack.Error}
    (h : (Parser.parse frame).run p = .ok e p') :
    HeadersPayload.offset frame + (HeadersPayload.padding frame).toNat < frame.data.length := by
  rw [← HeadersPayload.ofFrame_survives_iff]
  constructor
  all_goals
    intro herror
    rw [Hpack.parse_of_ofFrame_error herror] at h
    cases h

/-- An exception that leaves `parse` is caught exactly if there has been one. -/
private theorem caught_iff_of_parse_error {frame : Frame} {p p' : Parser} {e : Fault}
    (h : (Parser.parse frame).run p = .error e p') :
    caught e ↔
      HeadersPayload.offset frame + (HeadersPayload.padding frame).toNat < frame.data.length := by
  rw [← HeadersPayload.ofFrame_survives_iff]
  -- the payload is read, or it is a `std::exception`, an `assert` or an `h2::frame_state`
  rcases HeadersPayload.ofFrame_cases frame with ⟨payload, hok, -⟩ | ⟨e', herror⟩ | herror | herror
  · rcases Hpack.parse_error h with herror | ⟨e', rfl⟩
    · rw [hok] at herror
      cases herror
    · simp [caught, hok]
  all_goals
    rw [Hpack.parse_of_ofFrame_error herror] at h
    cases h
    simp [caught, herror]

/-- The payload of a frame with headers is checked before anything is decoded. -/
private theorem caught_of_frame_iff {frame : Frame} (hframe : k.frame = some frame) :
    (∀ e ∈ k.raised, caught e) ↔ k.PayloadReadable := by
  obtain ⟨-, rest, r, hend, hresult⟩ := Call.result_of_frame hframe
  unfold Call.raised Call.PayloadReadable
  rw [hresult, hframe]
  simp only [Option.mem_def, Option.some_inj, forall_eq']
  -- only the payload of a frame with headers can be at fault
  cases hend with
  | fault hh hrun => simpa [EStateM.Result.map, hh] using caught_iff_of_parse_error hrun
  | control hh => simp [EStateM.Result.map, hh]
  | body hd => simp [EStateM.Result.map, Frame.CarriesHeaders, hd]
  | bodyRequest hd => simp [EStateM.Result.map, Frame.CarriesHeaders, hd]
  | rejected _ hrun _ | fragment _ hrun _ | block _ hrun _ | blockRequest _ hrun _ =>
    simpa [EStateM.Result.map] using fun _ => offset_add_padding_lt_of_parse_ok hrun

/-- Every exception that leaves a call is caught exactly if a header that is due is there and
announces a permitted length, and every frame with headers has an octet of them in front of its
padding. -/
theorem caught_iff (hregular : k.before.Regular) :
    (∀ e ∈ k.raised, caught e) ↔ k.HeaderReadable ∧ k.PayloadReadable := by
  by_cases hheader : k.HeaderReadable
  · cases hframe : k.frame with
    | none =>
      have hpayload : k.PayloadReadable := by simp [Call.PayloadReadable, hframe]
      exact iff_of_true (caught_of_no_frame hregular hframe hheader) ⟨hheader, hpayload⟩
    | some frame => simp only [caught_of_frame_iff hframe, hheader, true_and]
  · simp only [hheader, false_and, iff_false]
    exact not_caught_of_header hheader

/-- The process survives a call exactly if a header that is due is there and announces a permitted
length, every frame with headers has an octet of them in front of its padding, and no query has a
`%` in front of a number. -/
theorem survives_iff (hregular : k.before.Regular) (hbefore : k.before.overrun = false) :
    k.Survives ↔ k.HeaderReadable ∧ k.PayloadReadable ∧ k.QueryReadable := by
  rw [k.survives_iff_raised, caught_iff hregular, overrun_after_eq_false_iff hbefore, and_assoc]

/-- The server survives all the calls of `on_read` exactly if each of them finds a header that is
due, headers in every frame that carries them, and a query without a number behind a `%` in every
request. -/
theorem survives_calls_iff (table : Hpack.StaticTable) (ch : Octet) (packet : Octets)
    (packets : List Octets) (bs : List Behaviour) :
    (∀ k ∈ (Server.accept table ch packet packets).calls bs, k.Survives) ↔
      ∀ k ∈ (Server.accept table ch packet packets).calls bs,
        k.HeaderReadable ∧ k.PayloadReadable ∧ k.QueryReadable := by
  -- every state of the run is one of the three in which `process` knows what to do, and there has
  -- been no store past the variable as long as the server survives
  refine (Server.run_accept table ch packet packets bs).forall_mem_iff
    (I := fun c => c.Regular ∧ c.overrun = false) ⟨.inl rfl, rfl⟩
    (fun k hk => survives_iff hk.1 hk.2) fun k hk hsurvives => ?_
  exact ⟨hk.1.after, (k.survives_iff_raised.mp hsurvives).2⟩

/-- A request for `/?a=%2541`. -/
example :
    ∃ k ∈ (Server.accept Hpack.staticHeaderTable 0
      (handshake ++ Frame.wire ⟨12, .headers, Headers.endHeaders ||| Headers.endStream, 1,
        [0x82, 0x04, 0x09] ++ octets "/?a=%2541"⟩) []).calls (List.replicate 3 .returned),
      k.fault = some .overrun := by
  decide +kernel

/-- A frame header that is cut short takes the process down. -/
theorem not_survives :
    ¬ ∀ (table : Hpack.StaticTable) (ch : Octet) (packet : Octets) (packets : List Octets)
      (bs : List Behaviour),
      ∀ k ∈ (Server.accept table ch packet packets).calls bs, k.Survives := by
  intro h
  have hcalls := h Hpack.staticHeaderTable 0 (handshake ++ [0x00]) [] (List.replicate 3 .returned)
  exact absurd hcalls (by decide)

end H2

end Rite
