import Rite.H2.Step
import Rite.ToMathlib.Run

/-!
# The read loop of the server (`rite::server<https>::on_read`)

`on_read` calls `process` over and over on the rest of a packet, hands the requests to the
endpoint, and reads the next packet at `eEof` or behind an exception that it catches. How the
endpoint ends a call of `handle` is not determined by this code, so a run is given by a list of
packets and, for every call of `process`, by how the endpoint would end. The responses of the
endpoint go out on the same socket, but they change nothing that `process` reads.

A packet is a list of octets of any length. The `assert(pos == end)` behind the loop never fails:
`process` returns `eEof` at the end of the packet only.

## Main results

* `Server.run_calls`: the calls of `on_read` are a run of the connection;
* `Call.result_of_frame`, `Call.result_of_no_frame`: what a call can do;
* `Call.mem_streams_after`, `Call.Delivers.frame`: which streams there are behind a call, and for
  which of them it can deliver a request.
-/

namespace Rite

namespace H2

open Connection (final HandleEnd QuietEnd)

/-- How the endpoint ends a call of `handle`. -/
inductive Behaviour
  | returned
  /-- A `std::exception`. -/
  | stdException
  /-- `rite::http::layer::error`. -/
  | layerError
  deriving DecidableEq

/-- A call of `process` in `on_read`. -/
structure Call where
  /-- The connection in front of the call. -/
  before : Connection
  /-- The rest of the packet. -/
  input : Octets
  /-- How the endpoint ends, should it get a request. -/
  behaviour : Behaviour

namespace Call

/-- How `process` ends. -/
def result (k : Call) : EStateM.Result Fault Connection (Result × Octets) :=
  (Connection.process k.input).run k.before

/-- The connection behind the call, and behind the handler of `on_read` if it catches a
`std::exception`. -/
def after (k : Call) : Connection :=
  match k.result with
  -- the handler of `on_read` closes the connection of an endpoint that throws
  | .ok (.newRequest, _) c => if k.behaviour = .stdException then { c with closed := true } else c
  | .ok _ c => c
  | .error (.std _) c => { c with closed := true }
  | .error _ c => c

/-- The frame that the call handles in the state `IDLE`, if there is one. -/
def frame (k : Call) : Option Frame := (k.before.handled k.input).map Prod.fst

/-- What `process` returns, if it does. -/
def returned (k : Call) : Option Result :=
  match k.result with
  | .ok (r, _) _ => some r
  | .error _ _ => none

/-- The request that is there when `process` returns `eNewRequest`. -/
def delivered (k : Call) : Option Request :=
  match k.result with
  | .ok (.newRequest, _) c => c.request
  | _ => none

/-- `process` returns `eNewRequest` for the stream `id`. -/
def Delivers (k : Call) (id : UInt32) : Prop := k.delivered.bind Request.streamId = some id

instance (k : Call) (id : UInt32) : Decidable (k.Delivers id) := inferInstanceAs (Decidable (_ = _))

end Call

namespace Connection

/-- The request that a call of `process` with the result `r` has delivered. -/
def requests (r : Result) (c : Connection) : List Request :=
  if r = .newRequest then c.request.toList else []

/-- The inner loop of `on_read` with an endpoint that returns, and a bound on its iterations: the
requests until `eEof`. -/
def drain : ℕ → Octets → ConnectionM (List Request)
  | 0, _ => return []
  | n + 1, pos => do
    let (r, rest) ← process pos
    if r = .eof then return []
    let delivered := requests r (← get)
    return delivered ++ (← drain n rest)

/-- A packet in `on_read`. Every call of `process` takes an octet, so their number bounds the
loop. -/
def receive (packet : Octets) : ConnectionM (List Request) := drain (packet.length + 1) packet

/-- Packets, one after the other. -/
def receiveAll : List Octets → ConnectionM (List Request)
  | [] => return []
  | packet :: packets => do
    let requests ← receive packet
    return requests ++ (← receiveAll packets)

end Connection

/-- A connection in `on_read`, in front of a call of `process`. -/
structure Server where
  /-- The connection. -/
  conn : Connection
  /-- The rest of the packet. -/
  pos : Octets
  /-- The packets that are still to come. -/
  packets : List Octets

namespace Server

/-- A new connection, with the packets that its peer sends. -/
def accept (table : Hpack.StaticTable) (ch : Octet) (packet : Octets) (packets : List Octets) :
    Server :=
  ⟨.fresh table ch, packet, packets⟩

/-- The next packet. -/
def receive (conn : Connection) : List Octets → Option Server
  | [] => none
  | packet :: packets => some ⟨conn, packet, packets⟩

/-- The call that comes next. -/
def call (s : Server) (b : Behaviour) : Call := ⟨s.conn, s.pos, b⟩

/-- Where `on_read` goes behind a call; `none` if there are no more packets, or no more server. -/
def next (s : Server) (b : Behaviour) : Option Server :=
  let k := s.call b
  match k.result with
  | .ok (.eof, _) _ => receive k.after s.packets
  | .ok (.newRequest, rest) _ =>
    if b = .returned then some ⟨k.after, rest, s.packets⟩ else receive k.after s.packets
  | .ok (_, rest) _ => some ⟨k.after, rest, s.packets⟩
  -- the rest of the packet is lost with the exception
  | .error (.std _) _ => receive k.after s.packets
  | .error _ _ => none

/-- The calls of `process`, one for each element of the list, as long as there are any. -/
def calls : Server → List Behaviour → List Call
  | _, [] => []
  | s, b :: bs =>
    s.call b ::
      match s.next b with
      | some s' => s'.calls bs
      | none => []

theorem calls_cons (s : Server) (b : Behaviour) (bs : List Behaviour) :
    s.calls (b :: bs) = s.call b ::
      match s.next b with
      | some s' => s'.calls bs
      | none => [] := rfl

/-- The connection goes on from where the call has left it. -/
theorem conn_of_next {s s' : Server} {b : Behaviour} (h : s.next b = some s') :
    s'.conn = (s.call b).after := by
  have hreceive : ∀ {c packets}, receive c packets = some s' → s'.conn = c := by
    intro c packets hr
    unfold receive at hr
    split at hr
    · cases hr
    · cases hr
      rfl
  -- each branch goes on with the connection behind the call, if it goes on
  simp only [next] at h
  generalize (s.call b).result = r at h
  cases r with
  | ok v c =>
    obtain ⟨r, rest⟩ := v
    cases r with
    | eof => exact hreceive h
    | newRequest =>
      by_cases hb : b = .returned
      · simp only [hb, if_true] at h
        cases h
        rw [hb]
      · simp only [hb, if_false] at h
        exact hreceive h
    | _ =>
      cases h
      rfl
  | error e c =>
    cases e with
    | std e => exact hreceive h
    | _ => cases h

/-- The calls of `on_read` are a run of the connection. -/
theorem run_calls (s : Server) (bs : List Behaviour) :
    Run Call.before Call.after s.conn (s.calls bs) := by
  induction bs generalizing s with
  | nil => exact .nil _
  | cons b bs ih =>
    rw [calls_cons]
    refine .cons rfl ?_
    cases hnext : s.next b with
    | none => exact .nil _
    | some s' =>
      rw [← conn_of_next hnext]
      exact ih s'

/-- The calls on a new connection are a run from the fresh state. -/
theorem run_accept (table : Hpack.StaticTable) (ch : Octet) (packet : Octets)
    (packets : List Octets) (bs : List Behaviour) :
    Run Call.before Call.after (.fresh table ch) ((accept table ch packet packets).calls bs) :=
  run_calls (accept table ch packet packets) bs

end Server

/-! ## What a call can do -/

namespace Call

variable {k : Call}

/-- A call that has a frame handles it. -/
theorem result_of_frame {frame : Frame} (h : k.frame = some frame) :
    k.before.state = .idle ∧
      ∃ rest r, HandleEnd frame k.before.ready r ∧ k.result = r.map (·, rest) := by
  obtain ⟨⟨frame', rest⟩, hhandled, rfl⟩ := Option.map_eq_some_iff.mp h
  obtain ⟨hidle, hrun⟩ := Connection.process_of_handled hhandled
  exact ⟨hidle, rest, _, Connection.handle_cases frame' _, hrun⟩

/-- A call that has none only works on the connection itself. -/
theorem result_of_no_frame (h : k.frame = none) : QuietEnd k.before k.input k.result :=
  Connection.process_cases (Option.map_eq_none_iff.mp h)

/-- The handler of `on_read` at most closes the connection. -/
theorem after_eq (k : Call) :
    ∃ closed, k.after = { final k.result with closed } ∧ ((final k.result).closed → closed) := by
  unfold after
  split
  next hresult =>
    rw [hresult]
    split_ifs
    · exact ⟨true, rfl, fun _ => rfl⟩
    · exact ⟨_, rfl, id⟩
  next hresult =>
    rw [hresult]
    exact ⟨_, rfl, id⟩
  next hresult =>
    rw [hresult]
    exact ⟨true, rfl, fun _ => rfl⟩
  next hresult =>
    rw [hresult]
    exact ⟨_, rfl, id⟩

/-- The fields that the handler of `on_read` leaves alone. -/
theorem streams_after (k : Call) : k.after.streams = (final k.result).streams := by
  obtain ⟨closed, hafter, -⟩ := k.after_eq
  rw [hafter]

theorem state_after (k : Call) : k.after.state = (final k.result).state := by
  obtain ⟨closed, hafter, -⟩ := k.after_eq
  rw [hafter]

theorem headers_after (k : Call) : k.after.headers = (final k.result).headers := by
  unfold Connection.headers Connection.stream
  rw [streams_after]

theorem rx_after (k : Call) : k.after.rx = (final k.result).rx := by
  obtain ⟨closed, hafter, -⟩ := k.after_eq
  rw [hafter]

theorem written_after (k : Call) : k.after.written = (final k.result).written := by
  obtain ⟨closed, hafter, -⟩ := k.after_eq
  rw [hafter]

theorem request_after (k : Call) : k.after.request = (final k.result).request := by
  obtain ⟨closed, hafter, -⟩ := k.after_eq
  rw [hafter]

theorem closed_after_of_final (h : (final k.result).closed) : k.after.closed := by
  obtain ⟨closed, hafter, hclosed⟩ := k.after_eq
  rw [hafter]
  exact hclosed h

theorem final_map {α β : Type} (r : EStateM.Result Fault Connection α) (g : α → β) :
    final (r.map g) = final r := by
  cases r <;> rfl

/-- A call without a frame leaves the decoder, the streams and the request alone. -/
theorem after_of_no_frame (h : k.frame = none) :
    k.after.rx = k.before.rx ∧ k.after.streams = k.before.streams ∧
      k.after.request = k.before.request := by
  rw [rx_after, streams_after, request_after]
  have hquiet := result_of_no_frame h
  generalize k.result = r at hquiet
  cases hquiet <;> exact ⟨rfl, rfl, rfl⟩

/-- What a call with a frame does to the connection, but for the handler of `on_read`. -/
theorem effect_of_frame {frame : Frame} (h : k.frame = some frame) :
    Connection.Effect frame k.before.ready (final k.result) := by
  obtain ⟨-, rest, r, hend, hresult⟩ := result_of_frame h
  rw [hresult, final_map]
  exact hend.effect

/-- Every frame that is handled has a stream from then on, and nothing else creates one. -/
theorem mem_streams_after (k : Call) (id : UInt32) :
    id ∈ k.after.streams ↔
      (∃ frame, k.frame = some frame ∧ frame.streamIdentifier = id) ∨ id ∈ k.before.streams := by
  cases h : k.frame with
  | none => simp [(after_of_no_frame h).2.1]
  | some frame =>
    -- `streams_` is subscripted with the identifier of every frame
    rw [streams_after, (effect_of_frame h).mem_streams]
    simp [eq_comm, Connection.ready]

/-- Once the connection is closed it stays so. -/
theorem closed_after (h : k.before.closed) : k.after.closed := by
  refine closed_after_of_final ?_
  cases hframe : k.frame with
  | some frame => exact (effect_of_frame hframe).closed h
  | none =>
    have hquiet := result_of_no_frame hframe
    generalize k.result = r at hquiet
    cases hquiet
    case invalid => rfl
    case unreadable => rfl
    all_goals exact h

theorem returned_eq_some_iff {r : Result} :
    k.returned = some r ↔ ∃ rest c, k.result = .ok (r, rest) c := by
  unfold returned
  split
  next hresult => simp [hresult]
  next hresult => simp [hresult]

/-- `eInvalid` comes with `terminate`. -/
theorem closed_of_invalid (h : k.returned = some .invalid) : k.after.closed := by
  refine closed_after_of_final ?_
  -- of all the ways in which a call ends, two return `eInvalid`
  obtain ⟨rest, c, hresult⟩ := returned_eq_some_iff.mp h
  cases hframe : k.frame with
  | none =>
    have hquiet := result_of_no_frame hframe
    rw [hresult] at hquiet ⊢
    cases hquiet
    rfl
  | some frame =>
    obtain ⟨-, rest', r, hend, hr⟩ := result_of_frame hframe
    rw [hresult] at hr ⊢
    cases hend with
    | control _ _ hctl => rcases hctl with rfl | rfl <;> cases hr
    | rejected =>
      cases hr
      rfl
    | _ => cases hr

/-- `eNewRequest` comes for a frame with END_STREAM only. -/
theorem frame_of_newRequest (h : k.returned = some .newRequest) :
    ∃ frame rest c, k.frame = some frame ∧ frame.EndsStream ∧
      HandleEnd frame k.before.ready (.ok .newRequest c) ∧
      k.result = .ok (.newRequest, rest) c := by
  obtain ⟨rest, c, hresult⟩ := returned_eq_some_iff.mp h
  cases hframe : k.frame with
  | none =>
    have hquiet := result_of_no_frame hframe
    rw [hresult] at hquiet
    cases hquiet
  | some frame =>
    obtain ⟨-, rest', r, hend, hr⟩ := result_of_frame hframe
    rw [hresult] at hr
    cases r with
    | error e c' => cases hr
    | ok v c' =>
      cases hr
      refine ⟨frame, rest, c, rfl, ?_, hend, hresult⟩
      rcases hend.newRequest_cases with ⟨hd, hflag, -⟩ | ⟨hh, hflag, -⟩
      · exact ⟨.inr hd, hflag⟩
      · exact ⟨.inl hh, hflag⟩

/-- The request is then made of a stream with the identifier of the frame. -/
theorem frame_of_delivered {request : Request} (h : k.delivered = some request) :
    ∃ frame rest c, k.frame = some frame ∧ frame.EndsStream ∧
      HandleEnd frame k.before.ready (.ok .newRequest c) ∧
      k.result = .ok (.newRequest, rest) c ∧ c.request = some request ∧
      request.streamId = some frame.streamIdentifier := by
  have hreturned : k.returned = some .newRequest := by
    unfold delivered at h
    split at h
    next hresult => simp [returned, hresult]
    next => cases h
  obtain ⟨frame, rest, c, hframe, hends, hend, hresult⟩ := frame_of_newRequest hreturned
  have hrequest : c.request = some request := by simpa [delivered, hresult] using h
  refine ⟨frame, rest, c, hframe, hends, hend, hresult, hrequest, ?_⟩
  rcases hend.newRequest_cases with ⟨-, -, rfl⟩ | ⟨-, -, rx, -, rfl⟩
  all_goals
    cases hrequest
    exact finishStream_streamId _ _

theorem Delivers.frame {id : UInt32} (h : k.Delivers id) :
    ∃ frame, k.frame = some frame ∧ frame.EndsStream ∧ frame.streamIdentifier = id := by
  obtain ⟨request, hrequest, hid⟩ := Option.bind_eq_some_iff.mp h
  obtain ⟨frame, -, -, hframe, hends, -, -, -, hid'⟩ := frame_of_delivered hrequest
  exact ⟨frame, hframe, hends, Option.some_inj.mp (hid'.symm.trans hid)⟩

end Call

end H2

end Rite
