import Rite.Http.Parser
import Rite.Server.ReadBack
import Rite.ToMathlib.Inevitable
import Rite.ToMathlib.Transition

/-!
# Connections of HTTP/1.1 that stay open

Each event on a connection makes a call of `on_read`, which reads once and takes what it has read
for a whole request. The response callback of a request writes while other calls read and other
callbacks write. The `n`-th request gets the response that `serve` says for it.

A client may use the connection for more than one request. It sends the next one when it has read
the responses to those before, and each in one piece that is read at once. The connection is not
closed in the meantime. A store past the variable of `decode_uri_component` is the end of the
server.

## Main results

* `Kept.step`: a step keeps what has been written, and that only the last callback still writes;
* `kept_alive`: the client reads the responses to its requests, in their order;
* `inevitable_kept_alive`: all requests are answered in the end.
-/

namespace Rite

namespace Http

/-- The buffers that are written for a channel. -/
def bodyChunks : List Buffer → List Octets
  | [] => []
  | slice :: channel => slice.data :: if slice.last then [] else bodyChunks channel

/-- What the callback writes for a response. -/
def chunks (r : Response) : List Octets := headerSection r :: bodyChunks r.channel

theorem flatten_bodyChunks (channel : List Buffer) :
    (bodyChunks channel).flatten = body channel := by
  induction channel with
  | nil => rfl
  | cons slice channel ih =>
    rw [bodyChunks, body, List.flatten_cons]
    split_ifs
    · rfl
    · rw [ih]

theorem flatten_chunks (r : Response) : (chunks r).flatten = Rfc7230.text r := by
  rw [chunks, List.flatten_cons, flatten_bodyChunks, Rfc7230.text]

/-- The callback writes this, whether it comes to its end or waits for another buffer. -/
theorem exists_respond_run (results : ℕ → ℤ) (r : Response) :
    (∃ later, (respond results r).run [] = .ok later (chunks r)) ∨
      (respond results r).run [] = .error .waiting (chunks r) := by
  have hbody : ∀ (channel : List Buffer) (written : List Octets),
      (∃ later, (sendBody results channel).run written =
        .ok later (written ++ bodyChunks channel)) ∨
      (sendBody results channel).run written =
        .error .waiting (written ++ bodyChunks channel) := by
    intro channel
    induction channel with
    | nil => exact fun written => .inr (by rw [bodyChunks, List.append_nil]; rfl)
    | cons slice channel ih =>
      intro written
      simp only [sendBody, bodyChunks, EStateM.run_bind, CallbackM.write_run]
      by_cases hlast : slice.last
      · simp [hlast]
      · simpa [hlast] using ih (written ++ [slice.data])
  simpa [respond, chunks, EStateM.run_bind, CallbackM.write_run] using
    hbody r.channel [headerSection r]

end Http

namespace KeepAlive

open Http (chunks)
open Rfc7230 (Framed Message Named message messageOf text)

/-- A connection, its client, and the response callbacks. -/
structure State where
  /-- The requests that the client has not sent. -/
  packets : List Octets
  /-- The number of those that it has sent. -/
  sent : ℕ := 0
  /-- What has arrived, and has not been read. -/
  arrived : Octets := []
  /-- The requests that have been passed to `handle`. -/
  requests : List Request := []
  /-- What the callback of each request has still to write. -/
  pending : List (List Octets) := []
  /-- What has been written. -/
  output : Octets := []

/-- What the client and the threads of the server do. -/
inductive Action
  /-- The client sends its next request. -/
  | send
  /-- A call of `on_read` reads, and passes what it has read to `handle` if it is a request. -/
  | read
  /-- The callback of the `n`-th request writes. -/
  | write (n : ℕ)
  deriving DecidableEq

/-- The responses that the client has read. -/
def State.received (s : State) : List Message := ListReader.readable message s.sent s.output

/-- The size of the buffer of `on_read`. -/
def bufferSize : ℕ := 16384

/-- What a step does, if it is possible. -/
def step (ch : Octet) (serve : ℕ → Request → Response) (s : State) : Action → Option State
  | .send =>
    match s.packets with
    | [] => none
    | packet :: packets =>
      -- the client waits for all responses
      if s.received.length = s.sent then
        some { s with packets, sent := s.sent + 1, arrived := s.arrived ++ packet }
      else none
  | .read =>
    -- nothing to read, or no server any more
    if s.arrived = [] ∨ Http.overruns ch (s.arrived.take bufferSize) then none
    else
      let (success, request) := Http.parse ch (s.arrived.take bufferSize) {}
      let arrived := s.arrived.drop bufferSize
      if success then
        some { s with
          arrived
          requests := s.requests ++ [request]
          pending := s.pending ++ [chunks (serve s.requests.length request)] }
      -- there is no response to an invalid request
      else some { s with arrived }
  | .write n =>
    match s.pending[n]? with
    | some (chunk :: rest) =>
      some { s with pending := s.pending.set n rest, output := s.output ++ chunk }
    | _ => none

/-- A new connection, with a client that is going to make requests. -/
def State.fresh (packets : List Octets) : State where
  packets

section Step

variable {ch : Octet} {serve : ℕ → Request → Response} {s s' : State} {a : Action}

/-- Everything that a step can do. -/
theorem step_cases (h : step ch serve s a = some s') :
    (a = .send ∧ s.received.length = s.sent ∧ ∃ packet packets, s.packets = packet :: packets ∧
      s' = { s with packets, sent := s.sent + 1, arrived := s.arrived ++ packet }) ∨
    (a = .read ∧ s.arrived ≠ [] ∧
      ((∃ request, Http.parse ch (s.arrived.take bufferSize) {} = (true, request) ∧
        s' = { s with
          arrived := s.arrived.drop bufferSize
          requests := s.requests ++ [request]
          pending := s.pending ++ [chunks (serve s.requests.length request)] }) ∨
      (Http.parse ch (s.arrived.take bufferSize) {}).1 = false ∧
        s' = { s with arrived := s.arrived.drop bufferSize })) ∨
    ∃ before chunk rest after, a = .write before.length ∧
      s.pending = before ++ (chunk :: rest) :: after ∧
      s' = { s with pending := before ++ rest :: after, output := s.output ++ chunk } := by
  cases a with
  | send =>
    simp only [step] at h
    split at h
    · cases h
    next packet packets hpackets =>
      split_ifs at h with hwait
      exact .inl ⟨rfl, hwait, packet, packets, hpackets, (Option.some_inj.mp h).symm⟩
  | read =>
    simp only [step] at h
    split_ifs at h with harrived hsuccess
    · exact .inr (.inl ⟨rfl, mt Or.inl harrived, .inl ⟨_, Prod.ext hsuccess rfl,
        (Option.some_inj.mp h).symm⟩⟩)
    · exact .inr (.inl ⟨rfl, mt Or.inl harrived, .inr ⟨by simpa using hsuccess,
        (Option.some_inj.mp h).symm⟩⟩)
  | write n =>
    simp only [step] at h
    split at h
    next chunk rest hpending =>
      obtain ⟨hn, hget⟩ := List.getElem?_eq_some_iff.mp hpending
      have hlength : (s.pending.take n).length = n := by
        rw [List.length_take, min_eq_left hn.le]
      refine .inr (.inr ⟨s.pending.take n, chunk, rest, s.pending.drop (n + 1), ?_, ?_, ?_⟩)
      · rw [hlength]
      · rw [← hget, List.getElem_cons_drop, List.take_append_drop]
      · rw [← Option.some_inj.mp h, List.set_eq_take_append_cons_drop, if_pos hn]
    next => cases h

/-- What a client sends: it is not empty, a call of `on_read` reads it at once, and it is a
request, the query of which does not make the server store past the variable of
`decode_uri_component`. -/
structure IsRequest (ch : Octet) (packet : Octets) : Prop where
  /-- There is something to read. -/
  ne_nil : packet ≠ []
  /-- It fits into the buffer. -/
  fits : packet.length ≤ bufferSize
  /-- It can be parsed. -/
  parses : (Http.parse ch packet {}).1 = true
  /-- No key or value of its query has a `%` in front of a number. -/
  readable : Http.overruns ch packet = false

/-- A response that a client can read. -/
structure Readable (r : Response) : Prop where
  /-- The names of the headers are tokens. -/
  named : Named r.headers
  /-- The client finds the end of the body. -/
  framed : Framed r

/-- The request in a packet. -/
def requestOf (ch : Octet) (packet : Octets) : Request := (Http.parse ch packet {}).2

/-- The responses to packets. -/
def responses (ch : Octet) (serve : ℕ → Request → Response) (packets : List Octets) :
    List Response :=
  packets.mapIdx fun n packet => serve n (requestOf ch packet)

/-- What the steps keep, for a client that sends the packets `total`. -/
structure Kept (ch : Octet) (serve : ℕ → Request → Response) (total : List Octets)
    (s : State) : Prop where
  /-- The packets that have not been sent. -/
  unsent : s.packets = total.drop s.sent
  /-- There are as many that have been. -/
  sent : s.sent ≤ total.length
  /-- The requests are those of the first packets. -/
  requests : s.requests = (total.take s.requests.length).map (requestOf ch)
  /-- All packets that have been sent have been read; or the last one has not, and there is nothing
  to be written. -/
  arrived : s.arrived = [] ∧ s.requests.length = s.sent ∨
    total[s.requests.length]? = some s.arrived ∧ s.requests.length + 1 = s.sent ∧
      s.pending.flatten.flatten = []
  /-- Only the last callback still writes. -/
  early : s.pending.dropLast.flatten.flatten = []
  /-- What has been written and what has not are the responses to the requests. -/
  output : s.output ++ s.pending.flatten.flatten =
    ((responses ch serve total).take s.requests.length).flatMap text

/-- Before the first step. -/
theorem kept_fresh (total : List Octets) : Kept ch serve total (.fresh total) where
  unsent := rfl
  sent := Nat.zero_le _
  requests := rfl
  arrived := .inl ⟨rfl, rfl⟩
  early := rfl
  output := rfl

variable {total : List Octets}

theorem length_responses : (responses ch serve total).length = total.length := by
  simp [responses]

/-- Reading fails where there is nothing to read. -/
theorem message_nil : message [] = .error () := rfl

namespace Kept

/-- The client reads the first of the responses; if it has read them all, they have been written. -/
theorem received (hs : Kept ch serve total s)
    (hreadable : ∀ r ∈ responses ch serve total, Readable r) :
    s.received <+: ((responses ch serve total).take s.requests.length).map messageOf ∧
      (s.requests.length ≤ s.received.length → s.pending.flatten.flatten = []) := by
  have hmem : ∀ r ∈ (responses ch serve total).take s.requests.length, Readable r :=
    fun r hr => hreadable r (List.take_subset _ _ hr)
  have hall : ListReader.Many message (s.output ++ s.pending.flatten.flatten)
      (((responses ch serve total).take s.requests.length).map messageOf) [] := by
    have hmany : ListReader.Many message (_ ++ []) _ [] :=
      (Rfc7230.many_iff fun r hr => (hmem r hr).named).mpr fun r hr => (hmem r hr).framed
    rwa [List.append_nil, ← hs.output] at hmany
  obtain ⟨rest, hread⟩ := ListReader.exists_many_readable message s.sent s.output
  have hmore := hread.append_right Rfc7230.extends_message s.pending.flatten.flatten
  have hfirst := hmore.isPrefix hall message_nil
  refine ⟨hfirst, fun hle => ?_⟩
  -- as many messages are all of them, and then nothing is left
  have hlength := hfirst.length_le
  have hcount : (((responses ch serve total).take s.requests.length).map messageOf).length ≤
      s.requests.length := by
    rw [List.length_map]
    exact List.length_take_le _ _
  obtain ⟨-, hrest⟩ := hmore.unique hall (le_antisymm hlength (hcount.trans hle))
  exact (List.append_eq_nil_iff.mp hrest).2

/-- Where the client has read as many responses as it has sent requests, nothing is left to be
done. -/
theorem quiet (hs : Kept ch serve total s)
    (hreadable : ∀ r ∈ responses ch serve total, Readable r)
    (hwait : s.received.length = s.sent) :
    s.arrived = [] ∧ s.requests.length = s.sent ∧ s.pending.flatten.flatten = [] := by
  obtain ⟨hfirst, hwritten⟩ := hs.received hreadable
  have hle := hfirst.length_le
  rw [List.length_map] at hle
  have hcount := hle.trans (List.length_take_le _ _)
  rcases hs.arrived with ⟨harrived, hsent⟩ | ⟨-, hsent, -⟩
  · exact ⟨harrived, hsent, hwritten (by omega)⟩
  · omega

/-- A packet that has arrived is read as a request. -/
theorem parse (hs : Kept ch serve total s) (hpackets : ∀ packet ∈ total, IsRequest ch packet)
    (harrived : s.arrived ≠ []) :
    total[s.requests.length]? = some s.arrived ∧ s.requests.length + 1 = s.sent ∧
      s.pending.flatten.flatten = [] ∧ s.arrived.drop bufferSize = [] ∧
      Http.parse ch (s.arrived.take bufferSize) {} = (true, requestOf ch s.arrived) ∧
      Http.overruns ch (s.arrived.take bufferSize) = false := by
  rcases hs.arrived with ⟨hnil, -⟩ | ⟨hpacket, hsent, hpending⟩
  · exact absurd hnil harrived
  · have hrequest := hpackets _ (List.mem_of_getElem? hpacket)
    rw [List.take_of_length_le hrequest.fits, List.drop_of_length_le hrequest.fits]
    exact ⟨hpacket, hsent, hpending, rfl, Prod.ext hrequest.parses rfl, hrequest.readable⟩

/-- The response to it is the next one. -/
theorem getElem?_responses (hs : Kept ch serve total s)
    (hpackets : ∀ packet ∈ total, IsRequest ch packet) (harrived : s.arrived ≠ []) :
    (responses ch serve total)[s.requests.length]? =
      some (serve s.requests.length (requestOf ch s.arrived)) := by
  rw [responses, List.getElem?_mapIdx, (hs.parse hpackets harrived).1]
  rfl

/-- A packet that is sent next has not been sent. -/
theorem sent_lt (hs : Kept ch serve total s) {packet : Octets} {rest : List Octets}
    (hnext : s.packets = packet :: rest) : s.sent < total.length := by
  by_contra hge
  rw [hs.unsent, List.drop_of_length_le (not_lt.mp hge)] at hnext
  cases hnext

/-- A step keeps what has been written, and that only the last callback still writes. -/
theorem step (hs : Kept ch serve total s) (hpackets : ∀ packet ∈ total, IsRequest ch packet)
    (hreadable : ∀ r ∈ responses ch serve total, Readable r)
    (h : step ch serve s a = some s') : Kept ch serve total s' := by
  rcases step_cases h with ⟨-, hwait, packet, rest, hnext, rfl⟩ | ⟨-, harrived, hread⟩ |
    ⟨before, chunk, rest, after, -, hpending, rfl⟩
  · -- the packet is the one behind those that have been sent
    obtain ⟨hnil, hsent, hwritten⟩ := hs.quiet hreadable hwait
    have hdrop : total.drop s.sent = packet :: rest := hs.unsent.symm.trans hnext
    have hget : total[s.sent]? = some packet := by
      rw [← List.head?_drop, hdrop]
      rfl
    refine ⟨?_, hs.sent_lt hnext, hs.requests, .inr ⟨?_, by rw [hsent], hwritten⟩, hs.early,
      hs.output⟩
    · rw [← List.drop_drop, hdrop]
      rfl
    · rw [hsent, hnil, List.nil_append, hget]
  · -- the packet makes one more request, and the chunks of its response are pending
    obtain ⟨hpacket, hsent, hwritten, hdrop, hparse, -⟩ := hs.parse hpackets harrived
    rcases hread with ⟨request, hrequest, rfl⟩ | ⟨hfails, -⟩
    · obtain rfl : requestOf ch s.arrived = request :=
        (Prod.mk.inj (hparse.symm.trans hrequest)).2
      have hresponse := hs.getElem?_responses hpackets harrived
      have hlength : (s.requests ++ [requestOf ch s.arrived]).length = s.requests.length + 1 := by
        simp
      refine ⟨hs.unsent, hs.sent, ?_, .inl ⟨hdrop, hlength.trans hsent⟩, ?_, ?_⟩
      · dsimp only
        rw [hlength, List.take_add_one, hpacket, List.map_append, ← hs.requests]
        rfl
      · simpa using hwritten
      · have houtput := hs.output
        rw [hwritten, List.append_nil] at houtput
        dsimp only
        rw [hlength, List.take_add_one, hresponse, List.flatMap_append, ← houtput,
          List.flatten_append, List.flatten_append, hwritten]
        simp [Http.flatten_chunks]
    · rw [hparse] at hfails
      cases hfails
  · -- the callback that writes is the last one that has anything to write
    have hdropLast : ∀ x, (before ++ x :: after).dropLast = before ++ (x :: after).dropLast :=
      fun x => List.dropLast_append_cons
    have hearly := hs.early
    have houtput := hs.output
    rw [hpending, hdropLast] at hearly
    rw [hpending] at houtput
    have hbefore : before.flatten.flatten = [] := by
      rw [List.flatten_append, List.flatten_append] at hearly
      exact (List.append_eq_nil_iff.mp hearly).1
    refine ⟨hs.unsent, hs.sent, hs.requests, ?_, ?_, ?_⟩
    · refine hs.arrived.imp_right fun ⟨hpacket, hsent, hwritten⟩ => ⟨hpacket, hsent, ?_⟩
      rw [hpending] at hwritten
      simp only [List.flatten_append, List.flatten_cons, List.append_eq_nil_iff] at hwritten ⊢
      exact ⟨hwritten.1, hwritten.2.1.2, hwritten.2.2⟩
    · dsimp only
      rw [hdropLast]
      cases after with
      | nil => simpa using hbefore
      | cons y after =>
        simp only [List.dropLast_cons_cons, List.flatten_append, List.flatten_cons,
          List.append_eq_nil_iff] at hearly ⊢
        exact ⟨hearly.1, hearly.2.1.2, hearly.2.2⟩
    · rw [← houtput]
      simp [hbefore]

/-- Where everything has been written, the client reads the responses to all requests. -/
theorem received_eq (hs : Kept ch serve total s)
    (hreadable : ∀ r ∈ responses ch serve total, Readable r)
    (hwritten : s.pending.flatten.flatten = []) :
    s.received = ((responses ch serve total).take s.requests.length).map messageOf := by
  have hmem : ∀ r ∈ (responses ch serve total).take s.requests.length, Readable r :=
    fun r hr => hreadable r (List.take_subset _ _ hr)
  have hall : ListReader.Many message s.output
      (((responses ch serve total).take s.requests.length).map messageOf) [] := by
    have hmany : ListReader.Many message (_ ++ []) _ [] :=
      (Rfc7230.many_iff fun r hr => (hmem r hr).named).mpr fun r hr => (hmem r hr).framed
    rwa [List.append_nil, ← hs.output, hwritten, List.append_nil] at hmany
  have hle : s.requests.length ≤ s.sent := by
    rcases hs.arrived with ⟨-, hsent⟩ | ⟨-, hsent, -⟩ <;> omega
  have hcount : (((responses ch serve total).take s.requests.length).map messageOf).length ≤
      s.sent := by
    rw [List.length_map]
    exact (List.length_take_le _ _).trans hle
  exact (hs.received hreadable).1.eq_of_length_le
    (ListReader.isPrefix_readable hall hcount).length_le

end Kept

/-- What is still to be done: sending, reading, and writing. -/
def State.work (ch : Octet) (serve : ℕ → Request → Response) (total : List Octets) (s : State) :
    ℕ :=
  (total.length - s.sent) +
    (((responses ch serve total).drop s.requests.length).map fun r => (chunks r).length + 1).sum +
    (s.pending.map List.length).sum

namespace Kept

/-- Every step does some of it. -/
theorem work_lt (hs : Kept ch serve total s) (hpackets : ∀ packet ∈ total, IsRequest ch packet)
    (h : KeepAlive.step ch serve s a = some s') :
    s'.work ch serve total < s.work ch serve total := by
  rcases step_cases h with ⟨-, -, packet, rest, hnext, rfl⟩ | ⟨-, harrived, hread⟩ |
    ⟨before, chunk, rest, after, -, hpending, rfl⟩
  · have hlt := hs.sent_lt hnext
    simp only [State.work]
    omega
  · obtain ⟨-, -, -, -, hparse, -⟩ := hs.parse hpackets harrived
    rcases hread with ⟨request, hrequest, rfl⟩ | ⟨hfails, -⟩
    · obtain rfl : requestOf ch s.arrived = request :=
        (Prod.mk.inj (hparse.symm.trans hrequest)).2
      -- its response has one chunk more to be read than to be written
      obtain ⟨hlt, hget⟩ :=
        List.getElem?_eq_some_iff.mp (hs.getElem?_responses hpackets harrived)
      have hdrop := List.drop_eq_getElem_cons hlt
      rw [hget] at hdrop
      simp only [State.work, hdrop, List.length_append, List.length_singleton, List.map_append,
        List.map_cons, List.map_nil, List.sum_append, List.sum_cons, List.sum_nil]
      omega
    · rw [hparse] at hfails
      cases hfails
  · simp only [State.work, hpending, List.map_append, List.map_cons, List.sum_append,
      List.sum_cons, List.length_cons]
    omega

/-- Where nothing can be done, all callbacks have written everything. -/
theorem written_of_stops (hstops : Stops (KeepAlive.step ch serve) s) :
    s.pending.flatten.flatten = [] := by
  have hnil : ∀ chunks ∈ s.pending, chunks = [] := by
    intro chunks hchunks
    obtain ⟨n, hn⟩ := List.mem_iff_getElem?.mp hchunks
    have hwrite := hstops (.write n)
    rw [KeepAlive.step, hn] at hwrite
    cases chunks with
    | nil => rfl
    | cons chunk rest => cases hwrite
  rw [List.flatten_eq_nil_iff]
  intro l hl
  obtain ⟨chunks, hchunks, hl⟩ := List.mem_flatten.mp hl
  rw [hnil chunks hchunks] at hl
  cases hl

/-- And all requests have been answered. -/
theorem done_of_stops (hs : Kept ch serve total s)
    (hpackets : ∀ packet ∈ total, IsRequest ch packet)
    (hreadable : ∀ r ∈ responses ch serve total, Readable r)
    (hstops : Stops (KeepAlive.step ch serve) s) :
    s.requests = total.map (requestOf ch) ∧
      s.received = (responses ch serve total).map messageOf := by
  have hwritten := written_of_stops hstops
  have harrived : s.arrived = [] := by
    by_contra harrived
    obtain ⟨-, -, -, -, hparse, hreadable⟩ := hs.parse hpackets harrived
    have hread := hstops .read
    simp [KeepAlive.step, harrived, hparse, hreadable] at hread
  have hsent : s.requests.length = s.sent := by
    rcases hs.arrived with ⟨-, hsent⟩ | ⟨hpacket, -, -⟩
    · exact hsent
    · exact absurd harrived (hpackets _ (List.mem_of_getElem? hpacket)).ne_nil
  have hreceived := hs.received_eq hreadable hwritten
  have hcount : s.received.length = s.sent := by
    rw [hreceived, List.length_map, List.length_take, length_responses, hsent,
      min_eq_left hs.sent]
  -- the client has what it waits for, so it would send another packet
  have hall : s.sent = total.length := by
    refine le_antisymm hs.sent (List.drop_eq_nil_iff.mp ?_)
    rw [← hs.unsent]
    cases hunsent : s.packets with
    | nil => rfl
    | cons packet rest =>
      have hsend := hstops .send
      rw [KeepAlive.step, hunsent] at hsend
      simp [hcount] at hsend
  have hlength : s.requests.length = total.length := hsent.trans hall
  refine ⟨?_, ?_⟩
  · rw [hs.requests, hlength, List.take_length]
  · rw [hreceived, hlength, List.take_of_length_le length_responses.le]

end Kept

end Step

/-! ## A sample -/

/-- A server that answers with the path of the request. -/
def sampleServe (_ : ℕ) (request : Request) : Response :=
  (ResponseHead.build (.typed 200 (octets "text/plain") request.path) []).response

/-- Two requests. -/
def samplePackets : List Octets :=
  [octets "/a", octets "/b"].map fun t => Http.requestHead (octets "GET") t (octets "\r\n")

theorem isRequest_sample : ∀ packet ∈ samplePackets, IsRequest 0 packet := by
  have htargets : ∀ t ∈ [octets "/a", octets "/b"], t ≠ [] ∧ (∀ c ∈ t, ¬ Http.isspace c) ∧
      (∀ c ∈ Http.queryComponents t, Http.Numberless c) ∧
      Http.requestHead (octets "GET") t (octets "\r\n") ≠ [] ∧
      (Http.requestHead (octets "GET") t (octets "\r\n")).length ≤ bufferSize := by
    decide +kernel
  intro packet hpacket
  obtain ⟨t, ht, rfl⟩ := List.mem_map.mp hpacket
  obtain ⟨hne, hword, hreadable, hpacket, hfits⟩ := htargets t ht
  have hget : Http.method (octets "GET") = some .get := by decide
  exact ⟨hpacket, hfits, by rw [Http.parse_requestHead 0 {} _ hget hne hword],
    (Http.overruns_requestHead 0 _ hget hne hword).mpr hreadable⟩

theorem readable_sample : ∀ r ∈ responses 0 sampleServe samplePackets, Readable r := by
  intro r hr
  obtain ⟨n, hn, rfl⟩ := List.mem_mapIdx.mp hr
  exact ⟨Rfc7230.named_response (ResponseHead.tokenNames_build _ _),
    Rfc7230.framed_typed (by decide) (by decide) _⟩

/-- The steps of a client that has to wait for the first response. -/
def sampleRun : List (Transition (step 0 sampleServe)) :=
  Transition.trace _ (.fresh samplePackets)
    [.send, .read, .write 0, .write 0, .send, .read, .write 1, .write 1]

end KeepAlive

end Rite
