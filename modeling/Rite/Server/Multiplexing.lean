import Rite.H2.Codec
import Rite.H2.Survival
import Rite.Server.ResponseHeaders
import Rite.ToMathlib.CriticalSection

/-!
# The frames of a connection

The response callbacks of a connection and the calls of `process` write to one socket. A frame takes
two writes, one for its header and one for its payload, and they are made under the lock of the
connection: `process` holds it from its beginning, a callback takes it for every frame. Everything
else interleaves.

A callback comes to its writes with the HEADERS frame that it has got from the serializer, and then
writes the slices of its buffers. No write fails, and none is cut short.

## Main results

* `written_respondWith`: the frames that a callback writes;
* `Multiplexed.step`: a step keeps the octets of the socket a sequence of whole frames;
* `whole_of_run`: wherever the lock is free, the peer reads the frames that have been written, and
  those of each stream are the frames of its callback, in their order.
-/

namespace Rite

namespace Frame

/-- What `process` writes: SETTINGS or PING. -/
def IsReply (f : Frame) : Prop := f.type = .settings ∨ f.type = .ping

instance (f : Frame) : Decidable f.IsReply := inferInstanceAs (Decidable (_ ∨ _))

/-- A frame of the response on a stream. -/
def On (id : UInt32) (f : Frame) : Prop :=
  f.streamIdentifier = id ∧ (f.type = .headers ∨ f.type = .data)

instance (id : UInt32) (f : Frame) : Decidable (f.On id) := inferInstanceAs (Decidable (_ ∧ _))

theorem On.not_isReply {id : UInt32} {f : Frame} (h : f.On id) : ¬ f.IsReply := by
  rcases h.2 with htype | htype <;> simp [IsReply, htype]

end Frame

/-- What a callback has written when it returns or stops. -/
def CallbackM.written {α β : Type} (x : CallbackM α β) : List α :=
  match x.run [] with
  | .ok _ written | .error _ written => written

namespace H2

/-- The frames for the buffers of a channel, up to the last one. -/
def bodyFrames (streamId : UInt32) : List Buffer → List Frame
  | [] => []
  | buf :: channel =>
    slices streamId buf 0 ++ if buf.last then [] else bodyFrames streamId channel

/-- The loop over the buffers writes these frames, whether it comes to an end or not. -/
theorem exists_sendBody_run {results : ℕ → ℤ} (hresults : NoneFails results) (streamId : UInt32)
    (channel : List Buffer) (written : List Frame) :
    (∃ rest, (sendBody results streamId channel).run written =
      .ok rest (written ++ bodyFrames streamId channel)) ∨
    (sendBody results streamId channel).run written =
      .error .waiting (written ++ bodyFrames streamId channel) := by
  induction channel generalizing written with
  | nil => exact .inr (by rw [bodyFrames, List.append_nil]; rfl)
  | cons buf channel ih =>
    rw [sendBody, bodyFrames]
    simp only [EStateM.run_bind, sendBuffer_run hresults]
    by_cases hlast : buf.last
    · exact .inl ⟨channel, by simp [hlast]⟩
    · simpa [hlast] using ih (written ++ slices streamId buf 0)

/-- A callback writes its HEADERS frame and the frames of its channel. -/
theorem written_respondWith {results : ℕ → ℤ} (hresults : NoneFails results) (streamId : UInt32)
    (preload : Frame) (response : Response) :
    (respondWith results streamId preload response).written =
      preload :: bodyFrames streamId response.channel := by
  unfold CallbackM.written respondWith
  simp only [EStateM.run_bind, CallbackM.write_run, List.nil_append]
  rcases exists_sendBody_run hresults streamId response.channel [preload] with ⟨rest, hrun⟩ | hrun
  · rw [hrun]
    rfl
  · rw [hrun]
    rfl

theorem sized_of_mem_bodyFrames {streamId : UInt32} {channel : List Buffer} :
    ∀ f ∈ bodyFrames streamId channel, Sized streamId f := by
  induction channel with
  | nil => simp [bodyFrames]
  | cons buf channel ih =>
    intro f hf
    rcases List.mem_append.mp hf with hf | hf
    · exact sized_of_mem_slices f hf
    · split_ifs at hf
      · cases hf
      · exact ih f hf

theorem Sized.fits {streamId : UInt32} {f : Frame} (h : Sized streamId f) : f.Fits := by
  refine ⟨h.length.symm, ?_⟩
  rw [h.length]
  exact h.le.trans (by decide)

/-- What is written for a frame, behind the octets that are there. -/
theorem Call.exists_replies (k : Call) :
    ∃ replies, k.after.written = k.before.written ++ replies ∧ replies.length ≤ 1 ∧
      ∀ f ∈ replies, f.IsReply ∧ f.Fits ∧ f.data.length ≤ 8 := by
  rw [written_after]
  cases hframe : k.frame with
  | some frame =>
    refine ⟨Connection.answer frame, (effect_of_frame hframe).written, ?_⟩
    unfold Connection.answer
    split
    · split_ifs
      · simp [Frame.IsReply, Frame.Fits]
      · simp
    · simp [Frame.IsReply, Frame.Fits, maxFrameSize]
    · simp
  | none =>
    have hquiet := result_of_no_frame hframe
    generalize k.result = r at hquiet
    cases hquiet with
    | settings => exact ⟨[⟨0, .settings, 0, 0, []⟩], rfl, by simp, by decide⟩
    | _ => exact ⟨[], (List.append_nil _).symm, by simp, by simp⟩

end H2

namespace Multiplexing

open Hpack (Header)
open H2 (Call Behaviour bodyFrames)

/-! ## The steps -/

/-- A connection, its response callbacks in front of their writes, and its socket. The thread `none`
is the one that calls `process`. -/
structure State (ι : Type) where
  /-- The connection. -/
  conn : H2.Connection
  /-- The serializer and the callbacks. -/
  headers : ResponseHeaders.State ι
  /-- The lock, what has been written, and the frames that each has still to write. -/
  socket : CriticalSection.State (Option ι) Frame Octets

/-- What the threads do. -/
inductive Action (ι : Type)
  /-- A worker calls `process`, which keeps the lock if there is a reply to be written. -/
  | process (input : Octets) (behaviour : Behaviour)
  /-- A callback takes a step in front of its writes, or begins with them. -/
  | respond (a : ResponseHeaders.Action ι)
  /-- A callback takes the lock for its next frame. -/
  | acquire (i : ι)
  /-- The header or the payload of a frame is written. -/
  | write (t : Option ι)
  /-- The lock is released. -/
  | release (t : Option ι)
  deriving DecidableEq

/-- A new connection. -/
def State.fresh {ι : Type} (table : Hpack.StaticTable) (ch : Octet) : State ι :=
  ⟨.fresh table ch, .fresh, .empty⟩

/-- The two writes of a frame. -/
def pieces (f : Frame) : List Octets := [f.pack, f.data]

theorem flatten_flatMap_pieces (frames : List Frame) :
    (frames.flatMap pieces).flatten = frames.flatMap Frame.wire := by
  induction frames with
  | nil => rfl
  | cons f frames ih => simp [pieces, Frame.wire, ih]

variable {ι : Type} [DecidableEq ι]

/-- The frames of a callback, once it has come to its writes. -/
def handed (responses : ι → UInt32 × Response) (s : ResponseHeaders.State ι) (i : ι) :
    List Frame :=
  match s.phase i with
  | .written preload => preload :: bodyFrames (responses i).1 (responses i).2.channel
  | _ => []

/-- What a step does, if the thread is where it takes that step. -/
def step (order : List (ℕ × Header)) (responses : ι → UInt32 × Response) (s : State ι) :
    Action ι → Option (State ι)
  | .process input behaviour =>
    let k : Call := ⟨s.conn, input, behaviour⟩
    if s.socket.holder.isNone ∧ k.Survives then
      match k.after.written.drop s.conn.written.length with
      | [] => some { s with conn := k.after }
      | replies => do
        let socket ← CriticalSection.step pieces s.socket (.enqueue none replies)
        let socket ← CriticalSection.step pieces socket (.acquire none)
        return { s with conn := k.after, socket }
    else none
  | .respond a => do
    let headers ← ResponseHeaders.step order responses s.headers a
    match a with
    | .write i =>
      let socket ← CriticalSection.step pieces s.socket
        (.enqueue (some i) (handed responses headers i))
      return { s with headers, socket }
    | _ => return { s with headers }
  | .acquire i => do
    return { s with socket := ← CriticalSection.step pieces s.socket (.acquire (some i)) }
  | .write t => do
    return { s with socket := ← CriticalSection.step pieces s.socket (.write t) }
  | .release t => do
    return { s with socket := ← CriticalSection.step pieces s.socket (.release t) }

/-- The frames that each thread has been given so far. -/
def added (responses : ι → UInt32 × Response) (s : State ι) : Option ι → List Frame
  | none => s.conn.written
  | some i => handed responses s.headers i

section Step

variable {order : List (ℕ × Header)} {responses : ι → UInt32 × Response} {s s' : State ι}
  {a : Action ι}

/-- Everything that a step can do. -/
theorem step_cases (h : step order responses s a = some s') :
    (∃ input behaviour, a = .process input behaviour ∧ s.socket.holder = none ∧
      s'.conn = (⟨s.conn, input, behaviour⟩ : Call).after ∧ s'.headers = s.headers ∧
      (s'.conn.written = s.conn.written ∧ s'.socket = s.socket ∨
        ∃ reply, s'.conn.written = s.conn.written ++ [reply] ∧
          [.enqueue none [reply], .acquire none].foldlM (CriticalSection.step pieces) s.socket =
            some s'.socket)) ∨
    (∃ b, a = .respond b ∧ ResponseHeaders.step order responses s.headers b = some s'.headers ∧
      s'.conn = s.conn ∧
      ((∃ i, b = .write i ∧ CriticalSection.step pieces s.socket
          (.enqueue (some i) (handed responses s'.headers i)) = some s'.socket) ∨
        (∀ i, b ≠ .write i) ∧ s'.socket = s.socket)) ∨
    ∃ b, ((∃ i, a = .acquire i ∧ b = .acquire (some i)) ∨ (∃ t, a = .write t ∧ b = .write t) ∨
        ∃ t, a = .release t ∧ b = .release t) ∧
      s'.conn = s.conn ∧ s'.headers = s.headers ∧
      CriticalSection.step pieces s.socket b = some s'.socket := by
  cases a with
  | process input behaviour =>
    simp only [step] at h
    split_ifs at h with hfree
    obtain ⟨replies, hwritten, hle, -⟩ := (⟨s.conn, input, behaviour⟩ : Call).exists_replies
    have hdrop : (⟨s.conn, input, behaviour⟩ : Call).after.written.drop s.conn.written.length =
        replies := by rw [hwritten, List.drop_left]
    rw [hdrop] at h
    refine .inl ⟨input, behaviour, rfl, by simpa using hfree.1, ?_⟩
    match replies, hle with
    | [], _ =>
      obtain rfl := Option.some_inj.mp h
      exact ⟨rfl, rfl, .inl ⟨by simpa using hwritten, rfl⟩⟩
    | [reply], _ =>
      obtain ⟨m, hm, h⟩ := Option.bind_eq_some_iff.mp h
      obtain ⟨socket, hsocket, h⟩ := Option.bind_eq_some_iff.mp h
      obtain rfl := Option.some_inj.mp h
      refine ⟨rfl, rfl, .inr ⟨reply, hwritten, ?_⟩⟩
      rw [List.foldlM_cons, hm]
      simpa using hsocket
  | respond b =>
    obtain ⟨headers, hheaders, h⟩ := Option.bind_eq_some_iff.mp h
    refine .inr (.inl ⟨b, rfl, ?_⟩)
    cases b with
    | write i =>
      obtain ⟨socket, hsocket, h⟩ := Option.bind_eq_some_iff.mp h
      obtain rfl := Option.some_inj.mp h
      exact ⟨hheaders, rfl, .inl ⟨i, rfl, hsocket⟩⟩
    | _ =>
      obtain rfl := Option.some_inj.mp h
      exact ⟨hheaders, rfl, .inr ⟨by simp, rfl⟩⟩
  | acquire i =>
    obtain ⟨socket, hsocket, h⟩ := Option.bind_eq_some_iff.mp h
    obtain rfl := Option.some_inj.mp h
    exact .inr (.inr ⟨_, .inl ⟨i, rfl, rfl⟩, rfl, rfl, hsocket⟩)
  | write t =>
    obtain ⟨socket, hsocket, h⟩ := Option.bind_eq_some_iff.mp h
    obtain rfl := Option.some_inj.mp h
    exact .inr (.inr ⟨_, .inr (.inl ⟨t, rfl, rfl⟩), rfl, rfl, hsocket⟩)
  | release t =>
    obtain ⟨socket, hsocket, h⟩ := Option.bind_eq_some_iff.mp h
    obtain rfl := Option.some_inj.mp h
    exact .inr (.inr ⟨_, .inr (.inr ⟨t, rfl, rfl⟩), rfl, rfl, hsocket⟩)

/-- Only a call of `process` changes the connection. -/
theorem conn_of_step (h : step order responses s a = some s') :
    (∃ input behaviour, a = .process input behaviour ∧
      s'.conn = (⟨s.conn, input, behaviour⟩ : Call).after) ∨
    (∀ input behaviour, a ≠ .process input behaviour) ∧ s'.conn = s.conn := by
  rcases step_cases h with ⟨input, behaviour, rfl, -, hconn, -⟩ | ⟨b, rfl, -, hconn, -⟩ |
    ⟨b, hb, hconn, -⟩
  · exact .inl ⟨input, behaviour, rfl, hconn⟩
  · exact .inr ⟨by simp, hconn⟩
  · refine .inr ⟨fun input behaviour => ?_, hconn⟩
    rcases hb with ⟨i, rfl, -⟩ | ⟨t, rfl, -⟩ | ⟨t, rfl, -⟩ <;> simp

/-- Where the lock is free, and `process` has no reply to write, it can be called. -/
theorem exists_process {input : Octets} {behaviour : Behaviour} (hfree : s.socket.holder = none)
    (hqueue : s.socket.queue none = [])
    (hsurvives : (⟨s.conn, input, behaviour⟩ : Call).Survives) :
    ∃ s', step order responses s (.process input behaviour) = some s' := by
  obtain ⟨replies, hwritten, hle, -⟩ := (⟨s.conn, input, behaviour⟩ : Call).exists_replies
  have hdrop : (⟨s.conn, input, behaviour⟩ : Call).after.written.drop s.conn.written.length =
      replies := by rw [hwritten, List.drop_left]
  have hcond : s.socket.holder.isNone ∧ (⟨s.conn, input, behaviour⟩ : Call).Survives :=
    ⟨by simp [hfree], hsurvives⟩
  simp only [step, if_pos hcond, hdrop]
  match replies, hle with
  | [], _ => exact ⟨_, rfl⟩
  | [reply], _ => simp [CriticalSection.step, hfree, hqueue]

/-- Only the responses that have been begun, or are being begun, matter. -/
theorem step_congr {responses' : ι → UInt32 × Response}
    (h : ∀ i, s.headers.phase i ≠ .idle ∨ a = .respond (.serialize i) →
      responses i = responses' i) :
    step order responses s a = step order responses' s a := by
  cases a with
  | respond b =>
    have hheaders : ResponseHeaders.step order responses s.headers b =
        ResponseHeaders.step order responses' s.headers b := by
      cases b with
      | serialize i => rw [ResponseHeaders.step, ResponseHeaders.step, h i (.inr rfl)]
      | finish i =>
        simp only [ResponseHeaders.step]
        split
        next hphase => rw [h i (.inl (by simp [hphase]))]
        next => rfl
      | write i => rfl
    simp only [step, hheaders]
    cases hb : ResponseHeaders.step order responses' s.headers b with
    | none => rfl
    | some headers =>
      cases b with
      | write i =>
        -- the frames are those of a response that has its headers
        rcases ResponseHeaders.step_cases hb with
          ⟨_, heq, -⟩ | ⟨_, heq, -⟩ | ⟨j, preload, heq, hj, -⟩
        all_goals cases heq
        simp only [handed, h i (.inl (by simp [hj]))]
      | _ => rfl
  | _ => rfl

/-- A callback is given its frames when it comes to its writes, and none at any other step. -/
theorem handed_step {b : ResponseHeaders.Action ι} {t t' : ResponseHeaders.State ι}
    (h : ResponseHeaders.step order responses t b = some t') (i : ι) :
    handed responses t' i =
      if b = .write i then handed responses t i ++ handed responses t' i
      else handed responses t i := by
  unfold handed
  rcases ResponseHeaders.step_cases h with ⟨j, rfl, hj, rfl⟩ | ⟨j, rfl, hj, rfl⟩ |
    ⟨j, preload, rfl, hj, rfl⟩
  · by_cases hij : i = j
    · subst hij
      simp [hj]
    · simp [hij]
  · by_cases hij : i = j
    · subst hij
      simp [hj]
    · simp [hij]
  · by_cases hij : i = j
    · subst hij
      simp [hj]
    · simp [hij, Ne.symm hij]

/-- A step is one or more steps at the socket, or none, and what is added there are the frames that
the threads are given. -/
theorem exists_actions (h : step order responses s a = some s') :
    ∃ as : List (CriticalSection.Action (Option ι) Frame),
      as.foldlM (CriticalSection.step pieces) s.socket = some s'.socket ∧
        as.foldl CriticalSection.Action.added (added responses s) = added responses s' := by
  rcases step_cases h with ⟨input, behaviour, rfl, -, -, hheaders, hreplies⟩ |
    ⟨b, rfl, hb, hconn, hframes⟩ | ⟨b, hb, hconn, hheaders, hsocket⟩
  · rcases hreplies with ⟨hwritten, hsocket⟩ | ⟨reply, hwritten, hsocket⟩
    · refine ⟨[], by simp [hsocket], funext fun t => ?_⟩
      cases t <;> simp [added, hwritten, hheaders]
    · -- the thread of the connection waits for the lock before it goes on
      refine ⟨_, hsocket, funext fun t => ?_⟩
      cases t <;> simp [added, CriticalSection.Action.added, hwritten, hheaders]
  · rcases hframes with ⟨i, rfl, hsocket⟩ | ⟨hb', hsocket⟩
    · refine ⟨[_], by simpa using hsocket, funext fun t => ?_⟩
      cases t with
      | none => simp [added, CriticalSection.Action.added, hconn]
      | some j =>
        -- only the callback that writes hands over frames
        have hj := handed_step hb j
        by_cases hij : j = i
        · subst hij
          simpa [added, CriticalSection.Action.added] using hj.symm
        · simpa [added, CriticalSection.Action.added, hij, Ne.symm hij] using hj.symm
    · refine ⟨[], by simp [hsocket], funext fun t => ?_⟩
      cases t with
      | none => simp [added, hconn]
      | some j => simpa [added, hb' j] using (handed_step hb j).symm
  · -- at the socket nothing new is written
    refine ⟨[b], by simpa using hsocket, ?_⟩
    have hadded : added responses s' = added responses s := funext fun t => by
      cases t <;> simp [added, hconn, hheaders]
    rcases hb with ⟨i, rfl, rfl⟩ | ⟨t, rfl, rfl⟩ | ⟨t, rfl, rfl⟩ <;>
      simp [CriticalSection.Action.added, hadded]

/-- A callback that has a HEADERS frame had it before, or has got it from the serializer. -/
theorem has_of_step {b : ResponseHeaders.Action ι} {t t' : ResponseHeaders.State ι}
    (h : ResponseHeaders.step order responses t b = some t') {i : ι} {preload : Frame}
    (hi : t'.Has i preload) :
    t.Has i preload ∨ ∃ tx : Hpack.Serializer, preload = (tx.finish (responses i).1).1 := by
  unfold ResponseHeaders.State.Has at hi ⊢
  rcases ResponseHeaders.step_cases h with ⟨j, rfl, hj, rfl⟩ | ⟨j, rfl, hj, rfl⟩ |
    ⟨j, preload', rfl, hj, rfl⟩
  all_goals
    simp only [Function.update_apply] at hi
    split_ifs at hi with hij
  · simp at hi
  · exact .inl hi
  · subst hij
    obtain rfl : _ = preload := by simpa using hi
    exact .inr ⟨_, rfl⟩
  · exact .inl hi
  · subst hij
    obtain rfl : preload' = preload := by simpa using hi
    exact .inl (.inl hj)
  · exact .inl hi

/-! ## What has been written -/

/-- The octets of the socket are the frames `sent`, each with its thread, but for what is pending;
and these come from the threads in their order. -/
structure Multiplexed (responses : ι → UInt32 × Response) (s : State ι)
    (sent : List (Option ι × Frame)) : Prop where
  /-- The frames are whole, and each thread has given its own in their order. -/
  serialized : CriticalSection.Serialized pieces (added responses s) s.socket sent
  /-- `process` keeps no reply for later. -/
  replied : s.socket.queue none = []
  /-- It writes replies only, which are short. -/
  replies : ∀ f ∈ s.conn.written, f.IsReply ∧ f.Fits ∧ f.data.length ≤ 8
  /-- The HEADERS frames come from the serializer. -/
  preloads : ∀ i preload, s.headers.Has i preload →
    ∃ tx : Hpack.Serializer, preload = (tx.finish (responses i).1).1

theorem multiplexed_fresh (responses : ι → UInt32 × Response) (table : Hpack.StaticTable)
    (ch : Octet) : Multiplexed responses (.fresh table ch) [] where
  serialized := by
    have hadded : added responses (.fresh table ch) = fun _ => [] := funext fun t => by
      cases t <;> rfl
    rw [hadded]
    exact CriticalSection.serialized_empty
  replied := rfl
  replies f hf := by cases hf
  preloads i preload h := by rcases h with h | h <;> cases h

/-- The queue of `process` is empty again behind the acquisition of the lock. -/
private theorem queue_none_of_reply {reply : Frame}
    {t t' : CriticalSection.State (Option ι) Frame Octets} (ht : t.queue none = [])
    (h : [.enqueue none [reply], .acquire none].foldlM (CriticalSection.step pieces) t = some t') :
    t'.queue none = [] := by
  simp only [List.foldlM_cons, List.foldlM_nil, bind_pure] at h
  obtain ⟨m, hm, h⟩ := Option.bind_eq_some_iff.mp h
  obtain rfl := Option.some_inj.mp hm
  rcases CriticalSection.step_cases h with ⟨_, _, heq, _⟩ | ⟨i, item, items, heq, -, hqueue, rfl⟩ |
    ⟨_, _, _, heq, _⟩ | ⟨_, heq, _⟩
  all_goals cases heq
  simp only [Function.update_self, ht, List.nil_append, List.cons.injEq] at hqueue ⊢
  exact hqueue.2.symm

/-- The callbacks leave the queue of `process` alone. -/
private theorem queue_none_of_step {b : CriticalSection.Action (Option ι) Frame}
    {t t' : CriticalSection.State (Option ι) Frame Octets}
    (h : CriticalSection.step pieces t b = some t') (henqueue : ∀ items, b ≠ .enqueue none items)
    (hacquire : b ≠ .acquire none) : t'.queue none = t.queue none := by
  rcases CriticalSection.step_cases h with ⟨i, items, rfl, rfl⟩ | ⟨i, item, items, rfl, -, -, rfl⟩ |
    ⟨_, _, _, -, -, rfl⟩ | ⟨_, -, -, rfl⟩
  · have hi : none ≠ i := fun hi => henqueue items (by rw [hi])
    exact Function.update_of_ne hi ..
  · have hi : none ≠ i := fun hi => hacquire (by rw [hi])
    exact Function.update_of_ne hi ..
  · rfl
  · rfl

/-- A step keeps the octets of the socket a sequence of frames. -/
theorem Multiplexed.step {sent : List (Option ι × Frame)} (hs : Multiplexed responses s sent)
    (h : step order responses s a = some s') : ∃ sent', Multiplexed responses s' sent' := by
  obtain ⟨as, hfold, hadded⟩ := exists_actions h
  obtain ⟨sent', hserialized⟩ := hs.serialized.foldlM hfold
  rw [hadded] at hserialized
  suffices s'.socket.queue none = [] ∧
      (∀ f ∈ s'.conn.written, f.IsReply ∧ f.Fits ∧ f.data.length ≤ 8) ∧
      ∀ i preload, s'.headers.Has i preload →
        ∃ tx : Hpack.Serializer, preload = (tx.finish (responses i).1).1 from
    ⟨sent', hserialized, this.1, this.2.1, this.2.2⟩
  rcases step_cases h with ⟨input, behaviour, rfl, -, hconn, hheaders, hreplies⟩ |
    ⟨b, rfl, hb, hconn, hframes⟩ | ⟨b, hb, hconn, hheaders, hsocket⟩
  · -- the only new frames are replies
    refine ⟨?_, ?_, by rw [hheaders]; exact hs.preloads⟩
    · rcases hreplies with ⟨-, hsocket⟩ | ⟨reply, -, hsocket⟩
      · rw [hsocket, hs.replied]
      · exact queue_none_of_reply hs.replied hsocket
    · obtain ⟨replies, hwritten, -, hall⟩ := (⟨s.conn, input, behaviour⟩ : Call).exists_replies
      intro f hf
      rw [hconn, hwritten] at hf
      exact (List.mem_append.mp hf).elim (hs.replies f) (hall f)
  · -- the only new HEADERS frame is that of the serializer
    refine ⟨?_, by rw [hconn]; exact hs.replies, fun i preload hi => ?_⟩
    · rcases hframes with ⟨i, -, hsocket⟩ | ⟨-, hsocket⟩
      · rw [queue_none_of_step hsocket (by simp) (by simp), hs.replied]
      · rw [hsocket, hs.replied]
    · exact (has_of_step hb hi).elim (hs.preloads i preload) id
  · refine ⟨?_, by rw [hconn]; exact hs.replies, by rw [hheaders]; exact hs.preloads⟩
    rw [queue_none_of_step hsocket ?_ ?_, hs.replied]
    all_goals rcases hb with ⟨i, rfl, rfl⟩ | ⟨t, rfl, rfl⟩ | ⟨t, rfl, rfl⟩ <;> simp

/-! ## The frames of each thread -/

variable {sent : List (Option ι × Frame)}

/-- The header blocks that have been written are not longer than a frame may be. -/
def ShortHeaders (s : ResponseHeaders.State ι) : Prop :=
  ∀ i, ∀ preload ∈ (s.phase i).sent, preload.data.length ≤ maxFrameSize

instance [Fintype ι] (s : ResponseHeaders.State ι) : Decidable (ShortHeaders s) :=
  inferInstanceAs (Decidable (∀ i, ∀ preload ∈ (s.phase i).sent, _))

/-- The frames of a callback are on the stream of its response. -/
theorem Multiplexed.on_of_mem_handed (hs : Multiplexed responses s sent) {i : ι} {f : Frame}
    (hf : f ∈ handed responses s.headers i) : f.On (responses i).1 := by
  unfold handed at hf
  split at hf
  next preload hphase =>
    rcases List.mem_cons.mp hf with rfl | hf
    · obtain ⟨tx, rfl⟩ := hs.preloads i f (.inr hphase)
      exact ⟨rfl, .inl rfl⟩
    · have hsized := H2.sized_of_mem_bodyFrames f hf
      exact ⟨hsized.streamIdentifier, .inr hsized.type⟩
  next => cases hf

/-- All the frames fit if the header blocks do. -/
theorem Multiplexed.fits_of_mem_added (hs : Multiplexed responses s sent)
    (hshort : ShortHeaders s.headers) {t : Option ι} {f : Frame} (hf : f ∈ added responses s t) :
    f.Fits := by
  cases t with
  | none => exact (hs.replies f hf).2.1
  | some i =>
    simp only [added, handed] at hf
    split at hf
    next preload hphase =>
      rcases List.mem_cons.mp hf with rfl | hf
      · have hle := hshort i f (ResponseHeaders.Phase.sent_eq_some_iff.mpr hphase)
        obtain ⟨tx, rfl⟩ := hs.preloads i f (.inr hphase)
        have hlength : (UInt32.ofNat tx.payload.length).toNat = tx.payload.length :=
          UInt32.toNat_ofNat_of_lt (hle.trans_lt (by decide))
        exact ⟨hlength.symm, hlength.trans_le hle⟩
      · exact (H2.sized_of_mem_bodyFrames f hf).fits
    next => cases hf

/-- What has been written on the stream of a response, and what its callback has still to write, are
its frames. -/
theorem Multiplexed.filter_on (hs : Multiplexed responses s sent)
    (hinj : Function.Injective fun i => (responses i).1) (i : ι) :
    (sent.map Prod.snd).filter (Frame.On (responses i).1) ++ s.socket.queue (some i) =
      handed responses s.headers i := by
  refine hs.serialized.filter_append (fun f hf => hs.on_of_mem_handed hf) fun t ht f hf hon => ?_
  cases t with
  | none => exact hon.not_isReply (hs.replies f hf).1
  | some j =>
    -- another response is on another stream
    have hj := hs.on_of_mem_handed hf
    exact ht (congrArg some (hinj (hj.1.symm.trans hon.1)))

/-- The replies of `process` have all been written. -/
theorem Multiplexed.filter_isReply (hs : Multiplexed responses s sent) :
    (sent.map Prod.snd).filter Frame.IsReply = s.conn.written := by
  have hfilter := hs.serialized.filter_append (i := none) (p := Frame.IsReply)
    (fun f hf => (hs.replies f hf).1) fun t ht f hf => by
      obtain ⟨i, rfl⟩ := Option.ne_none_iff_exists'.mp ht
      exact (hs.on_of_mem_handed hf).not_isReply
  rwa [hs.replied, List.append_nil] at hfilter

/-- What has been written has been given to some thread. -/
theorem Multiplexed.mem_added (hs : Multiplexed responses s sent) {e : Option ι × Frame}
    (he : e ∈ sent) : e.2 ∈ added responses s e.1 := by
  rw [← hs.serialized.order e.1]
  exact List.mem_append_left _ (List.mem_map.mpr ⟨e, List.mem_filter.mpr ⟨he, by simp⟩, rfl⟩)

end Step

/-! ## Runs -/

section Run

open H2 (InHeader)
open H2.Connection (readPackets)

/-- However the octets are cut into packets, but not inside the header of a frame, a peer that has
no unfinished frame reads the frames. -/
def ReadAs (bytes : Octets) (frames : List Frame) : Prop :=
  ∀ packets : List Octets, packets.flatten = bytes →
    (∀ n, ¬ InHeader bytes (packets.take n).flatten.length) →
    ∀ c : H2.Connection, c.unfinishedFrame = none →
      ∃ results, (readPackets packets).run c = .ok results c ∧
        results.flatten.filterMap Except.toOption = frames

/-- The frames among the results are those that are read. -/
theorem filterMap_results {frames read : List Frame} {n : ℕ} {packets : List Octets}
    {results : List (List (Except FrameState Frame))}
    (h : H2.Results frames n packets results read) :
    results.flatten.filterMap Except.toOption = read := by
  have hok : ∀ read : List Frame,
      (read.map (Except.ok (ε := FrameState))).filterMap Except.toOption = read := fun read => by
    rw [List.filterMap_map]
    exact List.filterMap_some
  induction h with
  | nil => rfl
  | whole _ _ ih => simp [hok, ih]
  | cut _ _ _ ih =>
    rw [List.flatten_cons, List.filterMap_append, List.filterMap_append, hok, ih]
    simp [Except.toOption]

theorem readAs_wire {frames : List Frame} (hfits : ∀ f ∈ frames, f.Fits) :
    ReadAs (frames.flatMap Frame.wire) frames := by
  rintro packets hwire hcuts c hc
  obtain ⟨results, hrun, hspec⟩ := H2.readPackets_wire hfits hwire (by rwa [hwire]) hc
  exact ⟨results, hrun, filterMap_results hspec⟩

variable {order : List (ℕ × Header)} {responses : ι → UInt32 × Response}
  {ks : List (Transition (step order responses))} {table : Hpack.StaticTable} {ch : Octet}

/-- At every step of a run the octets of the socket are a sequence of frames. -/
theorem multiplexed_of_run (hrun : Transition.Runs (.fresh table ch) ks) :
    ∀ k ∈ ks, ∃ sent, Multiplexed responses k.after sent :=
  hrun.forall_dst (I := fun s => ∃ sent, Multiplexed responses s sent)
    ⟨[], multiplexed_fresh responses table ch⟩ (fun _ _ => trivial)
    fun k ⟨_, hs⟩ _ => hs.step k.valid

/-- Wherever the lock is free, the octets of the socket are read as the frames that have been
sent. -/
theorem readAs_output {s : State ι} {sent : List (Option ι × Frame)}
    (hs : Multiplexed responses s sent) (hfree : s.socket.holder = none)
    (hshort : ShortHeaders s.headers) :
    ReadAs s.socket.output.flatten (sent.map Prod.snd) := by
  have houtput := hs.serialized.output
  rw [CriticalSection.State.pending, hfree, Option.elim_none, List.append_nil] at houtput
  rw [houtput, ← List.flatMap_map, flatten_flatMap_pieces]
  refine readAs_wire fun f hf => ?_
  obtain ⟨e, he, rfl⟩ := List.mem_map.mp hf
  exact hs.fits_of_mem_added hshort (hs.mem_added he)

/-- Wherever the lock is free, the octets of the socket are read as whole frames: the replies of
`process`, and on the stream of each response the first of the frames of its callback, in their
order. The others are those that the callback has still to write. -/
theorem whole_of_run (hrun : Transition.Runs (.fresh table ch) ks)
    (hinj : Function.Injective fun i => (responses i).1) {k : Transition (step order responses)}
    (hk : k ∈ ks) (hfree : k.after.socket.holder = none)
    (hshort : ShortHeaders k.after.headers) :
    ∃ sent : List Frame, ReadAs k.after.socket.output.flatten sent ∧
      sent.filter Frame.IsReply = k.after.conn.written ∧
      (∀ i, sent.filter (Frame.On (responses i).1) ++ k.after.socket.queue (some i) =
        handed responses k.after.headers i) ∧
      ∀ f ∈ sent, f.IsReply ∨ ∃ i, f.On (responses i).1 := by
  obtain ⟨sent, hs⟩ := multiplexed_of_run hrun k hk
  refine ⟨sent.map Prod.snd, readAs_output hs hfree hshort, hs.filter_isReply, hs.filter_on hinj,
    fun f hf => ?_⟩
  obtain ⟨⟨t, f⟩, he, rfl⟩ := List.mem_map.mp hf
  have ht := hs.mem_added he
  cases t with
  | none => exact .inl (hs.replies f ht).1
  | some i => exact .inr ⟨i, hs.on_of_mem_handed ht⟩

end Run

/-- Two responses, one of them in two buffers. -/
def sampleResponses : Bool → UInt32 × Response
  | true => (1, ⟨200, [], [⟨[0x61], false⟩, ⟨[0x62], true⟩]⟩)
  | false => (3, ⟨404, [], [⟨[0x63], true⟩]⟩)

/-- The frames of the two responses alternate, and `process` writes its settings between them. -/
def sampleActions : List (Action Bool) :=
  [.process H2.clientPreface .returned,
    .respond (.serialize true), .respond (.finish true), .respond (.write true),
    .respond (.serialize false), .acquire true, .respond (.finish false), .write (some true),
    .respond (.write false), .write (some true), .release (some true),
    .acquire false, .write (some false), .write (some false), .release (some false),
    .process (Frame.wire ⟨0, .settings, 0, 0, []⟩) .returned, .write none, .write none,
    .release none,
    .acquire true, .write (some true), .write (some true), .release (some true),
    .acquire false, .write (some false), .write (some false), .release (some false)]

/-- The transitions that these lead to. -/
def sampleRun : List (Transition (step Hpack.staticHeaderTable.items sampleResponses)) :=
  Transition.trace _ (.fresh Hpack.staticHeaderTable 0) sampleActions

/-- At the end of them all frames have been written. -/
theorem whole_sample :
    ∃ k ∈ sampleRun, ∃ sent : List Frame, ReadAs k.after.socket.output.flatten sent ∧
      sent.filter Frame.IsReply = k.after.conn.written ∧
      (∀ i, sent.filter (Frame.On (sampleResponses i).1) ++ k.after.socket.queue (some i) =
        handed sampleResponses k.after.headers i) ∧
      ∀ f ∈ sent, f.IsReply ∨ ∃ i, f.On (sampleResponses i).1 := by
  have hsome : sampleRun.getLast?.isSome := by decide +kernel
  have hfree : ∀ k ∈ sampleRun.getLast?, k.after.socket.holder = none := by decide +kernel
  have hshort : ∀ k ∈ sampleRun.getLast?, ShortHeaders k.after.headers := by decide +kernel
  obtain ⟨k, hk⟩ := Option.isSome_iff_exists.mp hsome
  have hmem := List.mem_of_mem_getLast? hk
  exact ⟨k, hmem, whole_of_run (Transition.run_trace ..) (by decide) hmem (hfree k hk)
    (hshort k hk)⟩

end Multiplexing

end Rite
