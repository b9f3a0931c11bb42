import Rite.Server.Multiplexing

/-!
# Responses that are produced while they are sent

A response can have a handler for `event::chunk`. Both callbacks trigger it whenever they are about
to take a buffer from the channel, and it may dispatch buffers there. What the handler works on
belongs to the application. The callback takes one buffer for each call, and waits if there is none.

The rounds of the loop are counted, since a handler need not come to an end.

## Main results

* `run_pullBody_iff`: when such a loop comes to an end, and what it has written;
* `streamed_iff`: the callbacks write for a streamed response what they write for a response with
  the same buffers in its channel, whatever the socket returns.
-/

namespace Rite

open CallbackM (write)
open Hpack (Header Serializer)

/-- A response with a handler for `event::chunk`, which works on a state of the application. -/
structure Streamed (σ : Type) where
  /-- The response, with the buffers that are in its channel at first. -/
  response : Response
  /-- The handler: the buffers that it dispatches, and the state behind it. -/
  chunk : σ → List Buffer × σ
  /-- The state at first. -/
  state : σ

section Loops

variable {α σ : Type}

/-- A loop over the buffers of a channel, where `send` sends one. -/
def pushBody (send : Buffer → CallbackM α Unit) : List Buffer → CallbackM α (List Buffer)
  | [] => throw .waiting
  | buf :: channel => do
    send buf
    if buf.last then return channel
    pushBody send channel

/-- The loop that triggers the handler in front of each buffer. It returns the state and what is
left in the channel, or nothing when the rounds are used up. -/
def pullBody (send : Buffer → CallbackM α Unit) (chunk : σ → List Buffer × σ) :
    ℕ → σ → List Buffer → CallbackM α (Option (σ × List Buffer))
  | 0, _, _ => return none
  | n + 1, s, channel => do
    let (dispatched, s) := chunk s
    match channel ++ dispatched with
    | [] => throw .waiting
    | buf :: channel =>
      send buf
      if buf.last then return some (s, channel)
      pullBody send chunk n s channel

/-- The buffers that are taken, up to the last one, and the state and the channel behind it. -/
inductive Taken (chunk : σ → List Buffer × σ) :
    σ → List Buffer → List Buffer → σ → List Buffer → Prop
  | last {s : σ} {channel : List Buffer} {buf : Buffer} {later : List Buffer} :
    channel ++ (chunk s).1 = buf :: later → buf.last = true →
    Taken chunk s channel [buf] (chunk s).2 later
  | more {s s' : σ} {channel : List Buffer} {buf : Buffer} {rest bufs later : List Buffer} :
    channel ++ (chunk s).1 = buf :: rest → buf.last = false →
    Taken chunk (chunk s).2 rest bufs s' later → Taken chunk s channel (buf :: bufs) s' later

variable {send : Buffer → CallbackM α Unit} {chunk : σ → List Buffer × σ} {s s' : σ}
  {channel bufs later : List Buffer} {w w' : List α}

/-- A loop that triggers the handler comes to its end if there is a last buffer to be taken, and if
the loop over the buffers that are taken does. It does the same as that loop. -/
theorem run_pullBody_iff :
    (∃ n, (pullBody send chunk n s channel).run w = .ok (some (s', later)) w') ↔
      ∃ bufs, Taken chunk s channel bufs s' later ∧
        (pushBody send (bufs ++ later)).run w = .ok later w' := by
  constructor
  · -- each round sends the buffer that it has taken
    rintro ⟨n, hrun⟩
    induction n generalizing s channel w with
    | zero => cases hrun
    | succ n ih =>
      rw [pullBody] at hrun
      cases hchannel : channel ++ (chunk s).1 with
      | nil => simp [hchannel] at hrun
      | cons buf rest =>
        simp only [hchannel, EStateM.run_bind] at hrun
        cases hsend : (send buf).run w with
        | error e w₁ => simp [hsend] at hrun
        | ok _ w₁ =>
          simp only [hsend] at hrun
          by_cases hlast : buf.last
          · simp only [hlast, if_true, EStateM.run_pure, EStateM.Result.ok.injEq,
              Option.some.injEq, Prod.mk.injEq] at hrun
            obtain ⟨⟨rfl, rfl⟩, rfl⟩ := hrun
            refine ⟨[buf], .last hchannel hlast, ?_⟩
            simp [pushBody, hsend, hlast]
          · simp only [hlast, Bool.false_eq_true, if_false] at hrun
            obtain ⟨bufs, htaken, hpush⟩ := ih hrun
            refine ⟨buf :: bufs, .more hchannel (by simpa using hlast) htaken, ?_⟩
            simpa [pushBody, hsend, hlast] using hpush
  · -- and one round for each buffer is enough
    rintro ⟨bufs, htaken, hrun⟩
    induction htaken generalizing w with
    | @last s channel buf later hchannel hlast =>
      refine ⟨1, ?_⟩
      rw [List.singleton_append, pushBody] at hrun
      simp only [EStateM.run_bind] at hrun
      cases hsend : (send buf).run w with
      | error e w₁ => simp [hsend] at hrun
      | ok _ w₁ =>
        have hw : w₁ = w' := by simpa [hsend, hlast] using hrun
        simp [pullBody, hchannel, hsend, hlast, hw]
    | @more s s' channel buf rest bufs later hchannel hlast _ ih =>
      rw [List.cons_append, pushBody] at hrun
      simp only [EStateM.run_bind] at hrun
      cases hsend : (send buf).run w with
      | error e w₁ => simp [hsend] at hrun
      | ok _ w₁ =>
        obtain ⟨n, hpull⟩ := ih (by simpa [hsend, hlast] using hrun)
        exact ⟨n + 1, by simpa [pullBody, hchannel, hsend, hlast] using hpull⟩

/-- What is taken ends with the last buffer, and no other one is last. -/
theorem Taken.exists_final (h : Taken chunk s channel bufs s' later) :
    ∃ init final, bufs = init ++ [final] ∧ (∀ b ∈ init, ¬ b.last) ∧ final.last := by
  induction h with
  | last _ hlast => exact ⟨[], _, rfl, by simp, hlast⟩
  | @more _ _ _ buf _ _ _ _ hlast _ ih =>
    obtain ⟨init, final, rfl, hinit, hfinal⟩ := ih
    exact ⟨buf :: init, final, rfl, List.forall_mem_cons.mpr ⟨by simp [hlast], hinit⟩, hfinal⟩

end Loops

/-! ## The callbacks -/

namespace H2

/-- A buffer is sent in slices. -/
theorem sendBody_eq_pushBody (results : ℕ → ℤ) (streamId : UInt32) (channel : List Buffer) :
    sendBody results streamId channel =
      pushBody (fun buf => sendBuffer results streamId buf 0) channel := by
  induction channel with
  | nil => rfl
  | cons buf channel ih => rw [sendBody, pushBody, ih]

/-- The response callback, with the handler of the response. -/
def respondStreamed {σ : Type} (results : ℕ → ℤ) (rounds : ℕ) (order : List (ℕ × Header))
    (tx : Serializer) (streamId : UInt32) (r : Streamed σ) :
    CallbackM Frame (Option (σ × List Buffer)) := do
  let (preload, _) := (tx.serialize order (headerList r.response)).finish streamId
  let _ ← write results preload
  pullBody (fun buf => sendBuffer results streamId buf 0) r.chunk rounds r.state r.response.channel

end H2

namespace Http

/-- A buffer is sent as it is. -/
def sendBuffer (results : ℕ → ℤ) (slice : Buffer) : CallbackM Octets Unit := do
  let _ ← write results slice.data

theorem sendBody_eq_pushBody (results : ℕ → ℤ) (channel : List Buffer) :
    sendBody results channel = pushBody (sendBuffer results) channel := by
  induction channel with
  | nil => rfl
  | cons buf channel ih =>
    rw [sendBody, pushBody, ih]
    rfl

@[inherit_doc H2.respondStreamed]
def respondStreamed {σ : Type} (results : ℕ → ℤ) (rounds : ℕ) (r : Streamed σ) :
    CallbackM Octets (Option (σ × List Buffer)) := do
  let _ ← write results (headerSection r.response)
  pullBody (sendBuffer results) r.chunk rounds r.state r.response.channel

end Http

section Callbacks

variable {σ : Type} (r : Streamed σ) {s' : σ} {later : List Buffer} (results : ℕ → ℤ)

theorem H2.exists_respondStreamed_iff (order : List (ℕ × Header)) (tx : Serializer)
    (streamId : UInt32) {frames : List Frame} :
    (∃ rounds, (respondStreamed results rounds order tx streamId r).run [] =
        .ok (some (s', later)) frames) ↔
      ∃ bufs, Taken r.chunk r.state r.response.channel bufs s' later ∧
        (respond results order tx streamId { r.response with channel := bufs ++ later }).run [] =
          .ok later frames := by
  simp only [respondStreamed, respond, respondWith, sendBody_eq_pushBody, EStateM.run_bind,
    CallbackM.write_run]
  exact run_pullBody_iff

theorem Http.exists_respondStreamed_iff {chunks : List Octets} :
    (∃ rounds, (respondStreamed results rounds r).run [] = .ok (some (s', later)) chunks) ↔
      ∃ bufs, Taken r.chunk r.state r.response.channel bufs s' later ∧
        (respond results { r.response with channel := bufs ++ later }).run [] =
          .ok later chunks := by
  simp only [respondStreamed, respond, sendBody_eq_pushBody, EStateM.run_bind,
    CallbackM.write_run]
  exact run_pullBody_iff

/-- A streamed response is sent to its end exactly if a last buffer is taken and a response with the
buffers that are taken is. Then the same is written for both, by either callback and whatever the
socket returns, and the same buffers are left. -/
theorem streamed_iff (s' : σ) (later : List Buffer) (order : List (ℕ × Header)) (tx : Serializer)
    (streamId : UInt32) :
    (∀ frames, (∃ rounds, (H2.respondStreamed results rounds order tx streamId r).run [] =
        .ok (some (s', later)) frames) ↔
      ∃ bufs, Taken r.chunk r.state r.response.channel bufs s' later ∧
        (H2.respond results order tx streamId
          { r.response with channel := bufs ++ later }).run [] = .ok later frames) ∧
    ∀ chunks, (∃ rounds, (Http.respondStreamed results rounds r).run [] =
        .ok (some (s', later)) chunks) ↔
      ∃ bufs, Taken r.chunk r.state r.response.channel bufs s' later ∧
        (Http.respond results { r.response with channel := bufs ++ later }).run [] =
          .ok later chunks :=
  ⟨fun _ => H2.exists_respondStreamed_iff r results order tx streamId,
    fun _ => Http.exists_respondStreamed_iff r results⟩

end Callbacks

end Rite
