import Rite.Http.Request
import Rite.ToMathlib.BoundedWindow

/-!
# The request log (`odin`)

The extension `odin` keeps the latest requests for its admin panel, and the times at which they have
been received, processed and sent. Requests to the panel itself are left out.

Points in time are nanoseconds of the steady clock. The moving average `rps_` of requests per second
is left out.

## Main results

* `hook_cases`: a call of a hook logs a request, or it leaves the log alone;
* `inStep_run`: what the log has in it behind any calls of `post_send`;
* `inStep_runHooks`: what it has in it behind any calls of all the hooks;
* `logged_handled`: what is logged of a request that has been through all of them.
-/

namespace Rite

/-- `odin_timing`. -/
structure OdinTiming where
  /-- `received`. -/
  received : ℤ := 0
  /-- `processed`, when `pre_send` is called. -/
  processed : ℤ := 0
  /-- `flushed`, when `post_send` is called. -/
  flushed : ℤ := 0
  deriving DecidableEq

/-- `odin_http_request`. -/
structure OdinHttpRequest where
  /-- `path`. -/
  path : Octets
  /-- `query`. -/
  query : List (Octets × Octets)
  /-- `ip`, with `ip_len` octets. -/
  ip : Octets
  /-- `method`. -/
  method : Option HttpMethod
  /-- `request_body_len`. -/
  requestBodyLen : ℕ
  /-- `version`. -/
  version : HttpVersion
  /-- `time`. -/
  time : ℤ
  /-- `processing_time`, in microseconds. -/
  processingTime : ℤ
  deriving DecidableEq

/-- What `on_request` puts into the context of a request. -/
inductive OdinContext
  /-- `odin_admin_user`. -/
  | adminUser
  /-- `odin_timing`. -/
  | timing (timing : OdinTiming)

/-- `odin`. -/
structure Odin where
  /-- `config_.admin_path`. -/
  adminPath : Octets
  /-- `request_count_`. -/
  requestCount : UInt64 := 0
  /-- `ring_buffer_`. -/
  ringBuffer : List OdinHttpRequest := []
  /-- `timings_`. -/
  timings : List OdinTiming := List.replicate 32768 {}
  /-- `timing_idx_`. -/
  timingIdx : ℕ := 0
  /-- `requests_served_`. -/
  requestsServed : UInt64 := 0
  /-- `status_code_.ok`. -/
  ok : UInt64 := 0
  /-- `status_code_.client_error`. -/
  clientError : UInt64 := 0
  /-- `status_code_.server_error`. -/
  serverError : UInt64 := 0

/-- A request whose response has been sent: the arguments of `post_send`. -/
structure OdinCall where
  /-- The request. -/
  request : Request
  /-- `client()->addr()`, with `addr_length()` octets. -/
  addr : Octets
  /-- Its context. -/
  context : OdinContext
  /-- `steady_clock::now()`. -/
  now : ℤ

namespace Odin

/-- The constructor. -/
def create (adminPath : Octets) : Odin := { adminPath }

/-- `on_request`. -/
def onRequest (o : Odin) (request : Request) (now : ℤ) : Odin × OdinContext :=
  if o.adminPath.isPrefixOf request.path then (o, .adminUser)
  else ({ o with requestCount := o.requestCount + 1 }, .timing { received := now })

/-- `pre_send`. -/
def preSend (o : Odin) (context : OdinContext) (code : ℤ) (now : ℤ) : Odin × OdinContext :=
  match context with
  | .adminUser => (o, .adminUser)
  | .timing timing =>
    ({ o with
      ok := if 200 ≤ code ∧ code < 300 then o.ok + 1 else o.ok
      clientError := if 400 ≤ code ∧ code < 500 then o.clientError + 1 else o.clientError
      serverError := if 500 ≤ code ∧ code < 599 then o.serverError + 1 else o.serverError },
      .timing { timing with processed := now })

/-- What is logged of a request. -/
def entry (c : OdinCall) (timing : OdinTiming) : OdinHttpRequest where
  path := c.request.path
  query := c.request.query
  ip := c.addr
  method := c.request.method
  requestBodyLen := c.request.body.length
  version := c.request.version
  time := timing.received
  processingTime := (timing.processed - timing.received).tdiv 1000

/-- `post_send`. -/
def postSend (o : Odin) (c : OdinCall) : Odin × OdinContext :=
  match c.context with
  | .adminUser => (o, .adminUser)
  | .timing timing =>
    let ringBuffer := entry c timing :: o.ringBuffer
    let timing := { timing with flushed := c.now }
    ({ o with
      ringBuffer := if 5000 < ringBuffer.length then ringBuffer.dropLast else ringBuffer
      timings := o.timings.set o.timingIdx timing
      timingIdx := (o.timingIdx + 1) % 32768
      requestsServed := o.requestsServed + 1 }, .timing timing)

/-- Calls of `post_send`, one after the other. -/
def run (o : Odin) (calls : List OdinCall) : Odin := calls.foldl (fun o c => (o.postSend c).1) o

/-- What is logged of a call, with the timing: nothing for the panel itself. -/
def logged (c : OdinCall) : Option (OdinHttpRequest × OdinTiming) :=
  match c.context with
  | .adminUser => none
  | .timing timing => some (entry c timing, { timing with flushed := c.now })

/-- The log is that of the given requests, the oldest one first. -/
structure InStep (o : Odin) (requests : List (OdinHttpRequest × OdinTiming)) : Prop where
  /-- The last requests, the newest one first. -/
  ringBuffer : o.ringBuffer = (requests.map Prod.fst).reverse.take 5000
  /-- The slot that is written next, -/
  timingIdx : o.timingIdx = requests.length % 32768
  /-- which is there. -/
  timingIdx_lt : o.timingIdx < o.timings.length
  /-- A slot has the timing of the last request with its number. -/
  timings : ∀ j < 32768, ∀ i < requests.length, i % 32768 = j →
    (∀ k, i < k → k < requests.length → k % 32768 ≠ j) →
    o.timings[j]? = requests[i]?.map Prod.snd
  /-- The number of the requests. -/
  requestsServed : o.requestsServed = UInt64.ofNat requests.length

/-! ## What a call does -/

/-- The array of the timings. -/
def ring (o : Odin) : BoundedWindow.Ring OdinTiming := ⟨o.timings, o.timingIdx⟩

variable {o : Odin}

/-- A call logs its request, or it does nothing. -/
theorem postSend_cases (hlength : o.timings.length = 32768) (c : OdinCall) :
    (logged c = none ∧ (o.postSend c).1 = o) ∨
      ∃ request timing, logged c = some (request, timing) ∧
        (o.postSend c).1.ringBuffer = BoundedWindow.push 5000 o.ringBuffer request ∧
        (o.postSend c).1.ring = o.ring.write timing ∧
        (o.postSend c).1.requestsServed = o.requestsServed + 1 := by
  cases hcontext : c.context with
  | adminUser => exact .inl ⟨by simp [logged, hcontext], by simp [postSend, hcontext]⟩
  | timing timing =>
    refine .inr ⟨entry c timing, { timing with flushed := c.now }, ?_, ?_, ?_, ?_⟩
    · simp [logged, hcontext]
    · simp only [postSend, hcontext]
      rfl
    · simp [postSend, hcontext, ring, BoundedWindow.Ring.write, hlength]
    · simp only [postSend, hcontext]

/-- A call of a hook of the extension. -/
inductive Hook
  | onRequest (request : Request) (now : ℤ)
  | preSend (context : OdinContext) (code now : ℤ)
  | postSend (c : OdinCall)

/-- What it does to the extension. -/
def hook (o : Odin) : Hook → Odin
  | .onRequest request now => (o.onRequest request now).1
  | .preSend context code now => (o.preSend context code now).1
  | .postSend c => (o.postSend c).1

/-- What is logged by a call of a hook. -/
def Hook.logged : Hook → Option (OdinHttpRequest × OdinTiming)
  | .onRequest _ _ | .preSend _ _ _ => none
  | .postSend c => Odin.logged c

/-- Calls of hooks, one after the other. They may be those of different requests. -/
def runHooks (o : Odin) (hooks : List Hook) : Odin := hooks.foldl hook o

/-- A call of a hook logs a request, or it leaves the log alone. -/
theorem hook_cases (hlength : o.timings.length = 32768) (h : Hook) :
    (h.logged = none ∧ (o.hook h).ringBuffer = o.ringBuffer ∧ (o.hook h).ring = o.ring ∧
        (o.hook h).requestsServed = o.requestsServed) ∨
      ∃ request timing, h.logged = some (request, timing) ∧
        (o.hook h).ringBuffer = BoundedWindow.push 5000 o.ringBuffer request ∧
        (o.hook h).ring = o.ring.write timing ∧
        (o.hook h).requestsServed = o.requestsServed + 1 := by
  cases h with
  | onRequest request now =>
    refine .inl ⟨rfl, ?_⟩
    simp only [hook, onRequest]
    split_ifs <;> exact ⟨rfl, rfl, rfl⟩
  | preSend context code now =>
    refine .inl ⟨rfl, ?_⟩
    cases context <;> exact ⟨rfl, rfl, rfl⟩
  | postSend c =>
    rcases postSend_cases hlength c with ⟨hnone, hsame⟩ | hlogged
    · refine .inl ⟨hnone, ?_⟩
      rw [hook, hsame]
      exact ⟨rfl, rfl, rfl⟩
    · exact .inr hlogged

/-- The two windows and the counter are those of the requests that have been logged. -/
theorem runHooks_eq (adminPath : Octets) (hooks : List Hook) :
    (runHooks (create adminPath) hooks).ringBuffer =
        BoundedWindow.pushAll 5000 [] ((hooks.filterMap Hook.logged).map Prod.fst) ∧
      (runHooks (create adminPath) hooks).ring =
        (BoundedWindow.Ring.new 32768 {}).writeAll
          ((hooks.filterMap Hook.logged).map Prod.snd) ∧
      (runHooks (create adminPath) hooks).requestsServed =
        UInt64.ofNat (hooks.filterMap Hook.logged).length := by
  induction hooks using List.reverseRecOn with
  | nil => exact ⟨rfl, rfl, rfl⟩
  | append_singleton hooks h ih =>
    obtain ⟨hbuffer, hring, hserved⟩ := ih
    have hlength : (runHooks (create adminPath) hooks).timings.length = 32768 := by
      have heq := congrArg (fun r => r.slots.length) hring
      simpa [ring] using heq
    have hrun : runHooks (create adminPath) (hooks ++ [h]) =
        (runHooks (create adminPath) hooks).hook h := by
      rw [runHooks, List.foldl_append]
      rfl
    rw [hrun, List.filterMap_append]
    rcases hook_cases hlength h with
      ⟨hnone, hbuffer', hring', hserved'⟩ | ⟨request, timing, hsome, hpush, hwrite, hone⟩
    · -- neither the panel nor the other hooks leave a trace
      have hlogged : [h].filterMap Hook.logged = [] := by simp [hnone]
      rw [hbuffer', hring', hserved', hlogged, List.append_nil]
      exact ⟨hbuffer, hring, hserved⟩
    · have hlogged : [h].filterMap Hook.logged = [(request, timing)] := by simp [hsome]
      rw [hlogged, List.map_append, List.map_append, List.length_append]
      refine ⟨?_, ?_, ?_⟩
      · rw [hpush, hbuffer, BoundedWindow.pushAll, BoundedWindow.pushAll, List.foldl_append]
        rfl
      · rw [hwrite, hring]
        exact (BoundedWindow.Ring.writeAll_concat _ _ _).symm
      · rw [hone, hserved, List.length_singleton, UInt64.ofNat_add]
        rfl

theorem run_eq_runHooks (o : Odin) (calls : List OdinCall) :
    run o calls = runHooks o (calls.map .postSend) := by
  rw [run, runHooks, List.foldl_map]
  rfl

theorem filterMap_postSend (calls : List OdinCall) :
    (calls.map Hook.postSend).filterMap Hook.logged = calls.filterMap logged := by
  rw [List.filterMap_map]
  rfl

/-- If only `post_send` is called, the windows are those of its calls. -/
theorem run_eq (adminPath : Octets) (calls : List OdinCall) :
    (run (create adminPath) calls).ringBuffer =
        BoundedWindow.pushAll 5000 [] ((calls.filterMap logged).map Prod.fst) ∧
      (run (create adminPath) calls).ring =
        (BoundedWindow.Ring.new 32768 {}).writeAll ((calls.filterMap logged).map Prod.snd) ∧
      (run (create adminPath) calls).requestsServed =
        UInt64.ofNat (calls.filterMap logged).length := by
  rw [run_eq_runHooks, ← filterMap_postSend]
  exact runHooks_eq adminPath _

/-- The log is that of the requests in its windows. -/
theorem inStep_of_windows {requests : List (OdinHttpRequest × OdinTiming)}
    (hbuffer : o.ringBuffer = BoundedWindow.pushAll 5000 [] (requests.map Prod.fst))
    (hring : o.ring = (BoundedWindow.Ring.new 32768 {}).writeAll (requests.map Prod.snd))
    (hserved : o.requestsServed = UInt64.ofNat requests.length) : InStep o requests := by
  have hslots : o.timings =
      ((BoundedWindow.Ring.new 32768 {}).writeAll (requests.map Prod.snd)).slots :=
    congrArg (·.slots) hring
  have hnext : o.timingIdx = requests.length % 32768 := by
    have heq := congrArg (·.next) hring
    rw [BoundedWindow.Ring.next_writeAll, List.length_map] at heq
    exact heq
  refine ⟨?_, hnext, ?_, fun j hj i hi hij hlast => ?_, hserved⟩
  · rw [hbuffer, BoundedWindow.pushAll_eq]
  · rw [hnext, hslots, BoundedWindow.Ring.length_writeAll]
    exact Nat.mod_lt _ (by decide)
  · subst hij
    rw [hslots, ← List.getElem?_map]
    exact BoundedWindow.Ring.getElem?_writeAll (by decide) (by simpa using hi)
      fun k hik hk => hlast k hik (by simpa using hk)

/-- The log is that of the requests which have been logged, behind any calls of `post_send`. -/
theorem inStep_run (adminPath : Octets) (calls : List OdinCall) :
    InStep (run (create adminPath) calls) (calls.filterMap logged) := by
  obtain ⟨hbuffer, hring, hserved⟩ := run_eq adminPath calls
  exact inStep_of_windows hbuffer hring hserved

/-- So it is behind any calls of all the hooks, in whatever order the requests go through them. -/
theorem inStep_runHooks (adminPath : Octets) (hooks : List Hook) :
    InStep (runHooks (create adminPath) hooks) (hooks.filterMap Hook.logged) := by
  obtain ⟨hbuffer, hring, hserved⟩ := runHooks_eq adminPath hooks
  exact inStep_of_windows hbuffer hring hserved

/-- Of a request that has been through all the hooks the times of the calls are logged, unless it is
one to the panel. Other requests may go through the hooks in between. -/
theorem logged_handled (o o' : Odin) (request : Request) (addr : Octets)
    (code received processed flushed : ℤ) :
    logged ⟨request, addr, (o'.preSend (o.onRequest request received).2 code processed).2,
        flushed⟩ =
      if o.adminPath.isPrefixOf request.path then none
      else
        some (entry ⟨request, addr, .timing ⟨received, processed, 0⟩, flushed⟩
          ⟨received, processed, 0⟩, ⟨received, processed, flushed⟩) := by
  unfold onRequest
  split_ifs <;> rfl

end Odin

end Rite
