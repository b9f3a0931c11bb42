import Rite.Http.Layer
import Rite.ToMathlib.Inevitable

/-!
# The request pipeline

`layer::handle` and the thread that its task is for take their steps in any order. The task of
`std::async` runs on the thread that has called `handle`, on a thread of its own, or on a thread of
the pool of the endpoint. The pool gets a reference to the future of the task, which is a local
variable of `handle`. That future is destroyed when `handle` returns: what a thread of the pool does
with it from then on is undefined, and so is its destruction while such a thread uses it.

A pool runs each call that it is given, at some time.

## Main results

* `pipeline_iff`: the hooks, the handler and the callback are called in their order, and once,
  exactly if the endpoint has no thread pool, or there is no endpoint and there are no extensions;
* `not_pipeline`: without an endpoint, an extension is told of a request, and of no response.
-/

namespace Rite

namespace Http

namespace Pipeline

/-- The future `handler`. -/
inductive Future
  /-- It has not been made yet, or its task has been run. -/
  | empty
  /-- The task runs when somebody gets the future. -/
  | deferred (task : List Event)
  /-- The task runs on a thread of its own. -/
  | async
  /-- The destructor has run. -/
  | destroyed

/-- The thread that has been started for the task, or the one of the pool. -/
inductive Worker
  /-- There is nothing for it to do. -/
  | idle
  /-- A call of `handler.get()` is in the queue of the pool. -/
  | queued
  /-- The task runs, up to what it still has to do. -/
  | running (todo : List Event)
  /-- The task has ended. -/
  | finished

/-- A call of `handle`. -/
structure State where
  /-- What has been seen so far. -/
  trace : List Event := []
  /-- What the thread that has called `handle` still has to do. -/
  caller : List Instr
  /-- The future. -/
  future : Future := .empty
  /-- The other thread. -/
  worker : Worker := .idle
  /-- The behaviour is undefined from here on. -/
  undefined : Bool := false

/-- The threads. -/
inductive Thread
  | caller | worker
  deriving DecidableEq

/-- The next step of the thread that has called `handle`. -/
def stepCaller (s : State) : Option State :=
  match s.caller with
  | [] => none
  | .emit e :: rest => some { s with trace := s.trace ++ [e], caller := rest }
  | .launch .deferred task :: rest => some { s with future := .deferred task, caller := rest }
  | .launch .async task :: rest =>
    some { s with future := .async, worker := .running task, caller := rest }
  | .dispatch :: rest => some { s with worker := .queued, caller := rest }
  | .get :: rest =>
    match s.future with
    -- the task runs on the thread that gets the future
    | .deferred task => some { s with future := .empty, caller := task.map .emit ++ rest }
    | _ => none
  | .destroy :: rest =>
    match s.future, s.worker with
    -- the destructor waits for a thread that `std::async` has started
    | .async, .finished => some { s with future := .destroyed, caller := rest }
    | .async, _ => none
    | _, .running _ => some { s with undefined := true }
    | _, _ => some { s with future := .destroyed, caller := rest }

/-- The next step of the other thread. -/
def stepWorker (s : State) : Option State :=
  match s.worker with
  | .queued =>
    match s.future with
    | .deferred task => some { s with worker := .running task }
    -- `handler.get()` of a future that is no more
    | _ => some { s with undefined := true }
  | .running (e :: todo) => some { s with trace := s.trace ++ [e], worker := .running todo }
  | .running [] => some { s with worker := .finished }
  | .idle | .finished => none

/-- The next step of a thread. -/
def step (s : State) (thread : Thread) : Option State :=
  if s.undefined then none
  else
    match thread with
    | .caller => stepCaller s
    | .worker => stepWorker s

/-- `handle` has been called. -/
def State.called (l : Layer) (req : Request) : State where
  caller := l.handle req

/-- What is to be seen: `on_request` of each extension, the response, `pre_send` of each, `finish`,
and `post_send` of each. -/
def expected (l : Layer) (response : Response) : List Event :=
  l.calls .onRequest ++ .built :: l.calls .preSend ++ .finish response :: l.calls .postSend

/-- Nothing undefined has happened, and what has been seen is what is to be seen. -/
def State.AsExpected (l : Layer) (s : State) : Prop :=
  s.undefined = false ∧ ∃ response, s.trace = expected l response

/-! ## Runs in which one thread can go on -/

section Run

variable {P : State → Prop} {trace : List Event} {rest : List Instr} {future : Future}

/-- If one thread can go on and the other cannot, it does. -/
private theorem inevitable_iff_of_blocked {s s' : State} (t u : Thread) (htu : t ≠ u)
    (ht : step s t = some s') (hu : step s u = none) :
    Inevitable step P s ↔ Inevitable step P s' := by
  refine inevitable_iff_of_only ht fun b hb => ?_
  have hbu : b = u := by cases b <;> cases t <;> cases u <;> simp_all
  exact hbu ▸ hu

/-- If neither can, `handle` and its task are over. -/
private theorem inevitable_iff_of_over {s : State} (hcaller : step s .caller = none)
    (hworker : step s .worker = none) : Inevitable step P s ↔ P s := by
  refine inevitable_iff_of_stops fun t => ?_
  cases t with
  | caller => exact hcaller
  | worker => exact hworker

/-- The caller emits one event after the other while there is nothing for another thread to do. -/
theorem inevitable_emit (events : List Event) :
    Inevitable step P ⟨trace, events.map .emit ++ rest, future, .idle, false⟩ ↔
      Inevitable step P ⟨trace ++ events, rest, future, .idle, false⟩ := by
  induction events generalizing trace with
  | nil => simp
  | cons e events ih =>
    rw [List.map_cons, List.cons_append, inevitable_iff_of_blocked .caller .worker (by decide) rfl
      rfl, ih, List.append_assoc, List.singleton_append]

/-- The thread of the task emits one event after the other while the destructor waits for it. -/
theorem inevitable_running (events : List Event) :
    Inevitable step P ⟨trace, [.destroy], .async, .running events, false⟩ ↔
      P ⟨trace ++ events, [], .destroyed, .finished, false⟩ := by
  induction events generalizing trace with
  | nil =>
    -- the thread ends, and then the destructor
    rw [inevitable_iff_of_blocked .worker .caller (by decide) rfl rfl,
      inevitable_iff_of_blocked .caller .worker (by decide) rfl rfl,
      inevitable_iff_of_over rfl rfl, List.append_nil]
  | cons e events ih =>
    rw [inevitable_iff_of_blocked .worker .caller (by decide) rfl rfl, ih, List.append_assoc,
      List.singleton_append]

/-- A task that is run on the caller. -/
theorem inevitable_deferred (task : List Event) :
    Inevitable step P ⟨trace, [.launch .deferred task, .get, .destroy], .empty, .idle, false⟩ ↔
      P ⟨trace ++ task, [], .destroyed, .idle, false⟩ := by
  rw [inevitable_iff_of_blocked .caller .worker (by decide) rfl rfl,
    inevitable_iff_of_blocked .caller .worker (by decide) rfl rfl, inevitable_emit,
    inevitable_iff_of_blocked .caller .worker (by decide) rfl rfl, inevitable_iff_of_over rfl rfl]

/-- A task that is run on a thread of its own. -/
theorem inevitable_async (task : List Event) :
    Inevitable step P ⟨trace, [.launch .async task, .destroy], .empty, .idle, false⟩ ↔
      P ⟨trace ++ task, [], .destroyed, .finished, false⟩ := by
  rw [inevitable_iff_of_blocked .caller .worker (by decide) rfl rfl, inevitable_running]

/-- `handle` can return before the pool gets to the task. -/
theorem undefined_of_pool {task : List Event}
    (h : Inevitable step P
      ⟨trace, [.launch .deferred task, .dispatch, .destroy], .empty, .idle, false⟩) :
    P ⟨trace, [], .destroyed, .queued, true⟩ := by
  -- `handle` returns first, and the pool comes to the call behind that
  have hrun : [.caller, .caller, .caller, .worker].foldlM step
      ⟨trace, [.launch .deferred task, .dispatch, .destroy], .empty, .idle, false⟩ =
      some ⟨trace, [], .destroyed, .queued, true⟩ := rfl
  exact (inevitable_iff_of_over rfl rfl).mp (h.of_foldlM hrun)

end Run

/-! ## The pipeline of a request -/

/-- However the threads go on, `handle` and its task come to an end, nothing undefined happens, and
what is seen is what is to be seen. -/
def Produces (l : Layer) (req : Request) : Prop :=
  Inevitable step (State.AsExpected l) (.called l req)

/-- Behind `on_request`, the events of the task are those that are to be seen. -/
theorem exists_expected (l : Layer) (req : Request) (endpoint : Endpoint) (mapping : PathResult) :
    ∃ response, l.calls .onRequest ++ l.task req endpoint mapping = expected l response := by
  refine ⟨(hooks Extension.preSend l.extensions (endpoint.handler req mapping)).2, ?_⟩
  simp [Layer.task, expected]

section Produces

variable {l : Layer} {req : Request} {endpoint : Endpoint} {mapping : PathResult}

/-- Without an endpoint, `finish` is all that is called behind `on_request`. -/
theorem produces_iff_of_notFound (h : findEndpoint l.endpoints (l.received req) = none) :
    Produces l req ↔ l.extensions = [] := by
  set response := l.notFound (l.received req) with hresponse
  have hhandle : l.handle req =
      (l.calls .onRequest ++ [Event.built, Event.finish response]).map .emit ++ [] := by
    simp [Layer.handle, h, hresponse]
  rw [Produces, State.called, hhandle, inevitable_emit, inevitable_iff_of_over rfl rfl]
  constructor
  · rintro ⟨-, response', htrace⟩
    -- each hook that is missing makes the trace shorter
    have hlen := congrArg List.length htrace
    simp only [expected, Layer.calls, List.length_append, List.length_cons, List.length_map,
      List.length_range, List.length_nil] at hlen
    exact List.length_eq_zero_iff.mp (by omega)
  · intro hnil
    exact ⟨rfl, response, by simp [expected, Layer.calls, hnil]⟩

/-- Without a thread pool, the future is not destroyed before the task has ended. -/
theorem produces_of_not_pool
    (h : findEndpoint l.endpoints (l.received req) = some (endpoint, mapping))
    (hpool : endpoint.threadPool = false) : Produces l req := by
  obtain ⟨response, hresponse⟩ := exists_expected l (l.received req) endpoint mapping
  -- `handle` waits for the task, either by `get` or in the destructor
  cases hpolicy : endpoint.policy with
  | deferred =>
    have hhandle : l.handle req = (l.calls .onRequest).map .emit ++
        [.launch .deferred (l.task (l.received req) endpoint mapping), .get, .destroy] := by
      simp [Layer.handle, h, hpool, hpolicy]
    rw [Produces, State.called, hhandle, inevitable_emit, inevitable_deferred]
    exact ⟨rfl, response, hresponse⟩
  | async =>
    have hhandle : l.handle req = (l.calls .onRequest).map .emit ++
        [.launch .async (l.task (l.received req) endpoint mapping), .destroy] := by
      simp [Layer.handle, h, hpool, hpolicy]
    rw [Produces, State.called, hhandle, inevitable_emit, inevitable_async]
    exact ⟨rfl, response, hresponse⟩

/-- With a thread pool, it can be. -/
theorem not_produces_of_pool
    (h : findEndpoint l.endpoints (l.received req) = some (endpoint, mapping))
    (hpool : endpoint.threadPool = true) : ¬ Produces l req := by
  have hpolicy : endpoint.policy = .deferred := by simp [Endpoint.policy, hpool]
  have hhandle : l.handle req = (l.calls .onRequest).map .emit ++
      [.launch .deferred (l.task (l.received req) endpoint mapping), .dispatch, .destroy] := by
    simp [Layer.handle, h, hpool, hpolicy]
  rw [Produces, State.called, hhandle, inevitable_emit]
  intro hproduces
  exact absurd (undefined_of_pool hproduces).1 (by simp)

end Produces

/-- The hooks of all extensions, the handler and `finish` are called in their order, and each of
them once, exactly if the endpoint has no thread pool, and, if there is no endpoint, there are no
extensions. -/
theorem pipeline_iff (l : Layer) (req : Request) :
    Produces l req ↔
      (∀ endpoint mapping, findEndpoint l.endpoints (l.received req) = some (endpoint, mapping) →
        endpoint.threadPool = false) ∧
      (findEndpoint l.endpoints (l.received req) = none → l.extensions = []) := by
  rcases hfind : findEndpoint l.endpoints (l.received req) with _ | ⟨endpoint, mapping⟩
  · simpa using produces_iff_of_notFound hfind
  · simp only [Option.some.injEq, Prod.mk.injEq, reduceCtorEq, false_implies, and_true]
    constructor
    · rintro hproduces _ _ ⟨rfl, rfl⟩
      by_contra hpool
      exact not_produces_of_pool hfind (by simpa using hpool) hproduces
    · intro hpool
      exact produces_of_not_pool hfind (hpool _ _ ⟨rfl, rfl⟩)

/-- A request that no endpoint is for, with one extension. -/
theorem not_pipeline : ¬ ∀ (l : Layer) (req : Request), Produces l req := by
  intro h
  have hproduces := h { extensions := [{}] } {}
  exact absurd ((produces_iff_of_notFound rfl).mp hproduces) (by simp)

end Pipeline

end Http

end Rite
