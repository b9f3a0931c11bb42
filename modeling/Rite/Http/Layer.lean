import Rite.Http.Request
import Rite.Server.Response

/-!
# Layers (`rite::http::layer`)

A layer has endpoints and extensions. `layer::handle` calls the `on_request` of each extension,
looks for an endpoint, and makes a task of the handler, the other hooks and the callback `finish`.

Handlers and hooks are functions that return. What they do to the request and the response is what
they make of them; what `post_send` does to them is lost. A path is what its `match` makes of an
URL.

## Main results

* `findEndpoint_eq_some_iff`: the endpoint that is found is the first that accepts the request;
* `findEndpoint_congr`: it depends on the method and the path of the request alone.
-/

namespace Rite

/-- The bit of a method. -/
def HttpMethod.bit : HttpMethod → UInt32
  | .get => (1 : UInt32) <<< 0
  | .head => (1 : UInt32) <<< 1
  | .post => (1 : UInt32) <<< 2
  | .put => (1 : UInt32) <<< 3
  | .delete => (1 : UInt32) <<< 4
  | .connect => (1 : UInt32) <<< 5
  | .options => (1 : UInt32) <<< 6
  | .trace => (1 : UInt32) <<< 7
  | .patch => (1 : UInt32) <<< 8

namespace Http

/-- `path::result`: the parameters. -/
abbrev PathResult := AList fun _ : Octets => Octets

/-- `endpoint`. -/
structure Endpoint where
  /-- `method`: a bit for each method. -/
  method : UInt32
  /-- `path`, by its `match`. -/
  path : Octets → Option PathResult
  /-- `handler`: what it makes of the request, and the response. -/
  handler : Request → PathResult → Request × Response
  /-- `asynchronous`. -/
  asynchronous : Bool := false
  /-- `thread_pool.has_value()`. -/
  threadPool : Bool := false

/-- `extension`, by what its hooks make of their arguments. -/
structure Extension where
  /-- `on_request`. -/
  onRequest : Request → Request := id
  /-- `pre_send`. -/
  preSend : Request × Response → Request × Response := id

/-- A response that is ready to be sent, with a body of type `text/html`. -/
def htmlResponse (statusCode : ℕ) (body : Octets) : Response where
  statusCode
  headers := [(octets "Content-Length", octets (toString body.length)),
    (octets "content-type", octets "text/html")]
  channel := [⟨body, true⟩]

/-- `default_not_found`. -/
def defaultNotFound (_ : Request) : Response :=
  htmlResponse 404 (octets "404 Not Found<hr>rite/0.0.1")

/-- `layer`. -/
structure Layer where
  /-- `endpoints_`. -/
  endpoints : List Endpoint := []
  /-- `extensions_`, in the order in which they have been attached. -/
  extensions : List Extension := []
  /-- `not_found_handler_`. -/
  notFound : Request → Response := defaultNotFound

/-- What an endpoint makes of a request, if it is for it. -/
def Endpoint.accepts (endpoint : Endpoint) (request : Request) : Option PathResult :=
  -- a method that is none of the enumerators has no bit
  if endpoint.method &&& (request.method.elim 0 HttpMethod.bit) = 0 then none
  else endpoint.path request.path

/-- `find_endpoint`: the first endpoint that accepts the request, or `eNoEndpoint`. -/
def findEndpoint (endpoints : List Endpoint) (request : Request) :
    Option (Endpoint × PathResult) :=
  -- the endpoint is returned with the parameters of its path
  endpoints.findSome? fun endpoint => (endpoint.accepts request).map (endpoint, ·)

/-- The endpoint that is found is the first one that accepts the request. -/
theorem findEndpoint_eq_some_iff {endpoints : List Endpoint} {request : Request}
    {endpoint : Endpoint} {mapping : PathResult} :
    findEndpoint endpoints request = some (endpoint, mapping) ↔
      ∃ before after, endpoints = before ++ endpoint :: after ∧
        endpoint.accepts request = some mapping ∧ ∀ e ∈ before, e.accepts request = none := by
  rw [findEndpoint, List.findSome?_eq_some_iff]
  constructor
  · rintro ⟨before, e, after, heq, he, hbefore⟩
    -- what has been found carries the endpoint with it
    obtain ⟨m, hm, hpair⟩ := Option.map_eq_some_iff.mp he
    obtain ⟨rfl, rfl⟩ := Prod.mk.injEq .. ▸ hpair
    exact ⟨before, after, heq, hm, fun e' he' => Option.map_eq_none_iff.mp (hbefore e' he')⟩
  · rintro ⟨before, after, heq, hm, hbefore⟩
    exact ⟨before, endpoint, after, heq, by rw [hm]; rfl,
      fun e he => Option.map_eq_none_iff.mpr (hbefore e he)⟩

/-- Only the method and the path of a request matter. -/
theorem findEndpoint_congr {r r' : Request} (hmethod : r.method = r'.method)
    (hpath : r.path = r'.path) (endpoints : List Endpoint) :
    findEndpoint endpoints r = findEndpoint endpoints r' := by
  simp [findEndpoint, Endpoint.accepts, hmethod, hpath]

/-! ## What is done with a request -/

/-- What an observer of the pipeline can see. Extensions are given by their number. -/
inductive Event
  /-- `on_request` of an extension. -/
  | onRequest (i : ℕ)
  /-- The handler, or that for missing endpoints, has built the response. -/
  | built
  /-- `pre_send` of an extension. -/
  | preSend (i : ℕ)
  /-- `finish`, with the response. -/
  | finish (response : Response)
  /-- `post_send` of an extension. -/
  | postSend (i : ℕ)

/-- A loop over the extensions, by what their hooks make of the data. -/
def hooks {δ : Type} (call : Extension → δ → δ) (extensions : List Extension) (d : δ) : δ :=
  extensions.foldl (fun d ext => call ext d) d

/-- `std::launch`. -/
inductive LaunchPolicy
  | async | deferred
  deriving DecidableEq

/-- The launch policy for the task of an endpoint. -/
def Endpoint.policy (endpoint : Endpoint) : LaunchPolicy :=
  if endpoint.asynchronous ∧ ¬ endpoint.threadPool then .async else .deferred

/-- What a thread in `handle` does next. -/
inductive Instr
  /-- Something that can be seen. -/
  | emit (e : Event)
  /-- `std::async(policy, task)`. -/
  | launch (policy : LaunchPolicy) (task : List Event)
  /-- `dispatch` of a call of `handler.get()`. -/
  | dispatch
  /-- `handler.get()`. -/
  | get
  /-- The destructor of `handler`. -/
  | destroy

namespace Layer

variable (l : Layer)

/-- The calls of one hook of all extensions. -/
def calls (point : ℕ → Event) : List Event := (List.range l.extensions.length).map point

/-- The request as `find_endpoint` gets it. -/
def received (req : Request) : Request := hooks Extension.onRequest l.extensions req

/-- What the task does that `std::async` gets. -/
def task (req : Request) (endpoint : Endpoint) (mapping : PathResult) : List Event :=
  let response := (hooks Extension.preSend l.extensions (endpoint.handler req mapping)).2
  .built :: l.calls .preSend ++ .finish response :: l.calls .postSend

/-- `handle`. -/
def handle (req : Request) : List Instr :=
  let req' := l.received req
  (l.calls .onRequest).map .emit ++
    match findEndpoint l.endpoints req' with
    -- `finish` is called here, and no more hooks are
    | none => [.emit .built, .emit (.finish (l.notFound req'))]
    | some (endpoint, mapping) =>
      [.launch endpoint.policy (l.task req' endpoint mapping)] ++
        (if endpoint.threadPool then [.dispatch]
          else if endpoint.policy = .deferred then [.get] else []) ++ [.destroy]

end Layer

end Http

end Rite
