import Rite.Hpack.StaticTable
import Rite.Http.Overrun

/-!
# Streams (`h2::stream`) and the requests made of them

`connection<h2::protocol>::finish_stream` turns a stream into a request and moves the body out of
it. Without a path or a method it makes a request for `/error` instead, with no headers, and
leaves the stream alone. The query is what it is if the octets behind the variable of
`decode_uri_component` do not matter; whether anything is stored there is said apart.

## Main results

* `mem_headers_finishStream`: every header of the request is a header of the stream;
* `finishStream_streamId`: the request carries the identifier of its stream;
* `overruns_eq_false_iff`: nothing is stored past the variable exactly if no key or value of the
  query has a `%` in front of a number.
-/

namespace Rite

namespace H2

open Hpack (Header)

/-- `h2::stream::stream_state`. -/
inductive StreamState
  | idle | open | reserved | halfClosed | closed
  deriving DecidableEq

/-- `h2::stream`, value-initialised by default. -/
structure Stream where
  /-- `state`. -/
  state : StreamState := .idle
  /-- `stream_id`. -/
  streamId : UInt32 := 0
  /-- `headers`. -/
  headers : List Header := []
  /-- `data`: the body so far. -/
  data : Octets := []
  deriving DecidableEq

namespace Stream

/-- `get_header`: the value of the first header with the given key. -/
def getHeader (s : Stream) (key : Octets) : Option Octets :=
  (s.headers.find? fun h => h.key = key).map (·.value)

/-- The request that `finish_stream` makes of a stream without a path or a method. -/
def errorRequest (s : Stream) : Request where
  path := octets "/error"
  method := some .get
  version := .http20
  streamId := some s.streamId

/-- The map of the headers. Of headers with one key the last one stays. -/
def headerMap (headers : List Header) : AList fun _ : Octets => Octets :=
  headers.foldl (fun m h => m.insert h.key h.value) ∅

/-- `finish_stream`: the request, and the stream without its body. -/
def finishStream (ch : Octet) (s : Stream) : Request × Stream :=
  match s.getHeader (octets ":path"), s.getHeader (octets ":method") with
  | some path, some method =>
    let path := Http.uriDecode path
    -- `parse` finds a query exactly if the path has a question mark
    let query := Http.parseQuery ch path
    let request := {
      path := if query.isSome then path.takeWhile (· ≠ 0x3F) else path
      query := query.getD []
      method := Http.method method
      body := s.data
      headers := headerMap s.headers
      streamId := some s.streamId
      version := .http20 }
    (request, { s with data := [] })
  | _, _ => (s.errorRequest, s)

/-- `finish_stream` stores past the variable of `decode_uri_component`. -/
def overruns (ch : Octet) (s : Stream) : Bool :=
  match s.getHeader (octets ":path"), s.getHeader (octets ":method") with
  | some path, some _ => ! (Http.parseQueryM ch (Http.uriDecode path)).isOk
  | _, _ => false

/-- If the stream has a path and a method, then no key or value in the query of the path has a `%`
in front of a number. -/
def QueryReadable (s : Stream) : Prop :=
  ∀ path ∈ s.getHeader (octets ":path"), ∀ _method ∈ s.getHeader (octets ":method"),
    ∀ c ∈ Http.queryComponents (Http.uriDecode path), Http.Numberless c

instance (s : Stream) : Decidable s.QueryReadable :=
  inferInstanceAs (Decidable (∀ path ∈ s.getHeader (octets ":path"),
    ∀ _method ∈ s.getHeader (octets ":method"),
      ∀ c ∈ Http.queryComponents (Http.uriDecode path), Http.Numberless c))

theorem overruns_eq_false_iff (ch : Octet) (s : Stream) :
    s.overruns ch = false ↔ s.QueryReadable := by
  unfold overruns QueryReadable
  cases hpath : s.getHeader (octets ":path") with
  | none => simp
  | some path =>
    cases hmethod : s.getHeader (octets ":method") with
    | none => simp
    | some method =>
      simp only [Http.parseQueryM_eq, Option.mem_def, Option.some_inj, forall_eq']
      split_ifs with h
      · exact iff_of_true rfl h
      · exact iff_of_false Bool.noConfusion h

end Stream

theorem mem_headerMap {headers : List Header} {key value : Octets}
    (h : (Stream.headerMap headers).lookup key = some value) : ⟨key, value⟩ ∈ headers := by
  induction headers using List.reverseRecOn with
  | nil => simp [Stream.headerMap] at h
  | append_singleton headers last ih =>
    rw [Stream.headerMap, List.foldl_append, List.foldl_cons, List.foldl_nil,
      ← Stream.headerMap] at h
    by_cases hkey : key = last.key
    · subst hkey
      rw [AList.lookup_insert, Option.some_inj] at h
      subst h
      exact List.mem_append_right _ (List.mem_singleton.mpr rfl)
    · rw [AList.lookup_insert_ne hkey] at h
      exact List.mem_append_left _ (ih h)

/-- No key gets lost. -/
theorem key_mem_headerMap {headers : List Header} {h : Header} (hmem : h ∈ headers) :
    h.key ∈ Stream.headerMap headers := by
  induction headers using List.reverseRecOn with
  | nil => cases hmem
  | append_singleton headers last ih =>
    rw [Stream.headerMap, List.foldl_append, List.foldl_cons, List.foldl_nil,
      ← Stream.headerMap, AList.mem_insert]
    rcases List.mem_append.mp hmem with hmem | hmem
    · exact .inr (ih hmem)
    · exact .inl (by rw [List.mem_singleton.mp hmem])

/-- Every header of the request is a header of the stream. -/
theorem mem_headers_finishStream {ch : Octet} {s : Stream} {key value : Octets}
    (h : (s.finishStream ch).1.headers.lookup key = some value) : ⟨key, value⟩ ∈ s.headers := by
  unfold Stream.finishStream at h
  split at h
  · exact mem_headerMap h
  · simp [Stream.errorRequest] at h

@[simp] theorem finishStream_streamId (ch : Octet) (s : Stream) :
    (s.finishStream ch).1.streamId = some s.streamId := by
  unfold Stream.finishStream
  split <;> rfl

/-- The stream keeps its headers. -/
@[simp] theorem finishStream_headers (ch : Octet) (s : Stream) :
    (s.finishStream ch).2.headers = s.headers := by
  unfold Stream.finishStream
  split <;> rfl

end H2

end Rite
