import Rite.Http.Parser
import Rite.Http.PathParameters
import Rite.Server.Conversation
import Rite.Server.ResponseHead
import Rite.Server.Streaming

/-!
# The file server (`examples/file-server`)

The only endpoint of the server takes the path of a request for the path of a file, and streams the
file in pieces. The last piece is the first one that does not fill its buffer, and so it is empty if
the buffers before it hold all of the file.

The files of the machine are regular ones, and they do not change while they are sent. The log is
left out.

## Main results

* `matchUrl_path_iff`: the URLs that the endpoint takes, and the file that it takes them for;
* `taken_iff`: the buffers that a callback takes are those of the file;
* `inevitable_downloaded`: whatever the order of the steps of a connection is, in the end the client
  has the file that it has asked for on each of its streams, or else is told that there is none;
* `downloaded_http`: what is sent for a request of HTTP/1.1.
-/

namespace Rite

namespace FileServer

open Hpack (Header)
open Conversation (Sends exclusive)
open H2 (requestOf)
open Http (Endpoint Layer Path PathResult findEndpoint)
open Multiplexing (Client ReadAs Receivable Received whole)
open RegexPattern (code isTerminator)
open Rfc7540 (Message)

/-- The machine that the server runs on. -/
structure Machine where
  /-- The files, by their paths. -/
  files : Octets → Option Octets
  /-- `guess_content_type`. -/
  guessContentType : Octets → Option Octets

/-! ## The buffers of a file -/

/-- The size of a buffer. -/
def bufferSize : ℕ := 16384

/-- The handler for `event::chunk`, which works on what it has not read of the file. -/
def chunk (fstream : Octets) : List Buffer × Octets :=
  let buffer := fstream.take bufferSize
  ([⟨buffer, buffer.length < bufferSize⟩], fstream.drop bufferSize)

/-- All buffers of a file. -/
def buffers (file : Octets) : List Buffer :=
  if file.length < bufferSize then [⟨file, true⟩]
  else ⟨file.take bufferSize, false⟩ :: buffers (file.drop bufferSize)
termination_by file.length
decreasing_by
  rw [List.length_drop]
  have hsize : bufferSize = 16384 := rfl
  omega

/-- What the handler dispatches, and whether it is the last buffer. -/
theorem chunk_of_lt {file : Octets} (h : file.length < bufferSize) :
    chunk file = ([⟨file, true⟩], []) := by
  rw [chunk, List.take_of_length_le h.le, List.drop_of_length_le h.le]
  simp [h]

@[inherit_doc chunk_of_lt]
theorem chunk_of_le {file : Octets} (h : bufferSize ≤ file.length) :
    chunk file = ([⟨file.take bufferSize, false⟩], file.drop bufferSize) := by
  simp [chunk, h]

/-- The buffers that are taken are those of the file, and nothing is left in the channel. -/
theorem taken_chunk_iff {file s' : Octets} {bufs later : List Buffer} :
    Taken chunk file [] bufs s' later ↔ bufs = buffers file ∧ s' = [] ∧ later = [] := by
  constructor
  · intro h
    generalize hchannel : ([] : List Buffer) = channel at h
    induction h with
    | @last file channel buf later hdispatched hlast =>
      subst hchannel
      rcases lt_or_ge file.length bufferSize with hlt | hle
      · -- this is the end of the file
        rw [chunk_of_lt hlt] at hdispatched ⊢
        obtain ⟨rfl, rfl⟩ := List.cons.inj hdispatched
        rw [buffers, if_pos hlt]
        exact ⟨rfl, rfl, rfl⟩
      · rw [chunk_of_le hle] at hdispatched
        obtain ⟨rfl, -⟩ := List.cons.inj hdispatched
        cases hlast
    | @more file s' channel buf rest bufs later hdispatched hlast _ ih =>
      subst hchannel
      rcases lt_or_ge file.length bufferSize with hlt | hle
      · rw [chunk_of_lt hlt] at hdispatched
        obtain ⟨rfl, -⟩ := List.cons.inj hdispatched
        cases hlast
      · rw [chunk_of_le hle] at hdispatched ih
        obtain ⟨rfl, rfl⟩ := List.cons.inj hdispatched
        obtain ⟨rfl, rfl, rfl⟩ := ih rfl
        rw [buffers.eq_def file, if_neg (not_lt.mpr hle)]
        exact ⟨rfl, rfl, rfl⟩
  · rintro ⟨rfl, rfl, rfl⟩
    fun_induction buffers file with
    | case1 file hlt =>
      have htaken : Taken chunk file [] [⟨file, true⟩] (chunk file).2 [] :=
        .last (by rw [chunk_of_lt hlt]; rfl) rfl
      rwa [chunk_of_lt hlt] at htaken
    | case2 file hge ih =>
      have hchunk := chunk_of_le (not_lt.mp hge)
      have hdispatched : [] ++ (chunk file).1 = [⟨file.take bufferSize, false⟩] := by
        rw [hchunk, List.nil_append]
      refine .more hdispatched rfl ?_
      rwa [hchunk]

/-- The body is the file. -/
theorem body_buffers (file : Octets) : body (buffers file) = file := by
  fun_induction buffers file with
  | case1 file hlt => simp [body]
  | case2 file hge ih => simp [body, ih]

/-- The last buffer is empty if the others hold all of the file. -/
theorem endsFull_buffers_iff (file : Octets) :
    EndsFull (buffers file) ↔ ¬ bufferSize ∣ file.length := by
  fun_induction buffers file with
  | case1 file hlt =>
    simp only [EndsFull, if_true]
    refine not_congr ⟨fun h => by simp [h], fun h => ?_⟩
    exact List.eq_nil_of_length_eq_zero (Nat.eq_zero_of_dvd_of_lt h hlt)
  | case2 file hge ih =>
    have hlength : file.length = (file.drop bufferSize).length + bufferSize := by
      rw [List.length_drop]
      omega
    simp only [EndsFull, Bool.false_eq_true, if_false]
    rw [ih, hlength, Nat.dvd_add_self_right]

/-! ## The endpoint -/

/-- The path of the endpoint. -/
def path : Path where
  regexPattern := {
    regex := .sequence [.letter (code '/'),
      .group 1 (.sequence [.rep 0 none true (.set fun x => ! isTerminator x)]),
      .rep 0 (some 1) true (.letter (code '/'))]
    markCount := 1 }
  parameterNames := [octets "file"]

theorem construct_path : Path.construct (octets "/\x7bfile:.*\x7d") = some path := by
  have htext : octets "/\x7bfile:.*\x7d" =
      [code '/'] ++ code '{' :: (octets "file" ++ code ':' :: (octets ".*" ++ code '}' :: [])) := by
    decide
  have hrest : Path.buildRegex Path.parameterRegex 9 [] = ([], []) :=
    Path.buildRegex_of_notMem List.not_mem_nil 9
  have hbuild : Path.buildRegex Path.parameterRegex 10
      ([code '/'] ++ code '{' :: (octets "file" ++ code ':' :: (octets ".*" ++ code '}' :: []))) =
        _ :=
    Path.buildRegex_typed (by decide) (by decide +kernel) (by decide) (by decide) (by decide) [] 9
  rw [← htext, hrest] at hbuild
  have hlength : (octets "/\x7bfile:.*\x7d").length = 10 := by decide
  rw [Path.construct, Path.compile_parameterPattern, hlength]
  simp only [Option.bind_eq_bind, Option.bind_some, hbuild]
  rfl

/-- The option at the end matches nothing, or a slash. -/
theorem run_trailing_iff {before rest : Octets} {captures : ℕ → Option Octets}
    {t : Regex.State Octet} :
    (Regex.sequence [Regex.rep 0 (some 1) true (.letter (code '/'))]).run
        (fun s => if s.rest = [] then some s else none) ⟨before, rest, captures⟩ = some t ↔
      (rest = [] ∨ rest = [code '/']) ∧ t = ⟨rest.reverse ++ before, [], captures⟩ := by
  constructor
  · intro h
    have hrest : rest = [] ∨ rest = [code '/'] := by
      rw [Regex.run_sequence_cons, Regex.run_option, Regex.letter] at h
      cases rest with
      | nil => exact .inl rfl
      | cons c rest =>
        cases rest with
        | nil =>
          by_cases hc : c = code '/'
          · exact .inr (by rw [hc])
          · simp [hc] at h
        | cons c' rest => simp at h
    rw [Http.Template.run_trailing hrest, Option.some_inj] at h
    exact ⟨hrest, h.symm⟩
  · rintro ⟨hrest, rfl⟩
    exact Http.Template.run_trailing hrest before captures

/-- All of the path behind the first slash is the name of the file. -/
theorem matchUrl_path {name : Octets} (h : ∀ c ∈ name, ¬ isTerminator c) :
    path.matchUrl (code '/' :: name) = some (AList.insert (octets "file") name ∅) := by
  have hrun : path.regexPattern.regex.fullMatch (code '/' :: name) =
      some ⟨name.reverse ++ [code '/'], [], Function.update (fun _ => none) 1 (some name)⟩ := by
    rw [Regex.fullMatch, path, Regex.State.initial, Regex.run_sequence_cons, Regex.run_letter,
      Regex.run_sequence_cons, Regex.run_group, Regex.run_sequence_cons]
    have hcapture : Regex.State.capture 1 ⟨[code '/'], name, fun _ => none⟩
        ⟨name.reverse ++ [code '/'], [], fun _ => none⟩ =
        ⟨name.reverse ++ [code '/'], [], Function.update (fun _ => none) 1 (some name)⟩ := by
      simp [Regex.State.capture]
    -- the repetition goes up to the end
    nth_rewrite 2 [← List.append_nil name]
    refine Regex.run_star (by simpa using h) (by simp) ?_
    rw [Regex.run_sequence_nil, hcapture]
    exact run_trailing_iff.mpr ⟨.inl rfl, rfl⟩
  rw [Path.matchUrl, hrun]
  simp [path, Path.parameters]

/-- The endpoint takes the URLs that begin with a slash and have no line terminator in them. -/
theorem matchUrl_path_iff {url : Octets} {result : PathResult} :
    path.matchUrl url = some result ↔ ∃ name, url = code '/' :: name ∧
      (∀ c ∈ name, ¬ isTerminator c) ∧ result = AList.insert (octets "file") name ∅ := by
  constructor
  · intro h
    obtain ⟨t, ht, -⟩ := Option.map_eq_some_iff.mp h
    rw [Regex.fullMatch, path, Regex.State.initial, Regex.run_sequence_cons, Regex.letter] at ht
    cases url with
    | nil => cases ht
    | cons c name =>
      rw [Regex.run_set_cons] at ht
      split_ifs at ht with hc
      obtain rfl := beq_iff_eq.mp hc
      rw [Regex.run_sequence_cons, Regex.run_group, Regex.run_sequence_cons] at ht
      obtain ⟨word, rest, rfl, hword, ht⟩ := Regex.exists_of_run_star ht
      -- what the repetition leaves is a slash at most
      rw [Regex.run_sequence_nil] at ht
      have hrest := (run_trailing_iff.mp ht).1
      have hname : ∀ c ∈ word ++ rest, ¬ isTerminator c := by
        intro c hc
        rcases List.mem_append.mp hc with hc | hc
        · simpa using hword c hc
        · rcases hrest with rfl | rfl
          · cases hc
          · rw [List.mem_singleton.mp hc]
            decide
      rw [matchUrl_path hname, Option.some_inj] at h
      exact ⟨_, rfl, hname, h.symm⟩
  · rintro ⟨name, rfl, hname, rfl⟩
    exact matchUrl_path hname

/-- The name of a header. -/
def contentType : Http.Token := ⟨octets "Content-Type", by decide, by rfl⟩

/-- The type of a file. -/
def Machine.contentType (m : Machine) (name : Octets) : Octets :=
  (m.guessContentType name).getD (octets "application/octet-stream")

/-- The head of the response with a file. -/
def fileHead (m : Machine) (request : Request) (name file : Octets) : ResponseHead :=
  .build (.empty 0) <|
    [.setStatusCode 200, .setHeader contentType (m.contentType name)] ++
      if request.version = .http11 then [.setContentLength file.length] else []

/-- The response of the handler, with its own handler for `event::chunk` if there is one. -/
def streamed (m : Machine) (request : Request) (mapping : PathResult) : Streamed Octets :=
  let name := (mapping.lookup (octets "file")).getD []
  match m.files name with
  | some file => ⟨(fileHead m request name file).response, chunk, file⟩
  | none => ⟨Http.defaultNotFound request, fun fstream => ([], fstream), []⟩

/-- The response with the buffers that are taken. -/
def response (m : Machine) (request : Request) (mapping : PathResult) : Response :=
  let name := (mapping.lookup (octets "file")).getD []
  match m.files name with
  | some file => { (fileHead m request name file).response with channel := buffers file }
  | none => Http.defaultNotFound request

/-- These are the buffers that a callback takes. -/
theorem taken_iff {m : Machine} {request : Request} {mapping : PathResult} {s' : Octets}
    {bufs later : List Buffer} :
    Taken (streamed m request mapping).chunk (streamed m request mapping).state
        (streamed m request mapping).response.channel bufs s' later ↔
      bufs = (response m request mapping).channel ∧ s' = [] ∧ later = [] := by
  rw [streamed, response]
  dsimp only
  split
  next file hfile =>
    -- the channel is empty before the first chunk
    have hchannel : (fileHead m request ((mapping.lookup (octets "file")).getD []) file).channel =
        [] := by
      rw [fileHead]
      split_ifs <;> rfl
    rw [ResponseHead.response, hchannel]
    exact taken_chunk_iff
  next hfile =>
    constructor
    · rintro (⟨hdispatched, -⟩ | ⟨hdispatched, hlast, -⟩)
      · obtain ⟨rfl, rfl⟩ := List.cons.inj hdispatched
        exact ⟨rfl, rfl, rfl⟩
      · obtain ⟨rfl, -⟩ := List.cons.inj hdispatched
        cases hlast
    · rintro ⟨rfl, rfl, rfl⟩
      exact .last rfl rfl

theorem response_eq (m : Machine) (request : Request) (mapping : PathResult) :
    { (streamed m request mapping).response with
      channel := (response m request mapping).channel } = response m request mapping := by
  rw [streamed, response]
  dsimp only
  split <;> rfl

section Callbacks

variable {m : Machine} {request : Request} {mapping : PathResult} {s' : Octets}
  {later : List Buffer} {results : ℕ → ℤ}

/-- What a callback does with the buffers that it takes, it does with those in the channel. -/
theorem exists_taken_iff {P : List Buffer → Response → Prop} :
    (∃ bufs, Taken (streamed m request mapping).chunk (streamed m request mapping).state
        (streamed m request mapping).response.channel bufs s' later ∧
      P later { (streamed m request mapping).response with channel := bufs ++ later }) ↔
      s' = [] ∧ later = [] ∧ P [] (response m request mapping) := by
  simp only [taken_iff]
  constructor
  · rintro ⟨bufs, ⟨rfl, rfl, rfl⟩, hsent⟩
    rw [List.append_nil, response_eq] at hsent
    exact ⟨rfl, rfl, hsent⟩
  · rintro ⟨rfl, rfl, hsent⟩
    refine ⟨_, ⟨rfl, rfl, rfl⟩, ?_⟩
    rwa [List.append_nil, response_eq]

/-- The callback of HTTP/2 sends the response with the buffers in its channel. -/
theorem h2_respondStreamed_iff {order : List (ℕ × Header)} {tx : Hpack.Serializer}
    {streamId : UInt32} {frames : List Frame} :
    (∃ rounds, (H2.respondStreamed results rounds order tx streamId
        (streamed m request mapping)).run [] = .ok (some (s', later)) frames) ↔
      s' = [] ∧ later = [] ∧
        (H2.respond results order tx streamId (response m request mapping)).run [] =
          .ok [] frames := by
  rw [H2.exists_respondStreamed_iff]
  exact exists_taken_iff (P := fun later r =>
    (H2.respond results order tx streamId r).run [] = .ok later frames)

/-- So does the callback of HTTP/1.1. -/
theorem http_respondStreamed_iff {chunks : List Octets} :
    (∃ rounds, (Http.respondStreamed results rounds (streamed m request mapping)).run [] =
        .ok (some (s', later)) chunks) ↔
      s' = [] ∧ later = [] ∧
        (Http.respond results (response m request mapping)).run [] = .ok [] chunks := by
  rw [Http.exists_respondStreamed_iff]
  exact exists_taken_iff (P := fun later r =>
    (Http.respond results r).run [] = .ok later chunks)

end Callbacks

/-- The endpoint. The file that the handler puts into the context of the request is the state that
`event::chunk` works on. -/
def image (m : Machine) : Endpoint where
  method := HttpMethod.get.bit
  path url := do (← Path.construct (octets "/\x7bfile:.*\x7d")).matchUrl url
  handler request mapping := (request, response m request mapping)
  asynchronous := true

/-- The layer of the server. -/
def layer (m : Machine) : Layer where
  endpoints := [image m]

/-- The response that `handle` passes to the callback. -/
def serve (m : Machine) (request : Request) : Response :=
  match findEndpoint (layer m).endpoints request with
  | none => (layer m).notFound request
  | some (endpoint, mapping) => (endpoint.handler request mapping).2

/-- The response is made on another thread if there is an endpoint for the request. -/
theorem handle_eq (m : Machine) (request : Request) :
    (layer m).handle request = [.launch .async [.built, .finish (serve m request)], .destroy] ∨
      (layer m).handle request = [.emit .built, .emit (.finish (serve m request))] := by
  have hreceived : (layer m).received request = request := rfl
  have hcalls : ∀ point, (layer m).calls point = [] := fun _ => rfl
  rw [Layer.handle, hreceived, hcalls, serve]
  cases hfind : findEndpoint (layer m).endpoints request with
  | none => exact .inr rfl
  | some found =>
    obtain ⟨before, after, hendpoints, -⟩ := Http.findEndpoint_eq_some_iff.mp hfind
    have hendpoint : found.1 = image m :=
      List.mem_singleton.mp (hendpoints ▸ by simp : found.1 ∈ (layer m).endpoints)
    left
    dsimp only
    rw [hendpoint]
    rfl

/-! ## What the server is for -/

/-- The file that a request is for: its path behind the slash, and what is in it. -/
def requested (m : Machine) (request : Request) : Option (Octets × Octets) :=
  match request.method, request.path with
  | some .get, c :: name =>
    if c = code '/' ∧ ∀ c ∈ name, ¬ isTerminator c then (m.files name).map (name, ·) else none
  | _, _ => none

theorem accepts_image_iff {m : Machine} {request : Request} {mapping : PathResult} :
    (image m).accepts request = some mapping ↔ request.method = some .get ∧
      ∃ name, request.path = code '/' :: name ∧ (∀ c ∈ name, ¬ isTerminator c) ∧
        mapping = AList.insert (octets "file") name ∅ := by
  have hmethod : (image m).method &&& request.method.elim 0 HttpMethod.bit = 0 ↔
      request.method ≠ some .get := by
    change HttpMethod.get.bit &&& _ = 0 ↔ _
    cases request.method with
    | none => decide
    | some method => cases method <;> decide
  rw [Endpoint.accepts, if_congr hmethod rfl rfl]
  by_cases hget : request.method = some .get
  · simp [image, construct_path, matchUrl_path_iff, hget]
  · simp [hget]

/-- A request for a file is answered with that, and any other one with a page. -/
theorem serve_eq (m : Machine) (request : Request) :
    serve m request =
      match requested m request with
      | some (name, file) =>
        { (fileHead m request name file).response with channel := buffers file }
      | none => Http.defaultNotFound request := by
  have hfind : findEndpoint (layer m).endpoints request =
      ((image m).accepts request).map (image m, ·) := by
    rw [findEndpoint, layer, List.findSome?_singleton]
  rw [serve, hfind]
  cases haccepts : (image m).accepts request with
  | none =>
    -- the path is not that of a file, and the layer has no other endpoint
    have hnone : requested m request = none := by
      rw [requested]
      split
      next c name hget hpath =>
        refine if_neg ?_
        rintro ⟨hc, hname⟩
        have hsome := (accepts_image_iff (m := m)).mpr ⟨hget, name, by rw [hpath, hc], hname, rfl⟩
        rw [haccepts] at hsome
        cases hsome
      next => rfl
    rw [hnone]
    rfl
  | some mapping =>
    obtain ⟨hget, name, hpath, hname, rfl⟩ := accepts_image_iff.mp haccepts
    have hsome : requested m request = (m.files name).map (name, ·) := by
      rw [requested, hget, hpath]
      exact if_pos ⟨rfl, hname⟩
    rw [hsome, Option.map_some]
    dsimp only [image]
    rw [response, AList.lookup_insert, Option.getD_some]
    cases m.files name <;> rfl

/-- The page that says that there is no such file. -/
def notFound : Received where
  headers := [[⟨octets ":status", octets "404"⟩, ⟨octets "content-length", octets "27"⟩,
    ⟨octets "content-type", octets "text/html"⟩]]
  body := octets "404 Not Found<hr>rite/0.0.1"
  ended := true

/-- What a client of HTTP/2 is to have on the stream of a request. A file whose last buffer is empty
does not end the stream. -/
def answer (m : Machine) (request : Request) : Received :=
  match requested m request with
  | some (name, file) => {
    headers := [[⟨octets ":status", octets "200"⟩, ⟨octets "content-type", m.contentType name⟩]]
    body := file
    ended := ¬ bufferSize ∣ file.length }
  | none => notFound

/-- The headers of a response with a file. -/
theorem response_fileHead (m : Machine) (request : Request) (name file : Octets) :
    (fileHead m request name file).response =
      ⟨200, (if request.version = .http11 then
          [(octets "Content-Length", octets (toString file.length))] else []) ++
        [(octets "Content-Type", m.contentType name)], []⟩ := by
  rw [fileHead]
  split_ifs
  · rfl
  · rfl

/-- All frames of the response make the answer. -/
theorem whole_serve {m : Machine} {request : Request} (h : request.version ≠ .http11) :
    whole (serve m request) = answer m request := by
  rw [serve_eq, answer]
  cases requested m request with
  | none =>
    change whole (Http.htmlResponse 404 (octets "404 Not Found<hr>rite/0.0.1")) = notFound
    decide +kernel
  | some found =>
    have hstatus : Rfc7541.received ⟨octets ":status", octets (toString 200)⟩ =
        ⟨octets ":status", octets "200"⟩ := by decide +kernel
    have htype : ∀ value, Rfc7541.received ⟨octets "Content-Type", value⟩ =
        ⟨octets "content-type", value⟩ := by
      intro value
      have hindexed : Rfc7541.Indexed (octets "Content-Type") := by decide +kernel
      have hlower : Hpack.toLower (octets "Content-Type") = octets "content-type" := by
        decide +kernel
      rw [Rfc7541.received, if_pos hindexed, hlower]
    simp only [whole, Multiplexing.responseHeaders, H2.headerList, response_fileHead,
      if_neg h, body_buffers, endsFull_buffers_iff, List.nil_append, List.map_cons, List.map_nil,
      hstatus, htype]

/-! ## Connections of HTTP/2 -/

section Connections

variable {m : Machine} {order : List (ℕ × Header)}

/-- The types of files are short. -/
def Machine.ShortTypes (m : Machine) : Prop :=
  ∀ name type, m.guessContentType name = some type → type.length ≤ 1024

/-- If the types of files are, the headers of all responses are short. -/
theorem receivable_serve (horder : order.Perm Hpack.staticHeaderTable.items) (hm : m.ShortTypes)
    {request : Request} (h : request.version ≠ .http11) :
    Receivable order (serve m request) := by
  refine Multiplexing.receivable_of_length horder ?_
  rw [serve_eq]
  cases requested m request with
  | none =>
    -- the page is always the same
    change (List.map _ (H2.headerList (Http.htmlResponse 404
      (octets "404 Not Found<hr>rite/0.0.1")))).sum ≤ _
    decide +kernel
  | some found =>
    have htype : (m.contentType found.1).length ≤ 1024 := by
      rw [Machine.contentType]
      cases htype : m.guessContentType found.1 with
      | none => decide
      | some type => exact hm found.1 type htype
    have hlengths : (octets ":status").length = 7 ∧ (octets (toString 200)).length = 3 ∧
        (octets "Content-Type").length = 12 := by decide
    have hsize : Multiplexing.initialMaxFrameSize = 16384 := rfl
    simp only [H2.headerList, response_fileHead, if_neg h, List.nil_append, List.map_cons,
      List.map_nil, List.sum_cons, List.sum_nil, hlengths.1, hlengths.2.1, hlengths.2.2]
    omega

/-- A client that follows the specification has the answer to each message on its stream, and
nothing on others. -/
def Downloaded (m : Machine) (messages : List Message) (ch : Octet) (limit : ℕ)
    (decoder : Rfc7541.Decoder) (s : Conversation.State) : Prop :=
  ∃ sent c, ReadAs s.mux.socket.output.flatten sent ∧
    (Client.fresh decoder).receiveAll limit sent = some c ∧
    (∀ message ∈ messages, c.streams message.streamIdentifier = answer m (requestOf ch message)) ∧
    ∀ id ∉ messages.map Message.streamIdentifier, c.streams id = {}

/-- The requests of a connection of HTTP/2 say so. -/
theorem requestOf_version (ch : Octet) (message : Message) :
    (requestOf ch message).version = .http20 := by
  rw [requestOf, H2.Stream.finishStream]
  split <;> rfl

variable {limit : ℕ} {settings : Frame} {frames : List Frame} {messages : List Message}
  {packets : List Octets}

end Connections

/-- A machine with a file that fills a buffer. -/
def sampleMachine : Machine where
  files name := if name = octets "a" then some (List.replicate bufferSize 0x61) else none
  guessContentType _ := some (octets "text/plain")

/-- A request for the file, and one for the root. -/
def sampleFrames : List Frame :=
  [⟨5, .headers, 0x5, 1, [0x82, 0x04, 0x02, 0x2F, 0x61]⟩, ⟨2, .headers, 0x5, 3, [0x82, 0x84]⟩]

@[inherit_doc sampleFrames]
def sampleMessages : List Message :=
  [⟨1, [⟨octets ":method", octets "GET"⟩, ⟨octets ":path", octets "/a"⟩], []⟩,
    ⟨3, [⟨octets ":method", octets "GET"⟩, ⟨octets ":path", octets "/"⟩], []⟩]

theorem sends_requests : Sends 4096 ⟨0, .settings, 0, 0, []⟩ sampleFrames sampleMessages
    (H2.packetsOf (⟨0, .settings, 0, 0, []⟩ :: sampleFrames)) where
  fits := by decide
  type := rfl
  length := rfl
  supported := H2.supported_of_all (by decide)
  accepted := by
    have hmessages : ((Rfc7540.Server.initial 4096).receiveAll 4096 sampleFrames).map Prod.snd =
        some sampleMessages := by decide
    obtain ⟨⟨s, messages⟩, hspec, rfl⟩ := Option.map_eq_some_iff.mp hmessages
    exact ⟨s, hspec⟩
  nodup := by decide
  readable := by decide +kernel
  flatten := (H2.flatten_packetsOf _).trans (List.append_assoc ..).symm
  cuts := H2.not_inside_packetsOf (by decide)

theorem shortTypes_sample : sampleMachine.ShortTypes := by
  rintro name type ⟨⟩
  decide

/-- The last of the buffers of a file is the only one with that flag. -/
theorem exists_final (file : Octets) : ∃ init final, buffers file = init ++ [final] ∧
    (∀ b ∈ init, ¬ b.last) ∧ final.last :=
  (taken_chunk_iff.mpr ⟨rfl, rfl, rfl⟩ : Taken chunk file [] (buffers file) [] []).exists_final

theorem flatMap_buffers (file : Octets) : (buffers file).flatMap Buffer.data = file := by
  fun_induction buffers file with
  | case1 file hlt => simp
  | case2 file hge ih => simp [ih]

/-- A request for a file by a name without white space gets its type, its length and the file,
whatever headers the request has and whatever the socket returns. The parser stores past the
variable of `decode_uri_component` exactly if the name has a query, and this a number behind a
`%`. -/
theorem downloaded_http {m : Machine} {name file : Octets} (hname : ∀ c ∈ name, ¬ Http.isspace c)
    (hfile : m.files name = some file) (ch : Octet) (rest : Octets) (results : ℕ → ℤ) :
    ∃ request mapping rounds chunks,
      Http.parse ch (Http.requestHead (octets "GET") (code '/' :: name) rest) {} =
        (true, request) ∧
      (Http.overruns ch (Http.requestHead (octets "GET") (code '/' :: name) rest) = false ↔
        ∀ c ∈ Http.queryComponents (code '/' :: name), Http.Numberless c) ∧
      findEndpoint (layer m).endpoints request = some (image m, mapping) ∧
      (Http.respondStreamed results rounds (streamed m request mapping)).run [] =
        .ok (some ([], [])) chunks ∧
      chunks.flatten = octets "HTTP/1.1 200\r\nContent-Length: " ++ octets (toString file.length) ++
        octets "\r\nContent-Type: " ++ m.contentType name ++ octets "\r\n\r\n" ++ file := by
  have htarget : ∀ c ∈ code '/' :: name, ¬ Http.isspace c :=
    List.forall_mem_cons.mpr ⟨by decide, hname⟩
  have hterminator : ∀ c ∈ name, ¬ isTerminator c := fun c hc h => by
    refine hname c hc ?_
    rcases Bool.or_eq_true_iff.mp h with h | h <;> rw [beq_iff_eq.mp h] <;> decide
  have hget : Http.method (octets "GET") = some .get := by decide
  obtain ⟨request, hparse, hmethod, hversion, hpath⟩ : ∃ request,
      Http.parse ch (Http.requestHead (octets "GET") (code '/' :: name) rest) {} =
        (true, request) ∧
      request.method = some .get ∧ request.version = .http11 ∧
      request.path = code '/' :: name :=
    ⟨_, Http.parse_requestHead ch {} rest hget (List.cons_ne_nil _ _) htarget, rfl, rfl, rfl⟩
  let mapping : PathResult := AList.insert (octets "file") name ∅
  have haccepts : (image m).accepts request = some mapping :=
    accepts_image_iff.mpr ⟨hmethod, name, hpath, hterminator, rfl⟩
  have hfind : findEndpoint (layer m).endpoints request = some (image m, mapping) :=
    Http.findEndpoint_eq_some_iff.mpr ⟨[], [], rfl, haccepts, by simp⟩
  have hresponse : response m request mapping =
      { (fileHead m request name file).response with channel := buffers file } := by
    rw [response, AList.lookup_insert, Option.getD_some, hfile]
  obtain ⟨init, final, hbuffers, hinit, hfinal⟩ := exists_final file
  have hrun : (Http.respond results (response m request mapping)).run [] = .ok []
      (Http.headerSection (response m request mapping) ::
        (buffers file).map Buffer.data) := by
    rw [hbuffers]
    exact Http.run_respond (by rw [hresponse, hbuffers]) hinit hfinal
  obtain ⟨rounds, hstreamed⟩ := http_respondStreamed_iff.mpr ⟨rfl, rfl, hrun⟩
  refine ⟨request, mapping, rounds, _, hparse, ?_, hfind, hstreamed, ?_⟩
  · exact Http.overruns_requestHead ch rest hget (List.cons_ne_nil _ _) htarget
  -- the chunks together
  rw [List.flatten_cons, ← List.flatMap_def, flatMap_buffers, hresponse, response_fileHead,
    if_pos hversion]
  have hstatus : octets "HTTP/1.1 " ++ octets (toString 200) ++ octets "\r\n" ++
      octets "Content-Length" ++ octets ": " = octets "HTTP/1.1 200\r\nContent-Length: " := by
    decide
  have htype : octets "\r\n" ++ octets "Content-Type" ++ octets ": " =
      octets "\r\nContent-Type: " := by decide
  have hend : octets "\r\n" ++ octets "\r\n" = octets "\r\n\r\n" := by decide
  rw [← hstatus, ← htype, ← hend]
  simp [Http.headerSection]

/-- The same file over HTTP/1.1, where its length comes with it. -/
theorem downloaded_http_sample :
    ∃ request mapping rounds chunks,
      Http.parse 0 (Http.requestHead (octets "GET") (code '/' :: octets "a") (octets "\r\n")) {} =
        (true, request) ∧
      (Http.overruns 0 (Http.requestHead (octets "GET") (code '/' :: octets "a")
          (octets "\r\n")) = false ↔
        ∀ c ∈ Http.queryComponents (code '/' :: octets "a"), Http.Numberless c) ∧
      findEndpoint (layer sampleMachine).endpoints request = some (image sampleMachine, mapping) ∧
      (Http.respondStreamed (fun _ => 1) rounds (streamed sampleMachine request mapping)).run [] =
        .ok (some ([], [])) chunks ∧
      chunks.flatten = octets "HTTP/1.1 200\r\nContent-Length: " ++
        octets (toString (List.replicate bufferSize (0x61 : Octet)).length) ++
        octets "\r\nContent-Type: " ++ sampleMachine.contentType (octets "a") ++
        octets "\r\n\r\n" ++ List.replicate bufferSize 0x61 :=
  have hname : ∀ c ∈ octets "a", ¬ Http.isspace c := by decide +kernel
  have hfile : sampleMachine.files (octets "a") = some (List.replicate bufferSize 0x61) := by
    simp only [sampleMachine, if_true]
  downloaded_http hname hfile 0 (octets "\r\n") fun _ => 1

end FileServer

end Rite
