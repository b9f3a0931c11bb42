import Rite.Http.Istream
import Rite.Http.Overrun

/-!
# HTTP/1 requests (`parser<http_request>`)

`parser<http_request>::parse` reads a request off a stream: the request line, from which three words
are taken, then lines with headers up to one that is empty or a lone carriage return, then, for POST
and PUT, the body. It fails without a request line, for other versions and for other methods, and
leaves what it has read by then in the request. The query is what it is if the octets behind the
variable of `decode_uri_component` do not matter; whether anything is stored there is said apart.

## Main results

* `parse_requestHead`: a request line with a method, a target and `HTTP/1.1` is read as it is;
* `overruns_requestHead`: nothing is stored past the variable if no key or value of the query of the
  target has a `%` in front of a number.
-/

namespace Rite

namespace Http

/-- The version that a name stands for. -/
def httpVersion (name : Octets) : Option HttpVersion :=
  if name = octets "HTTP/1.1" then some .http11
  else if name = octets "HTTP/2.0" then some .http20
  else if name = octets "HTTP/3.0" then some .http30
  else if name = octets "HTTP/1.0" then some .http10
  else none

/-- `request_line >> method_str >> path >> version`, if that succeeds. -/
def requestWords (line : Octets) : Option (Octets × Octets × Octets) :=
  let (_, methodStr, s) := Istream.extract [] ⟨line, true⟩
  let (_, path, s) := Istream.extract [] s
  -- a stream that has failed fails again
  let (ok, version, _) := Istream.extract [] s
  if ok then some (methodStr, path, version) else none

/-- The characters that are trimmed from headers. -/
def isblank (c : Octet) : Bool := c = 0x20 || c = 0x0A || c = 0x0D || c = 0x09

/-- `headers_`, with the header of a line. A line without a colon is passed over. -/
def insertHeader (headers : AList fun _ : Octets => Octets) (line : Octets) :
    AList fun _ : Octets => Octets :=
  if 0x3A ∈ line then
    let key := line.takeWhile (· != 0x3A)
    let value := (line.dropWhile (· != 0x3A)).tail
    -- the key is trimmed at its end, the value at its beginning
    headers.insert (key.rdropWhile isblank) (value.dropWhile isblank)
  else headers

/-- The loop over the lines with headers. -/
def parseHeaders (headers : AList fun _ : Octets => Octets) (s : Istream) :
    (AList fun _ : Octets => Octets) × Istream :=
  match _h : s.getline 0x0A [] with
  | (true, line, s') =>
    -- the end of the headers
    if line = [] ∨ line = [0x0D] then (headers, s')
    else parseHeaders (insertHeader headers line) s'
  | (false, _, s') => (headers, s')
termination_by s.rest.length
decreasing_by exact Istream.length_lt_of_getline ‹_›

/-- `parser<http_request>::parse`: whether it succeeds, and `req`. -/
def parse (ch : Octet) (data : Octets) (req : Request) : Bool × Request :=
  let (ok, line, s) := Istream.getline 0x0A [] ⟨data, true⟩
  if ¬ ok then (false, req)
  else
    match requestWords line with
    | none => (false, req)
    | some (methodStr, path, version) =>
      match httpVersion version with
      | none => (false, req)
      | some version =>
        -- the version and the query stay in the request even if the method is not known
        let req := { req with version, query := (parseQuery ch path).getD req.query }
        match method methodStr with
        | none => (false, req)
        | some method =>
          let (headers, s) := parseHeaders req.headers s
          -- `Content-Length` is not looked at: the body is all that is left
          let body := if method = .post ∨ method = .put then s.rest else req.body
          (true, { req with method := some method, path, headers, body })

/-- `parser<http_request>::parse` stores past the variable of `decode_uri_component`. -/
def overruns (ch : Octet) (data : Octets) : Bool :=
  let (ok, line, _) := Istream.getline 0x0A [] ⟨data, true⟩
  if ¬ ok then false
  else
    match requestWords line with
    | none => false
    | some (_, path, version) => (httpVersion version).isSome && ! (parseQueryM ch path).isOk

/-- The names of the methods. -/
private def methodNames : List Octets :=
  ["GET", "HEAD", "POST", "PUT", "DELETE", "CONNECT", "OPTIONS", "TRACE", "PATCH"].map octets

private theorem mem_methodNames {m : Octets} {x : HttpMethod} (h : method m = some x) :
    m ∈ methodNames := by
  by_contra hnot
  simp only [methodNames, List.map_cons, List.map_nil, List.mem_cons, List.not_mem_nil, or_false,
    not_or] at hnot
  simp [method, hnot] at h

/-- Names of methods are words. -/
theorem word_of_method {m : Octets} {x : HttpMethod} (h : method m = some x) :
    m ≠ [] ∧ ∀ c ∈ m, ¬ isspace c := by
  have hall : methodNames.all (fun m => ! m.isEmpty && m.all (! isspace ·)) = true := rfl
  simpa using List.all_eq_true.mp hall m (mem_methodNames h)

/-- The octets of a request line, and what follows it. -/
def requestHead (m t rest : Octets) : Octets :=
  m ++ 0x20 :: (t ++ (octets " HTTP/1.1\r\n" ++ rest))

section RequestLine

variable {m t : Octets} {x : HttpMethod}

/-- Three words with blanks between them. -/
theorem requestWords_eq_some (hm : method m = some x) (hne : t ≠ [])
    (ht : ∀ c ∈ t, ¬ isspace c) :
    requestWords (m ++ 0x20 :: (t ++ octets " HTTP/1.1\r")) =
      some (m, t, octets "HTTP/1.1") := by
  obtain ⟨hmne, hword⟩ := word_of_method hm
  have hblank : ∀ c ∈ [(0x20 : Octet)], isspace c := by simp [isspace]
  have hversion : octets " HTTP/1.1\r" = 0x20 :: (octets "HTTP/1.1" ++ [0x0D]) := by
    decide +kernel
  have hfirst : Istream.extract [] ⟨m ++ 0x20 :: (t ++ octets " HTTP/1.1\r"), true⟩ =
      (true, m, ⟨0x20 :: (t ++ octets " HTTP/1.1\r"), true⟩) :=
    Istream.extract_append [] (by simp) hmne hword (by decide)
  have hsecond : Istream.extract [] ⟨0x20 :: (t ++ octets " HTTP/1.1\r"), true⟩ =
      (true, t, ⟨0x20 :: (octets "HTTP/1.1" ++ [0x0D]), true⟩) := by
    rw [hversion]
    exact Istream.extract_append [0x20] hblank hne ht (by decide)
  have hthird : Istream.extract [] ⟨0x20 :: (octets "HTTP/1.1" ++ [0x0D]), true⟩ =
      (true, octets "HTTP/1.1", ⟨[0x0D], true⟩) := by decide
  simp only [requestWords, hfirst, hsecond, hthird, if_true]

/-- A line with a word and white space is not a request line. -/
theorem requestWords_nil (hm : method m = some x) :
    requestWords (m ++ 0x20 :: octets " HTTP/1.1\r") = none := by
  obtain ⟨hmne, hword⟩ := word_of_method hm
  have hfirst : Istream.extract [] ⟨m ++ 0x20 :: octets " HTTP/1.1\r", true⟩ =
      (true, m, ⟨0x20 :: octets " HTTP/1.1\r", true⟩) :=
    Istream.extract_append [] (by simp) hmne hword (by decide)
  -- the version is taken for the target
  have hsecond : Istream.extract [] ⟨0x20 :: octets " HTTP/1.1\r", true⟩ =
      (true, octets "HTTP/1.1", ⟨[0x0D], true⟩) := by decide
  have hthird : Istream.extract [] ⟨[0x0D], true⟩ = (false, [], ⟨[], false⟩) := by decide
  simp [requestWords, hfirst, hsecond, hthird]

theorem getline_requestHead (rest : Octets) (hm : method m = some x) (ht : ∀ c ∈ t, ¬ isspace c) :
    Istream.getline 0x0A [] ⟨requestHead m t rest, true⟩ =
      (true, m ++ 0x20 :: (t ++ octets " HTTP/1.1\r"), ⟨rest, true⟩) := by
  have hversion : octets " HTTP/1.1\r\n" = octets " HTTP/1.1\r" ++ [0x0A] := by decide
  have hline : 0x0A ∉ m ++ 0x20 :: (t ++ octets " HTTP/1.1\r") := by
    -- a line feed is white space, but not one of the blanks here
    have hm' : 0x0A ∉ m := fun h => (word_of_method hm).2 _ h (by decide)
    have ht' : 0x0A ∉ t := fun h => ht _ h (by decide)
    have hversion' : 0x0A ∉ octets " HTTP/1.1\r" := by decide
    simp [hm', ht', hversion']
  rw [← Istream.getline_append [] hline, requestHead, hversion]
  simp

/-- A request line with a known method and a target is read as it is. -/
theorem parse_requestHead (ch : Octet) (req : Request) (rest : Octets) (hm : method m = some x)
    (hne : t ≠ []) (ht : ∀ c ∈ t, ¬ isspace c) :
    parse ch (requestHead m t rest) req =
      (true, { req with
        version := .http11
        query := (parseQuery ch t).getD req.query
        method := some x
        path := t
        headers := (parseHeaders req.headers ⟨rest, true⟩).1
        body := if x = .post ∨ x = .put then (parseHeaders req.headers ⟨rest, true⟩).2.rest
          else req.body }) := by
  have hversion : httpVersion (octets "HTTP/1.1") = some .http11 := by decide
  simp only [parse, getline_requestHead rest hm ht, requestWords_eq_some hm hne ht, hversion, hm,
    not_true_eq_false, if_false]

/-- Of such a request the target decides whether anything is stored past the variable. -/
theorem overruns_requestHead (ch : Octet) (rest : Octets) (hm : method m = some x) (hne : t ≠ [])
    (ht : ∀ c ∈ t, ¬ isspace c) :
    overruns ch (requestHead m t rest) = false ↔ ∀ c ∈ queryComponents t, Numberless c := by
  have hversion : httpVersion (octets "HTTP/1.1") = some .http11 := by decide
  simp only [overruns, getline_requestHead rest hm ht, requestWords_eq_some hm hne ht, hversion,
    parseQueryM_eq, not_true_eq_false, if_false, Option.isSome_some, Bool.true_and]
  split_ifs with h
  · exact iff_of_true rfl h
  · exact iff_of_false Bool.noConfusion h

/-- Without a target, the request line is short of a word. -/
theorem parse_requestHead_nil (ch : Octet) (req : Request) (rest : Octets)
    (hm : method m = some x) : parse ch (requestHead m [] rest) req = (false, req) := by
  have hline := getline_requestHead (t := []) rest hm (by simp)
  simp only [List.nil_append] at hline
  simp only [parse, hline, requestWords_nil hm, not_true_eq_false, if_false]

end RequestLine

end Http

end Rite
