import Rite.Basic

/-!
# Requests and their target (`http_request`)

The data of `http_request`, and the functions that take the request target apart:
`uri_decode` from `src/protocols/h2/connection.cpp` and `parser<query_parameters>` with
`decode_uri_component` from `src/http/parser.cpp`. The pointer `client_` to the connection is left
out, and of `context_` only the stream identifier is ever set.

`decode_uri_component` hands a variable `ch` to `sscanf` that it has not initialised, and appends
it whether or not `sscanf` has found a number. The octet that such a variable happens to hold is
an argument here.

`ch` is a `char`, and `sscanf` stores a number in it as an `unsigned int`, in four octets. This ends
the call in `Fault.overrun`. Beside the functions that can end so there are others, which say what
comes of a call if the octets behind `ch` do not matter: then the low octet of the number is all
that is stored.
-/

namespace Rite

/-- `http_method`. -/
inductive HttpMethod
  | get | head | post | put | delete | connect | options | trace | patch
  deriving DecidableEq

/-- `http_version`. -/
inductive HttpVersion
  | http10 | http11 | http20 | http30
  deriving DecidableEq

/-- `http_request`. -/
structure Request where
  /-- `path_`. -/
  path : Octets := []
  /-- `query_`. -/
  query : List (Octets × Octets) := []
  /-- `method_`. A value-initialised `http_method` is none of the enumerators. -/
  method : Option HttpMethod := none
  /-- `body_`. -/
  body : Octets := []
  /-- `headers_`. -/
  headers : AList (fun _ : Octets => Octets) := ∅
  /-- `context_`: the identifier of the stream. -/
  streamId : Option UInt32 := none
  /-- `version_`. -/
  version : HttpVersion := .http10

namespace Http

/-- The method that a name stands for. -/
def method (name : Octets) : Option HttpMethod :=
  if name = octets "GET" then some .get
  else if name = octets "HEAD" then some .head
  else if name = octets "POST" then some .post
  else if name = octets "PUT" then some .put
  else if name = octets "DELETE" then some .delete
  else if name = octets "CONNECT" then some .connect
  else if name = octets "OPTIONS" then some .options
  else if name = octets "TRACE" then some .trace
  else if name = octets "PATCH" then some .patch
  else none

/-! ## Hexadecimal numbers -/

/-- `std::isxdigit`. -/
def isxdigit (c : Octet) : Bool :=
  0x30 ≤ c && c ≤ 0x39 || 0x41 ≤ c && c ≤ 0x46 || 0x61 ≤ c && c ≤ 0x66

/-- The value of a hexadecimal digit. -/
def hexDigit (c : Octet) : Octet :=
  if c ≤ 0x39 then c - 0x30 else if c ≤ 0x46 then c - 0x37 else c - 0x57

/-- `std::isspace`. -/
def isspace (c : Octet) : Bool := c = 0x20 || 0x09 ≤ c && c ≤ 0x0D

/-- `uri_decode`. -/
def uriDecode : Octets → Octets
  | [] => []
  | 0x25 :: a :: b :: rest =>
    if isxdigit a && isxdigit b then (16 * hexDigit a + hexDigit b) :: uriDecode rest
    else 0x25 :: uriDecode (a :: b :: rest)
  | 0x2B :: rest => 0x20 :: uriDecode rest
  | c :: rest => c :: uriDecode rest

/-- The low octet of the number that `sscanf(s, "%x", …)` reads from at most two characters, if it
reads one. The string ends at a NUL. White space and a sign may stand in front of the digits; a
prefix `0x` leaves no room for digits, and its `0` is read as the number. -/
def scanHex (s : Octets) : Option Octet :=
  let s := (s.takeWhile (· ≠ 0)).dropWhile isspace
  let unsigned := if s.headD 0 = 0x2B ∨ s.headD 0 = 0x2D then s.tail else s
  let digits := unsigned.takeWhile isxdigit
  let value := digits.foldl (fun v c => 16 * v + hexDigit c) 0
  if digits = [] then none else some (if s.headD 0 = 0x2D then -value else value)

/-- `decode_uri_component`, where `ch` is what the variable of that name holds. -/
def decodeUriComponent (ch : Octet) : Octets → Except Fault Octets
  | [] => return []
  | c :: rest => do
    if c = 0x25 then
      -- four octets are stored where there is room for one
      if (scanHex (rest.take 2)).isSome then throw .overrun
      else return ch :: (← decodeUriComponent ch (rest.drop 2))
    else return c :: (← decodeUriComponent ch rest)
termination_by s => s.length

/-- `decode_uri_component`, if the octets behind `ch` do not matter. -/
def decodeUriOctets (ch : Octet) : Octets → Octets
  | [] => []
  | c :: rest =>
    if c = 0x25 then
      let ch := (scanHex (rest.take 2)).getD ch
      ch :: decodeUriOctets ch (rest.drop 2)
    else c :: decodeUriOctets ch rest
termination_by s => s.length

/-! ## Query parameters -/

/-- The strings that `std::getline` takes from a stream one after the other: there is none behind
the last separator if nothing follows it. -/
def getlines (separator : Octet) (s : Octets) : List Octets :=
  let parts := s.splitOn separator
  if parts.getLast? = some [] then parts.dropLast else parts

/-- A parameter. -/
def queryParameterM (ch : Octet) (param : Octets) : Except Fault (Octets × Octets) := do
  if 0x3D ∈ param then
    let key := param.takeWhile (· ≠ 0x3D)
    let value := (param.dropWhile (· ≠ 0x3D)).tail
    return (← decodeUriComponent ch key, ← decodeUriComponent ch value)
  else return (← decodeUriComponent ch param, [])

/-- `parser<query_parameters>::parse`. -/
def parseQueryM (ch : Octet) (query : Octets) :
    Except Fault (Option (List (Octets × Octets))) := do
  if 0x3F ∈ query then
    let params := getlines 0x26 (query.dropWhile (· ≠ 0x3F)).tail
    return some (← params.mapM (queryParameterM ch))
  else return none

/-- A parameter, if the octets behind `ch` do not matter. -/
def queryParameter (ch : Octet) (param : Octets) : Octets × Octets :=
  if 0x3D ∈ param then
    let key := param.takeWhile (· ≠ 0x3D)
    let value := (param.dropWhile (· ≠ 0x3D)).tail
    (decodeUriOctets ch key, decodeUriOctets ch value)
  else (decodeUriOctets ch param, [])

/-- `parser<query_parameters>::parse`, if the octets behind `ch` do not matter. -/
def parseQuery (ch : Octet) (query : Octets) : Option (List (Octets × Octets)) :=
  if 0x3F ∈ query then
    some ((getlines 0x26 (query.dropWhile (· ≠ 0x3F)).tail).map (queryParameter ch))
  else none

end Http

end Rite
