import Rite.Http.Token
import Rite.Server.Response
import Rite.ToMathlib.SplitPair

/-!
# The head of an HTTP/1.1 response

A response is made by one of its constructors and by calls of its member functions. The serializer
writes a line for its status and a line for each header, whatever there is in the values, and an
empty line.

## Main results

* `token_of_build`: the names of the headers are tokens;
* `headReadBack_iff`: the lines of the head are those of the status and of the headers exactly if
  no value has a line end in it;
* `not_headReadBack`: a value with a line end makes another line of what follows it.
-/

namespace Rite

open Http (Token)

/-- `http_response`, while it is made. -/
structure ResponseHead where
  /-- `status_code_`. -/
  statusCode : ℕ
  /-- `headers_`. -/
  headers : Std.TreeMap Octets Octets := ∅
  /-- `channel`. -/
  channel : List Buffer := []

/-- The constructors of `http_response`. -/
inductive Constructor
  /-- Without arguments. The status code is not initialised, and is what it happens to be. -/
  | empty (statusCode : ℕ)
  /-- With a status code, a content type and a body. -/
  | typed (statusCode : ℕ) (contentType body : Octets)
  /-- With a status code and a body. -/
  | html (statusCode : ℕ) (body : Octets)

/-- The member functions that change a response. -/
inductive Setting
  | setStatusCode (code : ℕ)
  | body (val : Octets)
  | stream (data : Buffer)
  | setContentLength (length : ℕ)
  | setHeader (header : Token) (value : Octets)
  /-- `cookies().set`, with the text that `pluggable<T>::serialize` returns unless it throws. -/
  | setCookie (key : Octets) (serialized : Option Octets)

namespace ResponseHead

/-- `set_content_length`. -/
def setContentLength (r : ResponseHead) (length : ℕ) : ResponseHead :=
  { r with headers := r.headers.insert (octets "Content-Length") (octets (toString length)) }

/-- `body`. -/
def body (r : ResponseHead) (val : Octets) : ResponseHead :=
  { r with channel := r.channel ++ [⟨val, true⟩] }

/-- What a constructor makes. -/
def construct : Constructor → ResponseHead
  | .empty statusCode => { statusCode }
  | .typed statusCode contentType body => typed statusCode contentType body
  | .html statusCode body => typed statusCode (octets "text/html") body
where
  /-- The constructor with three arguments. -/
  typed (statusCode : ℕ) (contentType body : Octets) : ResponseHead :=
    let r : ResponseHead :=
      { statusCode, headers := (∅ : Std.TreeMap Octets Octets).insert (octets "content-type")
          contentType }
    (r.setContentLength body.length).body body

/-- What a member function does. -/
def apply (r : ResponseHead) : Setting → ResponseHead
  | .setStatusCode code => { r with statusCode := code }
  | .body val => r.body val
  | .stream data => { r with channel := r.channel ++ [data] }
  | .setContentLength length => r.setContentLength length
  | .setHeader header value => { r with headers := r.headers.insert header.text value }
  | .setCookie key (some serialized) =>
    { r with headers := r.headers.insert (octets "set-cookie") (key ++ 0x3D :: serialized) }
  | .setCookie _ none => r

/-- A response that has been made. -/
def build (c : Constructor) (settings : List Setting) : ResponseHead :=
  settings.foldl apply (construct c)

/-- The response that is written. -/
def response (r : ResponseHead) : Response := ⟨r.statusCode, r.headers.toList, r.channel⟩

/-- The names of all headers are tokens. -/
def TokenNames (r : ResponseHead) : Prop := ∀ name ∈ r.headers, ∃ t : Token, t.text = name

theorem TokenNames.insert {r r' : ResponseHead} (h : r.TokenNames) (t : Token) {value : Octets}
    (hr : r'.headers = r.headers.insert t.text value) : r'.TokenNames := by
  intro name hname
  rw [hr, Std.TreeMap.mem_insert] at hname
  rcases hname with heq | hname
  · exact ⟨t, Std.LawfulEqCmp.eq_of_compare heq⟩
  · exact h name hname

/-- The names that the code itself uses. -/
def contentType : Token := ⟨octets "content-type", by decide, by rfl⟩

@[inherit_doc contentType]
def contentLength : Token := ⟨octets "Content-Length", by decide, by rfl⟩

@[inherit_doc contentType]
def setCookie : Token := ⟨octets "set-cookie", by decide, by rfl⟩

theorem tokenNames_construct (c : Constructor) : (construct c).TokenNames := by
  have hempty : ∀ statusCode, TokenNames { statusCode } := fun statusCode name hname => by
    simp at hname
  have htyped : ∀ statusCode type body, (construct.typed statusCode type body).TokenNames :=
    fun statusCode type body => by
      have hfirst : TokenNames ⟨statusCode,
          (∅ : Std.TreeMap Octets Octets).insert contentType.text type, []⟩ :=
        (hempty statusCode).insert contentType rfl
      exact hfirst.insert contentLength rfl
  cases c with
  | empty statusCode => exact hempty statusCode
  | typed statusCode type body => exact htyped statusCode type body
  | html statusCode body => exact htyped statusCode (octets "text/html") body

/-- A member function keeps the names tokens. -/
theorem TokenNames.apply {r : ResponseHead} (h : r.TokenNames) (setting : Setting) :
    (r.apply setting).TokenNames := by
  cases setting with
  | setStatusCode code => exact h
  | body val => exact h
  | stream data => exact h
  | setContentLength length => exact h.insert contentLength rfl
  | setHeader header value => exact h.insert header rfl
  | setCookie key serialized =>
    cases serialized with
    | none => exact h
    | some text => exact h.insert setCookie rfl

/-- The names of a response that has been made are tokens. -/
theorem tokenNames_build (c : Constructor) (settings : List Setting) :
    (build c settings).TokenNames := by
  induction settings using List.reverseRecOn with
  | nil => exact tokenNames_construct c
  | append_singleton settings setting ih =>
    rw [build, List.foldl_append]
    exact ih.apply setting

end ResponseHead

namespace Http

/-- The line of the status, without its end. -/
def statusLine (response : Response) : Octets :=
  octets "HTTP/1.1 " ++ octets (toString response.statusCode)

/-- The line of a header. -/
def headerLine (e : Octets × Octets) : Octets := e.1 ++ octets ": " ++ e.2

/-- Splitting the header section at the line ends gives the line of the status, a line for each
header, an empty line, and nothing behind it. -/
def HeadReadBack (response : Response) : Prop :=
  (headerSection response).splitPair 0x0D 0x0A =
    statusLine response :: response.headers.map headerLine ++ [[], []]

/-- The header section is made of the lines. -/
theorem headerSection_eq (response : Response) :
    headerSection response =
      (statusLine response :: response.headers.map headerLine ++ [[]]).flatMap
        (· ++ [0x0D, 0x0A]) := by
  have hcrlf : octets "\r\n" = [0x0D, 0x0A] := by decide
  simp [headerSection, statusLine, headerLine, hcrlf, List.flatMap_map]

theorem octets_eq_flatMap (s : String) : octets s = s.toList.flatMap String.utf8EncodeChar := by
  rw [octets, String.toUTF8_eq_toByteArray, ← String.utf8Encode_toList, List.utf8Encode]
  simp

/-- A digit is written as one octet, and not as a carriage return. -/
theorem notMem_utf8EncodeChar {d : Char} (hdigit : d.isDigit) :
    0x0D ∉ String.utf8EncodeChar d := by
  intro h
  obtain ⟨hlo, hhi⟩ := Char.isDigit_iff_toNat.mp hdigit
  have hlo' : 48 ≤ d.val.toNat := hlo
  have hhi' : d.val.toNat ≤ 57 := hhi
  have hsize : d.utf8Size = 1 := by
    rw [Char.utf8Size_eq_one_iff, UInt32.le_iff_toNat_le]
    exact hhi'.trans (by decide)
  rw [String.utf8EncodeChar_eq_singleton hsize, List.mem_singleton] at h
  have hoctet : 13 = d.val.toUInt8.toNat := congrArg UInt8.toNat h
  rw [UInt32.toNat_toUInt8] at hoctet
  omega

/-- A number is written in digits. -/
theorem notMem_toString (n : ℕ) : 0x0D ∉ octets (toString n) := by
  intro h
  rw [octets_eq_flatMap, Nat.toString_eq_repr, Nat.toList_repr] at h
  obtain ⟨d, hd, h⟩ := List.mem_flatMap.mp h
  exact notMem_utf8EncodeChar (Nat.isDigit_of_mem_toDigits (by decide) (by decide) hd) h

/-- A line end begins with a carriage return. -/
theorem not_infix_of_notMem {s : Octets} (h : 0x0D ∉ s) : ¬ [0x0D, 0x0A] <:+: s := fun hpair =>
  h (hpair.subset List.mem_cons_self)

/-- A line end is behind a part without a carriage return. -/
theorem infix_append_iff {s : Octets} (h : 0x0D ∉ s) (t : Octets) :
    [0x0D, 0x0A] <:+: s ++ t ↔ [0x0D, 0x0A] <:+: t := by
  induction s with
  | nil => rfl
  | cons c s ih =>
    rw [List.mem_cons, not_or] at h
    rw [List.cons_append, List.pair_infix_cons_iff, ih h.2]
    simp [Ne.symm h.1]

/-- There is no line end in the line of the status. -/
theorem not_infix_statusLine (response : Response) :
    ¬ [0x0D, 0x0A] <:+: statusLine response := by
  have hversion : 0x0D ∉ octets "HTTP/1.1 " := by decide
  rw [statusLine, infix_append_iff hversion]
  exact not_infix_of_notMem (notMem_toString response.statusCode)

/-- A line end in the line of a header is one in its value. -/
theorem infix_headerLine_iff (name : Token) (value : Octets) :
    [0x0D, 0x0A] <:+: headerLine (name.text, value) ↔ [0x0D, 0x0A] <:+: value := by
  have hname : 0x0D ∉ name.text := name.notMem (by decide)
  have hcolon : 0x0D ∉ octets ": " := by decide
  rw [headerLine, List.append_assoc, infix_append_iff hname, infix_append_iff hcolon]

end Http

namespace ResponseHead

variable {r : ResponseHead}

theorem exists_token (h : r.TokenNames) {e : Octets × Octets} (he : e ∈ r.headers.toList) :
    ∃ t : Token, e = (t.text, e.2) := by
  obtain ⟨t, ht⟩ := h e.1 (by
    rw [Std.TreeMap.mem_iff_isSome_getElem?, Std.TreeMap.mem_toList_iff_getElem?_eq_some.mp he]
    rfl)
  exact ⟨t, by rw [ht]⟩

/-- The head is read back if the names are tokens, and only if no value has a line end. -/
theorem headReadBack_response_iff (h : r.TokenNames) :
    Http.HeadReadBack r.response ↔ ∀ e ∈ r.headers.toList, ¬ [0x0D, 0x0A] <:+: e.2 := by
  constructor
  · intro hread e he hpair
    obtain ⟨t, heq⟩ := exists_token h he
    -- the line of the header is one of the pieces
    have hmem : Http.headerLine e ∈ (Http.headerSection r.response).splitPair 0x0D 0x0A := by
      rw [hread]
      exact List.mem_cons_of_mem _ (List.mem_append_left _ (List.mem_map_of_mem he))
    have hpiece := List.not_infix_of_mem_splitPair hmem
    rw [heq, Http.infix_headerLine_iff] at hpiece
    exact hpiece hpair
  · intro hvalues
    have hlines : ∀ l ∈
        Http.statusLine r.response :: r.response.headers.map Http.headerLine ++ [[]],
        ¬ [0x0D, 0x0A] <:+: l := by
      intro l hl
      rcases List.mem_append.mp hl with hl | hl
      · rcases List.mem_cons.mp hl with rfl | hl
        · exact Http.not_infix_statusLine r.response
        · obtain ⟨e, he, rfl⟩ := List.mem_map.mp hl
          obtain ⟨t, heq⟩ := exists_token h he
          rw [heq, Http.infix_headerLine_iff]
          exact hvalues e he
      · rw [List.mem_singleton.mp hl]
        exact Http.not_infix_of_notMem List.not_mem_nil
    rw [Http.HeadReadBack, Http.headerSection_eq, List.splitPair_flatMap (by decide) hlines]
    simp

/-- The head of a response can be read back if and only if no value of its headers has a line end
in it. -/
theorem headReadBack_iff (c : Constructor) (settings : List Setting) :
    Http.HeadReadBack (build c settings).response ↔
      ∀ e ∈ (build c settings).headers.toList, ¬ [0x0D, 0x0A] <:+: e.2 :=
  headReadBack_response_iff (tokenNames_build c settings)

/-- What stands behind a line end in a value is another line. -/
theorem not_headReadBack : ¬ ∀ c settings, Http.HeadReadBack (build c settings).response := by
  intro h
  have hvalues := (headReadBack_response_iff (tokenNames_build _ _)).mp
    (h (.empty 200) [.setHeader ⟨octets "a", by decide, by rfl⟩ (octets "b\r\nc: d")])
  refine hvalues (octets "a", octets "b\r\nc: d") ?_ (by decide)
  rw [Std.TreeMap.mem_toList_iff_getElem?_eq_some]
  exact Std.TreeMap.getElem?_insert_self

end ResponseHead

end Rite
