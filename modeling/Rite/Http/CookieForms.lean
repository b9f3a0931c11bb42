import Rite.H2.Stream
import Rite.Http.Cookies
import Rite.Http.Getlines
import Rite.Http.Token
import Rite.ToMathlib.InsertMany

/-!
# Cookies of a stream

A client sends its cookies in one header with the pairs joined by `; `, or splits them into several
headers. Of these headers `finish_stream` keeps one; the jar does not drop the blanks behind the
semicolons, and takes a value up to the next `=`.

## Main results

* `lookup_cookie`: of the headers with cookies the request has the last one;
* `cookies_field`: the keys and values that the jar takes from such a header;
* `cookiesDelivered_iff`: the handler gets all cookies exactly if there is one cookie at most, and
  no `=` in its value;
* `not_cookiesDelivered`: the second cookie of a header is not found.
-/

namespace Rite

namespace Http

open H2 (Stream)

/-- `cookie_jar::error`. -/
inductive CookieError
  | notFound | deserialization
  deriving DecidableEq

/-- `cookie_jar::has`. -/
def hasCookie (jar : AList fun _ : Octets => Octets) (key : Octets) : Bool :=
  (jar.lookup key).isSome

/-- `cookie_jar::get<std::string>`: a `std::string` is its own text. -/
def getCookie (jar : AList fun _ : Octets => Octets) (key : Octets) : Except CookieError Octets :=
  match jar.lookup key with
  | none => .error .notFound
  | some value => .ok value

/-- A cookie. -/
structure Cookie where
  /-- Its name. -/
  name : Token
  /-- Its value. -/
  value : Octets
  /-- The value has no semicolon, -/
  semicolon : 0x3B ∉ value
  /-- and no white space. -/
  space : ∀ c ∈ value, ¬ isspace c

/-- A cookie as it is written. -/
def Cookie.pair (c : Cookie) : Octets := c.name.text ++ 0x3D :: c.value

/-- The value of a header with cookies. -/
def cookieField (cookies : List Cookie) : Octets :=
  (octets "; ").intercalate (cookies.map Cookie.pair)

/-- The stream has a path and a method, and its headers with cookies are those for the given parts
of the list of cookies: for all of them in one part, or for several parts. -/
structure Sends (s : Stream) (parts : List (List Cookie)) : Prop where
  /-- There is a path. -/
  path : (s.getHeader (octets ":path")).isSome
  /-- There is a method. -/
  method : (s.getHeader (octets ":method")).isSome
  /-- The headers with cookies. -/
  fields : (s.headers.filter fun h => h.key = octets "cookie").map (·.value) = parts.map cookieField
  /-- No part is empty. -/
  ne_nil : ∀ part ∈ parts, part ≠ []
  /-- The cookies have different names. -/
  nodup : (parts.flatten.map Cookie.name).Nodup

/-- The jar of the request has each cookie with its value. -/
def CookiesDelivered (ch : Octet) (s : Stream) (cookies : List Cookie) : Prop :=
  ∀ c ∈ cookies, hasCookie (s.finishStream ch).1.cookies c.name.text ∧
    getCookie (s.finishStream ch).1.cookies c.name.text = .ok c.value

theorem cookiesDelivered_iff_lookup {ch : Octet} {s : Stream} {cookies : List Cookie} :
    CookiesDelivered ch s cookies ↔ ∀ c ∈ cookies,
      (s.finishStream ch).1.cookies.lookup c.name.text = some c.value := by
  refine forall₂_congr fun c _ => ?_
  simp only [hasCookie, getCookie]
  cases (s.finishStream ch).1.cookies.lookup c.name.text with
  | none => simp
  | some value => simp

/-! ## The header that is kept -/

theorem headers_finishStream {s : Stream} {parts : List (List Cookie)} (h : Sends s parts)
    (ch : Octet) : (s.finishStream ch).1.headers = Stream.headerMap s.headers := by
  obtain ⟨path, hpath⟩ := Option.isSome_iff_exists.mp h.path
  obtain ⟨method, hmethod⟩ := Option.isSome_iff_exists.mp h.method
  simp only [Stream.finishStream, hpath, hmethod]

/-- Of several headers with cookies the last one is kept. -/
theorem lookup_cookie {s : Stream} {parts : List (List Cookie)} (h : Sends s parts) (ch : Octet) :
    (s.finishStream ch).1.headers.lookup (octets "cookie") = (parts.map cookieField).getLast? := by
  have hmap : Stream.headerMap s.headers =
      (∅ : AList fun _ : Octets => Octets).insertMany
        (s.headers.map fun h => (h.key, h.value)) := by
    rw [AList.insertMany, List.foldl_map]
    rfl
  rw [headers_finishStream h, hmap, AList.lookup_insertMany, List.filter_map, List.map_map,
    ← h.fields]
  simp [Function.comp_def]

/-! ## What the jar takes from a header -/

section Pieces

variable {c : Cookie} {part : List Cookie}

/-- The value that the jar takes from a pair. -/
def Cookie.taken (c : Cookie) : Octets := c.value.takeWhile (· ≠ 0x3D)

theorem taken_eq_iff : c.taken = c.value ↔ 0x3D ∉ c.value := by
  constructor
  · intro h hmem
    rw [← h] at hmem
    exact notMem_takeWhile_ne _ _ hmem
  · exact takeWhile_ne_eq_self

/-- A key is all in front of the first `=`, with the blanks, and the value goes up to the next. -/
theorem cookie_pair {blanks : Octets} (hblanks : 0x3D ∉ blanks) :
    cookie (blanks ++ c.pair) = (blanks ++ c.name.text, c.taken) := by
  have hkey : 0x3D ∉ blanks ++ c.name.text := by
    simp [hblanks, c.name.notMem (show isTchar 0x3D = false by decide)]
  rw [Cookie.pair, ← List.append_assoc, cookie]
  simp only [Istream.getline_append _ hkey, Cookie.taken]
  rcases first_cases 0x3D c.value with ⟨hmem, htake, -⟩ | ⟨u, v, heq, hu, htake, -⟩
  · rw [htake]
    simp [Istream.getline_last hmem]
  · rw [htake]
    simp [heq, Istream.getline_append _ hu]

/-- A semicolon is in no pair. -/
theorem notMem_pair (c : Cookie) : 0x3B ∉ c.pair := by
  simp [Cookie.pair, c.name.notMem (show isTchar 0x3B = false by decide), c.semicolon]

/-- The pieces of a header: all but the first one keep the blank in front of them. -/
theorem getlines_cookieField (c : Cookie) (part : List Cookie) :
    getlines 0x3B (cookieField (c :: part)) = c.pair :: part.map fun d => 0x20 :: d.pair := by
  have hfield : cookieField (c :: part) =
      [0x3B].intercalate (c.pair :: part.map fun d => 0x20 :: d.pair) := by
    have hsep : octets "; " = [0x3B, 0x20] := by decide
    rw [cookieField, hsep]
    induction part generalizing c with
    | nil => rfl
    | cons d part ih =>
      rw [List.map_cons, List.map_cons, List.intercalate_cons_cons, ← List.map_cons, ih d,
        List.map_cons, List.intercalate_cons_cons, List.intercalate_cons_cons_left]
      simp
  rw [hfield]
  refine getlines_intercalate (fun l hl => ?_) fun l hl => ?_
  · rcases List.mem_cons.mp hl with rfl | hl
    · exact notMem_pair c
    · obtain ⟨d, -, rfl⟩ := List.mem_map.mp hl
      simp [notMem_pair d]
  · rcases List.mem_cons.mp hl with rfl | hl
    · simp [Cookie.pair]
    · obtain ⟨d, -, rfl⟩ := List.mem_map.mp hl
      simp

/-- The keys and the values that the jar takes from a header. -/
theorem cookies_field {request : Request}
    (h : request.headers.lookup (octets "cookie") = some (cookieField (c :: part))) :
    request.cookies = (∅ : AList fun _ : Octets => Octets).insertMany
      ((c.name.text, c.taken) :: part.map fun d => (0x20 :: d.name.text, d.taken)) := by
  have hfirst : cookie c.pair = (c.name.text, c.taken) := cookie_pair (List.not_mem_nil)
  have hblank : 0x3D ∉ [(0x20 : Octet)] := by decide
  have hlater : ∀ d : Cookie, cookie (0x20 :: d.pair) = (0x20 :: d.name.text, d.taken) :=
    fun _ => cookie_pair hblank
  simp only [Request.cookies, h, getlines_cookieField, List.map_cons, hfirst, List.map_map,
    Function.comp_def, hlater]
  rfl

end Pieces

/-! ## What the handler gets -/

variable {ch : Octet} {s : Stream} {parts : List (List Cookie)}

/-- The jar is made of the last part of the cookies. -/
theorem cookies_finishStream (h : Sends s parts) {init : List (List Cookie)} {c : Cookie}
    {part : List Cookie} (hparts : parts = init ++ [c :: part]) (ch : Octet) :
    (s.finishStream ch).1.cookies = (∅ : AList fun _ : Octets => Octets).insertMany
      ((c.name.text, c.taken) :: part.map fun d => (0x20 :: d.name.text, d.taken)) := by
  refine cookies_field ?_
  rw [lookup_cookie h, hparts]
  simp

/-- A cookie in the jar has the name of the first one of the last part: a name has no blank. -/
theorem name_eq_of_lookup {c d : Cookie} {part : List Cookie} {value : Octets}
    (h : ((∅ : AList fun _ : Octets => Octets).insertMany
      ((c.name.text, c.taken) :: part.map fun e => (0x20 :: e.name.text, e.taken))).lookup
        d.name.text = some value) : d.name = c.name := by
  rcases AList.lookup_insertMany_eq_some h with hmem | hempty
  · rcases List.mem_cons.mp hmem with heq | hmem
    · exact Token.text_injective (Prod.mk.inj heq).1
    · obtain ⟨e, -, heq⟩ := List.mem_map.mp hmem
      have hblank : 0x20 ∈ d.name.text := by
        rw [← (Prod.mk.inj heq).1]
        exact List.mem_cons_self
      exact absurd hblank (d.name.notMem (by decide))
  · cases hempty

/-- The cookies reach the handler if and only if there is one at most, and its value has no `=`. -/
theorem cookiesDelivered_iff (h : Sends s parts) :
    CookiesDelivered ch s parts.flatten ↔
      parts.flatten.length ≤ 1 ∧ ∀ c ∈ parts.flatten, 0x3D ∉ c.value := by
  rw [cookiesDelivered_iff_lookup]
  rcases parts.eq_nil_or_concat' with rfl | ⟨init, last, hparts⟩
  · simp
  · obtain ⟨c, part, rfl⟩ := List.exists_cons_of_ne_nil (h.ne_nil last (by simp [hparts]))
    rw [cookies_finishStream h hparts]
    have hflat : parts.flatten = init.flatten ++ c :: part := by simp [hparts]
    have honly : parts.flatten.length ≤ 1 → parts.flatten = [c] ∧ part = [] := by
      intro hlength
      rw [hflat, List.length_append, List.length_cons] at hlength
      have hinit : init.flatten = [] := List.length_eq_zero_iff.mp (by omega)
      have hpart : part = [] := List.length_eq_zero_iff.mp (by omega)
      simp [hflat, hinit, hpart]
    have htaken : ((∅ : AList fun _ : Octets => Octets).insertMany
        [(c.name.text, c.taken)]).lookup c.name.text = some c.taken := AList.lookup_insert ∅
    constructor
    · intro hall
      -- all cookies have the name of this one, and so there are no others
      have hname : ∀ d ∈ parts.flatten, d.name = c.name := fun d hd =>
        name_eq_of_lookup (hall d hd)
      have hlength : parts.flatten.length ≤ 1 := by
        have hnodup := h.nodup
        rw [List.map_congr_left (g := fun _ => c.name) hname, List.map_const'] at hnodup
        exact List.nodup_replicate.mp hnodup
      refine ⟨hlength, ?_⟩
      obtain ⟨hc, rfl⟩ := honly hlength
      rw [hc, List.forall_mem_singleton] at hall ⊢
      rw [List.map_nil, htaken, Option.some_inj] at hall
      exact taken_eq_iff.mp hall
    · rintro ⟨hlength, hvalue⟩
      obtain ⟨hc, rfl⟩ := honly hlength
      rw [hc, List.forall_mem_singleton] at hvalue ⊢
      rw [List.map_nil, htaken, taken_eq_iff.mpr hvalue]

/-- A cookie. -/
def sampleCookie : Cookie := ⟨⟨octets "a", by decide, by rfl⟩, [0x31], by decide, by simp [isspace]⟩

/-- Another one. -/
def secondCookie : Cookie := ⟨⟨octets "b", by decide, by rfl⟩, [0x32], by decide, by simp [isspace]⟩

/-- A stream with a path and a method, and with headers for cookies. -/
def cookieStream (fields : List Octets) : Stream where
  headers := ⟨octets ":method", octets "GET"⟩ :: ⟨octets ":path", octets "/"⟩ ::
    fields.map fun value => ⟨octets "cookie", value⟩

/-- It sends the cookies of the headers. -/
theorem sends_cookieStream (hne : ∀ part ∈ parts, part ≠ [])
    (hnodup : (parts.flatten.map Cookie.name).Nodup) :
    Sends (cookieStream (parts.map cookieField)) parts := by
  have hmethod : octets ":method" ≠ octets "cookie" := by decide
  have hpath : octets ":path" ≠ octets "cookie" := by decide
  have hother : octets ":method" ≠ octets ":path" := by decide
  refine ⟨?_, ?_, ?_, hne, hnodup⟩
  · simp [Stream.getHeader, cookieStream, hother]
  · simp [Stream.getHeader, cookieStream]
  · simp [cookieStream, hmethod, hpath, List.filter_map, Function.comp_def]

/-- One cookie. -/
theorem cookiesDelivered_sample :
    CookiesDelivered 0 (cookieStream ([[sampleCookie]].map cookieField)) [sampleCookie] :=
  (cookiesDelivered_iff (sends_cookieStream (by simp) (by simp))).mpr
    ⟨le_rfl, by simp [sampleCookie]⟩

/-- The second cookie of a header is not found, because of the blank in front of it. -/
theorem not_cookiesDelivered :
    ¬ ∀ ch s parts, Sends s parts → CookiesDelivered ch s parts.flatten := by
  intro h
  have hne : sampleCookie.name ≠ secondCookie.name := by decide
  have hsends : Sends (cookieStream ([[sampleCookie, secondCookie]].map cookieField))
      [[sampleCookie, secondCookie]] := sends_cookieStream (by simp) (by simp [hne])
  have hall := cookiesDelivered_iff_lookup.mp (h 0 _ _ hsends) secondCookie (by simp)
  have hjar :=
    cookies_finishStream hsends (show _ = [] ++ [[sampleCookie, secondCookie]] from rfl) 0
  rw [hjar] at hall
  exact hne (name_eq_of_lookup hall).symm

end Http

end Rite
