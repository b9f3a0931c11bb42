import Rite.Http.PercentCoding

/-!
# Query strings are read back

A query string is rendered with everything escaped but the unreserved characters of RFC 3986, so
that neither of the separators is in a key or in a value, and every `%` begins an escape. The
octets behind the variable of `decode_uri_component` are taken not to matter.

## Main results

* `decodeUriOctets_percentEncode`: an encoded string is decoded to what it was;
* `parseQuery_renderTarget`: a list of parameters is read back from its query string.
-/

namespace Rite

namespace Http

/-! ## Percent encoding -/

/-- The unreserved characters. -/
def isUnreserved (c : Octet) : Bool :=
  0x41 ≤ c && c ≤ 0x5A || 0x61 ≤ c && c ≤ 0x7A || 0x30 ≤ c && c ≤ 0x39 ||
    c = 0x2D || c = 0x2E || c = 0x5F || c = 0x7E

/-- The hexadecimal digit of a value below 16. -/
def hexDigitOf (v : Octet) : Octet := if v < 10 then 0x30 + v else 0x37 + v

/-- An octet in a component of a target. -/
def percentEncodeOctet (c : Octet) : Octets :=
  if isUnreserved c then [c] else [0x25, hexDigitOf (c / 16), hexDigitOf (c % 16)]

/-- A component of a target. -/
def percentEncode (s : Octets) : Octets := s.flatMap percentEncodeOctet

/-- The digits of the sixteen values are read as these values. -/
theorem hexDigit_hexDigitOf {v : Octet} (hv : v < 16) :
    isxdigit (hexDigitOf v) ∧ hexDigit (hexDigitOf v) = v := by
  -- sixteen cases
  have hall : ∀ n : Fin 16, isxdigit (hexDigitOf (UInt8.ofNat n)) ∧
      hexDigit (hexDigitOf (UInt8.ofNat n)) = UInt8.ofNat n := by decide
  have hn := hall ⟨v.toNat, UInt8.lt_iff_toNat_lt.mp hv⟩
  rwa [UInt8.ofNat_toNat] at hn

/-- The two digits of an octet make it up. -/
theorem hexDigit_div_mod (c : Octet) :
    isxdigit (hexDigitOf (c / 16)) ∧ isxdigit (hexDigitOf (c % 16)) ∧
      16 * hexDigit (hexDigitOf (c / 16)) + hexDigit (hexDigitOf (c % 16)) = c := by
  have hc := c.toNat_lt
  have hdiv : c / 16 < 16 := by
    simp only [UInt8.lt_iff_toNat_lt, UInt8.toNat_div, UInt8.reduceToNat]
    omega
  have hmod : c % 16 < 16 := by
    simp only [UInt8.lt_iff_toNat_lt, UInt8.toNat_mod, UInt8.reduceToNat]
    omega
  obtain ⟨hx, hv⟩ := hexDigit_hexDigitOf hdiv
  obtain ⟨hx', hv'⟩ := hexDigit_hexDigitOf hmod
  refine ⟨hx, hx', ?_⟩
  rw [hv, hv', ← UInt8.toNat_inj]
  simp only [UInt8.toNat_add, UInt8.toNat_mul, UInt8.toNat_div, UInt8.toNat_mod, UInt8.reduceToNat]
  omega

/-- An unreserved character begins no escape. -/
theorem ne_of_isUnreserved {c : Octet} (h : isUnreserved c) : c ≠ 0x25 := by
  rintro rfl
  exact absurd h (by decide)

/-- A hexadecimal digit is a digit or a letter. -/
theorem isUnreserved_of_isxdigit {c : Octet} (h : isxdigit c) : isUnreserved c := by
  simp only [isxdigit, isUnreserved, Bool.or_eq_true, Bool.and_eq_true, decide_eq_true_eq,
    UInt8.le_iff_toNat_le, UInt8.reduceToNat] at h ⊢
  omega

/-- In an encoded string there are unreserved characters and `%`. -/
theorem isUnreserved_of_mem {d : Octet} {s : Octets} (h : d ∈ percentEncode s) :
    isUnreserved d ∨ d = 0x25 := by
  obtain ⟨c, -, hd⟩ := List.mem_flatMap.mp h
  obtain ⟨hx, hx', -⟩ := hexDigit_div_mod c
  unfold percentEncodeOctet at hd
  split_ifs at hd with hc
  · -- the octet stands for itself
    obtain rfl := List.mem_singleton.mp hd
    exact .inl hc
  · -- it has been escaped
    simp only [List.mem_cons, List.not_mem_nil, or_false] at hd
    rcases hd with rfl | rfl | rfl
    · exact .inr rfl
    · exact .inl (isUnreserved_of_isxdigit hx)
    · exact .inl (isUnreserved_of_isxdigit hx')

/-- No separator is in an encoded string. -/
theorem notMem_percentEncode {d : Octet} (hd : isUnreserved d = false) (hpercent : d ≠ 0x25)
    (s : Octets) : d ∉ percentEncode s := by
  intro h
  rcases isUnreserved_of_mem h with hunreserved | rfl
  · rw [hd] at hunreserved
    cases hunreserved
  · exact hpercent rfl

theorem wellEscaped_percentEncode (s : Octets) : WellEscaped (percentEncode s) := by
  induction s with
  | nil => exact wellEscaped_of_notMem List.not_mem_nil
  | cons c s ih =>
    rw [percentEncode, List.flatMap_cons, percentEncodeOctet]
    split_ifs with hc
    · exact (wellEscaped_cons (ne_of_isUnreserved hc) _).mpr ih
    · obtain ⟨hx, hx', -⟩ := hexDigit_div_mod c
      exact (wellEscaped_escape hx hx' _).mpr ih

theorem percentDecode_percentEncode (s : Octets) : percentDecode (percentEncode s) = s := by
  induction s with
  | nil => rfl
  | cons c s ih =>
    rw [percentEncode, List.flatMap_cons, percentEncodeOctet]
    split_ifs with hc
    · rw [List.singleton_append, percentDecode_cons (ne_of_isUnreserved hc)]
      exact congrArg (c :: ·) ih
    · obtain ⟨hx, hx', hvalue⟩ := hexDigit_div_mod c
      -- an escape is decoded to the octet whose digits it has
      calc
        _ = (16 * hexDigit (hexDigitOf (c / 16)) + hexDigit (hexDigitOf (c % 16))) ::
            percentDecode (percentEncode s) := percentDecode_escape hx hx' _
        _ = c :: s := by rw [hvalue, ih]

/-- What has been encoded is decoded to what it was, whatever the variable holds. -/
theorem decodeUriOctets_percentEncode (ch : Octet) (s : Octets) :
    decodeUriOctets ch (percentEncode s) = s := by
  rw [decodeUriOctets_of_wellEscaped (wellEscaped_percentEncode s), percentDecode_percentEncode]

/-! ## Query strings -/

/-- A parameter in a query string. -/
def renderParameter (p : Octets × Octets) : Octets :=
  percentEncode p.1 ++ 0x3D :: percentEncode p.2

/-- A query string. -/
def renderQuery (pairs : List (Octets × Octets)) : Octets :=
  [0x26].intercalate (pairs.map renderParameter)

/-- A target whose path is made of slashes. -/
def renderTarget (slashes : ℕ) (pairs : List (Octets × Octets)) : Octets :=
  List.replicate slashes 0x2F ++ 0x3F :: renderQuery pairs

/-- The first `=` is the one that has been written. -/
theorem queryParameter_renderParameter (ch : Octet) (p : Octets × Octets) :
    queryParameter ch (renderParameter p) = p := by
  have hkey : 0x3D ∉ percentEncode p.1 := notMem_percentEncode (by decide) (by decide) p.1
  have hmem : 0x3D ∈ renderParameter p := by simp [renderParameter]
  have htake : (renderParameter p).takeWhile (· ≠ 0x3D) = percentEncode p.1 :=
    takeWhile_ne_append hkey _
  have hdrop : (renderParameter p).dropWhile (· ≠ 0x3D) = 0x3D :: percentEncode p.2 :=
    dropWhile_ne_append hkey _
  rw [queryParameter, if_pos hmem, htake, hdrop]
  simp only [List.tail_cons, decodeUriOctets_percentEncode]

/-- Every list of parameters is read back from its query string, in its order, with its duplicates
and with the keys and values that are empty. -/
theorem parseQuery_renderTarget (ch : Octet) (slashes : ℕ) (pairs : List (Octets × Octets)) :
    parseQuery ch (renderTarget slashes pairs) = some pairs := by
  have hmem : 0x3F ∈ renderTarget slashes pairs := by simp [renderTarget]
  have hslash : 0x3F ∉ List.replicate slashes (0x2F : Octet) := by simp [List.mem_replicate]
  have hquery : (renderTarget slashes pairs).dropWhile (· ≠ 0x3F) = 0x3F :: renderQuery pairs :=
    dropWhile_ne_append hslash _
  have hsep : ∀ l ∈ pairs.map renderParameter, 0x26 ∉ l := by
    intro l hl
    obtain ⟨p, -, rfl⟩ := List.mem_map.mp hl
    have hkey : 0x26 ∉ percentEncode p.1 := notMem_percentEncode (by decide) (by decide) p.1
    have hvalue : 0x26 ∉ percentEncode p.2 := notMem_percentEncode (by decide) (by decide) p.2
    simp [renderParameter, hkey, hvalue]
  -- there is a `=` in each
  have hne : ∀ l ∈ pairs.map renderParameter, l ≠ [] := by
    intro l hl
    obtain ⟨p, -, rfl⟩ := List.mem_map.mp hl
    simp [renderParameter]
  have hback : queryParameter ch ∘ renderParameter = id :=
    funext fun p => queryParameter_renderParameter ch p
  rw [parseQuery, if_pos hmem, hquery, List.tail_cons, renderQuery,
    getlines_intercalate hsep hne, List.map_map, hback, List.map_id]

/-- A key that occurs twice, an empty key and an empty value. -/
example :
    renderTarget 1 [(octets "a", octets "&"), (octets "a", []), ([], octets "=")] =
      octets "/?a=%26&a=&=%3D" := by
  decide

end Http

end Rite
