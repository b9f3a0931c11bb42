import Rite.Http.PercentCoding

/-!
# The target of a request is decoded

A target is a path and a query behind the first `?`, with `&` between the parameters and `=` behind
their keys. `finish_stream` decodes all of it before it looks for the separators, and
`decode_uri_component` decodes the parameters once more.

## Main results

* `splitOn_uriDecode`: which pieces there are when the separators are looked for after decoding;
* `queryReadable_of_undelimited`: where nothing that has been escaped becomes a separator or is
  decoded again, nothing is stored past the variable of `decode_uri_component`;
* `decodesTarget_iff`: the path and the query are what the target says exactly if no separator is
  escaped where it would separate, and no `%` is in the decoded query;
* `not_decodesTarget`: an escaped `?` cuts the path, an escaped `&` the query, and an escaped `%` is
  decoded twice.
-/

namespace Rite

namespace Http

open H2 (Stream)

/-! ## Separators -/

/-- `c` is escaped somewhere in `s`. -/
def Escaped (c : Octet) (s : Octets) : Prop :=
  ∃ u a b v, s = u ++ 0x25 :: a :: b :: v ∧ isxdigit a ∧ isxdigit b ∧
    16 * hexDigit a + hexDigit b = c

theorem escaped_iff {c : Octet} {s : Octets} :
    Escaped c s ↔ ∃ a b, .escape a b ∈ units s ∧ 16 * hexDigit a + hexDigit b = c := by
  constructor
  · rintro ⟨u, a, b, v, rfl, ha, hb, hvalue⟩
    exact ⟨a, b, escape_mem_units_iff.mpr ⟨u, v, rfl, ha, hb⟩, hvalue⟩
  · rintro ⟨a, b, hmem, hvalue⟩
    obtain ⟨u, v, rfl, ha, hb⟩ := escape_mem_units_iff.mp hmem
    exact ⟨u, a, b, v, rfl, ha, hb, hvalue⟩

/-- Only a blank can come from another character. -/
theorem UriUnit.eq_of_uriValue_raw {c d : Octet} (hc : c ≠ 0x20) (h : (raw d).uriValue = c) :
    d = c := by
  change (if d = 0x2B then 0x20 else d) = c at h
  split_ifs at h
  · exact absurd h.symm hc
  · exact h

theorem mem_uriDecode {c : Octet} {s : Octets} :
    c ∈ uriDecode s ↔ ∃ u ∈ units s, u.uriValue = c := by
  rw [uriDecode_eq, List.mem_map]

theorem uriDecode_eq_nil_iff (s : Octets) : uriDecode s = [] ↔ s = [] := by
  fun_cases uriDecode s <;> simp

/-- In the decoded string there is a `%` if it was escaped, or began no escape. -/
theorem percent_notMem_uriDecode_iff (s : Octets) :
    0x25 ∉ uriDecode s ↔ WellEscaped s ∧ ¬ Escaped 0x25 s := by
  rw [mem_uriDecode, escaped_iff]
  constructor
  · intro h
    refine ⟨fun u v heq => ?_, ?_⟩
    · by_contra hnot
      -- the `%` is a unit of its own
      refine h ⟨.raw 0x25, ?_, rfl⟩
      rw [heq, units_append (by decide), units_cons]
      · exact List.mem_append_right _ List.mem_cons_self
      · rintro - a b w rfl
        by_contra hdigits
        rw [Bool.not_eq_false, Bool.and_eq_true] at hdigits
        exact hnot ⟨a, b, w, rfl, hdigits⟩
    · -- an escape is decoded to its value
      rintro ⟨a, b, hmem, hvalue⟩
      exact h ⟨.escape a b, hmem, hvalue⟩
  · rintro ⟨hesc, hnot⟩ ⟨u, hu, hvalue⟩
    cases u with
    | escape a b => exact hnot ⟨a, b, hu, hvalue⟩
    | raw c =>
      obtain rfl := UriUnit.eq_of_uriValue_raw (by decide) hvalue
      exact raw_notMem_units hesc hu

/-- `?`, `&` and `=`. -/
def separators : List Octet := [0x3F, 0x26, 0x3D]

section Separator

variable {c : Octet} (hc : c ∈ separators)

include hc

theorem isxdigit_of_mem_separators : isxdigit c = false := by
  have hall : separators.all (! isxdigit ·) = true := rfl
  simpa using List.all_eq_true.mp hall c hc

theorem ne_of_mem_separators : c ≠ 0x25 ∧ c ≠ 0x2B ∧ c ≠ 0x20 := by
  have hall : separators.all (fun c => c ≠ 0x25 ∧ c ≠ 0x2B ∧ c ≠ 0x20) = true := rfl
  simpa using List.all_eq_true.mp hall c hc

theorem units_separator (s t : Octets) : units (s ++ c :: t) = units s ++ .raw c :: units t := by
  rw [units_append (isxdigit_of_mem_separators hc),
    units_cons fun heq => absurd heq (ne_of_mem_separators hc).1]

theorem uriDecode_separator (s t : Octets) :
    uriDecode (s ++ c :: t) = uriDecode s ++ c :: uriDecode t := by
  simp only [uriDecode_eq, units_separator hc, List.map_append, List.map_cons, UriUnit.uriValue,
    if_neg (ne_of_mem_separators hc).2.1]

/-- In the decoded string there is a separator if there was one, or one was escaped. -/
theorem mem_uriDecode_iff (s : Octets) : c ∈ uriDecode s ↔ c ∈ s ∨ Escaped c s := by
  obtain ⟨hpercent, -, hblank⟩ := ne_of_mem_separators hc
  rw [mem_uriDecode, escaped_iff,
    ← raw_mem_units_iff (isxdigit_of_mem_separators hc) hpercent]
  constructor
  · rintro ⟨u, hu, hvalue⟩
    cases u with
    | escape a b => exact .inr ⟨a, b, hu, hvalue⟩
    | raw d =>
      obtain rfl := UriUnit.eq_of_uriValue_raw hblank hvalue
      exact .inl hu
  · rintro (hu | ⟨a, b, hu, hvalue⟩)
    · exact ⟨_, hu, if_neg (ne_of_mem_separators hc).2.1⟩
    · exact ⟨_, hu, hvalue⟩

/-- The units of a string are the separators and those of its pieces. -/
theorem mem_units_iff {u : UriUnit} (hu : u ≠ .raw c) (s : Octets) :
    u ∈ units s ↔ ∃ x ∈ s.splitOn c, u ∈ units x := by
  induction s using separated_induction c with
  | single x hx => simp [List.splitOn_eq_singleton hx]
  | append x y hx ih =>
    rw [List.splitOn_append_cons_self_of_not_mem hx, units_separator hc]
    simp [hu, ih]

theorem escaped_iff_exists (d : Octet) (s : Octets) :
    Escaped d s ↔ ∃ x ∈ s.splitOn c, Escaped d x := by
  constructor
  · intro h
    obtain ⟨a, b, hmem, hvalue⟩ := escaped_iff.mp h
    obtain ⟨x, hx, hmem'⟩ := (mem_units_iff hc (by simp) s).mp hmem
    exact ⟨x, hx, escaped_iff.mpr ⟨a, b, hmem', hvalue⟩⟩
  · rintro ⟨x, hx, h⟩
    obtain ⟨a, b, hmem, hvalue⟩ := escaped_iff.mp h
    exact escaped_iff.mpr ⟨a, b, (mem_units_iff hc (by simp) s).mpr ⟨x, hx, hmem⟩, hvalue⟩

/-- The octets of the decoded string, but for the separator, are those of the decoded pieces. -/
theorem mem_uriDecode_iff_exists {d : Octet} (hd : d ≠ c) (s : Octets) :
    d ∈ uriDecode s ↔ ∃ x ∈ s.splitOn c, d ∈ uriDecode x := by
  induction s using separated_induction c with
  | single x hx => simp [List.splitOn_eq_singleton hx]
  | append x y hx ih =>
    rw [List.splitOn_append_cons_self_of_not_mem hx, uriDecode_separator hc]
    simp [hd, ih]

/-- No decoded piece has the separator in it if none is escaped. -/
theorem notMem_uriDecode_iff (s : Octets) :
    (∀ x ∈ s.splitOn c, c ∉ uriDecode x) ↔ ¬ Escaped c s := by
  rw [escaped_iff_exists hc]
  constructor
  · rintro h ⟨x, hx, hesc⟩
    exact h x hx ((mem_uriDecode_iff hc x).mpr (.inr hesc))
  · intro h x hx hmem
    rcases (mem_uriDecode_iff hc x).mp hmem with hraw | hesc
    · exact notMem_of_mem_splitOn hx hraw
    · exact h ⟨x, hx, hesc⟩

/-- The decoded string is separated where it was, and where the decoded pieces are. -/
theorem splitOn_uriDecode (s : Octets) :
    (uriDecode s).splitOn c = (s.splitOn c).flatMap fun x => (uriDecode x).splitOn c := by
  induction s using separated_induction c with
  | single x hx => rw [List.splitOn_eq_singleton hx, List.flatMap_singleton]
  | append x y hx ih =>
    rw [List.splitOn_append_cons_self_of_not_mem hx, uriDecode_separator hc,
      List.splitOn_append_cons_self, List.flatMap_cons, ih]

/-- If no separator comes of the part in front of the first one, the decoded string has the decoded
parts. -/
theorem parts_uriDecode {s : Octets} (h : c ∉ uriDecode (s.takeWhile (· ≠ c))) :
    (uriDecode s).takeWhile (· ≠ c) = uriDecode (s.takeWhile (· ≠ c)) ∧
      ((uriDecode s).dropWhile (· ≠ c)).tail = uriDecode (s.dropWhile (· ≠ c)).tail := by
  rcases first_cases c s with ⟨-, htake, hdrop⟩ | ⟨u, v, rfl, -, htake, hdrop⟩
  · rw [htake] at h ⊢
    rw [hdrop, dropWhile_ne_eq_nil h]
    exact ⟨takeWhile_ne_eq_self h, rfl⟩
  · rw [htake] at h ⊢
    rw [hdrop, uriDecode_separator hc, dropWhile_ne_append h]
    exact ⟨takeWhile_ne_append h _, rfl⟩

/-- If one does, the first part is too short. -/
theorem length_takeWhile_uriDecode_lt {s : Octets} (h : c ∈ uriDecode (s.takeWhile (· ≠ c))) :
    ((uriDecode s).takeWhile (· ≠ c)).length < (uriDecode (s.takeWhile (· ≠ c))).length := by
  obtain ⟨w, hw⟩ : ∃ w, uriDecode s = uriDecode (s.takeWhile (· ≠ c)) ++ w := by
    rcases first_cases c s with ⟨-, htake, -⟩ | ⟨u, v, rfl, -, htake, -⟩
    · exact ⟨[], by rw [htake, List.append_nil]⟩
    · exact ⟨_, by rw [htake, uriDecode_separator hc]⟩
  obtain ⟨x, y, heq, hx⟩ := List.eq_append_cons_of_mem h
  rw [hw, heq, List.append_assoc, List.cons_append, takeWhile_ne_append hx, List.length_append,
    List.length_cons]
  omega

/-- The octets of the decoded string, but for the separator, are those of the decoded parts. -/
theorem mem_uriDecode_iff_of_first {d : Octet} (hd : d ≠ c) (s : Octets) :
    d ∈ uriDecode s ↔
      d ∈ uriDecode (s.takeWhile (· ≠ c)) ∨ d ∈ uriDecode (s.dropWhile (· ≠ c)).tail := by
  rcases first_cases c s with ⟨-, htake, hdrop⟩ | ⟨u, v, rfl, -, htake, hdrop⟩
  · rw [htake, hdrop]
    simp [uriDecode]
  · rw [htake, hdrop, uriDecode_separator hc]
    simp [hd]

end Separator

/-! ## What a target says -/

/-- Percent decoding, where `plus` tells whether a `+` is a blank. -/
def decode (plus : Bool) (s : Octets) : Octets := if plus then uriDecode s else percentDecode s

/-- The path of a target, as it was sent. -/
def rawPath (t : Octets) : Octets := t.takeWhile (· ≠ 0x3F)

/-- The query of a target, as it was sent. -/
def rawQuery (t : Octets) : Octets := (t.dropWhile (· ≠ 0x3F)).tail

/-- The key and the value of a parameter, as they were sent. -/
def rawParameter (x : Octets) : Octets × Octets :=
  (x.takeWhile (· ≠ 0x3D), (x.dropWhile (· ≠ 0x3D)).tail)

/-- The parameters of a target. -/
def targetQuery (plus : Bool) (t : Octets) : List (Octets × Octets) :=
  (getlines 0x26 (rawQuery t)).map fun x =>
    (rawParameter x).map (decode plus) (decode plus)

/-- The request of the stream `s` is for what the target `t` says. -/
structure DecodesTarget (plus : Bool) (s : Stream) (t : Octets) : Prop where
  /-- The path is decoded. -/
  path : ∀ ch, (s.finishStream ch).1.path = decode plus (rawPath t)
  /-- The keys and the values are decoded. -/
  query : ∀ ch, (s.finishStream ch).1.query = targetQuery plus t

/-- Nothing that has been escaped becomes a separator, or is decoded again. -/
structure Undelimited (plus : Bool) (t : Octets) : Prop where
  /-- No `?` is escaped in the path. -/
  question : ¬ Escaped 0x3F (rawPath t)
  /-- No `&` is escaped in the query. -/
  ampersand : ¬ Escaped 0x26 (rawQuery t)
  /-- No `=` is escaped in a key. -/
  equals : ∀ x ∈ (rawQuery t).splitOn 0x26, ¬ Escaped 0x3D (rawParameter x).1
  /-- No `%` is escaped in the query, -/
  percent : ¬ Escaped 0x25 (rawQuery t)
  /-- and each begins an escape. -/
  wellEscaped : WellEscaped (rawQuery t)
  /-- If a `+` is no blank, there is none. -/
  blank : plus = false → 0x2B ∉ t

theorem length_decode (plus : Bool) (s : Octets) :
    (decode plus s).length = (uriDecode s).length := by
  cases plus
  · exact (length_uriDecode_eq s).symm
  · rfl

theorem uriDecode_eq_decode_iff (plus : Bool) (s : Octets) :
    uriDecode s = decode plus s ↔ (plus = false → 0x2B ∉ s) := by
  cases plus
  · simpa [decode] using uriDecode_eq_percentDecode_iff s
  · simp [decode]

/-! ## Parameters -/

/-- A piece is a key, or has a value behind the first `=`. -/
theorem rawParameter_cases (x : Octets) :
    0x3D ∉ x ∧ rawParameter x = (x, []) ∨
      ∃ k v, x = k ++ 0x3D :: v ∧ 0x3D ∉ k ∧ rawParameter x = (k, v) := by
  rcases first_cases 0x3D x with ⟨hmem, htake, hdrop⟩ | ⟨k, v, rfl, hk, htake, hdrop⟩
  · exact .inl ⟨hmem, Prod.ext htake hdrop⟩
  · exact .inr ⟨k, v, rfl, hk, Prod.ext htake hdrop⟩

/-- The code decodes the two parts of what it takes for a parameter. -/
theorem queryParameter_eq (ch : Octet) (x : Octets) :
    queryParameter ch x = (rawParameter x).map (decodeUriOctets ch) (decodeUriOctets ch) := by
  rcases rawParameter_cases x with ⟨hmem, hx⟩ | ⟨k, v, rfl, hk, hx⟩
  · rw [queryParameter, if_neg hmem, hx, Prod.map_apply, decodeUriOctets]
  · rw [hx, queryParameter, if_pos (by simp), takeWhile_ne_append hk, dropWhile_ne_append hk]
    rfl

/-- The octets of a key and a value. -/
def size (p : Octets × Octets) : ℕ := p.1.length + p.2.length

/-- Without a `=` the parts of a parameter are all of it. -/
theorem size_rawParameter (x : Octets) :
    size (rawParameter x) + (if 0x3D ∈ x then 1 else 0) = x.length := by
  rcases rawParameter_cases x with ⟨hmem, hx⟩ | ⟨k, v, rfl, hk, hx⟩
  · rw [hx, size, if_neg hmem, List.length_nil, Nat.add_zero]
  · rw [hx, size, if_pos (by simp), List.length_append, List.length_cons, Nat.add_assoc]

theorem length_decodeUriOctets_le (ch : Octet) (s : Octets) :
    (decodeUriOctets ch s).length ≤ s.length := by
  have hlength := length_decodeUriOctets ch s
  omega

theorem size_queryParameter_le (ch : Octet) (x : Octets) :
    size (queryParameter ch x) ≤ size (rawParameter x) := by
  rw [queryParameter_eq]
  exact Nat.add_le_add (length_decodeUriOctets_le ch _) (length_decodeUriOctets_le ch _)

/-- Every separator and every key with a value costs an octet. -/
theorem sum_size_le (ch : Octet) (t : Octets) :
    ((t.splitOn 0x26).map fun x => size (queryParameter ch x)).sum + t.count 0x26 +
      (if 0x3D ∈ t then 1 else 0) ≤ t.length := by
  induction t using separated_induction 0x26 with
  | single x hx =>
    rw [List.splitOn_eq_singleton hx, List.map_singleton, List.sum_singleton,
      List.count_eq_zero_of_not_mem hx]
    have hle := size_queryParameter_le ch x
    have hsize := size_rawParameter x
    omega
  | append x y hx ih =>
    rw [List.splitOn_append_cons_self_of_not_mem hx, List.map_cons, List.sum_cons,
      List.count_append, List.count_eq_zero_of_not_mem hx, List.count_cons_self,
      List.length_append, List.length_cons]
    have hle := size_queryParameter_le ch x
    have hsize := size_rawParameter x
    have hmem : 0x3D ∈ x ++ 0x26 :: y ↔ 0x3D ∈ x ∨ 0x3D ∈ y := by simp
    -- one of the two has the `=`
    by_cases hequals : 0x3D ∈ x
    · rw [if_pos (hmem.mpr (.inl hequals))]
      rw [if_pos hequals] at hsize
      omega
    · rw [if_neg hequals] at hsize
      by_cases hequals' : 0x3D ∈ y
      · rw [if_pos (hmem.mpr (.inr hequals'))]
        rw [if_pos hequals'] at ih
        omega
      · rw [if_neg fun h => (hmem.mp h).elim hequals hequals']
        rw [if_neg hequals'] at ih
        omega

/-- What the target says of a piece is as long as its decoded parts. -/
theorem size_map_decode (plus : Bool) (x : Octets) :
    size ((rawParameter x).map (decode plus) (decode plus)) + (if 0x3D ∈ x then 1 else 0) =
      (uriDecode x).length := by
  rcases rawParameter_cases x with ⟨hmem, hx⟩ | ⟨k, v, rfl, hk, hx⟩
  · rw [hx, size, if_neg hmem, Prod.map_apply, length_decode, length_decode]
    rfl
  · rw [hx, size, if_pos (by simp), Prod.map_apply, length_decode, length_decode,
      uriDecode_separator (by decide), List.length_append, List.length_cons, Nat.add_assoc]

/-- So an `&` in a decoded piece makes the parameters smaller than the target says. -/
theorem sum_size_add_count_le (plus : Bool) (ch : Octet) (x : Octets) :
    (((uriDecode x).splitOn 0x26).map fun y => size (queryParameter ch y)).sum +
      (uriDecode x).count 0x26 ≤ size ((rawParameter x).map (decode plus) (decode plus)) := by
  have hle := sum_size_le ch (uriDecode x)
  have hsize := size_map_decode plus x
  by_cases hmem : 0x3D ∈ x
  · -- the `=` of the piece is one of the decoded piece
    have hmem' : 0x3D ∈ uriDecode x := (mem_uriDecode_iff (by decide) x).mpr (.inl hmem)
    rw [if_pos hmem] at hsize
    rw [if_pos hmem'] at hle
    omega
  · -- there is no `=` to be counted
    rw [if_neg hmem] at hsize
    omega

/-- The decoded query is separated as the query if it has the parameters of the target. -/
theorem notMem_of_map_eq {plus : Bool} {ch : Octet} {q : Octets}
    (h : (getlines 0x26 (uriDecode q)).map (queryParameter ch) =
      (getlines 0x26 q).map fun x => (rawParameter x).map (decode plus) (decode plus)) :
    ∀ x ∈ q.splitOn 0x26, 0x26 ∉ uriDecode x := by
  have hsum : ((getlines 0x26 (uriDecode q)).map fun y => size (queryParameter ch y)).sum =
      ((getlines 0x26 q).map fun x =>
        size ((rawParameter x).map (decode plus) (decode plus))).sum := by
    have hsizes := congrArg (List.map size) h
    rw [List.map_map, List.map_map] at hsizes
    exact congrArg List.sum hsizes
  have hnil : size (queryParameter ch []) = 0 :=
    Nat.le_zero.mp (size_queryParameter_le ch [])
  have hnil' : size ((rawParameter []).map (decode plus) (decode plus)) = 0 := by
    have hsize := size_map_decode plus []
    simpa [uriDecode] using hsize
  -- the pieces that are not read have no size
  rw [sum_map_getlines hnil, sum_map_getlines hnil', splitOn_uriDecode (by decide),
    List.map_flatMap, List.flatMap, List.sum_flatten, List.map_map] at hsum
  intro x hx hmem
  -- the sums would differ
  refine absurd hsum (ne_of_lt (List.sum_lt_sum _ _ (fun y _ => ?_) ⟨x, hx, ?_⟩))
  · have hle := sum_size_add_count_le plus ch y
    exact le_trans (Nat.le_add_right _ _) hle
  · have hle := sum_size_add_count_le plus ch x
    have hpos := List.count_pos_iff.mpr hmem
    exact lt_of_lt_of_le (Nat.lt_add_of_pos_right hpos) hle

/-! ## Decoding twice -/

theorem decodeUriOctets_append (ch : Octet) {u : Octets} (hu : 0x25 ∉ u) (s : Octets) :
    decodeUriOctets ch (u ++ s) = u ++ decodeUriOctets ch s := by
  induction u with
  | nil => rfl
  | cons c u ih =>
    rw [List.mem_cons, not_or] at hu
    rw [List.cons_append, decodeUriOctets, if_neg (Ne.symm hu.1), ih hu.2, List.cons_append]

/-- A string is decoded to one of its length, whatever the variable holds, only if it has no `%`. -/
theorem decodeUriOctets_eq_iff {t t' : Octets} (hlength : t'.length = t.length) :
    (∀ ch, decodeUriOctets ch t = t') ↔ 0x25 ∉ t ∧ t = t' := by
  constructor
  · intro h
    have hpercent : 0x25 ∉ t := by
      intro hmem
      obtain ⟨u, v, rfl, hu⟩ := List.eq_append_cons_of_mem hmem
      simp only [decodeUriOctets_append _ hu, decodeUriOctets, if_true] at h
      cases v with
      | nil =>
        -- the variable is appended
        have heq := (h 0).trans (h 1).symm
        simp [scanHex] at heq
      | cons c v =>
        -- the result is too short
        have hle := length_decodeUriOctets_le ((scanHex ((c :: v).take 2)).getD 0)
          ((c :: v).drop 2)
        rw [← h 0] at hlength
        simp only [List.length_append, List.length_cons, List.length_drop] at hlength hle
        omega
    refine ⟨hpercent, ?_⟩
    have heq := h 0
    rwa [← List.append_nil t, decodeUriOctets_append 0 hpercent, decodeUriOctets,
      List.append_nil] at heq
  · rintro ⟨hpercent, rfl⟩ ch
    have heq := decodeUriOctets_append ch hpercent []
    rwa [decodeUriOctets, List.append_nil] at heq

/-- A piece is decoded to what the target says if no `=` in its key and no `%` in either part comes
of the first decoding. -/
theorem queryParameter_parts_iff (plus : Bool) (x : Octets) :
    (∀ ch, queryParameter ch (uriDecode x) = (rawParameter x).map (decode plus) (decode plus)) ↔
      0x3D ∉ uriDecode (rawParameter x).1 ∧
        (0x25 ∉ uriDecode (rawParameter x).1 ∧
          uriDecode (rawParameter x).1 = decode plus (rawParameter x).1) ∧
        0x25 ∉ uriDecode (rawParameter x).2 ∧
          uriDecode (rawParameter x).2 = decode plus (rawParameter x).2 := by
  have hparts (h : 0x3D ∉ uriDecode (rawParameter x).1) :
      rawParameter (uriDecode x) = (rawParameter x).map uriDecode uriDecode := by
    obtain ⟨htake, hdrop⟩ := parts_uriDecode (by decide) h
    exact Prod.ext htake hdrop
  simp only [queryParameter_eq]
  rw [← decodeUriOctets_eq_iff (length_decode plus _),
    ← decodeUriOctets_eq_iff (length_decode plus _)]
  constructor
  · intro h
    have hequals : 0x3D ∉ uriDecode (rawParameter x).1 := by
      intro hmem
      -- the key ends too early
      have hlt : (rawParameter (uriDecode x)).1.length < (uriDecode (rawParameter x).1).length :=
        length_takeWhile_uriDecode_lt (by decide) hmem
      have hle := length_decodeUriOctets_le 0 (rawParameter (uriDecode x)).1
      have heq := congrArg (fun p => p.1.length) (h 0)
      simp only [Prod.map_fst, length_decode] at heq
      omega
    rw [hparts hequals] at h
    exact ⟨hequals, fun ch => congrArg Prod.fst (h ch), fun ch => congrArg Prod.snd (h ch)⟩
  · rintro ⟨hequals, hkey', hvalue⟩ ch
    rw [hparts hequals]
    exact Prod.ext (hkey' ch) (hvalue ch)

/-- So a piece is decoded if no `=` is escaped in its key, and there is no `%` to be decoded
again. -/
theorem queryParameter_uriDecode_iff (plus : Bool) (x : Octets) :
    (∀ ch, queryParameter ch (uriDecode x) = (rawParameter x).map (decode plus) (decode plus)) ↔
      ¬ Escaped 0x3D (rawParameter x).1 ∧ 0x25 ∉ uriDecode x ∧ (plus = false → 0x2B ∉ x) := by
  have hkey : 0x3D ∉ (rawParameter x).1 := notMem_takeWhile_ne 0x3D x
  have hpercent : 0x25 ∈ uriDecode x ↔
      0x25 ∈ uriDecode (rawParameter x).1 ∨ 0x25 ∈ uriDecode (rawParameter x).2 :=
    mem_uriDecode_iff_of_first (c := 0x3D) (by decide) (by decide) x
  have hplus : 0x2B ∈ x ↔ 0x2B ∈ (rawParameter x).1 ∨ 0x2B ∈ (rawParameter x).2 :=
    mem_iff_of_first (by decide) x
  rw [queryParameter_parts_iff, mem_uriDecode_iff (by decide), uriDecode_eq_decode_iff,
    uriDecode_eq_decode_iff, hpercent, hplus]
  simp only [hkey, false_or, not_or, forall_and]
  tauto

/-- The query is decoded if and only if this is so of its pieces. -/
theorem map_queryParameter_iff (plus : Bool) (q : Octets) :
    (∀ ch, (getlines 0x26 (uriDecode q)).map (queryParameter ch) =
        (getlines 0x26 q).map fun x => (rawParameter x).map (decode plus) (decode plus)) ↔
      ¬ Escaped 0x26 q ∧ (∀ x ∈ q.splitOn 0x26, ¬ Escaped 0x3D (rawParameter x).1) ∧
        0x25 ∉ uriDecode q ∧ (plus = false → 0x2B ∉ q) := by
  -- no decoded piece is taken apart
  have hpieces (h : ¬ Escaped 0x26 q) :
      getlines 0x26 (uriDecode q) = (getlines 0x26 q).map uriDecode := by
    refine getlines_of_splitOn_eq_map uriDecode_eq_nil_iff ?_
    have hsingle : ∀ x ∈ q.splitOn 0x26, (uriDecode x).splitOn 0x26 = [uriDecode x] := fun x hx =>
      List.splitOn_eq_singleton ((notMem_uriDecode_iff (by decide) q).mpr h x hx)
    rw [splitOn_uriDecode (by decide), List.flatMap_congr hsingle, List.map_eq_flatMap]
  have hnil : ∀ ch, queryParameter ch (uriDecode []) =
      (rawParameter []).map (decode plus) (decode plus) := by
    intro ch
    cases plus <;>
      simp [queryParameter, rawParameter, decodeUriOctets, uriDecode, decode, percentDecode,
        units]
  have hpercent : 0x25 ∈ uriDecode q ↔ ∃ x ∈ q.splitOn 0x26, 0x25 ∈ uriDecode x :=
    mem_uriDecode_iff_exists (by decide) (by decide) q
  have hplus : 0x2B ∈ q ↔ ∃ x ∈ q.splitOn 0x26, 0x2B ∈ x := mem_iff_of_ne (by decide) q
  rw [hpercent, hplus]
  constructor
  · intro h
    have hamp := (notMem_uriDecode_iff (by decide) q).mp (notMem_of_map_eq (h 0))
    rw [hpieces hamp] at h
    simp only [List.map_map, List.map_inj_left, Function.comp_apply] at h
    have hall : ∀ x ∈ q.splitOn 0x26, ¬ Escaped 0x3D (rawParameter x).1 ∧ 0x25 ∉ uriDecode x ∧
        (plus = false → 0x2B ∉ x) := by
      intro x hx
      rw [← queryParameter_uriDecode_iff]
      -- an empty piece at the end is not read, but nothing is in it
      rcases mem_getlines_or hx with hx | rfl
      · exact fun ch => h ch x hx
      · exact hnil
    refine ⟨hamp, fun x hx => (hall x hx).1, ?_, ?_⟩
    · rintro ⟨x, hx, hmem⟩
      exact (hall x hx).2.1 hmem
    · rintro hblank ⟨x, hx, hmem⟩
      exact (hall x hx).2.2 hblank hmem
  · rintro ⟨hamp, hequals, hpercent, hplus⟩ ch
    rw [hpieces hamp, List.map_map, List.map_inj_left]
    intro x hx
    have hx := mem_splitOn_of_mem_getlines hx
    exact (queryParameter_uriDecode_iff plus x).mpr ⟨hequals x hx,
      fun hmem => hpercent ⟨x, hx, hmem⟩, fun hblank hmem => hplus hblank ⟨x, hx, hmem⟩⟩ ch

/-! ## The request of a stream -/

section Stream

variable {s : Stream} {m t : Octets}

/-- The path is decoded if and only if no `?` in it comes of that. -/
theorem takeWhile_uriDecode_iff (plus : Bool) (t : Octets) :
    (uriDecode t).takeWhile (· ≠ 0x3F) = decode plus (rawPath t) ↔
      0x3F ∉ uriDecode (rawPath t) ∧ uriDecode (rawPath t) = decode plus (rawPath t) := by
  constructor
  · intro heq
    have hmem : 0x3F ∉ uriDecode (rawPath t) := by
      intro hmem
      -- the path ends too early
      have hlt : ((uriDecode t).takeWhile (· ≠ 0x3F)).length < (uriDecode (rawPath t)).length :=
        length_takeWhile_uriDecode_lt (by decide) hmem
      rw [heq, length_decode] at hlt
      exact lt_irrefl _ hlt
    exact ⟨hmem, (parts_uriDecode (by decide) hmem).1.symm.trans heq⟩
  · rintro ⟨hmem, heq⟩
    exact (parts_uriDecode (by decide) hmem).1.trans heq

/-- The query is then looked for in what has been decoded of the query. -/
theorem parseQuery_uriDecode (ch : Octet) (h : 0x3F ∉ uriDecode (rawPath t)) :
    (parseQuery ch (uriDecode t)).getD [] =
      (getlines 0x26 (uriDecode (rawQuery t))).map (queryParameter ch) := by
  by_cases hmem : 0x3F ∈ t
  · obtain ⟨a, b, rfl, ha⟩ := List.eq_append_cons_of_mem hmem
    rw [rawPath, takeWhile_ne_append ha] at h
    rw [rawQuery, dropWhile_ne_append ha, List.tail_cons, uriDecode_separator (by decide),
      parseQuery, if_pos (by simp), dropWhile_ne_append h, List.tail_cons, Option.getD_some]
  · rw [rawPath, takeWhile_ne_eq_self hmem] at h
    -- there is no query
    rw [rawQuery, dropWhile_ne_eq_nil hmem, parseQuery, if_neg h]
    rfl

theorem subset_of_mem_parameterComponents {c x : Octets} (hc : c ∈ parameterComponents x) :
    c ⊆ x := by
  unfold parameterComponents at hc
  split_ifs at hc
  · rw [List.mem_pair] at hc
    rcases hc with rfl | rfl
    · exact List.takeWhile_subset _
    · exact List.Subset.trans (List.tail_subset _) (List.dropWhile_sublist _).subset
  · rw [List.mem_singleton.mp hc]
    exact List.Subset.refl x

theorem subset_of_mem_queryComponents {c x : Octets} (hc : c ∈ queryComponents x) :
    c ⊆ (x.dropWhile (· ≠ 0x3F)).tail := by
  unfold queryComponents at hc
  split_ifs at hc
  · obtain ⟨y, hy, hc⟩ := List.mem_flatMap.mp hc
    intro d hd
    by_cases hsep : d = 0x26
    · -- the separator is in no piece
      subst hsep
      exact absurd (subset_of_mem_parameterComponents hc hd)
        (notMem_of_mem_splitOn (mem_splitOn_of_mem_getlines hy))
    · exact (mem_iff_of_ne hsep _).mpr
        ⟨y, mem_splitOn_of_mem_getlines hy, subset_of_mem_parameterComponents hc hd⟩
  · cases hc

/-- A query without an escaped `%` is decoded without a store past the variable. -/
theorem queryReadable_of_undelimited {plus : Bool} (h : Undelimited plus t)
    (hpath : s.getHeader (octets ":path") = some t) : s.QueryReadable := by
  have hquestion : 0x3F ∉ uriDecode (rawPath t) := by
    rw [mem_uriDecode_iff (by decide), not_or]
    exact ⟨notMem_takeWhile_ne 0x3F t, h.question⟩
  have hpercent := (percent_notMem_uriDecode_iff _).mpr ⟨h.wellEscaped, h.percent⟩
  intro path hpath' method _ c hc
  obtain rfl : t = path := Option.some_inj.mp (hpath.symm.trans hpath')
  -- the keys and the values are parts of the decoded query
  have hsubset := subset_of_mem_queryComponents hc
  rw [(parts_uriDecode (by decide) hquestion).2] at hsubset
  exact numberless_of_notMem fun hmem => hpercent (hsubset hmem)

/-- The request is for what the target says exactly if nothing that has been escaped becomes a
separator or is decoded again. -/
theorem decodesTarget_iff (plus : Bool) (hmethod : s.getHeader (octets ":method") = some m)
    (hpath : s.getHeader (octets ":path") = some t) :
    DecodesTarget plus s t ↔ Undelimited plus t := by
  have hquestion : 0x3F ∉ uriDecode (rawPath t) ↔ ¬ Escaped 0x3F (rawPath t) := by
    have hmem : 0x3F ∉ rawPath t := notMem_takeWhile_ne 0x3F t
    simp [mem_uriDecode_iff (c := 0x3F) (by decide), hmem]
  have hrequest (ch : Octet) := (finishStream_of_getHeader ch hpath hmethod).2
  have hplus : (plus = false → 0x2B ∉ t) ↔
      (plus = false → 0x2B ∉ rawPath t) ∧ (plus = false → 0x2B ∉ rawQuery t) := by
    rw [← forall_and]
    refine forall_congr' fun _ => ?_
    rw [mem_iff_of_first (c := 0x3F) (by decide) t, not_or]
    rfl
  constructor
  · intro h
    -- the path first: the query is then looked for behind it
    have hp := h.path 0
    rw [(hrequest 0).1, takeWhile_uriDecode_iff, uriDecode_eq_decode_iff] at hp
    have hq := h.query
    simp only [(hrequest _).2, parseQuery_uriDecode _ hp.1] at hq
    obtain ⟨hamp, hequals, hpercent, hplus'⟩ := (map_queryParameter_iff plus _).mp hq
    obtain ⟨hesc, hpercent⟩ := (percent_notMem_uriDecode_iff _).mp hpercent
    exact ⟨hquestion.mp hp.1, hamp, hequals, hpercent, hesc, hplus.mpr ⟨hp.2, hplus'⟩⟩
  · intro h
    obtain ⟨hplus', hplus''⟩ := hplus.mp h.blank
    have hpercent := (percent_notMem_uriDecode_iff _).mpr ⟨h.wellEscaped, h.percent⟩
    have hmem := hquestion.mpr h.question
    constructor
    · intro ch
      rw [(hrequest ch).1, takeWhile_uriDecode_iff, uriDecode_eq_decode_iff]
      exact ⟨hmem, hplus'⟩
    · intro ch
      rw [(hrequest ch).2, parseQuery_uriDecode ch hmem]
      exact (map_queryParameter_iff plus _).mpr ⟨h.ampersand, h.equals, hpercent, hplus''⟩ ch

/-- A `GET` request for a target. -/
def getStream (t : Octets) : Stream :=
  { headers := [⟨octets ":method", octets "GET"⟩, ⟨octets ":path", t⟩] }

/-- A blank in the path and an escaped letter in the query. -/
theorem decodesTarget_sample :
    DecodesTarget false (getStream (octets "/a%20b?x=%41")) (octets "/a%20b?x=%41") ↔
      Undelimited false (octets "/a%20b?x=%41") :=
  decodesTarget_iff (m := octets "GET") false (by decide) (by decide)

/-- An escaped `?` cuts the path, an escaped `&` cuts the query, and an escaped `%` is decoded
twice. -/
theorem not_decodesTarget :
    ¬ DecodesTarget true (getStream (octets "/a%3Fb")) (octets "/a%3Fb") ∧
      ¬ DecodesTarget true (getStream (octets "/?a=%26")) (octets "/?a=%26") ∧
      ¬ DecodesTarget true (getStream (octets "/?a=%2541")) (octets "/?a=%2541") := by
  refine ⟨fun h => ?_, fun h => ?_, fun h => ?_⟩
  · exact absurd (h.path 0) (by decide)
  · exact absurd (h.query 0) (by decide +kernel)
  · exact absurd (h.query 0) (by decide +kernel)

end Stream

end Http

end Rite
