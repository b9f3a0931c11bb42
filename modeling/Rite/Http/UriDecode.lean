import Rite.Http.Request

/-!
# Percent decoding (`uri_decode`)

A string is taken apart into octets that stand for themselves and escapes of two hexadecimal digits.
Percent decoding replaces the escapes. `uri_decode` makes a blank of a `+` as well, and leaves all
else as it is.

## Main results

* `units_append`, `uriDecode_append`: an escape does not begin inside another one;
* `uriDecode_eq`: what `uri_decode` makes of the units;
* `length_uriDecode_lt`: each escape makes the text shorter;
* `uriDecode_of_notMem`: without escapes it only replaces the `+`.
-/

namespace Rite

namespace Http

theorem ne_of_isxdigit {a c : Octet} (ha : isxdigit a) (hc : isxdigit c = false) : a ≠ c := by
  rintro rfl
  rw [ha] at hc
  cases hc

/-! ## Units -/

/-- A unit of a string with escapes. -/
inductive UriUnit
  | raw (c : Octet)
  | escape (a b : Octet)
  deriving DecidableEq

/-- The octet that a unit stands for. -/
def UriUnit.value : UriUnit → Octet
  | raw c => c
  | escape a b => 16 * hexDigit a + hexDigit b

/-- The octet that `uri_decode` makes of a unit. -/
def UriUnit.uriValue : UriUnit → Octet
  | raw c => if c = 0x2B then 0x20 else c
  | escape a b => 16 * hexDigit a + hexDigit b

/-- The units of a string. -/
def units : Octets → List UriUnit
  | [] => []
  | 0x25 :: a :: b :: rest =>
    if isxdigit a && isxdigit b then .escape a b :: units rest
    else .raw 0x25 :: units (a :: b :: rest)
  | c :: rest => .raw c :: units rest

/-- Percent decoding. A `%` that begins no escape stands for itself. -/
def percentDecode (s : Octets) : Octets := (units s).map UriUnit.value

theorem units_escape {a b : Octet} (ha : isxdigit a) (hb : isxdigit b) (s : Octets) :
    units (0x25 :: a :: b :: s) = .escape a b :: units s := by
  rw [units, ha, hb]
  rfl

/-- An octet that begins no escape is a unit of its own. -/
theorem units_cons {c : Octet} {s : Octets}
    (h : c = 0x25 → ∀ a b rest, s = a :: b :: rest → (isxdigit a && isxdigit b) = false) :
    units (c :: s) = .raw c :: units s := by
  rw [units.eq_def]
  split
  next heq => cases heq
  next a b rest heq =>
    obtain ⟨rfl, rfl⟩ := List.cons_eq_cons.mp heq
    rw [if_neg (by simp [h rfl a b rest rfl])]
  next heq =>
    obtain ⟨rfl, rfl⟩ := List.cons_eq_cons.mp heq
    rfl

theorem percentDecode_escape {a b : Octet} (ha : isxdigit a) (hb : isxdigit b) (s : Octets) :
    percentDecode (0x25 :: a :: b :: s) = (16 * hexDigit a + hexDigit b) :: percentDecode s := by
  rw [percentDecode, units_escape ha hb]
  rfl

theorem percentDecode_cons {c : Octet} (hc : c ≠ 0x25) (s : Octets) :
    percentDecode (c :: s) = c :: percentDecode s := by
  rw [percentDecode, units_cons fun heq => absurd heq hc]
  rfl

/-- An octet that is no part of an escape is a unit wherever it stands. -/
theorem raw_mem_units_iff {c : Octet} (hdigit : isxdigit c = false) (hpercent : c ≠ 0x25)
    (s : Octets) : .raw c ∈ units s ↔ c ∈ s := by
  fun_induction units s with
  | case1 => simp
  | case2 a b rest hx ih =>
    rw [Bool.and_eq_true] at hx
    have ha : c ≠ a := (ne_of_isxdigit hx.1 hdigit).symm
    have hb : c ≠ b := (ne_of_isxdigit hx.2 hdigit).symm
    simp [ih, hpercent, ha, hb]
  | case3 a b rest hx ih =>
    rw [List.mem_cons, ih]
    simp [hpercent]
  | case4 d rest hshort ih => simp [ih]

/-- What is no digit is part of no escape that begins in front of it. -/
theorem units_append {c : Octet} (hc : isxdigit c = false) (s t : Octets) :
    units (s ++ c :: t) = units s ++ units (c :: t) := by
  fun_induction units s with
  | case1 => rfl
  | case2 a b rest hx ih =>
    rw [Bool.and_eq_true] at hx
    exact (units_escape hx.1 hx.2 _).trans (congrArg _ ih)
  | case3 a b rest hx ih =>
    rw [List.cons_append, units_cons, ih, List.cons_append]
    rintro - a' b' rest' heq
    simp only [List.cons_append, List.cons.injEq] at heq
    obtain ⟨rfl, rfl, -⟩ := heq
    simpa using hx
  | case4 d rest hshort ih =>
    rw [List.cons_append, units_cons, ih, List.cons_append]
    rintro rfl a b rest' heq
    -- there are no two octets in front of `c`
    rcases rest with _ | ⟨x, _ | ⟨y, rest⟩⟩
    · obtain ⟨rfl, -⟩ := List.cons_eq_cons.mp heq
      rw [hc, Bool.false_and]
    · obtain ⟨-, heq⟩ := List.cons_eq_cons.mp heq
      obtain ⟨rfl, -⟩ := List.cons_eq_cons.mp heq
      rw [hc, Bool.and_false]
    · exact absurd rfl (hshort x y rest rfl)

/-- The escapes of a string are wherever there is a `%` with two digits. -/
theorem escape_mem_units_iff {a b : Octet} {s : Octets} :
    .escape a b ∈ units s ↔
      ∃ u v, s = u ++ 0x25 :: a :: b :: v ∧ isxdigit a ∧ isxdigit b := by
  constructor
  · intro h
    fun_induction units s with
    | case1 => cases h
    | case2 a' b' rest hx ih =>
      rw [Bool.and_eq_true] at hx
      rcases List.mem_cons.mp h with heq | h
      · obtain ⟨rfl, rfl⟩ := UriUnit.escape.inj heq
        exact ⟨[], rest, rfl, hx⟩
      · obtain ⟨u, v, rfl, hab⟩ := ih h
        exact ⟨0x25 :: a' :: b' :: u, v, rfl, hab⟩
    | case3 a' b' rest hx ih =>
      rcases List.mem_cons.mp h with heq | h
      · cases heq
      · obtain ⟨u, v, heq, hab⟩ := ih h
        exact ⟨0x25 :: u, v, by rw [heq, List.cons_append], hab⟩
    | case4 d rest hshort ih =>
      rcases List.mem_cons.mp h with heq | h
      · cases heq
      · obtain ⟨u, v, rfl, hab⟩ := ih h
        exact ⟨d :: u, v, rfl, hab⟩
  · rintro ⟨u, v, rfl, ha, hb⟩
    rw [units_append (by decide), units_escape ha hb]
    exact List.mem_append_right _ List.mem_cons_self

/-! ## `uri_decode` -/

theorem uriDecode_eq (s : Octets) : uriDecode s = (units s).map UriUnit.uriValue := by
  fun_induction uriDecode s with
  | case1 => rfl
  | case2 a b rest hx ih =>
    rw [units, if_pos hx, List.map_cons, ih]
    rfl
  | case3 a b rest hx ih =>
    rw [units, if_neg hx, List.map_cons, ih]
    rfl
  | case4 rest ih =>
    rw [units_cons (by simp), List.map_cons, ih]
    rfl
  | case5 c rest hshort hplus ih =>
    rw [units_cons, List.map_cons, ih, UriUnit.uriValue, if_neg hplus]
    rintro rfl a b rest' rfl
    exact absurd rfl (hshort a b rest' rfl)

theorem length_uriDecode_le (s : Octets) : (uriDecode s).length ≤ s.length := by
  fun_induction uriDecode s with
  | case1 => exact le_rfl
  | case2 a b rest _ ih => simp only [List.length_cons]; omega
  | case3 a b rest _ ih => simp only [List.length_cons] at ih ⊢; omega
  | case4 rest ih => simp only [List.length_cons]; omega
  | case5 c rest _ _ ih => simp only [List.length_cons]; omega

/-- An octet that begins no escape and is no `+` stays as it is. -/
theorem uriDecode_cons {c : Octet} {s : Octets} (hc : c ≠ 0x2B)
    (hs : c = 0x25 → ∀ a b rest, s = a :: b :: rest → (isxdigit a && isxdigit b) = false) :
    uriDecode (c :: s) = c :: uriDecode s := by
  rw [uriDecode_eq, units_cons hs, List.map_cons, ← uriDecode_eq, UriUnit.uriValue, if_neg hc]

/-- Without escapes only the `+` are replaced. -/
theorem uriDecode_of_notMem {s : Octets} (h : 0x25 ∉ s) :
    uriDecode s = s.map fun c => if c = 0x2B then 0x20 else c := by
  induction s with
  | nil => rfl
  | cons c s ih =>
    rw [List.mem_cons, not_or] at h
    rw [List.map_cons, ← ih h.2]
    -- a character is replaced or it stays
    by_cases hc : c = 0x2B
    · subst hc
      rw [uriDecode, if_pos rfl]
    · rw [uriDecode_cons hc fun hesc => absurd hesc.symm h.1, if_neg hc]

theorem uriDecode_eq_self {t : Octets} (hpercent : 0x25 ∉ t) (hplus : 0x2B ∉ t) :
    uriDecode t = t := by
  have hne : ∀ c ∈ t, c ≠ 0x2B := by
    rintro c hc rfl
    exact hplus hc
  calc
    uriDecode t = t.map fun c => if c = 0x2B then 0x20 else c := uriDecode_of_notMem hpercent
    _ = t.map id := List.map_congr_left fun c hc => if_neg (hne c hc)
    _ = t := List.map_id t

/-- An escape is taken for one wherever it stands: none begins inside another one. -/
theorem uriDecode_append {c : Octet} (hc : isxdigit c = false) (s t : Octets) :
    uriDecode (s ++ c :: t) = uriDecode s ++ uriDecode (c :: t) := by
  rw [uriDecode_eq, units_append hc, List.map_append, ← uriDecode_eq, ← uriDecode_eq]

/-- Each escape makes the text shorter. -/
theorem length_uriDecode_lt {s t : Octets} {a b : Octet} (ha : isxdigit a) (hb : isxdigit b) :
    (uriDecode (s ++ 0x25 :: a :: b :: t)).length < (s ++ 0x25 :: a :: b :: t).length := by
  have hs := length_uriDecode_le s
  have ht := length_uriDecode_le t
  -- three octets make one
  have hescape : uriDecode (0x25 :: a :: b :: t) =
      (16 * hexDigit a + hexDigit b) :: uriDecode t := by
    simp [uriDecode, ha, hb]
  rw [uriDecode_append (by decide), hescape]
  simp only [List.length_append, List.length_cons]
  omega

end Http

end Rite
