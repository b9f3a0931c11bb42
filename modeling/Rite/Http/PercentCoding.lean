import Rite.Http.Overrun
import Rite.Http.Target

/-!
# The two percent decoders

`decode_uri_component` leaves the digits of an escape to `sscanf`, and takes whatever follows a `%`
for an escape. `uri_decode` looks at the digits, and replaces the `+` as well. Where there is an
escape, `sscanf` stores past the variable that it is given.

## Main results

* `uriDecode_eq_percentDecode_iff`: `uri_decode` is percent decoding on a string without `+`;
* `decodeUriOctets_of_wellEscaped`: so would `decode_uri_component` be on one that is well escaped,
  if the octets behind its variable did not matter;
* `interchangeable_iff`: the decoders agree on a string without `+`, and
  `decode_uri_component` takes nothing for an escape that is none, exactly if there is no `%`;
* `not_interchangeable`: a single `%` is enough.
-/

namespace Rite

namespace Http

theorem isspace_of_isxdigit {a : Octet} (ha : isxdigit a) : isspace a = false := by
  simp only [isxdigit, isspace, Bool.or_eq_true, Bool.and_eq_true, decide_eq_true_eq,
    UInt8.le_iff_toNat_le, Bool.or_eq_false_iff, Bool.and_eq_false_iff, decide_eq_false_iff_not,
    ← UInt8.toNat_inj, UInt8.reduceToNat] at ha ⊢
  omega

/-- `sscanf` reads two digits as the number that they are. -/
theorem scanHex_of_isxdigit {a b : Octet} (ha : isxdigit a) (hb : isxdigit b) :
    scanHex [a, b] = some (16 * hexDigit a + hexDigit b) := by
  have hnul : [a, b].takeWhile (· ≠ 0) = [a, b] := by
    simp [ne_of_isxdigit ha (c := 0) (by decide), ne_of_isxdigit hb (c := 0) (by decide)]
  have hspace : [a, b].dropWhile isspace = [a, b] := by simp [isspace_of_isxdigit ha]
  have hplus : a ≠ 0x2B := ne_of_isxdigit ha (by decide)
  have hminus : a ≠ 0x2D := ne_of_isxdigit ha (by decide)
  rw [scanHex, hnul, hspace]
  simp [hplus, hminus, ha, hb]

/-- The decoders of the units differ in the `+`. -/
theorem uriDecode_eq_percentDecode_iff (s : Octets) :
    uriDecode s = percentDecode s ↔ 0x2B ∉ s := by
  rw [uriDecode_eq, percentDecode, List.map_inj_left,
    ← raw_mem_units_iff (c := 0x2B) (by decide) (by decide)]
  constructor
  · intro h hmem
    -- the unit of a `+` has two values
    exact absurd (h _ hmem) (by decide)
  · intro h u hu
    cases u with
    | raw c =>
      have hc : c ≠ 0x2B := by
        rintro rfl
        exact h hu
      exact if_neg hc
    | escape a b => rfl

theorem length_uriDecode_eq (s : Octets) : (uriDecode s).length = (percentDecode s).length := by
  rw [uriDecode_eq, percentDecode, List.length_map, List.length_map]

/-! ## `decode_uri_component` -/

/-- Every octet goes to the result, or to `sscanf` behind a `%` that is replaced. -/
theorem length_decodeUriOctets (ch : Octet) (s : Octets) :
    (decodeUriOctets ch s).length + ((escapes s).map List.length).sum = s.length := by
  fun_induction decodeUriOctets ch s with
  | case1 => simp [escapes]
  | case2 ch rest ch' ih =>
    rw [escapes, if_pos rfl, List.map_cons, List.sum_cons, List.length_cons, List.length_cons,
      List.length_take]
    rw [List.length_drop] at ih
    omega
  | case3 ch c rest hc ih =>
    rw [escapes, if_neg hc, List.length_cons, List.length_cons]
    omega

/-- Two hexadecimal digits. -/
def IsEscape (e : Octets) : Prop := ∃ a b, e = [a, b] ∧ isxdigit a ∧ isxdigit b

theorem wellEscaped_cons {c : Octet} (hc : c ≠ 0x25) (s : Octets) :
    WellEscaped (c :: s) ↔ WellEscaped s := by
  constructor
  · intro h u v heq
    exact h (c :: u) v (by rw [heq, List.cons_append])
  · intro h u v heq
    cases u with
    | nil => exact absurd (List.cons_eq_cons.mp heq).1 hc
    | cons d u => exact h u v (List.cons_eq_cons.mp heq).2

theorem wellEscaped_escape {a b : Octet} (ha : isxdigit a) (hb : isxdigit b) (s : Octets) :
    WellEscaped (0x25 :: a :: b :: s) ↔ WellEscaped s := by
  have ha' : a ≠ 0x25 := ne_of_isxdigit ha (by decide)
  have hb' : b ≠ 0x25 := ne_of_isxdigit hb (by decide)
  rw [← wellEscaped_cons hb' s, ← wellEscaped_cons ha' (b :: s)]
  constructor
  · intro h u v heq
    exact h (0x25 :: u) v (by rw [heq, List.cons_append])
  · intro h u v heq
    cases u with
    | nil =>
      obtain ⟨-, rfl⟩ := List.cons_eq_cons.mp heq
      exact ⟨a, b, s, rfl, ha, hb⟩
    | cons d u => exact h u v (List.cons_eq_cons.mp heq).2

/-- The decoder comes to every `%` if what follows those before is an escape. -/
theorem wellEscaped_iff (s : Octets) : WellEscaped s ↔ ∀ e ∈ escapes s, IsEscape e := by
  fun_induction escapes s with
  | case1 => simp [WellEscaped]
  | case2 rest ih =>
    rw [List.forall_mem_cons, ← ih]
    constructor
    · intro h
      obtain ⟨a, b, w, rfl, ha, hb⟩ := h [] rest rfl
      exact ⟨⟨a, b, rfl, ha, hb⟩, (wellEscaped_escape ha hb w).mp h⟩
    · rintro ⟨⟨a, b, htake, ha, hb⟩, h⟩
      -- the digits are what `sscanf` is given
      have hrest : rest = a :: b :: rest.drop 2 := by
        rw [← List.take_append_drop 2 rest, htake]
        simp
      rw [hrest, wellEscaped_escape ha hb]
      exact h
  | case3 c rest hc ih => rw [wellEscaped_cons hc, ih]

/-- No `%` stands for itself in a string that is well escaped. -/
theorem raw_notMem_units {s : Octets} (h : WellEscaped s) : .raw 0x25 ∉ units s := by
  fun_induction units s with
  | case1 => exact List.not_mem_nil
  | case2 a b rest hx ih =>
    rw [Bool.and_eq_true] at hx
    simpa using ih ((wellEscaped_escape hx.1 hx.2 rest).mp h)
  | case3 a b rest hx ih =>
    -- the `%` has to begin an escape
    obtain ⟨a', b', w, heq, ha, hb⟩ := h [] (a :: b :: rest) rfl
    simp only [List.cons.injEq] at heq
    obtain ⟨rfl, rfl, -⟩ := heq
    exact absurd (Bool.and_eq_true _ _ ▸ ⟨ha, hb⟩) hx
  | case4 c rest hshort ih =>
    have hc : c ≠ 0x25 := by
      rintro rfl
      obtain ⟨a, b, w, rfl, -, -⟩ := h [] rest rfl
      exact hshort a b w rfl rfl
    simpa [hc.symm] using ih ((wellEscaped_cons hc rest).mp h)

/-- On a string that is well escaped it would decode the escapes, and nothing else. -/
theorem decodeUriOctets_of_wellEscaped {s : Octets} (h : WellEscaped s) (ch : Octet) :
    decodeUriOctets ch s = percentDecode s := by
  fun_induction decodeUriOctets ch s with
  | case1 => rfl
  | case2 ch rest ch' ih =>
    obtain ⟨a, b, w, rfl, ha, hb⟩ := h [] rest rfl
    -- the variable gets the value of the escape
    have hch : ch' = 16 * hexDigit a + hexDigit b := by
      show (scanHex [a, b]).getD ch = _
      rw [scanHex_of_isxdigit ha hb, Option.getD_some]
    rw [hch] at ih ⊢
    rw [percentDecode_escape ha hb]
    exact congrArg _ (ih ((wellEscaped_escape ha hb w).mp h))
  | case3 ch c rest hc ih =>
    rw [ih ((wellEscaped_cons hc rest).mp h), percentDecode_cons hc]

theorem escapes_eq_nil_iff (s : Octets) : escapes s = [] ↔ 0x25 ∉ s := by
  fun_induction escapes s with
  | case1 => simp
  | case2 rest ih => simp
  | case3 c rest hc ih => simp [ih, Ne.symm hc]

theorem numberless_of_notMem {s : Octets} (h : 0x25 ∉ s) : Numberless s := by
  intro e he
  rw [(escapes_eq_nil_iff s).mpr h] at he
  cases he

/-- The decoders can be used for each other: `decode_uri_component` does what `uri_decode` does,
whatever its variable holds, and it takes nothing for an escape that is none. -/
structure Interchangeable (s : Octets) : Prop where
  /-- The results. -/
  equal : ∀ ch, decodeUriComponent ch s = .ok (uriDecode s)
  /-- What is appended has been stored by `sscanf`. -/
  stored : ∀ e ∈ escapes s, (scanHex e).isSome
  /-- What is skipped are the digits of an escape. -/
  skipped : ∀ e ∈ escapes s, IsEscape e

/-- So it is if and only if there is no `%`: `sscanf` stores too much for an escape, and nothing for
anything else. -/
theorem interchangeable_iff {s : Octets} (hplus : 0x2B ∉ s) :
    Interchangeable s ↔ 0x25 ∉ s := by
  constructor
  · intro h
    have hequal := h.equal 0
    rw [decodeUriComponent_eq] at hequal
    split_ifs at hequal with hnumber
    refine (escapes_eq_nil_iff s).mp (List.eq_nil_iff_forall_not_mem.mpr fun e he => ?_)
    -- there is a number, and there is none
    have hstored := h.stored e he
    rw [hnumber e he] at hstored
    cases hstored
  · intro h
    have hnone : ∀ e, e ∉ escapes s := by simp [(escapes_eq_nil_iff s).mpr h]
    have hescaped : WellEscaped s := (wellEscaped_iff s).mpr fun e he => absurd he (hnone e)
    refine ⟨fun ch => ?_, fun e he => absurd he (hnone e), fun e he => absurd he (hnone e)⟩
    rw [decodeUriComponent_eq, if_pos (numberless_of_notMem h),
      decodeUriOctets_of_wellEscaped hescaped, (uriDecode_eq_percentDecode_iff s).mpr hplus]

/-- A slash that is not escaped. -/
theorem interchangeable_sample : Interchangeable (octets "a/b") ↔ 0x25 ∉ octets "a/b" :=
  interchangeable_iff (by decide)

/-- A `%` at the end makes `decode_uri_component` append what its variable holds, and an escaped
slash makes it store past that variable. -/
theorem not_interchangeable :
    (¬ ∀ s, 0x2B ∉ s → Interchangeable s) ∧ ¬ Interchangeable (octets "a%2Fb") := by
  constructor
  · intro h
    have hequal := (h [0x25] (by decide)).equal 0
    simp [decodeUriComponent, scanHex, uriDecode, pure, Except.pure, bind, Except.bind] at hequal
  · intro h
    have hnumber : ¬ Numberless (octets "a%2Fb") := by decide +kernel
    have hequal := h.equal 0
    rw [decodeUriComponent_eq, if_neg hnumber] at hequal
    cases hequal

end Http

end Rite
