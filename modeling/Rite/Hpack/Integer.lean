import Rite.Basic
import Rite.ToMathlib.Base128

/-!
# Prefix-coded integers (`h2::variable_integer`)

`encode` and `decode` follow `include/protocols/h2/hpack.hpp`. The accumulator is a `uint32_t`:
additions wrap, and a shift count of 32 or more, undefined in C++, is taken modulo 32 as the
x86-64 instruction does (`UInt32.shiftLeft` is that operation). A group of zero bits contributes
zero whatever the shift count is, so only oversized integers depend on this.

## Main results

* `decode_of_decode`: an integer whose value fits 32 bits is decoded to that value;
* `decode_encode`: decoding inverts encoding, whatever flags share the first octet and whatever
  octets follow;
* `decode_of_append`: an integer that ends before the input does is read from its own octets
  alone;
* `decode_setFlags_encode`: the whole of the encoding is read, which has at most six octets.
-/

namespace Rite

namespace VariableInteger

/-- `(1u << N) - 1`, the value that announces continuation octets. -/
def prefixMax (N : ℕ) : UInt32 := (1 <<< UInt32.ofNat N) - 1

/-- The `do … while (value > 0)` loop of `encode`. -/
def encodeRest (value : UInt32) : Octets :=
  let quotient := value / 128
  let remainder := value % 128
  if quotient > 0 then (0x80 ||| remainder).toUInt8 :: encodeRest quotient
  else [remainder.toUInt8]
termination_by value.toNat
decreasing_by
  rename_i h
  have hdiv : (value / 128).toNat = value.toNat / 128 := UInt32.toNat_div value 128
  have hpos : 0 < (value / 128).toNat := UInt32.lt_iff_toNat_lt.mp h
  omega

/-- `variable_integer<N>::encode`. -/
def encode (N : ℕ) (value : UInt32) : Octets :=
  if value < prefixMax N then [value.toUInt8]
  else (prefixMax N).toUInt8 :: encodeRest (value - prefixMax N)

/-- The loop of `decode` over the octets after the first. It also ends, with what it has, when
the octets run out. -/
def decodeRest (value shift : UInt32) (bytes : ℕ) : Octets → UInt32 × ℕ
  | [] => (value, bytes)
  | byte :: data =>
    let value := value + ((byte &&& 0x7F).toUInt32 <<< shift)
    if byte &&& 0x80 = 0 then (value, bytes + 1) else decodeRest value (shift + 7) (bytes + 1) data

/-- `variable_integer<N>::decode`: the value and the number of octets read (`bytes`). -/
def decode (N : ℕ) : Octets → Except Fault (UInt32 × ℕ)
  | [] => .error (.std (.invalidArgument "Data cannot be empty"))
  | first :: data =>
    let pfx := first &&& (0xFF >>> UInt8.ofNat (8 - N))
    if pfx.toUInt32 < prefixMax N then .ok (pfx.toUInt32, 1)
    else .ok (decodeRest (prefixMax N) 0 1 data)

/-! ## Octet arithmetic -/

theorem and_0x7F_toNat (b : Octet) : (b &&& 0x7F).toNat = Base128.low b := by
  rw [UInt8.toNat_and, show (0x7F : Octet).toNat = 2 ^ 7 - 1 from rfl,
    Nat.and_two_pow_sub_one_eq_mod]
  rfl

/-- Masking the high bit leaves `128` or `0`. -/
theorem and_0x80_eq_zero_iff (b : Octet) : b &&& 0x80 = 0 ↔ b.toNat < 128 := by
  have key : ∀ i : Fin 256, (UInt8.ofNat i) &&& 0x80 = 0 ↔ i.val < 128 := by decide +kernel
  simpa using key ⟨b.toNat, b.toNat_lt⟩

theorem prefixMax_toNat {N : ℕ} (hN : N ≤ 8) : (prefixMax N).toNat = 2 ^ N - 1 := by
  interval_cases N <;> rfl

/-- The mask keeps the lowest `N` bits. -/
theorem prefix_toNat {N : ℕ} (h1 : 1 ≤ N) (h8 : N ≤ 8) (first : Octet) :
    (first &&& (0xFF >>> UInt8.ofNat (8 - N))).toNat = first.toNat % 2 ^ N := by
  have hmask : ((0xFF : Octet) >>> UInt8.ofNat (8 - N)).toNat = 2 ^ N - 1 := by
    interval_cases N <;> rfl
  rw [UInt8.toNat_and, hmask, Nat.and_two_pow_sub_one_eq_mod]

/-- Flags above the prefix do not reach its value. -/
theorem or_toNat_mod_two_pow {N : ℕ} (flags b : Octet) (hflags : flags.toNat % 2 ^ N = 0) :
    (flags ||| b).toNat % 2 ^ N = b.toNat % 2 ^ N := by
  rw [UInt8.toNat_or, Nat.or_mod_two_pow, hflags, Nat.zero_or]

/-! ## Decoding -/

/-- A non-zero number below `2 ^ w` is shifted by less than `w`. -/
private theorem lt_of_mul_two_pow_lt {g s w : ℕ} (hpos : 0 < g) (hlt : g * 2 ^ s < 2 ^ w) :
    s < w := by
  by_contra hle
  have hpow : 2 ^ w ≤ 2 ^ s := Nat.pow_le_pow_right (by norm_num) (not_lt.mp hle)
  have hmul : 2 ^ s ≤ g * 2 ^ s := Nat.le_mul_of_pos_left _ hpos
  omega

/-- A value group that fits is added without loss, at whatever shift. -/
private theorem toNat_add_shiftLeft {value shift g : UInt32}
    (hfit : value.toNat + g.toNat * 2 ^ shift.toNat < 2 ^ 32) :
    (value + g <<< shift).toNat = value.toNat + g.toNat * 2 ^ shift.toNat := by
  have hshl : (g <<< shift).toNat = g.toNat * 2 ^ shift.toNat := by
    rw [UInt32.toNat_shiftLeft, Nat.shiftLeft_eq]
    rcases Nat.eq_zero_or_pos g.toNat with h0 | hpos
    · simp [h0]
    · have hlt : shift.toNat < 32 := lt_of_mul_two_pow_lt (w := 32) hpos (by omega)
      rw [Nat.mod_eq_of_lt hlt, Nat.mod_eq_of_lt (by omega)]
  rw [UInt32.toNat_add, hshl, Nat.mod_eq_of_lt hfit]

/-- The loop adds a base-128 numeral whose sum with the accumulator fits 32 bits. -/
theorem decodeRest_of_decode {data rest : Octets} {v : ℕ}
    (hdec : Base128.decode data = some (v, rest)) (value shift : UInt32) (bytes : ℕ)
    (hfit : value.toNat + v * 2 ^ shift.toNat < 2 ^ 32) :
    decodeRest value shift bytes data =
      (UInt32.ofNat (value.toNat + v * 2 ^ shift.toNat),
        bytes + (data.length - rest.length)) := by
  induction data generalizing v value shift bytes with
  | nil => simp at hdec
  | cons b data ih =>
    have hg : (b &&& 0x7F).toUInt32.toNat = Base128.low b := by
      rw [UInt8.toNat_toUInt32, and_0x7F_toNat]
    rcases lt_or_ge b.toNat 128 with hb | hb
    · -- the last octet
      rw [Base128.decode_cons_of_lt hb, Option.some.injEq, Prod.mk.injEq] at hdec
      obtain ⟨rfl, rfl⟩ := hdec
      simp only [decodeRest, (and_0x80_eq_zero_iff b).mpr hb, if_true, Prod.mk.injEq]
      constructor
      · rw [← hg] at hfit ⊢
        rw [← toNat_add_shiftLeft hfit, UInt32.ofNat_toNat]
      · simp
    · rw [Base128.decode_cons_of_le hb] at hdec
      obtain ⟨⟨v', rest'⟩, hdec', heq⟩ := Option.map_eq_some_iff.mp hdec
      simp only [Prod.mk.injEq] at heq
      obtain ⟨rfl, rfl⟩ := heq
      have hlen := Base128.length_lt_of_decode hdec'
      have hcont : ¬ b &&& 0x80 = 0 := by
        rw [and_0x80_eq_zero_iff]
        omega
      rw [Nat.add_mul] at hfit
      have hadd : (value + (b &&& 0x7F).toUInt32 <<< shift).toNat =
          value.toNat + Base128.low b * 2 ^ shift.toNat := by
        rw [← hg]
        exact toNat_add_shiftLeft (by rw [hg]; omega)
      -- unless nothing but zero groups follows, the next shift is below 32 too
      have hshift : v' * 2 ^ (shift + 7).toNat = 128 * v' * 2 ^ shift.toNat := by
        rcases Nat.eq_zero_or_pos v' with h0 | hpos
        · simp [h0]
        · have hlt : shift.toNat < 25 :=
            lt_of_mul_two_pow_lt (w := 25) hpos (by rw [Nat.mul_assoc] at hfit; omega)
          have h7 : (shift + 7).toNat = shift.toNat + 7 := by
            rw [UInt32.toNat_add, show (7 : UInt32).toNat = 7 from rfl, Nat.mod_eq_of_lt (by omega)]
          rw [h7, pow_add]
          ring
      have hstep := ih hdec' (value + (b &&& 0x7F).toUInt32 <<< shift) (shift + 7) (bytes + 1)
        (by rw [hadd, hshift]; omega)
      simp only [decodeRest, hcont, if_false]
      rw [hstep, hadd, hshift, Prod.mk.injEq, List.length_cons]
      exact ⟨by congr 1; ring, by omega⟩

/-- A short integer is decoded from its first octet. -/
theorem decode_cons_of_lt {N : ℕ} (h1 : 1 ≤ N) (h8 : N ≤ 8) {first : Octet}
    (hlt : first.toNat % 2 ^ N < 2 ^ N - 1) (data : Octets) :
    decode N (first :: data) = .ok (UInt32.ofNat (first.toNat % 2 ^ N), 1) := by
  have hpfx := prefix_toNat h1 h8 first
  have hval : (first &&& (0xFF >>> UInt8.ofNat (8 - N))).toUInt32 =
      UInt32.ofNat (first.toNat % 2 ^ N) := by
    rw [← hpfx, ← UInt8.toNat_toUInt32, UInt32.ofNat_toNat]
  have hcond : (first &&& (0xFF >>> UInt8.ofNat (8 - N))).toUInt32 < prefixMax N := by
    rw [UInt32.lt_iff_toNat_lt, UInt8.toNat_toUInt32, hpfx, prefixMax_toNat h8]
    exact hlt
  rw [decode, if_pos hcond, hval]

/-- A long integer continues after its first octet. -/
theorem decode_cons_of_eq {N : ℕ} (h1 : 1 ≤ N) (h8 : N ≤ 8) {first : Octet}
    (heq : first.toNat % 2 ^ N = 2 ^ N - 1) (data : Octets) :
    decode N (first :: data) = .ok (decodeRest (prefixMax N) 0 1 data) := by
  have hcond : ¬ (first &&& (0xFF >>> UInt8.ofNat (8 - N))).toUInt32 < prefixMax N := by
    rw [UInt32.lt_iff_toNat_lt, UInt8.toNat_toUInt32, prefix_toNat h1 h8, prefixMax_toNat h8]
    omega
  rw [decode, if_neg hcond]

/-- The first octet either is a short integer or announces a long one. -/
theorem prefix_lt_or_eq (N : ℕ) (first : Octet) :
    first.toNat % 2 ^ N < 2 ^ N - 1 ∨ first.toNat % 2 ^ N = 2 ^ N - 1 := by
  have := Nat.mod_lt first.toNat (Nat.two_pow_pos N)
  omega

/-- A long integer whose value fits 32 bits is decoded to that value. -/
theorem decode_of_decode {N : ℕ} (h1 : 1 ≤ N) (h8 : N ≤ 8) {first : Octet} {data rest : Octets}
    {v : ℕ} (heq : first.toNat % 2 ^ N = 2 ^ N - 1) (hdec : Base128.decode data = some (v, rest))
    (hfit : 2 ^ N - 1 + v < 2 ^ 32) :
    decode N (first :: data) =
      .ok (UInt32.ofNat (2 ^ N - 1 + v), 1 + (data.length - rest.length)) := by
  have hstep := decodeRest_of_decode hdec (prefixMax N) 0 1 (by simpa [prefixMax_toNat h8])
  rw [decode_cons_of_eq h1 h8 heq, hstep, prefixMax_toNat h8]
  simp

/-! ## The octets read -/

private theorem decodeRest_bytes (value shift : UInt32) (bytes : ℕ) (data : Octets) :
    bytes ≤ (decodeRest value shift bytes data).2 ∧
      (decodeRest value shift bytes data).2 ≤ bytes + data.length ∧
      (data ≠ [] → bytes < (decodeRest value shift bytes data).2) := by
  induction data generalizing value shift bytes with
  | nil => simp [decodeRest]
  | cons b data ih =>
    simp only [decodeRest, List.length_cons]
    split
    · simp only [ne_eq, reduceCtorEq, not_false_eq_true, true_implies]
      omega
    · obtain ⟨hge, hle, -⟩ := ih (value + (b &&& 0x7F).toUInt32 <<< shift) (shift + 7) (bytes + 1)
      exact ⟨by omega, by omega, fun _ => by omega⟩

private theorem decodeRest_of_append {p q : Octets} (hq : q ≠ []) (value shift : UInt32)
    (bytes : ℕ) (hle : (decodeRest value shift bytes (p ++ q)).2 ≤ bytes + p.length) :
    decodeRest value shift bytes p = decodeRest value shift bytes (p ++ q) := by
  induction p generalizing value shift bytes with
  | nil =>
    have hlt := (decodeRest_bytes value shift bytes q).2.2 hq
    simp only [List.nil_append, List.length_nil, Nat.add_zero] at hle
    omega
  | cons b p ih =>
    simp only [List.cons_append, decodeRest, List.length_cons] at hle ⊢
    split
    · rfl
    next hcont =>
      rw [if_neg hcont] at hle
      exact ih _ _ _ (by omega)

/-- At least one octet is read, and none past the end. -/
theorem decode_bytes {N : ℕ} {data : Octets} {value : UInt32} {bytes : ℕ}
    (h : decode N data = .ok (value, bytes)) : 1 ≤ bytes ∧ bytes ≤ data.length := by
  cases data with
  | nil => simp [decode] at h
  | cons first data =>
    simp only [decode] at h
    split at h
    · simp only [Except.ok.injEq, Prod.mk.injEq] at h
      simp only [List.length_cons]
      omega
    · have hbytes := decodeRest_bytes (prefixMax N) 0 1 data
      simp only [Except.ok.injEq] at h
      rw [h] at hbytes
      simp only [List.length_cons]
      omega

/-- An integer that ends before the input does is read from its own octets alone. -/
theorem decode_of_append {N : ℕ} {p q : Octets} (hq : q ≠ []) {value : UInt32} {bytes : ℕ}
    (h : decode N (p ++ q) = .ok (value, bytes)) (hle : bytes ≤ p.length) :
    decode N p = .ok (value, bytes) := by
  cases p with
  | nil =>
    have := (decode_bytes h).1
    simp only [List.length_nil] at hle
    omega
  | cons first p =>
    simp only [List.cons_append, decode] at h ⊢
    split
    next hlt => rwa [if_pos hlt] at h
    next hge =>
      rw [if_neg hge] at h
      simp only [Except.ok.injEq] at h ⊢
      rw [← h]
      refine decodeRest_of_append hq _ _ _ ?_
      rw [h]
      simp only [List.length_cons] at hle
      omega

/-! ## Decoding inverts encoding -/

/-- The octets of the loop of `encode` are one base-128 numeral. -/
theorem decode_encodeRest (value : UInt32) (rest : Octets) :
    Base128.decode (encodeRest value ++ rest) = some (value.toNat, rest) := by
  induction value using encodeRest.induct with
  | case1 value quotient hq ih =>
    -- the continuation bit is above the group
    have hgt : 0 < value.toNat / 128 := by
      simpa [quotient, UInt32.lt_iff_toNat_lt] using hq
    have hoct : (0x80 ||| value % 128).toUInt8.toNat = 128 + value.toNat % 128 := by
      have hor : 128 ||| value.toNat % 128 = 128 + value.toNat % 128 :=
        (Nat.shiftLeft_add_eq_or_of_lt (i := 7) (b := value.toNat % 128) (by omega) 1).symm
      rw [UInt32.toNat_toUInt8, UInt32.toNat_or, UInt32.toNat_mod]
      simp only [UInt32.reduceToNat, hor]
      omega
    rw [encodeRest]
    simp only [show value / 128 > 0 from hq, if_true, List.cons_append]
    rw [Base128.decode_cons_of_le (by omega), ih, Option.map_some, Option.some.injEq, Prod.mk.injEq,
      Base128.low, hoct]
    simp only [quotient, UInt32.toNat_div, UInt32.reduceToNat, and_true]
    omega
  | case2 value quotient hq =>
    have hle : value.toNat / 128 = 0 := by
      simpa [quotient, UInt32.lt_iff_toNat_lt] using hq
    have hoct : (value % 128).toUInt8.toNat = value.toNat := by
      rw [UInt32.toNat_toUInt8, UInt32.toNat_mod]
      simp only [UInt32.reduceToNat]
      omega
    rw [encodeRest]
    simp only [show ¬ value / 128 > 0 from hq, if_false, List.cons_append, List.nil_append]
    rw [Base128.decode_cons_of_lt (by omega), Base128.low, hoct, Nat.mod_eq_of_lt (by omega)]

/-- The encoding is never empty. -/
theorem encode_eq_cons (N : ℕ) (value : UInt32) : ∃ b bs, encode N value = b :: bs := by
  unfold encode
  split
  · exact ⟨_, _, rfl⟩
  · exact ⟨_, _, rfl⟩

/-- The first octet of the encoding stays within the prefix. -/
theorem encode_head_lt {N : ℕ} (h8 : N ≤ 8) {value : UInt32} {b : Octet} {bs : Octets}
    (henc : encode N value = b :: bs) : b.toNat < 2 ^ N := by
  have hpow : 2 ^ N ≤ 2 ^ 8 := Nat.pow_le_pow_right (by norm_num) h8
  have hpos := Nat.two_pow_pos N
  unfold encode at henc
  split at henc
  next hlt =>
    rw [UInt32.lt_iff_toNat_lt, prefixMax_toNat h8] at hlt
    obtain ⟨rfl, -⟩ := List.cons.inj henc
    rw [UInt32.toNat_toUInt8, Nat.mod_eq_of_lt (a := value.toNat) (by omega)]
    omega
  next =>
    obtain ⟨rfl, -⟩ := List.cons.inj henc
    rw [UInt32.toNat_toUInt8, prefixMax_toNat h8,
      Nat.mod_eq_of_lt (a := 2 ^ N - 1) (b := 2 ^ 8) (by omega)]
    omega

/-- The two cases of `encode`: the prefix holds the value, or the octets behind it the rest. -/
theorem encode_cases {N : ℕ} (h8 : N ≤ 8) {value : UInt32} {b : Octet} {bs : Octets}
    (henc : encode N value = b :: bs) :
    (value.toNat < 2 ^ N - 1 ∧ b.toNat % 2 ^ N = value.toNat ∧ bs = []) ∨
      (b.toNat % 2 ^ N = 2 ^ N - 1 ∧ ∃ v : UInt32, bs = encodeRest v ∧
        2 ^ N - 1 + v.toNat = value.toNat) := by
  have hpow : 2 ^ N ≤ 2 ^ 8 := Nat.pow_le_pow_right (by norm_num) h8
  unfold encode at henc
  split at henc
  next hlt =>
    rw [UInt32.lt_iff_toNat_lt, prefixMax_toNat h8] at hlt
    obtain ⟨rfl, rfl⟩ := List.cons.inj henc
    refine .inl ⟨hlt, ?_, rfl⟩
    rw [UInt32.toNat_toUInt8, Nat.mod_eq_of_lt (a := value.toNat) (by omega),
      Nat.mod_eq_of_lt (by omega)]
  next hge =>
    rw [UInt32.lt_iff_toNat_lt, prefixMax_toNat h8, not_lt] at hge
    obtain ⟨rfl, rfl⟩ := List.cons.inj henc
    refine .inr ⟨?_, value - prefixMax N, rfl, ?_⟩
    · have := Nat.two_pow_pos N
      rw [UInt32.toNat_toUInt8, prefixMax_toNat h8,
        Nat.mod_eq_of_lt (a := 2 ^ N - 1) (b := 2 ^ 8) (by omega), Nat.mod_eq_of_lt (by omega)]
    · have hle : prefixMax N ≤ value := by
        rw [UInt32.le_iff_toNat_le, prefixMax_toNat h8]
        exact hge
      rw [UInt32.toNat_sub_of_le _ _ hle, prefixMax_toNat h8]
      omega

/-- Decoding inverts encoding, with flags in the bits above the prefix and octets behind it. -/
theorem decode_encode {N : ℕ} (h1 : 1 ≤ N) (h8 : N ≤ 8) (value : UInt32) {flags b : Octet}
    {bs : Octets} (hflags : flags.toNat % 2 ^ N = 0) (henc : encode N value = b :: bs)
    (rest : Octets) :
    decode N ((flags ||| b) :: (bs ++ rest)) = .ok (value, 1 + bs.length) := by
  have hmod := or_toNat_mod_two_pow flags b hflags
  rcases encode_cases h8 henc with ⟨hlt, hb, rfl⟩ | ⟨hb, v, rfl, hsum⟩
  · rw [decode_cons_of_lt h1 h8 (by rw [hmod, hb]; exact hlt), hmod, hb]
    simp
  · have hvalue := value.toNat_lt
    rw [decode_of_decode h1 h8 (by rw [hmod, hb]) (decode_encodeRest v rest) (by omega), hsum]
    simp

/-! ## The octets of the encoding -/

/-- The loop of `encode` writes an octet for each base-128 digit. -/
theorem length_encodeRest (value : UInt32) :
    (encodeRest value).length = Nat.log 128 value.toNat + 1 := by
  have hdiv (v : UInt32) : (v / 128).toNat = v.toNat / 128 := UInt32.toNat_div v 128
  have hpos (v : UInt32) : v / 128 > 0 ↔ 128 ≤ v.toNat := by
    rw [gt_iff_lt, UInt32.lt_iff_toNat_lt, hdiv, UInt32.toNat_zero]
    omega
  induction value using encodeRest.induct with
  | case1 value quotient hq ih =>
    rw [encodeRest, if_pos hq, List.length_cons, ih,
      Nat.log_of_one_lt_of_le (by norm_num) ((hpos value).mp hq), hdiv]
  | case2 value quotient hq =>
    have hlt : value.toNat < 128 := not_le.mp fun hle => hq ((hpos value).mpr hle)
    rw [encodeRest, if_neg hq, List.length_singleton, Nat.log_of_lt hlt]

/-- A short integer takes one octet, a long one takes the first octet and those of the loop. -/
theorem length_encode {N : ℕ} (h8 : N ≤ 8) (value : UInt32) :
    (encode N value).length =
      if value.toNat < 2 ^ N - 1 then 1 else Nat.log 128 (value.toNat - (2 ^ N - 1)) + 2 := by
  obtain ⟨b, bs, henc⟩ := encode_eq_cons N value
  rcases encode_cases h8 henc with ⟨hlt, -, rfl⟩ | ⟨-, v, rfl, hsum⟩
  · rw [henc, if_pos hlt, List.length_singleton]
  · have hsub : value.toNat - (2 ^ N - 1) = v.toNat := by omega
    rw [henc, if_neg (by omega), List.length_cons, length_encodeRest, hsub]

/-- A number of 32 bits has five groups of seven bits. -/
theorem length_encode_le {N : ℕ} (h8 : N ≤ 8) (value : UInt32) : (encode N value).length ≤ 6 := by
  rw [length_encode h8]
  split_ifs
  · norm_num
  · have hvalue := value.toNat_lt
    have hlog : Nat.log 128 (value.toNat - (2 ^ N - 1)) < 5 := by
      rcases Nat.eq_zero_or_pos (value.toNat - (2 ^ N - 1)) with h0 | hpos
      · rw [h0, Nat.log_zero_right]
        norm_num
      · exact Nat.log_lt_of_lt_pow hpos.ne' (by omega)
    omega

/-- The first octet with flags, as `wire[0] |= flags` sets them. -/
def setFlags (flags : Octet) : Octets → Octets
  | [] => []
  | b :: bs => (b ||| flags) :: bs

/-- An integer is read back from at most six octets, whatever flags are set above its prefix and
whatever octets follow. -/
theorem decode_setFlags_encode {N : ℕ} (h1 : 1 ≤ N) (h8 : N ≤ 8) (value : UInt32) {flags : Octet}
    (hflags : flags.toNat % 2 ^ N = 0) (rest : Octets) :
    decode N (setFlags flags (encode N value) ++ rest) = .ok (value, (encode N value).length) ∧
      (encode N value).length ≤ 6 := by
  refine ⟨?_, length_encode_le h8 value⟩
  obtain ⟨b, bs, henc⟩ := encode_eq_cons N value
  rw [henc, setFlags, List.cons_append, UInt8.or_comm, decode_encode h1 h8 value hflags henc,
    List.length_cons, Nat.add_comm]

/-- The largest number, behind the flag of a literal and in front of other octets. -/
theorem decode_setFlags_encode_sample :
    decode 6 (setFlags 0x40 (encode 6 0xFFFFFFFF) ++ [0x80]) =
        .ok (0xFFFFFFFF, (encode 6 0xFFFFFFFF).length) ∧ (encode 6 0xFFFFFFFF).length ≤ 6 :=
  decode_setFlags_encode (by norm_num) (by norm_num) 0xFFFFFFFF (by decide) [0x80]

end VariableInteger

end Rite
