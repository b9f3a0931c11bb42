import Rite.Hpack.Refinement

/-!
# Which prefix integers are decoded exactly

`variable_integer::decode` has one way to fail, an empty input. Its loop goes on as long as there
are octets with a continuation bit, and it also ends where the octets do. So it takes an integer
that is cut short for a complete one, and one that is too large for what is left of it in 32 bits.

## Main results

* `decodeRest_eq_shifts`, `decode_eq_shifts`: what the loop does, by the shifts that it performs;
* `exact_iff`: `decode` is exact if it fails, or if it gets a complete integer of at most six octets
  whose value has 32 bits;
* `not_exact`: an integer that is cut short, and one that wraps to zero.
-/

namespace Rite

namespace VariableInteger

/-! ## Shifts -/

/-- The shift counts in the loop of `decode`, one for each octet that it reads. -/
def restShifts (shift : UInt32) : Octets → List UInt32
  | [] => []
  | byte :: data => shift :: if byte &&& 0x80 = 0 then [] else restShifts (shift + 7) data

/-- The shift counts in a call of `decode`. -/
def shifts (N : ℕ) : Octets → List UInt32
  | [] => []
  | first :: data =>
    let pfx := first &&& (0xFF >>> UInt8.ofNat (8 - N))
    if pfx.toUInt32 < prefixMax N then [] else restShifts 0 data

/-- The loop adds the groups of the octets with these shifts, and reads no other octets. -/
theorem decodeRest_eq_shifts (value shift : UInt32) (bytes : ℕ) (data : Octets) :
    decodeRest value shift bytes data =
      ((data.zip (restShifts shift data)).foldl
        (fun v e => v + (e.1 &&& 0x7F).toUInt32 <<< e.2) value,
        bytes + (restShifts shift data).length) := by
  induction data generalizing value shift bytes with
  | nil => rfl
  | cons byte data ih =>
    rw [decodeRest, restShifts]
    split_ifs with hlast
    · -- the loop ends at an octet without continuation bit, which it has added
      simp
    · simp only [ih, List.zip_cons_cons, List.foldl_cons, List.length_cons, Prod.mk.injEq, true_and]
      omega

/-- `bytes` counts the first octet and those of the loop. -/
theorem decode_eq_shifts {N : ℕ} {data : Octets} {value : UInt32} {bytes : ℕ}
    (h : decode N data = .ok (value, bytes)) : bytes = (shifts N data).length + 1 := by
  cases data with
  | nil => cases h
  | cons first data =>
    simp only [decode, shifts] at h ⊢
    split_ifs at h ⊢ with hshort
    · cases h
      rfl
    · rw [decodeRest_eq_shifts, Except.ok.injEq, Prod.mk.injEq] at h
      omega

/-- Each shift is by seven more than the one before it. -/
private theorem restShifts_getElem (shift : UInt32) (data : Octets) {i : ℕ}
    (hi : i < (restShifts shift data).length) :
    (restShifts shift data)[i] = shift + UInt32.ofNat (7 * i) := by
  induction data generalizing shift i with
  | nil => cases hi
  | cons byte data ih =>
    simp only [restShifts] at hi ⊢
    cases i with
    | zero => simp
    | succ i =>
      split_ifs at hi ⊢ with hlast
      · -- behind the last octet there is no shift
        simp at hi
      · have hsucc : UInt32.ofNat (7 * (i + 1)) = 7 + UInt32.ofNat (7 * i) := by
          rw [Nat.mul_add, Nat.add_comm, UInt32.ofNat_add]
          rfl
        rw [List.getElem_cons_succ, ih, hsucc, UInt32.add_assoc]

/-- The sixth shift is the first by 32 bits or more. -/
theorem shifts_lt_iff (N : ℕ) (data : Octets) :
    (∀ s ∈ shifts N data, s < 32) ↔ (shifts N data).length ≤ 5 := by
  have hrest (data : Octets) :
      (∀ s ∈ restShifts 0 data, s < 32) ↔ (restShifts 0 data).length ≤ 5 := by
    constructor
    · intro h
      by_contra hlong
      -- the sixth shift is by 35
      have hsixth := h _ (List.getElem_mem (n := 5) (not_le.mp hlong))
      rw [restShifts_getElem] at hsixth
      exact absurd hsixth (by decide)
    · intro hlen s hs
      obtain ⟨i, hi, rfl⟩ := List.mem_iff_getElem.mp hs
      have hi5 : i < 5 := by omega
      rw [restShifts_getElem, UInt32.zero_add]
      -- the others are by 0, 7, 14, 21 and 28
      interval_cases i <;> decide
  cases data with
  | nil => simp [shifts]
  | cons first data =>
    simp only [shifts]
    split_ifs
    · simp
    · exact hrest data

/-! ## Exactness -/

/-- `decode` is exact: what it returns is an integer of the specification at the beginning of the
octets, and it fails if there is none with 32 bits. -/
structure Exact (N : ℕ) (data : Octets) : Prop where
  /-- The integer is complete, with this value and length. -/
  complete : ∀ value bytes, decode N data = .ok (value, bytes) →
    ∃ int rest, data = int ++ rest ∧ bytes = int.length ∧
      Rfc7541.readInteger N data = .ok (value.toNat, rest)
  /-- All shifts are by less than the width of the type. -/
  shifts_lt : (∃ r, decode N data = .ok r) → ∀ s ∈ shifts N data, s < 32
  /-- Truncated and oversized integers are errors. -/
  error : (∀ v rest, Rfc7541.readInteger N data = .ok (v, rest) → 2 ^ 32 ≤ v) →
    ∃ e, decode N data = .error e

/-- The octets begin with a complete integer of 32 bits, in at most six octets. -/
def Fits (N : ℕ) (data : Octets) : Prop :=
  ∃ v rest, Rfc7541.readInteger N data = .ok (v, rest) ∧ v < 2 ^ 32 ∧
    data.length ≤ rest.length + 6

/-- An input that is not empty is decoded to something. -/
private theorem exists_decode (N : ℕ) (first : Octet) (data : Octets) :
    ∃ value bytes, decode N (first :: data) = .ok (value, bytes) := by
  simp only [decode]
  split_ifs
  · exact ⟨_, _, rfl⟩
  · exact ⟨_, _, rfl⟩

/-- A complete integer of 32 bits is decoded to its value, in its length. -/
private theorem decode_of_fits {N : ℕ} (h1 : 1 ≤ N) (h8 : N ≤ 8) {data rest : Octets} {v : ℕ}
    (h : Rfc7541.readInteger N data = .ok (v, rest)) (hv : v < 2 ^ 32) :
    ∃ bytes, decode N data = .ok (UInt32.ofNat v, bytes) ∧ bytes ≤ data.length ∧
      rest = data.drop bytes := by
  obtain ⟨bytes, hdec, hrest⟩ :=
    Hpack.readInteger_eq_ok.mp (Hpack.readInteger_refines h1 h8 h hv)
  exact ⟨bytes, hdec, (decode_bytes hdec).2, hrest⟩

/-- `decode` is exact on an empty input, at which it fails, and on complete integers of 32 bits in
at most six octets. -/
theorem exact_iff {N : ℕ} (h1 : 1 ≤ N) (h8 : N ≤ 8) (data : Octets) :
    Exact N data ↔ data = [] ∨ Fits N data := by
  constructor
  · intro h
    cases data with
    | nil => exact .inl rfl
    | cons first data =>
      -- an octet is enough for a result, which then has to be that of the specification
      obtain ⟨value, bytes, hdec⟩ := exists_decode N first data
      obtain ⟨int, rest, hsplit, hbytes, hread⟩ := h.complete value bytes hdec
      have hshifts := (shifts_lt_iff N _).mp (h.shifts_lt ⟨_, hdec⟩)
      have hcount := decode_eq_shifts hdec
      refine .inr ⟨value.toNat, rest, hread, value.toNat_lt, ?_⟩
      -- one octet more than there are shifts
      rw [hsplit, List.length_append]
      omega
  · rintro (rfl | ⟨v, rest, hread, hv, hlen⟩)
    · exact ⟨by rintro _ _ ⟨⟩, by rintro ⟨_, ⟨⟩⟩, fun _ => ⟨_, rfl⟩⟩
    · obtain ⟨bytes, hdec, hle, hrest⟩ := decode_of_fits h1 h8 hread hv
      refine ⟨?_, fun _ => ?_, fun hbig => absurd (hbig v rest hread) (not_le.mpr hv)⟩
      · intro value bytes' hdec'
        rw [hdec, Except.ok.injEq, Prod.mk.injEq] at hdec'
        obtain ⟨rfl, rfl⟩ := hdec'
        refine ⟨data.take bytes, rest, ?_, ?_, ?_⟩
        · rw [hrest, List.take_append_drop]
        · rw [List.length_take, Nat.min_eq_left hle]
        · rw [UInt32.toNat_ofNat_of_lt' hv, hread]
      · rw [shifts_lt_iff]
        have hcount := decode_eq_shifts hdec
        rw [hrest, List.length_drop] at hlen
        omega

/-- The integer 1337 with a prefix of five bits, and an octet behind it. -/
theorem exact_sample : Exact 5 [0x1F, 0x9A, 0x0A, 0x82] :=
  (exact_iff (by norm_num) (by norm_num) _).mpr
    (.inr ⟨1337, [0x82], rfl, by norm_num, by decide⟩)

/-- A prefix that announces octets is taken for an integer without them, and the octets of `2 ^ 32`
for zero. -/
theorem not_exact : ¬ Exact 5 [0x1F] ∧ ¬ Exact 7 [0xFF, 0x81, 0xFF, 0xFF, 0xFF, 0x0F] := by
  constructor
  · intro h
    obtain ⟨int, rest, -, -, hread⟩ := h.complete 31 1 rfl
    cases hread
  · intro h
    obtain ⟨int, rest, -, -, hread⟩ := h.complete 0 6 (by decide)
    have hvalue : Rfc7541.readInteger 7 [0xFF, 0x81, 0xFF, 0xFF, 0xFF, 0x0F] =
        .ok (2 ^ 32, []) := by decide
    rw [hvalue] at hread
    cases hread

end VariableInteger

end Rite
