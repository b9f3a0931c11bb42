import Rite.Hpack.Huffman

/-!
# The Huffman loops as operations on bit strings

The decoder's locals hold the bits since the last symbol as a number and a count, the encoder's
the bits of an unfinished octet. Read as bit strings, `decode` is the greedy decoder of
`PrefixCode` over the bits of its input, and `encode` appends code words and fills up with ones.

## Main results

* `decode_eq_greedy`: `decode` is `PrefixCode.greedy`;
* `Writer.Holds.pushCode`, `Writer.Holds.finish`: `encode` appends the codes of the characters,
  and then fewer than eight ones.
-/

namespace Rite

namespace Huffman

variable (h : Huffman)

/-- The bits of a string of octets, highest first. -/
def bits (data : Octets) : List Bool := data.flatMap fun b => BitString.ofNat 8 b.toNat

@[simp] theorem bits_nil : bits [] = [] := rfl

@[simp] theorem bits_append (d e : Octets) : bits (d ++ e) = bits d ++ bits e := by
  simp [bits]

theorem bits_singleton (b : Octet) : bits [b] = BitString.ofNat 8 b.toNat := by
  simp [bits]

/-- Bit `i` of an octet, as the shift and the mask extract it. -/
theorem shiftRight_and_one (byte : Octet) {i : ℕ} (hi : i < 8) :
    (byte >>> UInt8.ofNat i) &&& 1 = (byte.toNat.testBit i).toUInt8 := by
  apply UInt8.toNat_inj.mp
  rw [UInt8.toNat_and, UInt8.toNat_shiftRight, UInt8.toNat_ofNat',
    Nat.mod_eq_of_lt (a := i) (by omega), Nat.mod_eq_of_lt hi, Nat.shiftRight_eq_div_pow,
    show (1 : Octet).toNat = 1 from rfl, Nat.and_one_is_mod, ← Nat.toNat_testBit]
  cases byte.toNat.testBit i <;> rfl

/-! ## `decode` -/

/-- The symbol `decode` emits when the bits since the last one are `bs`. -/
def symbol (minBits : ℕ) (bs : List Bool) : Option Octet :=
  let code := UInt32.ofNat (BitString.value bs)
  match h.codeLengths code with
  | some len =>
    if minBits ≤ bs.length ∧ len = bs.length then some ((h.reverseMap code).getD 0) else none
  | none => none

/-- The locals of `decode` when the bits since the last symbol are `pend`. -/
def Reader.of (pend : List Bool) (output : Octets) : Reader :=
  ⟨UInt32.ofNat (BitString.value pend), pend.length, output⟩

private theorem shiftLeft_or_bit {pend : List Bool} (hlen : pend.length < 32) (b : Bool) :
    (UInt32.ofNat (BitString.value pend) <<< 1) ||| b.toUInt8.toUInt32 =
      UInt32.ofNat (BitString.value (pend ++ [b])) := by
  have hlt : BitString.value pend < 2 ^ 31 :=
    lt_of_lt_of_le (BitString.value_lt pend) (Nat.pow_le_pow_right (by norm_num) (by omega))
  have hb : b.toUInt8.toUInt32.toNat = b.toNat := by cases b <;> rfl
  have hbit := b.toNat_le
  have hor : BitString.value pend <<< 1 + b.toNat = BitString.value pend <<< 1 ||| b.toNat :=
    Nat.shiftLeft_add_eq_or_of_lt (by omega) _
  apply UInt32.toNat_inj.mp
  rw [UInt32.toNat_or, UInt32.toNat_shiftLeft, UInt32.toNat_ofNat', UInt32.toNat_ofNat', hb,
    Nat.mod_eq_of_lt (a := BitString.value pend) (by omega),
    show (1 : UInt32).toNat % 32 = 1 from rfl,
    Nat.mod_eq_of_lt (by rw [Nat.shiftLeft_eq]; omega), ← hor, Nat.shiftLeft_eq,
    BitString.value_append_singleton, Nat.mod_eq_of_lt (by omega)]
  omega

/-- One bit of `decode` is one step of the greedy decoder. -/
theorem Reader.step_of (minBits : ℕ) {pend : List Bool} (hlen : pend.length < 32)
    (output : Octets) (b : Bool) :
    (Reader.of pend output).step h minBits b.toUInt8 =
      match h.symbol minBits (pend ++ [b]) with
      | some a => Reader.of [] (output ++ [a])
      | none =>
        if 32 ≤ pend.length + 1 then Reader.of [] output else Reader.of (pend ++ [b]) output := by
  simp only [Reader.step, Reader.of, shiftLeft_or_bit hlen, symbol, List.length_append,
    List.length_singleton]
  cases hlook : h.codeLengths (UInt32.ofNat (BitString.value (pend ++ [b]))) with
  | none => rfl
  | some len =>
    by_cases hmatch : minBits ≤ pend.length + 1 ∧ len = pend.length + 1
    · simp [hmatch]
    · simp only [hmatch, if_false]
      rfl

/-- The bits read one after the other. -/
theorem Reader.foldl_step (minBits : ℕ) (bs : List Bool) {pend : List Bool}
    (hlen : pend.length < 32) (output : Octets) :
    (bs.foldl (fun st b => st.step h minBits b.toUInt8) (Reader.of pend output)).output =
      output ++ PrefixCode.greedy (h.symbol minBits) 32 pend bs := by
  induction bs generalizing pend output with
  | nil => simp [Reader.of, PrefixCode.greedy]
  | cons b bs ih =>
    have hfresh (output : Octets) := @ih [] (by simp) output
    rw [List.foldl_cons, Reader.step_of h minBits hlen, PrefixCode.greedy]
    -- the bits make a symbol, or they are kept until there are 32 of them
    cases hsym : h.symbol minBits (pend ++ [b]) with
    | some a => simp only [hfresh, List.append_assoc, List.singleton_append]
    | none =>
      by_cases hlim : 32 ≤ pend.length + 1
      · simp only [hlim, if_true, hfresh]
      · simp only [hlim, if_false]
        exact ih (by simp only [List.length_append, List.length_singleton]; omega) output

/-- The inner loop reads the bits of one octet. -/
theorem Reader.octet_eq (minBits : ℕ) (st : Reader) (byte : Octet) :
    Reader.octet h minBits st byte =
      (BitString.ofNat 8 byte.toNat).foldl (fun st b => st.step h minBits b.toUInt8) st := by
  -- the eight shifts take the bits from the highest on
  have hbits : BitString.ofNat 8 byte.toNat = [7, 6, 5, 4, 3, 2, 1, 0].map byte.toNat.testBit := rfl
  have hidx : ([7, 6, 5, 4, 3, 2, 1, 0] : List Octet) =
      [7, 6, 5, 4, 3, 2, 1, 0].map UInt8.ofNat := rfl
  rw [Reader.octet, hbits, hidx, List.foldl_map, List.foldl_map]
  refine List.foldl_ext _ _ st fun st' i hi => ?_
  rw [shiftRight_and_one byte (by simp at hi; omega)]

/-- `decode` is the greedy decoder over the bits of its input. -/
theorem decode_eq_greedy (data : Octets) :
    h.decode data = PrefixCode.greedy (h.symbol h.minBitSize) 32 [] (bits data) := by
  have hfold : data.foldl (Reader.octet h h.minBitSize) {} =
      (bits data).foldl (fun st b => st.step h h.minBitSize b.toUInt8) (Reader.of [] []) := by
    rw [bits, List.foldl_flatMap]
    exact List.foldl_ext _ _ _ fun st byte _ => Reader.octet_eq h h.minBitSize st byte
  rw [decode, hfold, Reader.foldl_step h h.minBitSize _ (by simp), List.nil_append]

/-! ## `encode` -/

/-- The locals of `encode` hold the bits `bs`: whole octets, and fewer than eight pending bits. -/
def Writer.Holds (w : Writer) (bs : List Bool) : Prop :=
  ∃ pend : List Bool, pend.length < 8 ∧ w.byte = UInt8.ofNat (BitString.value pend) ∧
    w.bitPosition = pend.length ∧ bits w.output ++ pend = bs

theorem Writer.holds_empty : Writer.Holds {} [] := ⟨[], by simp, rfl, rfl, rfl⟩

private theorem shiftLeft_or_bit_octet {pend : List Bool} (hlen : pend.length < 8) (b : Bool) :
    (UInt8.ofNat (BitString.value pend) <<< 1) ||| b.toUInt32.toUInt8 =
      UInt8.ofNat (BitString.value (pend ++ [b])) := by
  have hlt : BitString.value pend < 2 ^ 7 :=
    lt_of_lt_of_le (BitString.value_lt pend) (Nat.pow_le_pow_right (by norm_num) (by omega))
  have hb : b.toUInt32.toUInt8.toNat = b.toNat := by cases b <;> rfl
  have hbit := b.toNat_le
  have hor : BitString.value pend <<< 1 + b.toNat = BitString.value pend <<< 1 ||| b.toNat :=
    Nat.shiftLeft_add_eq_or_of_lt (by omega) _
  apply UInt8.toNat_inj.mp
  rw [UInt8.toNat_or, UInt8.toNat_shiftLeft, UInt8.toNat_ofNat', UInt8.toNat_ofNat', hb,
    Nat.mod_eq_of_lt (a := BitString.value pend) (by omega),
    show (1 : Octet).toNat % 8 = 1 from rfl,
    Nat.mod_eq_of_lt (by rw [Nat.shiftLeft_eq]; omega), ← hor, Nat.shiftLeft_eq,
    BitString.value_append_singleton, Nat.mod_eq_of_lt (by omega)]
  omega

theorem Writer.Holds.pushBit {w : Writer} {bs : List Bool} (hw : w.Holds bs) (b : Bool) :
    (w.pushBit b.toUInt32).Holds (bs ++ [b]) := by
  obtain ⟨pend, hlen, hbyte, hpos, hbits⟩ := hw
  rw [Writer.pushBit, hbyte, shiftLeft_or_bit_octet hlen, hpos]
  by_cases hfull : pend.length + 1 = 8
  · -- the eighth bit finishes the octet
    have hlen8 : (pend ++ [b]).length = 8 := by simpa using hfull
    have hlt : BitString.value (pend ++ [b]) < 2 ^ 8 := by
      rw [← hlen8]
      exact BitString.value_lt _
    rw [if_pos hfull]
    refine ⟨[], by simp, rfl, rfl, ?_⟩
    rw [List.append_nil, bits_append, bits_singleton, UInt8.toNat_ofNat', Nat.mod_eq_of_lt hlt,
      ← hlen8, BitString.ofNat_value, ← List.append_assoc, hbits]
  · rw [if_neg hfull]
    refine ⟨pend ++ [b], ?_, rfl, by simp, ?_⟩
    · simp only [List.length_append, List.length_singleton]
      omega
    · rw [← List.append_assoc, hbits]

/-- The bits of a code written one after the other. -/
theorem Writer.Holds.pushBits {w : Writer} {bs : List Bool} (hw : w.Holds bs) (cs : List Bool) :
    (cs.foldl (fun w b => w.pushBit b.toUInt32) w).Holds (bs ++ cs) := by
  induction cs generalizing w bs with
  | nil => simpa using hw
  | cons b cs ih => simpa using ih (hw.pushBit b)

private theorem shiftRight_and_one_code (code : UInt32) {i : ℕ} (hi : i < 32) :
    (code >>> UInt32.ofNat i) &&& 1 = (code.toNat.testBit i).toUInt32 := by
  apply UInt32.toNat_inj.mp
  rw [UInt32.toNat_and, UInt32.toNat_shiftRight, UInt32.toNat_ofNat',
    Nat.mod_eq_of_lt (a := i) (by omega), Nat.mod_eq_of_lt hi, Nat.shiftRight_eq_div_pow,
    show (1 : UInt32).toNat = 1 from rfl, Nat.and_one_is_mod, ← Nat.toNat_testBit]
  cases code.toNat.testBit i <;> rfl

/-- A character appends its code. -/
theorem Writer.Holds.pushCode {w : Writer} {bs : List Bool} (hw : w.Holds bs) {c : Octet}
    {code : UInt32} {len : ℕ} (henc : h.encodings c = some (code, len))
    (hlens : h.codeLengths code = some len) (hlen : len ≤ 32) :
    (w.pushCode h c).Holds (bs ++ BitString.ofNat len code.toNat) := by
  -- the loop over the bits of the code
  have hfold : w.pushCode h c =
      (BitString.ofNat len code.toNat).foldl (fun w b => w.pushBit b.toUInt32) w := by
    simp only [Writer.pushCode, henc, Option.map_some, Option.getD_some, hlens, BitString.ofNat,
      List.foldl_map]
    refine List.foldl_ext _ _ w fun w' i hi => ?_
    rw [shiftRight_and_one_code code (by rw [List.mem_range] at hi; omega)]
  rw [hfold]
  exact hw.pushBits _

/-- The bits of an octet, shifted to its top, above ones. -/
private theorem filled_toNat {pend : List Bool} (hlen : pend.length < 8) (hpos : 0 < pend.length) :
    ((UInt8.ofNat (BitString.value pend) <<< UInt8.ofNat (8 - pend.length)) |||
        (((1 : Octet) <<< UInt8.ofNat (8 - pend.length)) - 1)).toNat =
      BitString.value pend * 2 ^ (8 - pend.length) + (2 ^ (8 - pend.length) - 1) := by
  have hlt := BitString.value_lt pend
  have hpow : 2 ^ pend.length * 2 ^ (8 - pend.length) = 2 ^ 8 := by
    rw [← pow_add]
    congr 1
    omega
  have hpos2 := Nat.two_pow_pos (8 - pend.length)
  -- the shift loses none of the bits
  have hmul : BitString.value pend * 2 ^ (8 - pend.length) + 2 ^ (8 - pend.length) ≤ 2 ^ 8 := by
    rw [← Nat.succ_mul, ← hpow]
    exact Nat.mul_le_mul_right _ hlt
  have hfree : (UInt8.ofNat (8 - pend.length)).toNat = 8 - pend.length := by
    rw [UInt8.toNat_ofNat', Nat.mod_eq_of_lt (by omega)]
  have hval : (BitString.value pend) % 2 ^ 8 = BitString.value pend :=
    Nat.mod_eq_of_lt (lt_of_lt_of_le hlt (Nat.pow_le_pow_right (by norm_num) (by omega)))
  have hones : (((1 : Octet) <<< UInt8.ofNat (8 - pend.length)) - 1).toNat =
      2 ^ (8 - pend.length) - 1 := by
    have hle : 1 ≤ 8 - pend.length := by omega
    have hlt8 : 8 - pend.length < 8 := by omega
    generalize 8 - pend.length = k at hle hlt8
    interval_cases k <;> rfl
  rw [UInt8.toNat_or, hones, UInt8.toNat_shiftLeft, hfree,
    Nat.mod_eq_of_lt (a := 8 - pend.length) (by omega), UInt8.toNat_ofNat', hval, Nat.shiftLeft_eq,
    Nat.mod_eq_of_lt (by omega), ← Nat.shiftLeft_eq, ← Nat.shiftLeft_add_eq_or_of_lt (by omega)]

/-- The last octet is filled up with fewer than eight ones. -/
theorem Writer.Holds.finish {w : Writer} {bs : List Bool} (hw : w.Holds bs) :
    ∃ k < 8, bits w.finish = bs ++ List.replicate k true := by
  obtain ⟨pend, hlen, hbyte, hpos, hbits⟩ := hw
  -- an octet has been begun, or there is nothing to fill up
  unfold Writer.finish
  split
  next hopen =>
    refine ⟨8 - pend.length, by omega, ?_⟩
    rw [bits_append, ← hbits, List.append_assoc]
    congr 1
    rw [bits_singleton, hbyte, hpos, filled_toNat hlen (by omega),
      show BitString.ofNat 8 = BitString.ofNat (pend.length + (8 - pend.length)) by
        congr 1
        omega,
      BitString.ofNat_mul_add_ones, BitString.ofNat_value]
  next hclosed =>
    have hnil : pend = [] := List.length_eq_zero_iff.mp (by omega)
    exact ⟨0, by omega, by simpa [hnil] using hbits⟩

end Huffman

end Rite
