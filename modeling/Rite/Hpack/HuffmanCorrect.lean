import Rite.Hpack.HuffmanBits

/-!
# The HPACK code is a prefix code, and the coder inverts it

The table is canonical: codes of one length are consecutive, and every code of a length is
numerically below each longer code cut to that length. `canonical` lists the lengths with their
largest codes; the three facts read off it (`row_level`, `levels_below`, `sameLength_sorted`) are
the only evaluations of the table.

## Main results

* `hpackCode`: the table as a `PrefixCode`;
* `decode_of_bits`: bits that are an encoded string and fewer than eight ones decode to it;
* `decode_encode`: decoding inverts encoding, for every octet string.
-/

namespace Rite

namespace Huffman

open Hpack (decoder)

/-- The code lengths of the table, each with its largest code. -/
private def canonical : List (ℕ × ℕ) :=
  [(5, 9), (6, 45), (7, 123), (8, 253), (10, 1020), (11, 2044), (12, 4091), (13, 8189),
    (14, 16381), (15, 32766), (19, 524274), (20, 1048557), (21, 2097128), (22, 4194283),
    (23, 8388596), (24, 16777205), (25, 33554415), (26, 67108846), (27, 134217712),
    (28, 268435454), (30, 1073741823)]

/-! ## The table -/

private theorem rows_key : decoder.rows.map (·.key) = List.range 257 := by decide +kernel

private theorem row_bounds : ∀ r ∈ decoder.rows,
    5 ≤ r.length ∧ r.length ≤ 30 ∧ r.code < 2 ^ r.length ∧
      (r.key < 256 → r.code + 1 < 2 ^ r.length) := by decide +kernel

private theorem row_level : ∀ r ∈ decoder.rows, ∃ l ∈ canonical, l.1 = r.length ∧ r.code ≤ l.2 := by
  decide +kernel

private theorem levels_below : ∀ r ∈ decoder.rows, ∀ l ∈ canonical,
    l.1 < r.length → l.2 < r.code / 2 ^ (r.length - l.1) := by decide +kernel

private theorem sameLength_sorted : ∀ l ∈ canonical,
    (decoder.rows.filter fun r => r.length == l.1).IsChain (fun r r' => r.code < r'.code) := by
  decide

private theorem rows_length : decoder.rows.length = 257 := by
  simpa using congrArg List.length rows_key

private theorem toNat_lt_rows_length (a : Octet) : a.toNat < decoder.rows.length := by
  rw [rows_length]
  exact lt_trans a.toNat_lt (by norm_num)

private theorem key_getElem {i : ℕ} (hi : i < decoder.rows.length) : decoder.rows[i].key = i := by
  have hget : (decoder.rows.map (·.key))[i]? = (List.range 257)[i]? := by rw [rows_key]
  rw [List.getElem?_map, List.getElem?_eq_getElem hi,
    List.getElem?_range (by rwa [rows_length] at hi)] at hget
  simpa using hget

/-- A shorter code is not the beginning of a longer one. -/
private theorem not_prefix_of_lt {r r' : Row} (hr : r ∈ decoder.rows) (hr' : r' ∈ decoder.rows)
    (hlt : r.length < r'.length) : r.code < r'.code / 2 ^ (r'.length - r.length) := by
  obtain ⟨l, hl, hlen, hle⟩ := row_level r hr
  have := levels_below r' hr' l hl (by omega)
  rw [hlen] at this
  omega

/-- Codes of one length are distinct. -/
private theorem eq_of_code_eq {r r' : Row} (hr : r ∈ decoder.rows) (hr' : r' ∈ decoder.rows)
    (hlen : r.length = r'.length) (hcode : r.code = r'.code) : r = r' := by
  obtain ⟨l, hl, hll, -⟩ := row_level r hr
  have hmem : r ∈ decoder.rows.filter fun r => r.length == l.1 := by simp [hr, hll]
  have hmem' : r' ∈ decoder.rows.filter fun r => r.length == l.1 := by simp [hr', hll, hlen]
  have : IsTrans Row (fun r r' : Row => r.code < r'.code) := ⟨fun _ _ _ => lt_trans⟩
  have hpair := List.isChain_iff_pairwise.mp (sameLength_sorted l hl)
  have hne := List.Pairwise.forall_of_forall_of_flip (R := fun a b => a.code = b.code → a = b)
    (fun _ _ _ => rfl) (hpair.imp fun h he => absurd he h.ne)
    (hpair.imp fun h he => absurd he h.ne')
  exact hne hmem hmem' hcode

/-- Codes are distinct as numbers, whatever their lengths. -/
private theorem row_eq_of_code_eq {r r' : Row} (hr : r ∈ decoder.rows) (hr' : r' ∈ decoder.rows)
    (hcode : r.code = r'.code) : r = r' := by
  -- of two lengths, the shorter code is the smaller number
  rcases lt_trichotomy r.length r'.length with hlt | heq | hgt
  · have := not_prefix_of_lt hr hr' hlt
    have := Nat.div_le_self r'.code (2 ^ (r'.length - r.length))
    omega
  · exact eq_of_code_eq hr hr' heq hcode
  · have := not_prefix_of_lt hr' hr hgt
    have := Nat.div_le_self r.code (2 ^ (r.length - r'.length))
    omega

/-- The row of a character. -/
def hpackRow (a : Octet) : Row :=
  decoder.rows.get ⟨a.toNat, toNat_lt_rows_length a⟩

private theorem hpackRow_mem (a : Octet) : hpackRow a ∈ decoder.rows := List.getElem_mem _

private theorem hpackRow_key (a : Octet) : (hpackRow a).key = a.toNat := key_getElem _

private theorem hpackRow_bounds (a : Octet) :
    5 ≤ (hpackRow a).length ∧ (hpackRow a).length ≤ 30 ∧
      (hpackRow a).code + 1 < 2 ^ (hpackRow a).length := by
  obtain ⟨hge, hle, -, hcode⟩ := row_bounds _ (hpackRow_mem a)
  exact ⟨hge, hle, hcode (by rw [hpackRow_key]; exact a.toNat_lt)⟩

private theorem hpackRow_code_lt (a : Octet) : (hpackRow a).code < 2 ^ (hpackRow a).length := by
  have := (hpackRow_bounds a).2.2
  omega

/-- Every code fits `uint32_t`. -/
private theorem code_toNat {r : Row} (hr : r ∈ decoder.rows) :
    (UInt32.ofNat r.code).toNat = r.code := by
  obtain ⟨-, hle, hlt, -⟩ := row_bounds r hr
  have hpow : 2 ^ r.length ≤ 2 ^ 30 := Nat.pow_le_pow_right (by norm_num) hle
  rw [UInt32.toNat_ofNat', Nat.mod_eq_of_lt (by omega)]

/-! ## The maps of the decoder -/

/-- A character's entry in `encodings_` is its row. -/
theorem encodings_eq (a : Octet) :
    decoder.encodings a = some (UInt32.ofNat (hpackRow a).code, (hpackRow a).length) := by
  have hfind : decoder.rows.find? (fun r => UInt8.ofNat r.key == a) = some (hpackRow a) := by
    rw [List.find?_eq_some_iff_getElem]
    refine ⟨?_, a.toNat, toNat_lt_rows_length a, rfl, ?_⟩
    · rw [hpackRow_key, UInt8.ofNat_toNat, beq_self_eq_true]
    · -- the rows in front are those of other characters
      intro j hj
      rw [key_getElem, Bool.not_eq_true', beq_eq_false_iff_ne]
      intro heq
      have := congrArg UInt8.toNat heq
      have := a.toNat_lt
      rw [UInt8.toNat_ofNat', Nat.mod_eq_of_lt (by omega)] at *
      omega
  rw [encodings, hfind, Option.map_some]

private theorem stored_hpackRow (a : Octet) : decoder.stored (hpackRow a) = true := by
  rw [stored, hpackRow_key, UInt8.ofNat_toNat, encodings_eq, beq_self_eq_true]

/-- A code is entered under its own number. -/
private theorem entry_hpackRow (a : Octet) :
    decoder.entry (UInt32.ofNat (hpackRow a).code) = some (hpackRow a) := by
  rw [entry, List.find?_eq_some_iff_getElem]
  refine ⟨by simp [stored_hpackRow], a.toNat, toNat_lt_rows_length a, rfl, ?_⟩
  intro j hj
  have hj' : j < decoder.rows.length := by
    have := a.toNat_lt
    rw [rows_length]
    omega
  rw [Bool.not_eq_true', Bool.and_eq_false_imp]
  -- a row with the same number is the same row
  intro hcode
  have hnum := congrArg UInt32.toNat (beq_iff_eq.mp hcode)
  rw [code_toNat (List.getElem_mem hj'), code_toNat (hpackRow_mem a)] at hnum
  have hrow := congrArg Row.key (row_eq_of_code_eq (List.getElem_mem hj') (hpackRow_mem a) hnum)
  rw [key_getElem, hpackRow_key] at hrow
  omega

theorem codeLengths_hpackRow (a : Octet) :
    decoder.codeLengths (UInt32.ofNat (hpackRow a).code) = some (hpackRow a).length := by
  rw [codeLengths, entry_hpackRow, Option.map_some]

theorem reverseMap_hpackRow (a : Octet) :
    decoder.reverseMap (UInt32.ofNat (hpackRow a).code) = some a := by
  rw [reverseMap, entry_hpackRow, Option.map_some, hpackRow_key, UInt8.ofNat_toNat]

/-- Only the rows of characters are entered: the row of EOS is not stored. -/
private theorem exists_of_entry {code : UInt32} {r : Row} (h : decoder.entry code = some r) :
    ∃ a, r = hpackRow a ∧ code = UInt32.ofNat (hpackRow a).code := by
  have hmem := List.mem_of_find?_eq_some h
  have hprop := List.find?_some h
  simp only [Bool.and_eq_true, beq_iff_eq] at hprop
  obtain ⟨hcode, hstored⟩ := hprop
  rw [stored, encodings_eq, beq_iff_eq, Option.some.injEq, Prod.mk.injEq] at hstored
  have hnum := congrArg UInt32.toNat hstored.1
  rw [code_toNat (hpackRow_mem _), code_toNat hmem] at hnum
  have hrow := row_eq_of_code_eq (hpackRow_mem _) hmem hnum
  exact ⟨UInt8.ofNat r.key, hrow.symm, by rw [hrow, hcode]⟩

/-- `min_bit_size` is at most the length of every code. -/
private theorem minBitSize_le (a : Octet) : decoder.minBitSize ≤ (hpackRow a).length := by
  have hfold : ∀ (rows : List Row) (size : ℕ),
      let m := rows.foldl (fun size r => if r.length < size then r.length else size) size
      m ≤ size ∧ ∀ r ∈ rows, m ≤ r.length := by
    intro rows
    induction rows with
    | nil => simp
    | cons r rows ih =>
      intro size
      obtain ⟨hle, hall⟩ := ih (if r.length < size then r.length else size)
      simp only [List.foldl_cons, List.forall_mem_cons]
      refine ⟨hle.trans ?_, hle.trans ?_, hall⟩ <;> split <;> omega
  exact (hfold _ _).2 _ (List.mem_filter.mpr ⟨hpackRow_mem a, stored_hpackRow a⟩)

/-! ## The prefix code -/

/-- The HPACK code. -/
def hpackCode : PrefixCode Octet where
  code a := BitString.ofNat (hpackRow a).length (hpackRow a).code
  code_ne_nil a h := by
    have hlen := congrArg List.length h
    have := (hpackRow_bounds a).1
    simp only [BitString.length_ofNat, List.length_nil] at hlen
    omega
  prefixFree a b h := by
    -- a beginning is what is left of the number without its last bits
    obtain ⟨hle, hcode⟩ :=
      BitString.eq_div_of_ofNat_prefix (hpackRow_code_lt a) (hpackRow_code_lt b) h
    rcases hle.lt_or_eq with hlt | heq
    · have := not_prefix_of_lt (hpackRow_mem a) (hpackRow_mem b) hlt
      omega
    · rw [heq, Nat.sub_self, pow_zero, Nat.div_one] at hcode
      have hrow := eq_of_code_eq (hpackRow_mem a) (hpackRow_mem b) heq hcode
      have hkey := congrArg Row.key hrow
      rw [hpackRow_key, hpackRow_key] at hkey
      exact UInt8.toNat_inj.mp hkey

theorem hpackCode_length (a : Octet) : 5 ≤ (hpackCode.code a).length ∧
    (hpackCode.code a).length ≤ 30 := by
  have := hpackRow_bounds a
  simp only [hpackCode, BitString.length_ofNat]
  omega

/-- The symbols that `decode` recognises are those of the prefix code. -/
theorem reads_hpackCode : hpackCode.Reads (decoder.symbol decoder.minBitSize) := by
  intro p a
  constructor
  · intro h
    simp only [symbol] at h
    split at h
    next len hlen =>
      rw [codeLengths, Option.map_eq_some_iff] at hlen
      -- the row of the code belongs to a character `c`, which is the symbol
      obtain ⟨r, hr, rfl⟩ := hlen
      obtain ⟨c, rfl, hcode⟩ := exists_of_entry hr
      rw [hcode, reverseMap_hpackRow, Option.getD_some, Option.ite_none_right_eq_some] at h
      obtain ⟨⟨-, hplen⟩, hca⟩ := h
      obtain rfl : c = a := Option.some.inj hca
      have hle := (hpackRow_bounds c).2.1
      have hpow : 2 ^ p.length ≤ 2 ^ 30 := Nat.pow_le_pow_right (by norm_num) (by omega)
      have hval := congrArg UInt32.toNat hcode
      have hlt := BitString.value_lt p
      rw [UInt32.toNat_ofNat', Nat.mod_eq_of_lt (by omega), code_toNat (hpackRow_mem c)] at hval
      show BitString.ofNat (hpackRow c).length (hpackRow c).code = p
      rw [hplen, ← hval, BitString.ofNat_value]
    next => simp at h
  · rintro rfl
    have hval : BitString.value (hpackCode.code a) = (hpackRow a).code :=
      BitString.value_ofNat (hpackRow_code_lt a)
    have hlen : (hpackCode.code a).length = (hpackRow a).length := BitString.length_ofNat _ _
    simp only [symbol, hval, codeLengths_hpackRow, reverseMap_hpackRow, Option.getD_some, hlen,
      minBitSize_le, and_self, if_true]

/-- No code is a string of ones, so padding yields no symbol. -/
theorem symbol_of_forall_true {p : List Bool} (h : ∀ b ∈ p, b = true) :
    decoder.symbol decoder.minBitSize p = none := by
  rw [Option.eq_none_iff_forall_not_mem]
  intro a ha
  have hcode : hpackCode.code a = p := (reads_hpackCode p a).mp ha
  have hval : BitString.value p = (hpackRow a).code := by
    rw [← hcode]
    exact BitString.value_ofNat (hpackRow_code_lt a)
  have hlen : p.length = (hpackRow a).length := by
    rw [← hcode]
    exact BitString.length_ofNat _ _
  have hones := BitString.value_of_forall_true h
  have := (hpackRow_bounds a).2.2
  rw [hval, hlen] at hones
  omega

/-! ## Round trip -/

/-- Bits that are an encoded string and fewer than eight ones decode to that string. -/
theorem decode_of_bits {data s : Octets} {pad : List Bool}
    (hbits : bits data = hpackCode.encode s ++ pad) (hlen : pad.length < 8)
    (hones : ∀ b ∈ pad, b = true) : decoder.decode data = s := by
  have hpad : PrefixCode.greedy (decoder.symbol decoder.minBitSize) 32 [] pad = [] := by
    refine PrefixCode.greedy_eq_nil [] pad (by simpa using by omega) fun p _ hp => ?_
    exact symbol_of_forall_true fun b hb => hones b (hp.subset (by simpa using hb))
  rw [decode_eq_greedy, hbits, PrefixCode.greedy_encode_append reads_hpackCode
    (fun a => lt_of_le_of_lt (hpackCode_length a).2 (by norm_num)), hpad, List.append_nil]

/-- The bits of the encoding are the codes of the characters and fewer than eight ones. -/
theorem bits_encode (s : Octets) :
    ∃ k < 8, bits (decoder.encode s) = hpackCode.encode s ++ List.replicate k true := by
  have hloop : ∀ (s : Octets) (w : Writer) (bs : List Bool), w.Holds bs →
      (s.foldl (Writer.pushCode decoder) w).Holds (bs ++ hpackCode.encode s) := by
    intro s
    induction s with
    | nil =>
      intro w bs hw
      simpa using hw
    | cons c s ih =>
      intro w bs hw
      -- a character appends its code
      have hpush := hw.pushCode decoder (encodings_eq c) (codeLengths_hpackRow c)
        ((hpackRow_bounds c).2.1.trans (by norm_num))
      rw [code_toNat (hpackRow_mem c)] at hpush
      rw [List.foldl_cons, PrefixCode.encode_cons, ← List.append_assoc]
      exact ih _ _ hpush
  exact (hloop s {} [] Writer.holds_empty).finish

private theorem length_codes_le (s : Octets) : (hpackCode.encode s).length ≤ 30 * s.length := by
  induction s with
  | nil => simp
  | cons c s ih =>
    have := (hpackCode_length c).2
    rw [PrefixCode.encode_cons, List.length_append, List.length_cons]
    omega

/-- The encoding takes at most 30 bits a character. -/
theorem length_encode_le (s : Octets) : 8 * (decoder.encode s).length ≤ 30 * s.length + 7 := by
  obtain ⟨k, hk, hbits⟩ := bits_encode s
  have hcodes := length_codes_le s
  have hlen := congrArg List.length hbits
  simp only [bits, List.length_flatMap, BitString.length_ofNat, List.map_const', List.sum_replicate,
    List.length_append, List.length_replicate, smul_eq_mul] at hlen
  omega

/-- Decoding inverts encoding. -/
theorem decode_encode (s : Octets) : decoder.decode (decoder.encode s) = s := by
  obtain ⟨k, hk, hbits⟩ := bits_encode s
  exact decode_of_bits hbits (by simpa using hk) fun b hb => (List.mem_replicate.mp hb).2

end Huffman

end Rite
