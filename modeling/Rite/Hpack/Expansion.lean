import Rite.Hpack.HuffmanStrings

/-!
# How much longer a string becomes when it is decoded

No code of the table is shorter than five bits, so that a symbol is paid for by five bits of the
input at least. The bits that `decode` gives up, 32 at a time, pay for nothing.

## Main results

* `length_outputAfter_le`: at every bit, `decode` has put out a symbol for five bits at most;
* `exists_length_decode_eq`: for a string of any length, it may do so all the time;
* `expansion_le`: the bound for `decode`, and for what `parse_string` makes of a literal.
-/

namespace Rite

namespace Huffman

open Hpack (decoder)

/-- It takes five bits to find a symbol. -/
theorem five_le_length_of_symbol {p : List Bool} {a : Octet}
    (h : decoder.symbol decoder.minBitSize p = some a) : 5 ≤ p.length := by
  rw [← (reads_hpackCode p a).mp h]
  exact (hpackCode_length a).1

/-- Whatever the bits are, there is a symbol for five of them at most. -/
theorem length_outputAfter_le (read : List Bool) :
    5 * (outputAfter read).length ≤ read.length := by
  rw [outputAfter_eq]
  calc
    _ ≤ ([] : List Bool).length + read.length :=
      PrefixCode.mul_length_greedy_le (fun _ _ => five_le_length_of_symbol) [] read
    _ = read.length := Nat.zero_add _

theorem length_decode_le (data : Octets) :
    5 * (decoder.decode data).length ≤ 8 * data.length := by
  rw [decode_eq_outputAfter, ← length_bits]
  exact length_outputAfter_le (bits data)

/-- The code of `0` has five bits, and eight of them fill five octets. -/
theorem exists_length_decode_eq (k : ℕ) :
    ∃ data : Octets, data.length = 5 * k ∧ (decoder.decode data).length = 8 * k := by
  have hfive : (hpackCode.code 0x30).length = 5 := rfl
  have hcodes : (hpackCode.encode (List.replicate (8 * k) 0x30)).length = 40 * k := by
    rw [PrefixCode.encode, List.length_flatMap, List.map_replicate, List.sum_replicate, hfive,
      smul_eq_mul]
    omega
  obtain ⟨pad, hpad, hbits⟩ := bits_encode (List.replicate (8 * k) 0x30)
  refine ⟨decoder.encode (List.replicate (8 * k) 0x30), ?_, ?_⟩
  · -- there is no room for a padding
    have hlength := congrArg List.length hbits
    rw [length_bits, List.length_append, hcodes, List.length_replicate] at hlength
    omega
  · rw [decode_encode, List.length_replicate]

end Huffman

namespace Hpack

open ListReader

namespace Parser

/-- `parse_string` has read a length and as many octets, which are the string or are decoded. -/
theorem exists_of_parseString {pos s rest : Octets} (h : parseString pos = .ok (s, rest)) :
    ∃ length data, readInteger 7 pos = .ok (length, data ++ rest) ∧
      length.toNat = data.length ∧ (s = decoder.decode data ∨ s = data) := by
  rw [parseString_eq] at h
  obtain ⟨length, behind, hlength, h⟩ := bind_eq_ok.mp h
  obtain ⟨data, rest', hdata, h⟩ := bind_eq_ok.mp h
  rw [ListReader.pure, Except.ok.injEq, Prod.mk.injEq] at h
  obtain ⟨rfl, rfl⟩ := h
  rw [chunk] at hdata
  split_ifs at hdata with hshort
  rw [Except.ok.injEq, Prod.mk.injEq] at hdata
  obtain ⟨rfl, rfl⟩ := hdata
  refine ⟨length, behind.take length.toNat, ?_, ?_, ?_⟩
  · rw [hlength, List.take_append_drop]
  · rw [List.length_take]
    omega
  · split_ifs
    · exact .inl rfl
    · exact .inr rfl

/-- `decode` makes eight characters of five octets at most, whatever the octets are; and a string
literal of `n` octets never has more than `8 * n / 5` characters. -/
theorem expansion_le :
    (∀ data, 5 * (decoder.decode data).length ≤ 8 * data.length) ∧
      ∀ pos s rest, parseString pos = .ok (s, rest) →
        ∃ length data, readInteger 7 pos = .ok (length, data ++ rest) ∧
          length.toNat = data.length ∧ s.length ≤ 8 * data.length / 5 := by
  refine ⟨Huffman.length_decode_le, fun pos s rest h => ?_⟩
  obtain ⟨length, data, hread, hlength, hs⟩ := exists_of_parseString h
  refine ⟨length, data, hread, hlength, ?_⟩
  have hle := Huffman.length_decode_le data
  rcases hs with rfl | rfl
  · omega
  · omega

end Parser

end Hpack

end Rite
