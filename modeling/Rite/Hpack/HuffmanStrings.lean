import Rite.Hpack.Field
import Rite.Hpack.HuffmanCorrect

/-!
# Huffman-coded strings

What `encode` writes are the codes of the characters and fewer than eight ones, and `decode` is
right on all of it: wherever it is in such a string, it has put out the characters whose codes it
has read. But `decode` has no way to fail, and so `parse_string` takes every octet string for a
Huffman-coded one.

## Main results

* `roundTrip`: decoding inverts encoding, and what `decode` has put out at every bit;
* `encode_decode_iff`: encoding inverts decoding on the strings that `encode` writes alone;
* `not_encoded_iff`: which strings these are not;
* `checked_iff`: these are the only ones that `parse_string` handles as it should.
-/

namespace Rite

namespace Huffman

open Hpack (decoder)

/-- The codes of a string, one after the other. -/
def codes (s : Octets) : List Bool := hpackCode.encode s

/-- `output` of `decode` once it has read some bits. -/
def outputAfter (read : List Bool) : Octets :=
  (read.foldl (fun st b => Reader.step decoder decoder.minBitSize st b.toUInt8) {}).output

/-- The bits are the codes of a string and fewer than eight ones. -/
structure Padded (s : Octets) (bs : List Bool) (pad : List Bool) : Prop where
  /-- The codes come first. -/
  eq : bs = codes s ++ pad
  /-- The padding is shorter than an octet. -/
  length_lt : pad.length < 8
  /-- The padding is the beginning of the code of EOS. -/
  ones : ∀ b ∈ pad, b = true

/-- `encode` writes the octets for some string. -/
def Encoded (data : Octets) : Prop := ∃ s pad, Padded s (bits data) pad

/-! ## Round trip -/

theorem exists_padded_encode (s : Octets) : ∃ pad, Padded s (bits (decoder.encode s)) pad := by
  obtain ⟨k, hk, hbits⟩ := bits_encode s
  exact ⟨List.replicate k true, hbits, by simpa using hk, fun b hb => List.eq_of_mem_replicate hb⟩

theorem outputAfter_eq (read : List Bool) :
    outputAfter read = PrefixCode.greedy (decoder.symbol decoder.minBitSize) 32 [] read :=
  Reader.foldl_step decoder decoder.minBitSize read (show ([] : List Bool).length < 32 by simp) []

/-- `decode` returns what it has put out when all bits are read. -/
theorem decode_eq_outputAfter (data : Octets) : decoder.decode data = outputAfter (bits data) := by
  rw [decode_eq_greedy, outputAfter_eq]

/-- Decoding inverts encoding. At every bit, `decode` has put out the longest beginning of the
string whose codes it has read: it takes no beginning of a code for a character, and it finds none
in the padding. -/
theorem roundTrip (s : Octets) :
    decoder.decode (decoder.encode s) = s ∧
      ∃ pad, Padded s (bits (decoder.encode s)) pad ∧
        ∀ read, read <+: bits (decoder.encode s) →
          hpackCode.Finished s read (outputAfter read) := by
  obtain ⟨pad, hpad⟩ := exists_padded_encode s
  refine ⟨decode_encode s, pad, hpad, fun read hread => ?_⟩
  rw [hpad.eq] at hread
  rw [outputAfter_eq]
  -- codes and padding are shorter than the 32 bits at which `decode` starts anew
  refine PrefixCode.finished_greedy reads_hpackCode (fun a => ?_) ?_ (fun p _ hp => ?_) s hread
  · have := hpackCode_length a
    omega
  · have := hpad.length_lt
    omega
  · exact symbol_of_forall_true fun b hb => hpad.ones b (hp.subset hb)

/-! ## The strings that are encoded -/

theorem bits_cons (b : Octet) (data : Octets) :
    bits (b :: data) = BitString.ofNat 8 b.toNat ++ bits data := rfl

theorem length_bits (data : Octets) : (bits data).length = 8 * data.length := by
  induction data with
  | nil => rfl
  | cons b data ih =>
    rw [bits_cons, List.length_append, BitString.length_ofNat, ih, List.length_cons]
    omega

/-- Octets are known by their bits. -/
theorem bits_injective : Function.Injective bits := by
  intro d e h
  have hlen : d.length = e.length := by
    have := congrArg List.length h
    rw [length_bits, length_bits] at this
    omega
  induction d generalizing e with
  | nil => exact (List.length_eq_zero_iff.mp hlen.symm).symm
  | cons b d ih =>
    obtain ⟨c, e, rfl⟩ := List.exists_cons_of_length_eq_add_one hlen.symm
    obtain ⟨hbc, hde⟩ := List.append_inj h (by simp)
    have hvalue := congrArg BitString.value hbc
    rw [BitString.value_ofNat b.toNat_lt, BitString.value_ofNat c.toNat_lt] at hvalue
    -- the eight bits are the value of the octet
    rw [UInt8.toNat_inj.mp hvalue, ih hde (Nat.succ.inj hlen)]

/-- A padding is known by its length, and the length by that of the codes in front of it. -/
theorem Padded.unique {s d e pad pad'} (hd : Padded s (bits d) pad) (he : Padded s (bits e) pad') :
    d = e := by
  have hlen := congrArg List.length hd.eq
  have hlen' := congrArg List.length he.eq
  rw [length_bits, List.length_append] at hlen hlen'
  have hpad := hd.length_lt
  have hpad' := he.length_lt
  -- both lengths are those of the codes, filled up to whole octets
  have heq : pad = pad' := by
    rw [List.eq_replicate_of_mem hd.ones, List.eq_replicate_of_mem he.ones]
    congr 1
    omega
  apply bits_injective
  rw [hd.eq, he.eq, heq]

/-- Encoding inverts decoding on the strings that are encoded, and on no others. -/
theorem encode_decode_iff (data : Octets) :
    decoder.encode (decoder.decode data) = data ↔ Encoded data := by
  constructor
  · intro h
    obtain ⟨pad, hpad⟩ := exists_padded_encode (decoder.decode data)
    rw [h] at hpad
    exact ⟨_, pad, hpad⟩
  · rintro ⟨s, pad, hpad⟩
    rw [decode_of_bits hpad.eq hpad.length_lt hpad.ones]
    obtain ⟨pad', hpad'⟩ := exists_padded_encode s
    exact hpad'.unique hpad

/-- No code is at the beginning of ones, however many there are. -/
theorem stuck_of_forall_true {p : List Bool} (h : ∀ b ∈ p, b = true) : hpackCode.Stuck p := by
  intro a ha
  have hnone := symbol_of_forall_true fun b hb => h b (ha.subset hb)
  rw [(reads_hpackCode _ a).mpr rfl] at hnone
  cases hnone

/-- When all codes are read off, fewer than eight ones are to be left. So no string is encoded that
goes on with the code of EOS, with another padding or with the beginning of a code. -/
theorem encoded_iff {data s : Octets} {rest : List Bool} (hbits : bits data = codes s ++ rest)
    (hrest : hpackCode.Stuck rest) :
    Encoded data ↔ rest.length < 8 ∧ ∀ b ∈ rest, b = true := by
  constructor
  · rintro ⟨s', pad, hpad⟩
    have heq := hbits.symm.trans hpad.eq
    obtain ⟨-, rfl⟩ := PrefixCode.encode_append_inj hrest (stuck_of_forall_true hpad.ones) heq
    exact ⟨hpad.length_lt, hpad.ones⟩
  · rintro ⟨hlen, hones⟩
    exact ⟨s, rest, hbits, hlen, hones⟩

/-- What keeps a string from being encoded is what is left of it behind the last code. -/
theorem not_encoded_iff (data : Octets) :
    ¬ Encoded data ↔ ∃ s rest, bits data = codes s ++ rest ∧ hpackCode.Stuck rest ∧
      (8 ≤ rest.length ∨ ∃ b ∈ rest, b = false) := by
  constructor
  · intro hnot
    obtain ⟨s, rest, hbits, hrest⟩ := hpackCode.exists_stuck (bits data)
    refine ⟨s, rest, hbits, hrest, ?_⟩
    rw [encoded_iff hbits hrest, not_and_or, not_lt] at hnot
    simpa using hnot
  · rintro ⟨s, rest, hbits, hrest, hleft⟩ hencoded
    obtain ⟨hlt, hones⟩ := (encoded_iff hbits hrest).mp hencoded
    rcases hleft with hle | ⟨b, hb, hfalse⟩
    · omega
    · rw [hones b hb] at hfalse
      cases hfalse

end Huffman

namespace Hpack

open ListReader

namespace Parser

/-- A Huffman-coded string literal: its length, with the flag for the code above it, and its
octets. -/
structure HuffmanLiteral (pos data rest : Octets) : Prop where
  /-- The flag is set. -/
  flag : pos.headD 0 &&& 0x80 ≠ 0
  /-- The length is read in front of the octets. -/
  read : ∃ length, readInteger 7 pos = .ok (length, data ++ rest) ∧ length.toNat = data.length

/-- A Huffman-coded literal is checked if `parse_string` either takes it for a string whose encoding
it is or reports an error, and the latter whenever it is no encoding. -/
structure Checked (pos data : Octets) : Prop where
  /-- Only the encoding of a string is accepted as that string. -/
  encode_eq : ∀ s rest, parseString pos = .ok (s, rest) → decoder.encode s = data
  /-- Everything else is an error. -/
  error : ¬ Huffman.Encoded data → ∃ e, parseString pos = .error e

/-- `parse_string` decodes the octets of a Huffman-coded literal, whatever they are. -/
theorem parseString_of_literal {pos data rest : Octets} (h : HuffmanLiteral pos data rest) :
    parseString pos = .ok (decoder.decode data, rest) := by
  obtain ⟨length, hread, hlen⟩ := h.read
  rw [parseString_eq]
  refine bind_eq_ok.mpr ⟨length, data ++ rest, hread, ?_⟩
  refine bind_eq_ok.mpr ⟨data, rest, ?_, ?_⟩
  · simp [chunk, hlen]
  · rw [ListReader.pure, if_pos h.flag]

/-- Exactly the literals that are encoded are checked. -/
theorem checked_iff {pos data rest : Octets} (h : HuffmanLiteral pos data rest) :
    Checked pos data ↔ Huffman.Encoded data := by
  have hparse := parseString_of_literal h
  constructor
  · intro hchecked
    exact (Huffman.encode_decode_iff data).mp (hchecked.encode_eq _ _ hparse)
  · intro hencoded
    -- no error is reported, but then there is none to report
    refine ⟨fun s rest' hs => ?_, fun hnot => absurd hencoded hnot⟩
    rw [hparse, Except.ok.injEq, Prod.mk.injEq] at hs
    rw [← hs.1]
    exact (Huffman.encode_decode_iff data).mpr hencoded

/-- The octet with five bits of `a` and three ones behind them. -/
theorem checked_sample : Checked [0x81, 0x1F] [0x1F] := by
  have hliteral : HuffmanLiteral [0x81, 0x1F] [0x1F] [] := ⟨by decide, 1, rfl, rfl⟩
  refine (checked_iff hliteral).mpr ?_
  exact ⟨octets "a", [true, true, true], by decide, by decide, by decide⟩

/-- An octet of ones is too long for a padding, but it is accepted as an empty string. -/
theorem not_checked : ¬ Checked [0x81, 0xFF] [0xFF] := by
  intro h
  have hliteral : HuffmanLiteral [0x81, 0xFF] [0xFF] [] := ⟨by decide, 1, rfl, rfl⟩
  have hencoded := (Huffman.encode_decode_iff _).mp
    (h.encode_eq _ _ (parseString_of_literal hliteral))
  -- no symbol begins with the ones, and there are eight of them
  have hbits : Huffman.bits [0xFF] = Huffman.codes [] ++ List.replicate 8 true := by decide
  have hones : ∀ b ∈ List.replicate 8 true, b = true := by decide
  have hlt := ((Huffman.encoded_iff hbits (Huffman.stuck_of_forall_true hones)).mp hencoded).1
  exact absurd hlt (by decide)

end Parser

end Hpack

end Rite
