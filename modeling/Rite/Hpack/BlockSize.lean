import Rite.Hpack.HuffmanStrings
import Rite.Hpack.Rfc7541
import Rite.Hpack.Serializer
import Rite.Hpack.Sharing

/-!
# The size of the header blocks

`finish` puts the whole payload of the serializer into one HEADERS frame, whatever its size is, and
`pack` writes the lower 24 bits of the size. How many octets a header adds to the payload follows
from the lengths of the Huffman codes and from what the static table has of the header.

## Main results

* `length_serialize`: the payload grows by the sizes of the fields;
* `announces_iff`: the length on the wire is right below 2²⁴ octets;
* `framed_iff`: the frame is one that HTTP/2 permits exactly if it takes at most 16384 octets;
* `not_framed`: it need not be.
-/

namespace Rite

namespace Hpack

namespace Serializer

/-! ## The size of a field -/

/-- The octets that the Huffman codes of a string fill. -/
def huffmanSize (s : Octets) : ℕ :=
  ((s.map fun a => Rfc7541.codeLengths.getD a.toNat 0).sum + 7) / 8

/-- The octets of an integer with an `N`-bit prefix. -/
def integerSize (N value : ℕ) : ℕ :=
  if value < 2 ^ N - 1 then 1 else Nat.log 128 (value - (2 ^ N - 1)) + 2

/-- The octets of a string literal. Its length is written as a `uint32_t`. -/
def stringSize (s : Octets) : ℕ := integerSize 7 (huffmanSize s % 2 ^ 32) + huffmanSize s

/-- The octets of a header: one for an index or for the flags of a literal, and the string literals
for what is not in the table. -/
def fieldSize (entries : List (ℕ × Header)) (h : Header) : ℕ :=
  if ∃ e ∈ entries, e.2 = ⟨toLower h.key, h.value⟩ then 1
  else if ∃ e ∈ entries, e.2.key = toLower h.key then 1 + stringSize h.value
  else 1 + stringSize h.key + stringSize h.value

/-- A string is encoded in as many octets as its codes fill. -/
theorem length_encode_eq (s : Octets) : (decoder.encode s).length = huffmanSize s := by
  obtain ⟨k, hk, hbits⟩ := Huffman.bits_encode s
  have hcodes : (Huffman.hpackCode.encode s).length =
      (s.map fun a => Rfc7541.codeLengths.getD a.toNat 0).sum := by
    rw [PrefixCode.encode, List.length_flatMap]
    refine congrArg List.sum (List.map_congr_left fun a _ => ?_)
    rw [← Rfc7541.code_eq, Rfc7541.code, BitString.length_ofNat]
  have hlen := congrArg List.length hbits
  rw [Huffman.length_bits, List.length_append, List.length_replicate, hcodes] at hlen
  -- the padding is shorter than an octet
  rw [huffmanSize]
  omega

@[simp] theorem length_flag (mask flags : Octet) (wire : Octets) :
    (flag mask flags wire).length = wire.length := by
  cases wire <;> rfl

theorem length_encode_ofNat {N : ℕ} (h8 : N ≤ 8) (n : ℕ) :
    (VariableInteger.encode N (UInt32.ofNat n)).length = integerSize N (n % 2 ^ 32) := by
  rw [VariableInteger.length_encode h8, UInt32.toNat_ofNat', integerSize]

theorem length_string (s : Octets) : (string s).length = stringSize s := by
  rw [string, List.length_append, length_flag, length_encode_ofNat (by norm_num), length_encode_eq,
    stringSize]

theorem stringSize_le (s : Octets) : stringSize s ≤ 6 + 4 * s.length := by
  have hinteger := VariableInteger.length_encode_le (show 7 ≤ 8 by norm_num)
    (UInt32.ofNat (decoder.encode s).length)
  have hcodes := Huffman.length_encode_le s
  rw [← length_string, string, List.length_append, length_flag]
  omega

theorem fieldSize_le (entries : List (ℕ × Header)) (h : Header) :
    fieldSize entries h ≤ 13 + 4 * (h.key.length + h.value.length) := by
  have hkey := stringSize_le h.key
  have hvalue := stringSize_le h.value
  unfold fieldSize
  split_ifs <;> omega

section Table

variable {table : StaticTable} (htable : table = staticHeaderTable ∨ table = extendedTable)
  {order : List (ℕ × Header)} (horder : order.Perm table.items)

include htable

/-- An index of the table fits the prefix of an octet. -/
theorem index_lt_of_mem_items {e : ℕ × Header} (he : e ∈ table.items) : e.1 < 63 := by
  obtain ⟨entry, hentry, rfl⟩ := List.mem_map.mp he
  have hkey : entry.1 ∈ table := AList.mem_keys.mpr (List.mem_keys_of_mem hentry)
  rcases htable with rfl | rfl
  · have := mem_staticHeaderTable.mp hkey
    simp only
    omega
  · rw [extendedTable, AList.mem_insert, mem_staticHeaderTable] at hkey
    simp only
    omega

include horder

theorem length_field (h : Header) : (field order h).length = fieldSize table.items h := by
  have hspec := searchIndex_spec order h
  have hindex (N index : ℕ) (hN : N = 6 ∨ N = 7) (hlt : index < 63) :
      (VariableInteger.encode N (UInt32.ofNat index)).length = 1 := by
    rw [length_encode_ofNat (by omega), Nat.mod_eq_of_lt (by omega), integerSize, if_pos]
    rcases hN with rfl | rfl <;> omega
  unfold field fieldSize
  simp only [← horder.mem_iff]
  cases hwhere : searchIndex order h with
  | fullyIndexed index =>
    rw [hwhere] at hspec
    have hlt := index_lt_of_mem_items htable (horder.mem_iff.mp hspec)
    rw [if_pos ⟨_, hspec, rfl⟩, length_flag, hindex 7 index (.inr rfl) hlt]
  | keyIndexed index =>
    rw [hwhere] at hspec
    obtain ⟨value', hmem⟩ := hspec
    have hlt := index_lt_of_mem_items htable (horder.mem_iff.mp hmem)
    have hheader : ¬ ∃ e ∈ order, e.2 = ⟨toLower h.key, h.value⟩ := by
      -- the search would have found the header itself
      intro hfull
      obtain ⟨index', heq⟩ := searchLoop_of_mem hfull none
      rw [searchIndex, heq] at hwhere
      cases hwhere
    rw [if_neg hheader, if_pos ⟨_, hmem, rfl⟩, List.length_append, length_flag,
      hindex 6 index (.inl rfl) hlt, length_string]
  | literal =>
    rw [hwhere] at hspec
    have hkey : ¬ ∃ e ∈ order, e.2.key = toLower h.key := fun ⟨e, he, hk⟩ => hspec e he hk
    have hheader : ¬ ∃ e ∈ order, e.2 = ⟨toLower h.key, h.value⟩ := by
      -- the search would have found its name
      rintro ⟨e, he, hh⟩
      exact hkey ⟨e, he, by rw [hh]⟩
    rw [if_neg hheader, if_neg hkey, List.length_cons, List.length_append, length_string,
      length_string]
    omega

/-- The payload grows by the sizes of the fields. -/
theorem length_serialize (tx : Serializer) (list : List Header) :
    (tx.serialize order list).payload.length =
      tx.payload.length + (list.map (fieldSize table.items)).sum := by
  rw [serialize_payload, List.length_append, List.length_flatMap]
  simp only [length_field htable horder]

end Table

/-! ## The frame -/

/-- `pack` announces the octets that follow. -/
def Announces (f : Frame) : Prop :=
  (Frame.unpack f.pack).map (·.length.toNat) = some f.data.length

instance (f : Frame) : Decidable (Announces f) := inferInstanceAs (Decidable (_ = _))

/-- The largest payload of a frame. -/
def payloadLimit : ℕ := 16384

/-- The frames carry a header block as HTTP/2 has it. -/
structure Framed (block : Octets) (frames : List Frame) : Prop where
  /-- No payload is too large. -/
  length_le : ∀ f ∈ frames, f.data.length ≤ payloadLimit
  /-- The block begins in HEADERS and goes on in CONTINUATION frames. -/
  types : ∃ n, frames.map (·.type) = .headers :: List.replicate n .continuation
  /-- Together the payloads are the block. -/
  block : frames.flatMap (·.data) = block
  /-- The length on the wire is that of the payload behind it. -/
  announces : ∀ f ∈ frames, Announces f

/-- The frames that are handed to `write`: one, with whatever the payload is by then. -/
def frames (order : List (ℕ × Header)) (list : List Header) (streamId : UInt32) (tx : Serializer) :
    List Frame := [((tx.serialize order list).finish streamId).1]

/-- Of the length of the payload, `pack` writes the lower 24 bits. -/
theorem announces_iff (streamId : UInt32) (tx : Serializer) :
    Announces (tx.finish streamId).1 ↔ tx.payload.length < 2 ^ 24 := by
  have hunpack := Frame.unpack_pack (tx.finish streamId).1 []
  rw [List.append_nil] at hunpack
  have hlength : (UInt32.ofNat tx.payload.length &&& 0xFFFFFF).toNat =
      tx.payload.length % 2 ^ 24 := by
    rw [UInt32.toNat_and, show (0xFFFFFF : UInt32).toNat = 2 ^ 24 - 1 from rfl,
      Nat.and_two_pow_sub_one_eq_mod, UInt32.toNat_ofNat']
    omega
  rw [Announces, hunpack, Option.map_some, Option.some.injEq]
  simp only [finish, hlength]
  omega

/-- The frame is one that HTTP/2 permits exactly if its payload is not too large. -/
theorem framed_frames_iff (order : List (ℕ × Header)) (list : List Header) (streamId : UInt32)
    (tx : Serializer) :
    Framed (tx.serialize order list).payload (frames order list streamId tx) ↔
      (tx.serialize order list).payload.length ≤ payloadLimit := by
  constructor
  · intro h
    exact h.length_le _ (List.mem_singleton_self _)
  · intro h
    refine ⟨?_, ⟨0, rfl⟩, by simp [frames, finish], ?_⟩
    · intro f hf
      obtain rfl := List.mem_singleton.mp hf
      exact h
    · intro f hf
      obtain rfl := List.mem_singleton.mp hf
      -- the bound for a payload is below `2 ^ 24`
      rw [announces_iff]
      exact lt_of_le_of_lt h (by norm_num [payloadLimit])

/-- The header block of a response is framed as HTTP/2 has it if and only if its fields take at most
16384 octets, with what the serializer holds before. -/
theorem framed_iff {table : StaticTable}
    (htable : table = staticHeaderTable ∨ table = extendedTable) {order : List (ℕ × Header)}
    (horder : order.Perm table.items) (list : List Header) (streamId : UInt32) (tx : Serializer) :
    Framed (tx.serialize order list).payload (frames order list streamId tx) ↔
      tx.payload.length + (list.map (fieldSize table.items)).sum ≤ 16384 := by
  rw [framed_frames_iff, length_serialize htable horder, payloadLimit]

/-- A short response. -/
theorem framed_sample :
    Framed (({} : Serializer).serialize staticHeaderTable.items
        [⟨octets ":status", octets "200"⟩, ⟨octets "Server", octets "rite"⟩]).payload
        (frames staticHeaderTable.items
          [⟨octets ":status", octets "200"⟩, ⟨octets "Server", octets "rite"⟩] 1 {}) ↔
      ([] : Octets).length + (List.map (fieldSize staticHeaderTable.items)
        [⟨octets ":status", octets "200"⟩, ⟨octets "Server", octets "rite"⟩]).sum ≤ 16384 :=
  framed_iff (.inl rfl) (List.Perm.refl _) _ 1 {}

/-- A header that is not in the table, with a value of `n` octets. -/
def letters (n : ℕ) : Header := ⟨octets "x-token", List.replicate n 0x61⟩

/-- Its value takes five bits for each octet. -/
private theorem letters_le (n : ℕ) : 5 * n / 8 ≤
    (({} : Serializer).serialize staticHeaderTable.items [letters n]).payload.length := by
  have hhuffman : 5 * n / 8 ≤ huffmanSize (letters n).value := by
    -- the code of the letter has five bits
    rw [huffmanSize, letters, List.map_replicate, List.sum_replicate, smul_eq_mul,
      show Rfc7541.codeLengths.getD (0x61 : Octet).toNat 0 = 5 from rfl]
    omega
  have hkey : ¬ ∃ e ∈ staticHeaderTable.items, e.2.key = toLower (letters n).key := by
    have hnone : ¬ ∃ e ∈ staticHeaderTable.items, e.2.key = toLower (octets "x-token") := by decide
    exact hnone
  have hheader : ¬ ∃ e ∈ staticHeaderTable.items,
      e.2 = ⟨toLower (letters n).key, (letters n).value⟩ := by
    rintro ⟨e, he, heq⟩
    exact hkey ⟨e, he, congrArg Header.key heq⟩
  rw [length_serialize (.inl rfl) (List.Perm.refl _), List.map_singleton, List.sum_singleton,
    fieldSize, if_neg hheader, if_neg hkey, stringSize, stringSize]
  omega

/-- With a value of 30000 octets the frame is too large, and with one of 2²⁵ octets it is announced
with another length besides. -/
theorem not_framed :
    ¬ Framed (({} : Serializer).serialize staticHeaderTable.items [letters 30000]).payload
        (frames staticHeaderTable.items [letters 30000] 1 {}) ∧
      ¬ Announces
        ((({} : Serializer).serialize staticHeaderTable.items [letters (2 ^ 25)]).finish 1).1 := by
  constructor
  · rw [framed_frames_iff, payloadLimit, not_le]
    exact lt_of_lt_of_le (by norm_num) (letters_le 30000)
  · rw [announces_iff, not_lt]
    exact le_trans (by norm_num) (letters_le (2 ^ 25))

end Serializer

end Hpack

end Rite
