import Rite.Hpack.HuffmanCorrect
import Rite.Hpack.StaticTable
import Rite.ToMathlib.Base128
import Rite.ToMathlib.BoundedTable
import Rite.ToMathlib.ListReader

/-!
# The header block decoder of RFC 7541

A decoder as the specification describes it: integers of any size, string literals whose Huffman
code is complete and padded with fewer than eight ones, and a dynamic table that is bounded in
octets. Dynamic table size updates may stand anywhere in a block, as long as they stay within the
limit.

## Main results

* `code_eq`: the canonical code with the lengths of Appendix B is the one of `huffman.cpp`;
* `decode_of_decodeHuffman`: `huffman::decode` agrees with the decoder on what that one accepts.
-/

namespace Rite

namespace Rfc7541

open Hpack ListReader

/-! ## String literals -/

/-- The lengths of the codes of Appendix B, the last of them that of EOS. -/
def codeLengths : List ℕ := [
  13, 23, 28, 28, 28, 28, 28, 28, 28, 24, 30, 28, 28, 30, 28, 28,
  28, 28, 28, 28, 28, 28, 30, 28, 28, 28, 28, 28, 28, 28, 28, 28,
  6, 10, 10, 12, 13, 6, 8, 11, 10, 10, 8, 11, 8, 6, 6, 6,
  5, 5, 5, 6, 6, 6, 6, 6, 6, 6, 7, 8, 15, 6, 12, 10,
  13, 6, 7, 7, 7, 7, 7, 7, 7, 7, 7, 7, 7, 7, 7, 7,
  7, 7, 7, 7, 7, 7, 7, 7, 8, 7, 8, 13, 19, 13, 14, 6,
  15, 5, 6, 5, 6, 5, 6, 6, 6, 5, 7, 7, 6, 6, 6, 5,
  6, 7, 6, 5, 5, 6, 7, 7, 7, 7, 7, 15, 11, 14, 13, 28,
  20, 22, 20, 20, 22, 22, 22, 23, 22, 23, 23, 23, 23, 23, 24, 23,
  24, 24, 22, 23, 24, 23, 23, 23, 23, 21, 22, 23, 22, 23, 23, 24,
  22, 21, 20, 22, 22, 23, 23, 21, 23, 22, 22, 24, 21, 22, 23, 23,
  21, 21, 22, 21, 23, 22, 23, 23, 20, 22, 22, 22, 23, 22, 22, 23,
  26, 26, 20, 19, 22, 23, 22, 25, 26, 26, 26, 27, 27, 26, 24, 25,
  19, 21, 26, 27, 27, 26, 27, 24, 21, 21, 26, 26, 28, 27, 27, 27,
  20, 24, 20, 21, 22, 21, 21, 23, 22, 22, 25, 25, 24, 24, 26, 23,
  26, 27, 26, 26, 27, 27, 27, 27, 27, 28, 27, 27, 27, 27, 27, 26,
  30]

/-- The first code of a length: the codes of the next shorter length come before it. -/
def firstCode : ℕ → ℕ
  | 0 => 0
  | l + 1 => 2 * (firstCode l + codeLengths.count l)

/-- The code word of an octet: codes of one length are consecutive, in the order of the octets. -/
def code (a : Octet) : List Bool :=
  let length := codeLengths.getD a.toNat 0
  BitString.ofNat length (firstCode length + (codeLengths.take a.toNat).count length)

private theorem rows_lengths : decoder.rows.map (·.length) = codeLengths := by decide +kernel

/-- The codes of one length, in the order of the octets. -/
private theorem rows_consecutive : ∀ l < 31,
    (decoder.rows.filter fun r => r.length = l).map (·.code) =
      List.range' (firstCode l) (codeLengths.count l) := by
  decide +kernel

/-- A row has the code that it would have in the canonical code. -/
private theorem row_canonical {before after : List Huffman.Row} {r : Huffman.Row}
    (hrows : decoder.rows = before ++ r :: after) (hlt : r.length < 31) :
    r.code = firstCode r.length + (before.map (·.length)).count r.length := by
  have hcodes := rows_consecutive r.length hlt
  rw [hrows, List.filter_append, List.filter_cons, if_pos (decide_eq_true rfl), List.map_append,
    List.map_cons] at hcodes
  -- the rows of the same length in front of the row are those that count
  have hcount : ((before.filter fun r' => r'.length = r.length).map (·.code)).length =
      (before.map (·.length)).count r.length := by
    rw [List.length_map, ← List.countP_eq_length_filter, List.count, List.countP_map]
    rfl
  have hget := congrArg (·[(before.map (·.length)).count r.length]?) hcodes
  rw [← hcount] at hget ⊢
  simp only [List.getElem?_append_right le_rfl, Nat.sub_self, List.getElem?_cons_zero] at hget
  obtain ⟨hlt', heq⟩ := List.getElem?_eq_some_iff.mp hget.symm
  rw [← heq, List.getElem_range'_1]

/-- The canonical code with the lengths of Appendix B is the one that `huffman.cpp` lists. -/
theorem code_eq (a : Octet) : code a = Huffman.hpackCode.code a := by
  have hlength : decoder.rows.length = 257 := by decide +kernel
  have ha : a.toNat < decoder.rows.length := by
    have hoctet := a.toNat_lt
    omega
  have hrow : decoder.rows[a.toNat] = Huffman.hpackRow a := by
    rw [Huffman.hpackRow, List.get_eq_getElem]
  have hsplit : decoder.rows =
      decoder.rows.take a.toNat ++ Huffman.hpackRow a :: decoder.rows.drop (a.toNat + 1) := by
    rw [← hrow, ← List.drop_eq_getElem_cons ha, List.take_append_drop]
  have hlt : (Huffman.hpackRow a).length < 31 := by
    have hle := (Huffman.hpackCode_length a).2
    rw [Huffman.hpackCode, BitString.length_ofNat] at hle
    omega
  have hlen : codeLengths.getD a.toNat 0 = (Huffman.hpackRow a).length := by
    rw [← rows_lengths, List.getD_eq_getElem _ _ (by rwa [List.length_map]), List.getElem_map, hrow]
  -- both are the number of the row, with its length
  show BitString.ofNat _ _ = BitString.ofNat (Huffman.hpackRow a).length (Huffman.hpackRow a).code
  rw [hlen, row_canonical hsplit hlt, List.map_take, rows_lengths]

/-- The octet whose code word the bits are. -/
def symbol (bits : List Bool) : Option Octet :=
  ((List.range 256).map UInt8.ofNat).find? fun a => code a = bits

/-- Fewer than eight ones, the beginning of the code of EOS. -/
def padding (bits : List Bool) : Bool := bits.length < 8 && bits.all id

/-- A Huffman-coded string. -/
def decodeHuffman (data : Octets) : Option Octets :=
  PrefixCode.strict symbol padding [] (Huffman.bits data)

theorem reads_symbol : Huffman.hpackCode.Reads symbol := by
  intro bits a
  constructor
  · intro h
    have hcode := List.find?_some h
    rw [← code_eq]
    simpa using hcode
  · rintro rfl
    -- the octet itself is a candidate, and no other has its code
    cases hfind : symbol (Huffman.hpackCode.code a) with
    | none =>
      have hnone := List.find?_eq_none.mp hfind a
        (List.mem_map.mpr ⟨a.toNat, List.mem_range.mpr a.toNat_lt, by simp⟩)
      simp [code_eq] at hnone
    | some b =>
      have hcode := List.find?_some hfind
      simp only [code_eq, decide_eq_true_eq] at hcode
      rw [Huffman.hpackCode.prefixFree b a (by rw [hcode])]

/-- An accepted string decodes to the same octets with `huffman::decode`. -/
theorem decode_of_decodeHuffman {data s : Octets} (h : decodeHuffman data = some s) :
    decoder.decode data = s := by
  obtain ⟨pad, hpad, hbits⟩ := PrefixCode.exists_padding_of_strict reads_symbol h
  simp only [padding, Bool.and_eq_true, decide_eq_true_eq, List.all_eq_true, id_eq] at hpad
  exact Huffman.decode_of_bits hbits hpad.1 hpad.2

/-! ## Fields -/

/-- An integer with an `N`-bit prefix (section 5.1). -/
def readInteger (N : ℕ) : ListReader Unit Octet ℕ
  | [] => .error ()
  | b :: bs =>
    -- the prefix holds the integer, or is full
    if b.toNat % 2 ^ N < 2 ^ N - 1 then .ok (b.toNat % 2 ^ N, bs)
    else match Base128.decode bs with
      | some (v, rest) => .ok (2 ^ N - 1 + v, rest)
      | none => .error ()

/-- The value of a string literal whose first octet is `b` and whose octets are `raw`. -/
def literalValue (b : Octet) (raw : Octets) : ListReader Unit Octet Octets := fun rest =>
  if b.toNat < 128 then .ok (raw, rest)
  else match decodeHuffman raw with
    | some s => .ok (s, rest)
    | none => .error ()

/-- A string literal (section 5.2). -/
def readString : ListReader Unit Octet Octets := byHead 0 fun b =>
  ListReader.bind (readInteger 7) fun length =>
    ListReader.bind (chunk () length) fun raw => literalValue b raw

/-- The name of a literal field: an index or a string. -/
inductive FieldName
  | indexed (index : ℕ)
  | literal (name : Octets)
  deriving DecidableEq

/-- A header field representation, or a dynamic table size update (section 6). -/
inductive Field
  | indexed (index : ℕ)
  | literal (name : FieldName) (value : Octets) (incremental : Bool)
  | sizeUpdate (size : ℕ)
  deriving DecidableEq

/-- The name of a literal whose index is `index`. -/
def FieldName.read (index : ℕ) : ListReader Unit Octet FieldName :=
  if index = 0 then ListReader.bind readString fun name => ListReader.pure (.literal name)
  else ListReader.pure (.indexed index)

/-- A literal whose index has an `N`-bit prefix. -/
def Field.readLiteral (N : ℕ) (incremental : Bool) : ListReader Unit Octet Field :=
  ListReader.bind (readInteger N) fun index =>
    ListReader.bind (FieldName.read index) fun name =>
      ListReader.bind readString fun value =>
        ListReader.pure (.literal name value incremental)

/-- A field. The pattern of the first octet tells its kind; literals that are never to be indexed
are read as those that are not indexed. -/
def Field.read : ListReader Unit Octet Field := byHead 0 fun b =>
  if 128 ≤ b.toNat then
    ListReader.bind (readInteger 7) fun index => ListReader.pure (.indexed index)
  else if 64 ≤ b.toNat then readLiteral 6 true
  else if 32 ≤ b.toNat then
    ListReader.bind (readInteger 5) fun size => ListReader.pure (.sizeUpdate size)
  else readLiteral 4 false

/-- The fields of a header block. -/
def fields (block : Octets) : Option (List Field) :=
  (all Field.read () block.length block).toOption

/-! ## The dynamic table -/

/-- The size of an entry (section 4.1). -/
def entrySize (h : Header) : ℕ := h.key.length + h.value.length + 32

/-- What a decoder remembers from block to block. -/
structure Decoder where
  /-- The maximum size of the dynamic table in force. -/
  maxSize : ℕ
  /-- The dynamic table, newest entry first. -/
  entries : List Header
  deriving DecidableEq

namespace Decoder

/-- A new decoder, whose dynamic table is empty. -/
def initial (limit : ℕ) : Decoder := ⟨limit, []⟩

/-- The header at an index of the address space (section 2.3.3). -/
def lookup (d : Decoder) (index : ℕ) : Option Header :=
  if index = 0 then none
  else if index ≤ 61 then staticHeaderTable.lookup index
  else d.entries[index - 62]?

/-- The octets of a name. -/
def name (d : Decoder) : FieldName → Option Octets
  | .indexed index => (d.lookup index).map (·.key)
  | .literal name => some name

/-- Decode one field: the headers it emits, and the decoder after it. Size updates above the limit
are errors (section 6.3). -/
def step (limit : ℕ) (d : Decoder) : Field → Option (List Header × Decoder)
  | .indexed index => (d.lookup index).map fun h => ([h], d)
  | .literal name value incremental => do
    let key ← d.name name
    -- a literal is emitted whether or not there is room for it in the table
    let h : Header := ⟨key, value⟩
    if incremental then
      return ([h], { d with entries := BoundedTable.insert entrySize d.maxSize h d.entries })
    else return ([h], d)
  | .sizeUpdate size =>
    if size ≤ limit then some ([], ⟨size, BoundedTable.evict entrySize size d.entries⟩) else none

/-- Decode fields one after the other. -/
def steps (limit : ℕ) (d : Decoder) : List Field → Option (List Header × Decoder)
  | [] => some ([], d)
  | f :: fs => do
    let (hs, d) ← d.step limit f
    let (hs', d) ← d.steps limit fs
    return (hs ++ hs', d)

/-- Decode a header block. -/
def decode (limit : ℕ) (d : Decoder) (block : Octets) : Option (List Header × Decoder) := do
  let fs ← fields block
  d.steps limit fs

/-- Decode header blocks: the headers of each, and the decoder after it. -/
def decodeAll (limit : ℕ) (d : Decoder) : List Octets → Option (List (List Header × Decoder))
  | [] => some []
  | block :: blocks => do
    let (hs, d) ← d.decode limit block
    let rest ← d.decodeAll limit blocks
    return (hs, d) :: rest

end Decoder

end Rfc7541

end Rite
