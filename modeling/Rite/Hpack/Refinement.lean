import Rite.Hpack.AddressSpace
import Rite.Hpack.Block
import Rite.Hpack.Rfc7541

/-!
# The parser against the decoder of RFC 7541

The parser never evicts on insertion, and it takes a dynamic table size update for a number of
entries. So its dynamic table outgrows the one of the specification, but that one stays a prefix
of it: an entry takes at least 32 octets, so fewer entries fit a number of octets than that number.

## Main results

* `read_refines`: a field of the specification is read alike, unless it holds an integer of more
  than 32 bits;
* `step_refines`: it is applied alike, unless it refers to the static index 61;
* `alike_of_avoids`: so are header blocks, and the tables stay related;
* `not_alike`: without either condition this fails.
-/

namespace Rite

namespace Hpack

open ListReader

/-! ## Reading -/

theorem readInteger_refines {N : ℕ} (h1 : 1 ≤ N) (h8 : N ≤ 8) {bs rest : Octets} {v : ℕ}
    (h : Rfc7541.readInteger N bs = .ok (v, rest)) (hv : v < 2 ^ 32) :
    readInteger N bs = .ok (UInt32.ofNat v, rest) := by
  cases bs with
  | nil => cases h
  | cons b bs =>
    simp only [Rfc7541.readInteger] at h
    split_ifs at h with hlt
    · cases h
      exact readInteger_eq_ok.mpr ⟨1, VariableInteger.decode_cons_of_lt h1 h8 hlt _, rfl⟩
    · -- the prefix is full, and both go on in base 128
      have heq := (VariableInteger.prefix_lt_or_eq N b).resolve_left hlt
      split at h
      next v' rest' hdec =>
        cases h
        refine readInteger_eq_ok.mpr ⟨_, VariableInteger.decode_of_decode h1 h8 heq hdec hv, ?_⟩
        obtain ⟨used, -, rfl⟩ := Base128.exists_eq_append_of_decode hdec
        rw [Nat.add_comm, List.drop_succ_cons, List.length_append, Nat.add_sub_cancel,
          List.drop_left]
      next => cases h

/-- What a reader of the specification leaves is no longer than what it was given. -/
private theorem length_le_of_readInteger {N : ℕ} {bs rest : Octets} {v : ℕ}
    (h : Rfc7541.readInteger N bs = .ok (v, rest)) : rest.length ≤ bs.length := by
  cases bs with
  | nil => cases h
  | cons b bs =>
    simp only [Rfc7541.readInteger] at h
    split_ifs at h with hlt
    · cases h
      simp
    · split at h
      next v' rest' hdec =>
        cases h
        have := Base128.length_lt_of_decode hdec
        rw [List.length_cons]
        omega
      next => cases h

private theorem and_0x80_ne_zero_iff (b : Octet) : b &&& 0x80 ≠ 0 ↔ 128 ≤ b.toNat := by
  rw [ne_eq, VariableInteger.and_0x80_eq_zero_iff, not_lt]

theorem readString_refines {bs rest : Octets} {s : Octets}
    (h : Rfc7541.readString bs = .ok (s, rest)) (hlen : bs.length < 2 ^ 32) :
    Parser.parseString bs = .ok (s, rest) ∧ rest.length ≤ bs.length := by
  obtain ⟨length, m, hlength, h⟩ := bind_eq_ok.mp h
  obtain ⟨raw, m', hraw, hvalue⟩ := bind_eq_ok.mp h
  have hm := length_le_of_readInteger hlength
  have hraw' := hraw
  unfold chunk at hraw'
  split_ifs at hraw' with hshort
  cases hraw'
  -- the length is within the block, so that it fits an integer of the parser
  have hlt : length < 2 ^ 32 := by omega
  have hnat : (UInt32.ofNat length).toNat = length := UInt32.toNat_ofNat_of_lt hlt
  have hrest : rest = m.drop length ∧
      s = if bs.headD 0 &&& 0x80 ≠ 0 then decoder.decode (m.take length) else m.take length := by
    -- what the specification decodes, the parser decodes to the same string
    unfold Rfc7541.literalValue at hvalue
    simp only [and_0x80_ne_zero_iff]
    split_ifs at hvalue with hplain
    · cases hvalue
      exact ⟨rfl, (if_neg (not_le.mpr hplain)).symm⟩
    · split at hvalue
      next s' hs' =>
        cases hvalue
        rw [if_pos (not_lt.mp hplain)]
        exact ⟨rfl, (Rfc7541.decode_of_decodeHuffman hs').symm⟩
      next => cases hvalue
  refine ⟨?_, by rw [hrest.1, List.length_drop]; omega⟩
  rw [parseString_eq]
  refine bind_eq_ok.mpr ⟨_, _, readInteger_refines (by norm_num) (by norm_num) hlength hlt, ?_⟩
  refine bind_eq_ok.mpr ⟨m.take length, m.drop length, ?_, ?_⟩
  · rw [chunk, hnat, if_neg hshort]
  · rw [ListReader.pure, hrest.1, ← hrest.2]

/-- The name as the parser reads it. -/
def FieldName.ofRfc : Rfc7541.FieldName → FieldName
  | .indexed index => .indexed (UInt32.ofNat index)
  | .literal name => .literal name

/-- The field as the parser reads it. -/
def Field.ofRfc : Rfc7541.Field → Field
  | .indexed index => .indexed (UInt32.ofNat index)
  | .literal name value incremental => .literal (FieldName.ofRfc name) value incremental
  | .sizeUpdate size => .sizeUpdate (UInt32.ofNat size)

end Hpack

namespace Rfc7541

/-- The index into the tables that a field refers to. -/
def Field.index : Field → Option ℕ
  | .indexed index => some index
  | .literal (.indexed index) _ _ => some index
  | _ => none

/-- The integers of a field fit 32 bits. -/
def Field.Small (f : Field) : Prop :=
  (∀ index ∈ f.index, index < 2 ^ 32) ∧ ∀ size, f = .sizeUpdate size → size < 2 ^ 32

end Rfc7541

namespace Hpack

open ListReader

private theorem fieldName_read_refines {index : ℕ} (hindex : index < 2 ^ 32) {bs rest : Octets}
    {name : Rfc7541.FieldName} (h : Rfc7541.FieldName.read index bs = .ok (name, rest))
    (hlen : bs.length < 2 ^ 32) :
    FieldName.read (UInt32.ofNat index) bs = .ok (FieldName.ofRfc name, rest) ∧
      rest.length ≤ bs.length := by
  have hnat : (UInt32.ofNat index).toNat = index := UInt32.toNat_ofNat_of_lt hindex
  unfold Rfc7541.FieldName.read at h
  unfold FieldName.read
  split_ifs at h with h0
  · obtain ⟨s, m, hs, hm⟩ := bind_eq_ok.mp h
    cases hm
    obtain ⟨hstring, hle⟩ := readString_refines hs hlen
    rw [if_pos (by rw [h0]; rfl)]
    exact ⟨bind_eq_ok.mpr ⟨s, _, hstring, rfl⟩, hle⟩
  · cases h
    have hne : UInt32.ofNat index ≠ 0 := by
      intro hzero
      rw [hzero] at hnat
      exact h0 hnat.symm
    rw [if_neg hne]
    exact ⟨rfl, le_rfl⟩

/-- The name that was read for a non-zero index is that index. -/
private theorem index_of_fieldName_read {index : ℕ} {bs rest : Octets} {name : Rfc7541.FieldName}
    (h : Rfc7541.FieldName.read index bs = .ok (name, rest)) :
    index = 0 ∨ name = .indexed index := by
  unfold Rfc7541.FieldName.read at h
  split_ifs at h with h0
  · exact .inl h0
  · cases h
    exact .inr rfl

private theorem readLiteral_refines {N : ℕ} (h1 : 1 ≤ N) (h8 : N ≤ 8) {incremental : Bool}
    {bs rest : Octets} {f : Rfc7541.Field}
    (h : Rfc7541.Field.readLiteral N incremental bs = .ok (f, rest)) (hf : f.Small)
    (hlen : bs.length < 2 ^ 32) :
    Field.readLiteral N incremental bs = .ok (Field.ofRfc f, rest) ∧ rest.length ≤ bs.length := by
  obtain ⟨index, m, hindex, h⟩ := bind_eq_ok.mp h
  obtain ⟨name, m', hname, h⟩ := bind_eq_ok.mp h
  obtain ⟨value, m'', hvalue, h⟩ := bind_eq_ok.mp h
  cases h
  have hm := length_le_of_readInteger hindex
  -- an index is 0, or it is that of the field
  have hsmall : index < 2 ^ 32 := by
    rcases index_of_fieldName_read hname with rfl | rfl
    · norm_num
    · exact hf.1 index rfl
  obtain ⟨hname', hm'⟩ := fieldName_read_refines hsmall hname (by omega)
  obtain ⟨hvalue', hm''⟩ := readString_refines hvalue (by omega)
  refine ⟨bind_eq_ok.mpr ⟨_, _, readInteger_refines h1 h8 hindex hsmall, ?_⟩, by omega⟩
  exact bind_eq_ok.mpr ⟨_, _, hname', bind_eq_ok.mpr ⟨_, _, hvalue', rfl⟩⟩

/-- The patterns of the first octet. -/
private theorem pattern_iff (b : Octet) :
    (b &&& 0x80 ≠ 0 ↔ 128 ≤ b.toNat) ∧
      (b.toNat < 128 → (b &&& 0x40 ≠ 0 ↔ 64 ≤ b.toNat)) ∧
      (b.toNat < 64 → (b &&& 0x20 ≠ 0 ↔ 32 ≤ b.toNat)) := by
  have key : ∀ i : Fin 256, (UInt8.ofNat i &&& 0x80 ≠ 0 ↔ 128 ≤ i.val) ∧
      (i.val < 128 → (UInt8.ofNat i &&& 0x40 ≠ 0 ↔ 64 ≤ i.val)) ∧
      (i.val < 64 → (UInt8.ofNat i &&& 0x20 ≠ 0 ↔ 32 ≤ i.val)) := by decide +kernel
  simpa using key ⟨b.toNat, b.toNat_lt⟩

/-- A field of the specification is read alike. -/
theorem read_refines {bs rest : Octets} {f : Rfc7541.Field}
    (h : Rfc7541.Field.read bs = .ok (f, rest)) (hf : f.Small) (hlen : bs.length < 2 ^ 32) :
    Field.read bs = .ok (Field.ofRfc f, rest) ∧ rest.length ≤ bs.length := by
  unfold Rfc7541.Field.read byHead at h
  beta_reduce at h
  unfold Field.read byHead Field.readAt
  obtain ⟨h80, h40, h20⟩ := pattern_iff (bs.headD 0)
  split_ifs at h with hindexed hincremental hupdate
  · -- indexed
    rw [if_pos (h80.mpr hindexed)]
    obtain ⟨index, m, hindex, h⟩ := bind_eq_ok.mp h
    cases h
    refine ⟨?_, length_le_of_readInteger hindex⟩
    have hsmall := hf.1 index rfl
    exact bind_eq_ok.mpr
      ⟨_, _, readInteger_refines (by norm_num) (by norm_num) hindex hsmall, rfl⟩
  · -- literal, with indexing
    rw [if_neg (h80.not.mpr hindexed), if_pos ((h40 (by omega)).mpr hincremental)]
    exact readLiteral_refines (by norm_num) (by norm_num) h hf hlen
  · -- dynamic table size update
    rw [if_neg (h80.not.mpr hindexed), if_neg ((h40 (by omega)).not.mpr hincremental),
      if_pos ((h20 (by omega)).mpr hupdate)]
    obtain ⟨size, m, hsize, h⟩ := bind_eq_ok.mp h
    cases h
    refine ⟨?_, length_le_of_readInteger hsize⟩
    have hsmall := hf.2 size rfl
    exact bind_eq_ok.mpr ⟨_, _, readInteger_refines (by norm_num) (by norm_num) hsize hsmall, rfl⟩
  · -- literal, not indexed
    rw [if_neg (h80.not.mpr hindexed), if_neg ((h40 (by omega)).not.mpr hincremental),
      if_neg ((h20 (by omega)).not.mpr hupdate)]
    exact readLiteral_refines (by norm_num) (by norm_num) h hf hlen

/-! ## Applying -/

/-- The parser has at least what the decoder of the specification has. -/
structure Sim (limit : ℕ) (d : Rfc7541.Decoder) (p : Parser) : Prop where
  /-- The static table has its 61 entries. -/
  table_eq : p.table = staticHeaderTable
  /-- The newest entries of the parser are those of the decoder. -/
  isPrefix : d.entries <+: p.headerMap
  /-- The table of the decoder is within its bound. -/
  total_le : BoundedTable.total Rfc7541.entrySize d.entries ≤ d.maxSize
  /-- The bound is within the limit. -/
  maxSize_le : d.maxSize ≤ limit

variable {limit : ℕ} {d d' : Rfc7541.Decoder} {p : Parser}

theorem Sim.initial (limit : ℕ) : Sim limit (.initial limit) {} where
  table_eq := rfl
  isPrefix := List.prefix_rfl
  total_le := Nat.zero_le limit
  maxSize_le := le_rfl

private theorem entries_length_mul_le (entries : List Header) :
    entries.length * 32 ≤ BoundedTable.total Rfc7541.entrySize entries :=
  BoundedTable.length_mul_le (fun _ => Nat.le_add_left 32 _) entries

/-- Every index that the decoder can look up fits 32 bits. -/
private theorem index_lt_of_lookup (hsim : Sim limit d p) (hlimit : limit < 2 ^ 32) {index : ℕ}
    {h : Header} (hlook : d.lookup index = some h) : index < 2 ^ 32 := by
  unfold Rfc7541.Decoder.lookup at hlook
  split_ifs at hlook with h0 h61
  · omega
  · have hlt := (List.getElem?_eq_some_iff.mp hlook).1
    -- each entry counts at least 32 octets
    have := entries_length_mul_le d.entries
    have := hsim.total_le
    have := hsim.maxSize_le
    omega

/-- An index other than 61 is looked up alike. -/
private theorem headerByIndex_refines (hsim : Sim limit d p) (hlimit : limit < 2 ^ 32) {index : ℕ}
    {h : Header} (hlook : d.lookup index = some h) (h61 : index ≠ 61) :
    (Parser.headerByIndex (UInt32.ofNat index)).run p = .ok h p := by
  have hnat : (UInt32.ofNat index).toNat = index :=
    UInt32.toNat_ofNat_of_lt (index_lt_of_lookup hsim hlimit hlook)
  unfold Rfc7541.Decoder.lookup at hlook
  split_ifs at hlook with h0 hle
  · -- below 61 both look into the static table
    exact Parser.headerByIndex_static hsim.table_eq (by omega) (by rwa [hnat])
  · -- above it both count the entries of the dynamic table from the newest one
    rw [Parser.headerByIndex_dynamic hsim.table_eq (by omega), hnat]
    obtain ⟨rest, hrest⟩ := hsim.isPrefix
    have hlt := (List.getElem?_eq_some_iff.mp hlook).1
    have hget : p.headerMap[index - 62]? = some h := by
      rw [← hrest, List.getElem?_append_left hlt, hlook]
    rw [hget]

/-- The integers of a field that can be decoded fit 32 bits. -/
theorem small_of_step (hsim : Sim limit d p) (hlimit : limit < 2 ^ 32) {f : Rfc7541.Field}
    {hs : List Header} (hstep : d.step limit f = some (hs, d')) : f.Small := by
  cases f with
  | indexed index =>
    obtain ⟨h, hlook, -⟩ := Option.map_eq_some_iff.mp hstep
    refine ⟨?_, by simp⟩
    rintro _ ⟨⟩
    exact index_lt_of_lookup hsim hlimit hlook
  | literal name value incremental =>
    refine ⟨?_, by simp⟩
    obtain ⟨key, hkey, -⟩ := Option.bind_eq_some_iff.mp hstep
    cases name with
    | indexed index =>
      obtain ⟨h, hlook, -⟩ := Option.map_eq_some_iff.mp hkey
      rintro _ ⟨⟩
      exact index_lt_of_lookup hsim hlimit hlook
    | literal name => simp [Rfc7541.Field.index]
  | sizeUpdate size =>
    simp only [Rfc7541.Decoder.step, Option.ite_none_right_eq_some] at hstep
    refine ⟨by simp [Rfc7541.Field.index], ?_⟩
    rintro _ ⟨⟩
    omega

private theorem name_refines (hsim : Sim limit d p) (hlimit : limit < 2 ^ 32)
    {name : Rfc7541.FieldName} {key value : Octets} {incremental : Bool}
    (hname : d.name name = some key)
    (h61 : (Rfc7541.Field.literal name value incremental).index ≠ some 61) :
    (FieldName.ofRfc name).apply.run p = .ok key p := by
  cases name with
  | indexed index =>
    obtain ⟨h, hlook, rfl⟩ := Option.map_eq_some_iff.mp hname
    have hrun := headerByIndex_refines hsim hlimit hlook fun h => h61 (congrArg some h)
    simp [FieldName.ofRfc, FieldName.apply, hrun]
  | literal name =>
    cases hname
    rfl

/-- A field that does not refer to index 61 is applied alike. -/
theorem step_refines (hsim : Sim limit d p) (hlimit : limit < 2 ^ 32) {f : Rfc7541.Field}
    {hs : List Header} (hstep : d.step limit f = some (hs, d')) (h61 : f.index ≠ some 61) :
    ∃ p', (Field.ofRfc f).apply.run p = .ok () p' ∧ Sim limit d' p' ∧
      p'.decoded = p.decoded ++ hs := by
  cases f with
  | indexed index =>
    obtain ⟨h, hlook, heq⟩ := Option.map_eq_some_iff.mp hstep
    cases heq
    have hrun := headerByIndex_refines hsim hlimit hlook fun h => h61 (congrArg some h)
    refine ⟨Parser.push h p, by simp [Field.ofRfc, Field.apply, hrun], ?_, rfl⟩
    exact ⟨hsim.table_eq, hsim.isPrefix, hsim.total_le, hsim.maxSize_le⟩
  | literal name value incremental =>
    obtain ⟨key, hkey, heq⟩ := Option.bind_eq_some_iff.mp hstep
    have hrun := name_refines hsim hlimit hkey h61
    cases incremental with
    | true =>
      cases heq
      refine ⟨Parser.insert ⟨key, value⟩ (Parser.push ⟨key, value⟩ p),
        by simp [Field.ofRfc, Field.apply, hrun], ?_, rfl⟩
      exact ⟨hsim.table_eq, BoundedTable.insert_isPrefix _ _ hsim.isPrefix,
        BoundedTable.total_insert_le _ _ _, hsim.maxSize_le⟩
    | false =>
      cases heq
      refine ⟨Parser.push ⟨key, value⟩ p, by simp [Field.ofRfc, Field.apply, hrun], ?_, rfl⟩
      exact ⟨hsim.table_eq, hsim.isPrefix, hsim.total_le, hsim.maxSize_le⟩
  | sizeUpdate size =>
    have hsmall := (small_of_step hsim hlimit hstep).2 size rfl
    have hnat : (UInt32.ofNat size).toNat = size := UInt32.toNat_ofNat_of_lt hsmall
    simp only [Rfc7541.Decoder.step, Option.ite_none_right_eq_some, Option.some.injEq,
      Prod.mk.injEq] at hstep
    obtain ⟨hle, rfl, rfl⟩ := hstep
    refine ⟨Parser.resize (UInt32.ofNat size) p, rfl, ?_, by simp [Parser.resize]⟩
    have htotal : BoundedTable.total Rfc7541.entrySize
        (BoundedTable.evict Rfc7541.entrySize size d.entries) ≤ size :=
      BoundedTable.total_evict_le size d.entries
    refine ⟨hsim.table_eq, ?_, htotal, hle⟩
    -- that many octets hold at most that many entries
    have hlen := entries_length_mul_le (BoundedTable.evict Rfc7541.entrySize size d.entries)
    refine List.prefix_take_iff.mpr ⟨(BoundedTable.evict_isPrefix _ _).trans hsim.isPrefix, ?_⟩
    rw [hnat]
    show (BoundedTable.evict Rfc7541.entrySize size d.entries).length ≤ size
    omega

/-! ## Blocks -/

/-- The fields of a block are read and applied alike. -/
theorem many_refines (hlimit : limit < 2 ^ 32) {bs : Octets} {fields : List Rfc7541.Field}
    {rest : Octets} (hmany : Many Rfc7541.Field.read bs fields rest) (hlen : bs.length < 2 ^ 32)
    (h61 : ∀ f ∈ fields, f.index ≠ some 61) (hsim : Sim limit d p) {hs : List Header}
    (hsteps : d.steps limit fields = some (hs, d')) :
    Many Field.read bs (fields.map Field.ofRfc) rest ∧
      ∃ p', (applyAll (fields.map Field.ofRfc)).run p = .ok () p' ∧ Sim limit d' p' ∧
        p'.decoded = p.decoded ++ hs := by
  induction hmany generalizing d p hs with
  | nil bs =>
    cases hsteps
    exact ⟨.nil bs, p, rfl, hsim, by simp⟩
  | @cons bs m rest f fields hread htail ih =>
    obtain ⟨⟨hs₁, d₁⟩, hstep, hsteps⟩ := Option.bind_eq_some_iff.mp hsteps
    obtain ⟨⟨hs₂, d₂⟩, hsteps, heq⟩ := Option.bind_eq_some_iff.mp hsteps
    cases heq
    obtain ⟨hread', hle⟩ := read_refines hread (small_of_step hsim hlimit hstep) hlen
    obtain ⟨p₁, hrun, hsim₁, hdec₁⟩ := step_refines hsim hlimit hstep (h61 f List.mem_cons_self)
    obtain ⟨hmany', p', hrun', hsim', hdec'⟩ := ih (lt_of_le_of_lt hle hlen)
      (fun f hf => h61 f (List.mem_cons_of_mem _ hf)) hsim₁ hsteps
    refine ⟨.cons hread' hmany', p', by simp [hrun, hrun'], hsim', ?_⟩
    rw [hdec', hdec₁, List.append_assoc]

/-- A frame carries a header block: all of it, unpadded and without priority. -/
structure Carries (f : Frame) (block : Octets) : Prop where
  /-- The payload is the block. -/
  data_eq : f.data = block
  /-- The frame header gives its length. -/
  length_eq : f.length.toNat = block.length
  /-- END_HEADERS is set. -/
  endHeaders : f.flags &&& Characteristics.Headers.endHeaders ≠ 0
  /-- PADDED is not. -/
  unpadded : f.flags &&& Characteristics.Headers.padded = 0
  /-- Nor is PRIORITY. -/
  noPriority : f.flags &&& Characteristics.Headers.priority = 0

/-- Parse frames: the headers that `result` returns after each, and the parser from there on, if
every call of `parse` returns `eDone`. -/
def Parser.decodeAll (p : Parser) : List Frame → Option (List (List Header × Parser))
  | [] => some []
  | f :: fs =>
    match (Parser.parse f).run p with
    | .ok .done p => (decodeAll p.result.2 fs).map ((p.result.1, p.result.2) :: ·)
    | _ => none

private theorem completion_eq_done {f : Frame} {block : Octets} (hf : Carries f block) :
    Parser.completion f.flags = .done := by
  have key : ∀ i : Fin 256, UInt8.ofNat i &&& Characteristics.Headers.endHeaders ≠ 0 →
      UInt8.ofNat i &&&
        (Characteristics.Headers.endHeaders ||| Characteristics.Headers.endStream) ≠ 0 := by
    decide +kernel
  have hflag := key ⟨f.flags.toNat, f.flags.toNat_lt⟩
  simp only [UInt8.ofNat_toNat] at hflag
  rw [Parser.completion, if_pos (hflag hf.endHeaders)]

/-- A block that both accept is decoded alike, and the tables stay related. -/
theorem parse_refines (hlimit : limit < 2 ^ 32) {f : Frame} {block : Octets}
    (hf : Carries f block)
    (h61 : ∀ fields ∈ Rfc7541.fields block, ∀ f ∈ fields, f.index ≠ some 61)
    (hsim : Sim limit d p) (hdec : p.decoded = []) {hs : List Header}
    (hdecode : d.decode limit block = some (hs, d')) {p' : Parser}
    (hparse : (Parser.parse f).run p = .ok .done p') :
    Sim limit d' p'.result.2 ∧ p'.result.1 = hs := by
  obtain ⟨fields, hfields, hsteps⟩ := Option.bind_eq_some_iff.mp hdecode
  have hlen : block.length < 2 ^ 32 := hf.length_eq ▸ f.length.toNat_lt
  have hall : all Rfc7541.Field.read () block.length block = .ok fields := by
    unfold Rfc7541.fields at hfields
    cases h : all Rfc7541.Field.read () block.length block with
    | error e => simp [h, Except.toOption] at hfields
    | ok fs => simpa [h, Except.toOption] using hfields
  obtain ⟨hmany, p₁, hrun, hsim₁, hdec₁⟩ :=
    many_refines hlimit (many_of_all hall) hlen (h61 fields hfields) hsim hsteps
  have hpayload := HeadersPayload.ofFrame_eq_data hf.unpadded hf.noPriority
  split_ifs at hpayload with hnil
  · -- the parser does not accept an empty block
    rw [parse_of_ofFrame_error hpayload] at hparse
    cases hparse
  · rw [← hf.data_eq] at hmany
    rw [parse_of_many hpayload hmany, hrun, Parser.caught, completion_eq_done hf] at hparse
    cases hparse
    refine ⟨⟨hsim₁.table_eq, hsim₁.isPrefix, hsim₁.total_le, hsim₁.maxSize_le⟩, ?_⟩
    rw [Parser.result, hdec₁, hdec, List.nil_append]

/-- If both accept all blocks, they decode them alike, and after each block the dynamic table of
the decoder is a prefix of the one of the parser. -/
def Alike (limit : ℕ) (d : Rfc7541.Decoder) (p : Parser) (blocks : List Octets)
    (frames : List Frame) : Prop :=
  ∀ rs ∈ d.decodeAll limit blocks, ∀ ps ∈ p.decodeAll frames,
    List.Forall₂ (fun r p => p.1 = r.1 ∧ r.2.entries <+: p.2.headerMap) rs ps

/-- No field of the block refers to a certain index of the tables. -/
def Avoids (index : ℕ) (block : Octets) : Prop :=
  ∀ fields ∈ Rfc7541.fields block, ∀ f ∈ fields, f.index ≠ some index

instance (index : ℕ) (block : Octets) : Decidable (Avoids index block) :=
  inferInstanceAs (Decidable (∀ fields ∈ Rfc7541.fields block, ∀ f ∈ fields, f.index ≠ some index))

private theorem alike_of_sim (hlimit : limit < 2 ^ 32) {frames : List Frame}
    {blocks : List Octets} (hcarry : List.Forall₂ Carries frames blocks)
    (h61 : ∀ block ∈ blocks, Avoids 61 block) (hsim : Sim limit d p) (hdec : p.decoded = []) :
    Alike limit d p blocks frames := by
  intro rs hrs ps hps
  induction hcarry generalizing d p rs ps with
  | nil =>
    cases hrs
    cases hps
    exact .nil
  | @cons f block frames blocks hf htail ih =>
    obtain ⟨⟨hs, d₁⟩, hdecode, hbind⟩ := Option.bind_eq_some_iff.mp hrs
    obtain ⟨rs', hrs', heq⟩ := Option.bind_eq_some_iff.mp hbind
    cases heq
    rw [Option.mem_def, Parser.decodeAll] at hps
    split at hps
    next p₁ hparse =>
      obtain ⟨ps', hps', rfl⟩ := Option.map_eq_some_iff.mp hps
      obtain ⟨hsim₁, hresult⟩ := parse_refines hlimit hf (h61 block List.mem_cons_self) hsim hdec
        hdecode hparse
      refine .cons ⟨hresult, hsim₁.isPrefix⟩ ?_
      exact ih (fun block hblock => h61 block (List.mem_cons_of_mem _ hblock)) hsim₁ rfl rs' hrs'
        ps' hps'
    next => cases hps

theorem carries_ofBlock {block : Octets} (h : block.length < 2 ^ 32) :
    Carries (Frame.ofBlock block) block :=
  ⟨rfl, UInt32.toNat_ofNat_of_lt h,
    (by decide : Characteristics.Headers.endHeaders &&& Characteristics.Headers.endHeaders ≠ 0),
    (by decide : Characteristics.Headers.endHeaders &&& Characteristics.Headers.padded = 0),
    (by decide : Characteristics.Headers.endHeaders &&& Characteristics.Headers.priority = 0)⟩

/-- `a: b`, to be indexed. -/
def insertion : Octets := [0x40, 0x01, 0x61, 0x01, 0x62]

/-- Under every size limit of 32 bits, blocks that do not refer to the static index 61 are decoded
alike. -/
theorem alike_of_avoids {limit : ℕ} (hlimit : limit < 2 ^ 32) {frames : List Frame}
    {blocks : List Octets} (hcarry : List.Forall₂ Carries frames blocks)
    (h61 : ∀ block ∈ blocks, Avoids 61 block) :
    Alike limit (.initial limit) {} blocks frames :=
  alike_of_sim hlimit hcarry h61 (.initial limit) rfl

/-- `a: b` is indexed, and referred to. Then the table gets room for one entry, `c: d` is put in the
place of `a: b`, and is referred to. -/
def sampleBlocks : List Octets :=
  [insertion, [0xBE], [0x3F, 0x03, 0x40, 0x01, 0x63, 0x01, 0x64], [0xBE]]

/-- These blocks are accepted by both and decoded alike. -/
theorem alike_sample :
    ((Rfc7541.Decoder.initial 4096).decodeAll 4096 sampleBlocks).isSome ∧
      (Parser.decodeAll {} (sampleBlocks.map Frame.ofBlock)).isSome ∧
      Alike 4096 (.initial 4096) {} sampleBlocks (sampleBlocks.map Frame.ofBlock) := by
  have hlength : ∀ block ∈ sampleBlocks, block.length < 2 ^ 32 := by decide
  have hcarry : List.Forall₂ Carries (sampleBlocks.map Frame.ofBlock) sampleBlocks :=
    List.forall₂_map_left_iff.mpr
      (List.forall₂_same.mpr fun block hblock => carries_ofBlock (hlength block hblock))
  exact ⟨by decide, by decide, alike_of_avoids (by norm_num) hcarry (by decide)⟩

/-! ## Where they differ -/

/-- The static index 61 by itself. -/
private def lastStatic : Octets := [0xBD]

/-- The parser after `n` insertions. -/
def inserted (n : ℕ) : Parser where
  headerMap := List.replicate n ⟨octets "a", octets "b"⟩

theorem parse_insertion (n : ℕ) :
    (Parser.parse (Frame.ofBlock insertion)).run (inserted n) =
      .ok .done { inserted (n + 1) with decoded := [⟨octets "a", octets "b"⟩] } := by
  have hread : Field.read insertion =
      .ok (.literal (.literal (octets "a")) (octets "b") true, []) := by
    decide
  have hpayload : HeadersPayload.ofFrame (Frame.ofBlock insertion) = .ok ⟨0, 0, 0, insertion⟩ := by
    decide
  rw [parse_of_many hpayload (.cons hread (.nil []))]
  rfl

/-- With that many entries, the index wraps around to the last one. -/
private theorem parse_lastStatic {n : ℕ} (hn : n = 2 ^ 32) :
    (Parser.parse (Frame.ofBlock lastStatic)).run (inserted n) =
      .ok .done { inserted n with decoded := [⟨octets "a", octets "b"⟩] } := by
  have hread : Field.read lastStatic = .ok (.indexed 61, []) := by decide
  have hpayload : HeadersPayload.ofFrame (Frame.ofBlock lastStatic) =
      .ok ⟨0, 0, 0, lastStatic⟩ := by
    decide
  have hlook : (Parser.headerByIndex 61).run (inserted n) =
      .ok ⟨octets "a", octets "b"⟩ (inserted n) := by
    have hindex : ((61 : UInt32) - UInt32.ofNat staticHeaderTable.size - 1).toNat = 2 ^ 32 - 1 := by
      decide
    have hget : (inserted n).headerMap[2 ^ 32 - 1]? = some ⟨octets "a", octets "b"⟩ := by
      rw [inserted, List.getElem?_replicate, if_pos (by omega)]
    have htable : (inserted n).table = staticHeaderTable := rfl
    rw [headerByIndex_of_le (by decide : staticHeaderTable.size ≤ (61 : UInt32).toNat),
      htable, hindex, hget]
  rw [parse_of_many hpayload (.cons hread (.nil []))]
  simp only [applyAll_cons, applyAll_nil, Field.apply, EStateM.run_bind, hlook]
  rfl

/-- A decoder without a dynamic table tells the last static entry from the inserted ones. -/
private theorem not_alike_inserted {k n : ℕ} (hkn : k + n = 2 ^ 32) :
    ¬ Alike 0 (.initial 0) (inserted k) (List.replicate n insertion ++ [lastStatic])
      (List.replicate n (Frame.ofBlock insertion) ++ [Frame.ofBlock lastStatic]) := by
  induction n generalizing k with
  | zero =>
    intro h
    have hrs : (Rfc7541.Decoder.initial 0).decodeAll 0 [lastStatic] =
        some [([⟨octets "www-authenticate", []⟩], .initial 0)] := by decide
    have hps : (inserted k).decodeAll [Frame.ofBlock lastStatic] =
        some [([⟨octets "a", octets "b"⟩], inserted k)] := by
      rw [Parser.decodeAll, parse_lastStatic (by omega)]
      rfl
    have hne : [Header.mk (octets "a") (octets "b")] ≠ [⟨octets "www-authenticate", []⟩] := by
      decide
    exact hne (List.forall₂_cons.mp (h _ hrs _ hps)).1.1
  | succ n ih =>
    -- one insertion, behind which there is one less to come
    intro h
    refine ih (k := k + 1) (by omega) fun rs hrs ps hps => ?_
    have hstep : (Rfc7541.Decoder.initial 0).decode 0 insertion =
        some ([⟨octets "a", octets "b"⟩], .initial 0) := by decide
    have hrs' : (Rfc7541.Decoder.initial 0).decodeAll 0
        (List.replicate (n + 1) insertion ++ [lastStatic]) =
          some (([⟨octets "a", octets "b"⟩], .initial 0) :: rs) := by
      rw [List.replicate_succ, List.cons_append, Rfc7541.Decoder.decodeAll, hstep]
      simp only [Option.bind_eq_bind, Option.bind_some, Option.mem_def.mp hrs]
      rfl
    have hps' : (inserted k).decodeAll
        (List.replicate (n + 1) (Frame.ofBlock insertion) ++ [Frame.ofBlock lastStatic]) =
          some (([⟨octets "a", octets "b"⟩], inserted (k + 1)) :: ps) := by
      rw [List.replicate_succ, List.cons_append, Parser.decodeAll, parse_insertion]
      show Option.map _ ((inserted (k + 1)).decodeAll _) = _
      rw [Option.mem_def.mp hps]
      rfl
    exact (List.forall₂_cons.mp (h _ hrs' _ hps')).2

/-- A table size update to `2 ^ 32`. -/
private def hugeUpdate : Octets := [0x3F, 0xE1, 0xFF, 0xFF, 0xFF, 0x0F]

private theorem not_alike_hugeUpdate :
    ¬ Alike (2 ^ 32) (.initial (2 ^ 32)) {} [insertion, hugeUpdate]
      [Frame.ofBlock insertion, Frame.ofBlock hugeUpdate] := by
  intro h
  have hrs : (Rfc7541.Decoder.initial (2 ^ 32)).decodeAll (2 ^ 32) [insertion, hugeUpdate] =
      some [([⟨octets "a", octets "b"⟩], ⟨2 ^ 32, [⟨octets "a", octets "b"⟩]⟩),
        ([], ⟨2 ^ 32, [⟨octets "a", octets "b"⟩]⟩)] := by decide
  have hps : (Parser.decodeAll {} [Frame.ofBlock insertion, Frame.ofBlock hugeUpdate]).map
      (fun ps => ps.map fun p => p.2.headerMap) = some [[⟨octets "a", octets "b"⟩], []] := by
    decide
  obtain ⟨ps, hps, hmap⟩ := Option.map_eq_some_iff.mp hps
  obtain ⟨p₁, ps, rfl, -, hmap⟩ := List.map_eq_cons_iff.mp hmap
  obtain ⟨p₂, ps, rfl, hnil, -⟩ := List.map_eq_cons_iff.mp hmap
  obtain ⟨-, hsecond⟩ := List.forall₂_cons.mp (h _ hrs _ hps)
  have hprefix := (List.forall₂_cons.mp hsecond).1.2
  rw [hnil] at hprefix
  exact absurd (List.prefix_nil.mp hprefix) (by simp)

/-- Neither condition of `alike_of_avoids` can be left out: an update to `2 ^ 32` empties the table
of the parser, and behind `2 ^ 32` insertions the index 61 refers to the first of them. -/
theorem not_alike :
    (¬ ∀ (limit : ℕ) (blocks : List Octets) (frames : List Frame),
      List.Forall₂ Carries frames blocks → (∀ block ∈ blocks, Avoids 61 block) →
        Alike limit (.initial limit) {} blocks frames) ∧
    ¬ ∀ (limit : ℕ) (blocks : List Octets) (frames : List Frame), limit < 2 ^ 32 →
      List.Forall₂ Carries frames blocks → Alike limit (.initial limit) {} blocks frames := by
  constructor
  · intro h
    refine not_alike_hugeUpdate (h (2 ^ 32) _ _ ?_ ?_)
    · exact .cons (carries_ofBlock (by decide)) (.cons (carries_ofBlock (by decide)) .nil)
    · decide
  · intro h
    have hcarry : ∀ n, List.Forall₂ Carries
        (List.replicate n (Frame.ofBlock insertion) ++ [Frame.ofBlock lastStatic])
        (List.replicate n insertion ++ [lastStatic]) := by
      intro n
      induction n with
      | zero => exact .cons (carries_ofBlock (by decide)) .nil
      | succ n ih => exact .cons (carries_ofBlock (by decide)) ih
    exact not_alike_inserted (k := 0) (Nat.zero_add _) (h 0 _ _ (by norm_num) (hcarry _))

end Hpack

end Rite
