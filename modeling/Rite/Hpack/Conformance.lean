import Rite.Hpack.Rfc7541
import Rite.Hpack.Serializer

/-!
# The serializer against the decoder of RFC 7541

The serializer writes an index of the static table, a literal with such a name, or a literal with
a new name, and all strings in the Huffman code. A decoder of the specification reads all of them,
whatever its dynamic table holds and however large it may grow: the serializer never refers to
that table.

## Main results

* `decodeHuffman_encode`, `readInteger_encode`: strings and integers are read back;
* `read_field`: so are fields;
* `decode_serialize`: so is a block, and its headers are `received` ones;
* `conforms`: every block is accepted, and its fields are those of its list.
-/

namespace Rite

namespace Rfc7541

open Hpack ListReader

/-! ## Strings and integers -/

/-- A string that `huffman.cpp` has encoded is accepted. -/
theorem decodeHuffman_encode (s : Octets) : decodeHuffman (decoder.encode s) = some s := by
  obtain ⟨k, hk, hbits⟩ := Huffman.bits_encode s
  rw [decodeHuffman, hbits]
  refine PrefixCode.strict_encode_append reads_symbol (fun p _ hp => ?_) ?_ s
  · -- the padding begins with no code
    have hones : ∀ b ∈ p, b = true := fun b hb => List.eq_of_mem_replicate (hp.subset hb)
    rw [Option.eq_none_iff_forall_not_mem]
    intro a ha
    have hcode := (Huffman.reads_hpackCode p a).mpr ((reads_symbol p a).mp ha)
    rw [Huffman.symbol_of_forall_true hones] at hcode
    cases hcode
  · simp [padding, hk]

/-- An integer is read back, with flags above its prefix. -/
theorem readInteger_encode {N : ℕ} (h8 : N ≤ 8) (value : UInt32) (flags : Octet) {b : Octet}
    {bs : Octets} (hflags : flags.toNat % 2 ^ N = 0)
    (henc : VariableInteger.encode N value = b :: bs) (rest : Octets) :
    readInteger N ((flags ||| b) :: (bs ++ rest)) = .ok (value.toNat, rest) := by
  have hmod := VariableInteger.or_toNat_mod_two_pow flags b hflags
  rw [readInteger, hmod]
  rcases VariableInteger.encode_cases h8 henc with ⟨hlt, hb, rfl⟩ | ⟨hb, v, rfl, hsum⟩
  · rw [hb, if_pos hlt, List.nil_append]
  · rw [hb, if_neg (lt_irrefl _), VariableInteger.decode_encodeRest]
    simp only [hsum]

/-- An integer of the serializer is read back: with its flags, then from its octets. -/
private theorem flag_readInteger {N M : ℕ} (h8 : N ≤ 8) (hM : N ≤ M) (mask flags : Octet)
    (hmask : mask.toNat = 2 ^ M - 1) (hflags : flags.toNat % 2 ^ N = 0) (value : UInt32) :
    ∃ b bs, b.toNat < 2 ^ N ∧
      Serializer.flag mask flags (VariableInteger.encode N value) = (flags ||| b) :: bs ∧
      ∀ rest, readInteger N ((flags ||| b) :: (bs ++ rest)) = .ok (value.toNat, rest) := by
  obtain ⟨b, bs, henc, hb, hflag⟩ := Serializer.flag_encode h8 hM mask flags hmask value
  exact ⟨b, bs, hb, hflag, readInteger_encode h8 value flags hflags henc⟩

private theorem le_or_toNat (flags b : Octet) : flags.toNat ≤ (flags ||| b).toNat := by
  rw [UInt8.toNat_or]
  exact Nat.left_le_or

private theorem or_toNat_lt {flags b : Octet} {n : ℕ} (hflags : flags.toNat < 2 ^ n)
    (hb : b.toNat < 2 ^ n) : (flags ||| b).toNat < 2 ^ n := by
  rw [UInt8.toNat_or]
  exact Nat.or_lt_two_pow hflags hb

/-- A string literal is read back. -/
theorem readString_string {s : Octets} (hs : (decoder.encode s).length < 2 ^ 32) (rest : Octets) :
    readString (Serializer.string s ++ rest) = .ok (s, rest) := by
  obtain ⟨b, bs, -, hflag, hread⟩ := flag_readInteger (N := 7) (M := 8) (by norm_num)
    (by norm_num) 0xFF 0b10000000 rfl rfl (UInt32.ofNat (decoder.encode s).length)
  have hlen : (UInt32.ofNat (decoder.encode s).length).toNat = (decoder.encode s).length :=
    UInt32.toNat_ofNat_of_lt hs
  have hhuffman : ¬ (0b10000000 ||| b : Octet).toNat < 128 := not_lt.mpr (le_or_toNat 0b10000000 b)
  rw [Serializer.string, hflag, List.cons_append, List.cons_append, List.append_assoc]
  refine bind_eq_ok.mpr ⟨_, _, hread (decoder.encode s ++ rest), ?_⟩
  rw [hlen]
  refine bind_eq_ok.mpr ⟨decoder.encode s, rest, by simp [chunk], ?_⟩
  rw [List.headD_cons, literalValue, if_neg hhuffman, decodeHuffman_encode]

/-! ## Fields -/

/-- The field that the serializer writes for a header. -/
def represent (order : List (ℕ × Header)) (h : Header) : Field :=
  match Serializer.searchIndex order h with
  | .fullyIndexed index => .indexed index
  | .keyIndexed index => .literal (.indexed index) h.value true
  | .literal => .literal (.literal h.key) h.value false

/-- A field is read back. -/
theorem read_field {order : List (ℕ × Header)} (horder : order.Perm staticHeaderTable.items)
    {h : Header} (hfits : h.Fits) (rest : Octets) :
    Field.read (Serializer.field order h ++ rest) = .ok (represent order h, rest) := by
  have hspec := Serializer.searchIndex_spec order h
  unfold Serializer.field represent
  cases hsearch : Serializer.searchIndex order h with
  | fullyIndexed index =>
    rw [hsearch] at hspec
    have hnat := toNat_ofNat_of_mem_items (horder.mem_iff.mp hspec)
    obtain ⟨b, bs, -, hflag, hread⟩ := flag_readInteger (N := 7) (M := 8) (by norm_num)
      (by norm_num) 0xFF 0b10000000 rfl rfl (UInt32.ofNat index)
    simp only [hflag, List.cons_append]
    unfold Field.read byHead
    beta_reduce
    rw [List.headD_cons, if_pos (show 128 ≤ _ from le_or_toNat 0b10000000 b)]
    rw [hnat] at hread
    exact bind_eq_ok.mpr ⟨_, _, hread rest, rfl⟩
  | keyIndexed index =>
    rw [hsearch] at hspec
    obtain ⟨value', hmem⟩ := hspec
    have hmem' := horder.mem_iff.mp hmem
    have hnat := toNat_ofNat_of_mem_items hmem'
    -- an index of the static table is not the one for a new name
    have hne : index ≠ 0 := by
      have hpos : 1 ≤ index := (key_eq_iff_of_mem_items _ hmem').1
      omega
    obtain ⟨b, bs, hb, hflag, hread⟩ := flag_readInteger (N := 6) (M := 6) (by norm_num)
      (by norm_num) 0b00111111 0b01000000 rfl rfl (UInt32.ofNat index)
    have hlt : (0b01000000 ||| b : Octet).toNat < 2 ^ 7 :=
      or_toNat_lt (by decide) (hb.trans (by norm_num))
    simp only [hflag, List.cons_append, List.append_assoc]
    unfold Field.read byHead
    beta_reduce
    rw [List.headD_cons, if_neg (show ¬ 128 ≤ _ from not_le.mpr hlt),
      if_pos (show 64 ≤ _ from le_or_toNat 0b01000000 b)]
    rw [hnat] at hread
    refine bind_eq_ok.mpr ⟨_, _, hread (Serializer.string h.value ++ rest), ?_⟩
    refine bind_eq_ok.mpr ⟨.indexed index, Serializer.string h.value ++ rest, ?_, ?_⟩
    · rw [FieldName.read, if_neg hne]
      rfl
    exact bind_eq_ok.mpr ⟨_, _, readString_string hfits.2 rest, rfl⟩
  | literal =>
    -- the index 0 stands for a name that follows
    simp only [List.cons_append, List.append_assoc]
    unfold Field.read byHead
    beta_reduce
    rw [List.headD_cons, if_neg (by decide), if_neg (by decide), if_neg (by decide)]
    refine bind_eq_ok.mpr
      ⟨0, Serializer.string h.key ++ (Serializer.string h.value ++ rest), ?_, ?_⟩
    · simp [readInteger]
    refine bind_eq_ok.mpr ⟨.literal h.key, Serializer.string h.value ++ rest, ?_, ?_⟩
    · rw [FieldName.read, if_pos rfl]
      exact bind_eq_ok.mpr ⟨_, _, readString_string hfits.1 _, rfl⟩
    exact bind_eq_ok.mpr ⟨_, _, readString_string hfits.2 rest, rfl⟩

/-! ## Blocks -/

/-- The header arrives: its value as it was, and its name up to the case of ASCII letters. -/
structure Arrives (sent received : Header) : Prop where
  /-- The value is the same. -/
  value : received.value = sent.value
  /-- The name is the same in lower case. -/
  key : toLower received.key = toLower sent.key

/-- The name has an index in the static table, in whatever case it is written. -/
def Indexed (name : Octets) : Prop := ∃ e ∈ staticHeaderTable.items, e.2.key = toLower name

instance (name : Octets) : Decidable (Indexed name) :=
  inferInstanceAs (Decidable (∃ e ∈ staticHeaderTable.items, e.2.key = toLower name))

/-- The header that a decoder finds: a name of the static table is sent as an index, any other name
as it is. -/
def received (h : Header) : Header :=
  ⟨if Indexed h.key then toLower h.key else h.key, h.value⟩

theorem toLower_toLower (s : Octets) : toLower (toLower s) = toLower s := by
  have key : ∀ i : Fin 256, tolower (tolower (UInt8.ofNat i)) = tolower (UInt8.ofNat i) := by
    decide +kernel
  simp only [toLower, List.map_map]
  refine List.map_congr_left fun c _ => ?_
  simpa using key ⟨c.toNat, c.toNat_lt⟩

theorem arrives_received (h : Header) : Arrives h (received h) := by
  refine ⟨rfl, ?_⟩
  unfold received
  split_ifs
  · exact toLower_toLower h.key
  · rfl

variable (limit : ℕ) {order : List (ℕ × Header)}

/-- The field of a header gives that header, whatever the dynamic table holds. -/
theorem step_represent (horder : order.Perm staticHeaderTable.items) (h : Header) (d : Decoder) :
    ∃ d', d.step limit (represent order h) = some ([received h], d') := by
  have hspec := Serializer.searchIndex_spec order h
  have hindexed : ∀ {index value}, (index, Header.mk (toLower h.key) value) ∈ order →
      Indexed h.key := fun hmem => ⟨_, horder.mem_iff.mp hmem, rfl⟩
  have hlookup : ∀ {index value}, (index, Header.mk (toLower h.key) value) ∈ order →
      d.lookup index = some ⟨toLower h.key, value⟩ := fun hmem => by
    have hmem' := horder.mem_iff.mp hmem
    obtain ⟨h1, h61, -⟩ := key_eq_iff_of_mem_items _ hmem'
    rw [Decoder.lookup, if_neg (Nat.one_le_iff_ne_zero.mp h1), if_pos h61]
    exact StaticTable.lookup_of_mem_items hmem'
  unfold represent received
  cases hsearch : Serializer.searchIndex order h with
  | fullyIndexed index =>
    rw [hsearch] at hspec
    refine ⟨d, ?_⟩
    rw [if_pos (hindexed hspec), Decoder.step, hlookup hspec]
    rfl
  | keyIndexed index =>
    rw [hsearch] at hspec
    obtain ⟨value', hmem⟩ := hspec
    -- the header also enters the dynamic table, if it fits there
    refine ⟨⟨d.maxSize, BoundedTable.insert entrySize d.maxSize ⟨toLower h.key, h.value⟩ d.entries⟩,
      ?_⟩
    rw [if_pos (hindexed hmem), Decoder.step, Decoder.name, hlookup hmem]
    rfl
  | literal =>
    rw [hsearch] at hspec
    have hnot : ¬ Indexed h.key := by
      rintro ⟨e, he, hkey⟩
      exact hspec e (horder.mem_iff.mpr he) hkey
    rw [if_neg hnot]
    exact ⟨d, rfl⟩

/-- The fields of a list give its headers in their order. -/
private theorem steps_represent (horder : order.Perm staticHeaderTable.items) (list : List Header)
    (d : Decoder) :
    ∃ d', d.steps limit (list.map (represent order)) = some (list.map received, d') := by
  induction list generalizing d with
  | nil => exact ⟨d, rfl⟩
  | cons h list ih =>
    obtain ⟨d₁, hstep⟩ := step_represent limit horder h d
    obtain ⟨d₂, hsteps⟩ := ih d₁
    exact ⟨d₂, by simp [Decoder.steps, hstep, hsteps]⟩

/-- The block of a list is read field by field. -/
theorem many_serialize (horder : order.Perm staticHeaderTable.items) {list : List Header}
    (hfits : ∀ h ∈ list, h.Fits) :
    Many Field.read (list.flatMap (Serializer.field order)) (list.map (represent order)) [] :=
  many_flatMap fun h hmem => read_field horder (hfits h hmem)

private theorem fields_serialize (horder : order.Perm staticHeaderTable.items)
    {list : List Header} (hfits : ∀ h ∈ list, h.Fits) :
    fields (list.flatMap (Serializer.field order)) = some (list.map (represent order)) := by
  have hnil : ∀ f m, Field.read [] ≠ .ok (f, m) := by
    intro f m h
    cases h
  -- no field is empty, so there are no more fields than octets
  have hlength : (list.map (represent order)).length ≤
      (list.flatMap (Serializer.field order)).length := by
    rw [List.length_map, List.length_flatMap, ← List.length_map (f := fun h =>
      (Serializer.field order h).length)]
    refine List.length_le_sum_of_one_le _ fun n hn => ?_
    obtain ⟨h, hmem, rfl⟩ := List.mem_map.mp hn
    exact List.length_pos_iff.mpr (Serializer.field_ne_nil order h)
  rw [fields, all_of_many (many_serialize horder hfits) hnil hlength]
  rfl

/-- A decoder of the specification finds the headers of a list in its block. -/
theorem decode_serialize (horder : order.Perm staticHeaderTable.items) {list : List Header}
    (hfits : ∀ h ∈ list, h.Fits) (d : Decoder) :
    ∃ d', d.decode limit (list.flatMap (Serializer.field order)) =
      some (list.map received, d') := by
  obtain ⟨d', hsteps⟩ := steps_represent limit horder list d
  refine ⟨d', ?_⟩
  rw [Decoder.decode, fields_serialize horder hfits]
  exact hsteps

/-- A decoder of the specification, in whatever state and with whatever limit, accepts every block
of the serializer, and finds the headers of its list in it. -/
theorem conforms (horder : order.Perm staticHeaderTable.items)
    {lists : List (UInt32 × List Header)} (hfits : ∀ l ∈ lists, ∀ h ∈ l.2, h.Fits)
    (limit : ℕ) (d : Decoder) :
    ∃ results, d.decodeAll limit (Serializer.blocks order {} lists) = some results ∧
      List.Forall₂ (fun l r => List.Forall₂ Arrives l.2 r.1) lists results := by
  induction lists generalizing d with
  | nil => exact ⟨[], rfl, .nil⟩
  | cons l lists ih =>
    obtain ⟨streamId, list⟩ := l
    obtain ⟨d₁, hdecode⟩ := decode_serialize limit horder (hfits _ List.mem_cons_self) d
    obtain ⟨results, hresults, hall⟩ := ih (fun l hl => hfits l (List.mem_cons_of_mem _ hl)) d₁
    have harrive : List.Forall₂ Arrives list (list.map received) :=
      List.forall₂_map_right_iff.mpr (List.forall₂_same.mpr fun h _ => arrives_received h)
    refine ⟨(list.map received, d₁) :: results, ?_, .cons harrive hall⟩
    rw [Serializer.blocks_cons, Decoder.decodeAll, hdecode]
    simp [hresults]

/-- An indexed field, a literal that does not fit the dynamic table, and a name with a capital. -/
theorem conforms_sample :
    ∃ results, (Decoder.initial 0).decodeAll 0 (Serializer.blocks staticHeaderTable.items {}
        [(1, [⟨octets ":status", octets "200"⟩, ⟨octets "server", octets "rite"⟩]),
          (3, [⟨octets "X-Powered-By", octets "rite"⟩])]) = some results ∧
      List.Forall₂ (fun l r => List.Forall₂ Arrives l.2 r.1)
        [((1 : UInt32), [⟨octets ":status", octets "200"⟩, ⟨octets "server", octets "rite"⟩]),
          (3, [⟨octets "X-Powered-By", octets "rite"⟩])] results := by
  refine conforms (List.Perm.refl _) (fun l hl h hh => ?_) 0 _
  have hlength : h.key.length < 2 ^ 30 ∧ h.value.length < 2 ^ 30 := by
    revert h l
    decide
  exact Header.fits_of_length hlength.1 hlength.2

end Rfc7541

end Rite
