import Rite.H2.Frame
import Rite.Hpack.HuffmanCorrect
import Rite.Hpack.Integer
import Rite.Hpack.StaticTable

/-!
# The header block encoder (`serializer<h2::hpack>`)

`searchIndex`, `serialize` and `finish` follow `src/protocols/h2/hpack.cpp`. The iteration order
of the unordered static table is unspecified, so it is an argument: a list of the entries in the
order in which the range-`for` visits them.

## Main results

* `searchIndex_spec`: whatever the order is, what `searchIndex` finds is in the table, and what it
  does not find is not.
-/

namespace Rite

namespace Hpack

/-- `std::tolower` in the "C" locale. -/
def tolower (c : Octet) : Octet := if 0x41 ≤ c ∧ c ≤ 0x5A then c + 0x20 else c

/-- `to_lower`. -/
def toLower (data : Octets) : Octets := data.map tolower

/-- `serializer<h2::hpack>`. -/
structure Serializer where
  /-- `payload`. -/
  payload : Octets := []

namespace Serializer

/-- The alternatives of the variant that `search_index` returns. -/
inductive Where
  | fullyIndexed (index : ℕ)
  | keyIndexed (index : ℕ)
  | literal
  deriving DecidableEq

/-- The loop of `search_index`; `none` stands for a `best_index` of -1. -/
def searchLoop (key value : Octets) (best : Option ℕ) : List (ℕ × Header) → Where
  | [] =>
    match best with
    | some index => .keyIndexed index
    | none => .literal
  | (idx, header) :: order =>
    if header.key = key ∧ header.value = value then .fullyIndexed idx
    else if header.key = key ∧ header.value ≠ value then searchLoop key value (some idx) order
    else searchLoop key value best order

/-- `search_index`. -/
def searchIndex (order : List (ℕ × Header)) (h : Header) : Where :=
  searchLoop (toLower h.key) h.value none order

/-- `wire[0] = (wire[0] & mask) | flags`. -/
def flag (mask flags : Octet) : Octets → Octets
  | [] => []
  | b :: bs => ((b &&& mask) ||| flags) :: bs

/-- A Huffman-coded string literal. The size is converted to the `uint32_t` of `encode`. -/
def string (s : Octets) : Octets :=
  let huffman := decoder.encode s
  let wire := VariableInteger.encode 7 (UInt32.ofNat huffman.length)
  flag 0xFF 0b10000000 wire ++ huffman

/-- What the loop of `serialize` appends to the payload for one header. -/
def field (order : List (ℕ × Header)) (h : Header) : Octets :=
  match searchIndex order h with
  | .fullyIndexed index => flag 0xFF 0b10000000 (VariableInteger.encode 7 (UInt32.ofNat index))
  | .keyIndexed index =>
    flag 0b00111111 0b01000000 (VariableInteger.encode 6 (UInt32.ofNat index)) ++ string h.value
  | .literal => 0b00000000 :: (string h.key ++ string h.value)

/-- `serialize`. -/
def serialize (order : List (ℕ × Header)) (list : List Header) (s : Serializer) : Serializer :=
  list.foldl (fun s h => ⟨s.payload ++ field order h⟩) s

/-- `finish`, which moves the payload into the frame. -/
def finish (streamId : UInt32) (s : Serializer) : Frame × Serializer :=
  ({ length := UInt32.ofNat s.payload.length
     type := .headers
     flags := Characteristics.Headers.endHeaders
     streamIdentifier := streamId
     data := s.payload }, ⟨[]⟩)

/-- The header blocks of the frames that one serializer makes of lists of headers. -/
def blocks (order : List (ℕ × Header)) (tx : Serializer) :
    List (UInt32 × List Header) → List Octets
  | [] => []
  | (streamId, list) :: lists =>
    let (frame, tx) := (tx.serialize order list).finish streamId
    frame.data :: tx.blocks order lists

/-! ## The search -/

/-- What a search result says about the table. -/
def Where.Fits (entries : List (ℕ × Header)) (key value : Octets) : Where → Prop
  | fullyIndexed index => (index, ⟨key, value⟩) ∈ entries
  | keyIndexed index => ∃ value', (index, ⟨key, value'⟩) ∈ entries
  | literal => ∀ e ∈ entries, e.2.key ≠ key

/-- The loop keeps a best index whose name matches, if any name seen so far does. -/
private theorem searchLoop_spec (key value : Octets) (order : List (ℕ × Header))
    {seen : List (ℕ × Header)} {best : Option ℕ}
    (hsome : ∀ index ∈ best, ∃ value', (index, ⟨key, value'⟩) ∈ seen)
    (hnone : best = none → ∀ e ∈ seen, e.2.key ≠ key) :
    (searchLoop key value best order).Fits (seen ++ order) key value := by
  induction order generalizing seen best with
  | nil =>
    rw [List.append_nil]
    cases best with
    | none => exact hnone rfl
    | some index => exact hsome index rfl
  | cons entry order ih =>
    obtain ⟨idx, header⟩ := entry
    rw [show seen ++ (idx, header) :: order = (seen ++ [(idx, header)]) ++ order by simp]
    unfold searchLoop
    split_ifs with hfull hkey
    · -- the loop ends here
      obtain ⟨rfl, rfl⟩ := hfull
      simp [Where.Fits]
    · -- the last match replaces the ones before it
      refine ih ?_ (by simp)
      rintro _ ⟨⟩
      exact ⟨header.value, by simp [← hkey.1]⟩
    · have hne : header.key ≠ key := fun hk => hkey ⟨hk, fun hv => hfull ⟨hk, hv⟩⟩
      refine ih ?_ ?_
      · intro index hindex
        obtain ⟨value', hmem⟩ := hsome index hindex
        exact ⟨value', List.mem_append_left _ hmem⟩
      · intro hbest e he
        rcases List.mem_append.mp he with he | he
        · exact hnone hbest e he
        · obtain rfl := List.mem_singleton.mp he
          exact hne

/-- Whatever the iteration order is, the search tells what is in the table. -/
theorem searchIndex_spec (order : List (ℕ × Header)) (h : Header) :
    (searchIndex order h).Fits order (toLower h.key) h.value := by
  refine @searchLoop_spec _ _ order [] none ?_ ?_
  · rintro _ ⟨⟩
  · rintro - _ ⟨⟩

/-- A header that is in the table is found as a whole. -/
theorem searchLoop_of_mem {key value : Octets} {order : List (ℕ × Header)}
    (h : ∃ e ∈ order, e.2 = ⟨key, value⟩) (best : Option ℕ) :
    ∃ index, searchLoop key value best order = .fullyIndexed index := by
  induction order generalizing best with
  | nil => simp at h
  | cons entry order ih =>
    obtain ⟨idx, header⟩ := entry
    unfold searchLoop
    split_ifs with hfull hkey
    · exact ⟨idx, rfl⟩
    all_goals
      -- it is one of the entries that follow
      refine ih ?_ _
      obtain ⟨e, he, heq⟩ := h
      rcases List.mem_cons.mp he with rfl | he
      · exact absurd ⟨congrArg Header.key heq, congrArg Header.value heq⟩ hfull
      · exact ⟨e, he, heq⟩

/-! ## The payload -/

/-- The fields of a list stand one after the other in the payload. -/
theorem serialize_payload (order : List (ℕ × Header)) (list : List Header) (s : Serializer) :
    (s.serialize order list).payload = s.payload ++ list.flatMap (field order) := by
  unfold serialize
  induction list generalizing s with
  | nil => simp
  | cons h list ih => rw [List.foldl_cons, ih, List.flatMap_cons, List.append_assoc]

theorem blocks_cons (order : List (ℕ × Header)) (streamId : UInt32) (list : List Header)
    (lists : List (UInt32 × List Header)) :
    blocks order {} ((streamId, list) :: lists) =
      list.flatMap (field order) :: blocks order {} lists :=
  congrArg (· :: _) ((serialize_payload order list {}).trans (List.nil_append _))

private theorem and_mask {mask b : Octet} {M : ℕ} (hmask : mask.toNat = 2 ^ M - 1)
    (hb : b.toNat < 2 ^ M) : b &&& mask = b := by
  apply UInt8.toNat_inj.mp
  rw [UInt8.toNat_and, hmask, Nat.and_two_pow_sub_one_eq_mod, Nat.mod_eq_of_lt hb]

/-- An integer with flags above its prefix. -/
theorem flag_encode {N M : ℕ} (h8 : N ≤ 8) (hM : N ≤ M) (mask flags : Octet)
    (hmask : mask.toNat = 2 ^ M - 1) (value : UInt32) :
    ∃ b bs, VariableInteger.encode N value = b :: bs ∧ b.toNat < 2 ^ N ∧
      flag mask flags (VariableInteger.encode N value) = (flags ||| b) :: bs := by
  obtain ⟨b, bs, henc⟩ := VariableInteger.encode_eq_cons N value
  have hb := VariableInteger.encode_head_lt h8 henc
  have hbM : b.toNat < 2 ^ M := lt_of_lt_of_le hb (Nat.pow_le_pow_right (by norm_num) hM)
  refine ⟨b, bs, henc, hb, ?_⟩
  rw [henc, flag, and_mask hmask hbM, UInt8.or_comm]

/-- No field is empty. -/
theorem field_ne_nil (order : List (ℕ × Header)) (h : Header) : field order h ≠ [] := by
  unfold field
  cases searchIndex order h with
  | fullyIndexed index =>
    obtain ⟨b, bs, -, -, hflag⟩ := flag_encode (N := 7) (M := 8) (by norm_num) (by norm_num) 0xFF
      0b10000000 rfl (UInt32.ofNat index)
    simp [hflag]
  | keyIndexed index =>
    obtain ⟨b, bs, -, -, hflag⟩ := flag_encode (N := 6) (M := 6) (by norm_num) (by norm_num)
      0b00111111 0b01000000 rfl (UInt32.ofNat index)
    simp [hflag]
  | literal => simp

end Serializer

/-! ## Lengths -/

/-- The string literals of a header can be written. -/
def Header.Fits (h : Header) : Prop :=
  (decoder.encode h.key).length < 2 ^ 32 ∧ (decoder.encode h.value).length < 2 ^ 32

theorem Header.fits_of_length {h : Header} (hkey : h.key.length < 2 ^ 30)
    (hvalue : h.value.length < 2 ^ 30) : h.Fits := by
  have hk := Huffman.length_encode_le h.key
  have hv := Huffman.length_encode_le h.value
  exact ⟨by omega, by omega⟩

end Hpack

end Rite
