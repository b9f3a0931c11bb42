import Rite.H2.Frame

/-!
# The layout of the HEADERS payload

RFC 7540, section 6.2: the length of the padding and the priority fields come first, each of them
only with its flag, then the header block fragment, and the padding at the end.

The constructor reserves the distance from the beginning of the payload to the fragment, less the
padding, instead of the size of the fragment. And it makes a number of the four octets of the
dependency, highest first, of which `ntohl` then reverses the octets.

## Main results

* `ofFrame_of_carries`: what the constructor makes of a payload that has this layout;
* `decodes_iff`: it is what has been laid out exactly if there is no more padding than there are
  fields in front of the fragment, and the dependency reads the same from both ends;
* `not_decodes`: two octets of padding, and a dependency on the first stream.
-/

namespace Rite

/-! ## Octets of a number -/

namespace Frame

theorem bigEndian_ofBigEndian (b0 b1 b2 b3 : Octet) :
    bigEndian (ofBigEndian b0 b1 b2 b3) = [b0, b1, b2, b3] := by
  have h0 := b0.toNat_lt
  have h1 := b1.toNat_lt
  have h2 := b2.toNat_lt
  have h3 := b3.toNat_lt
  simp only [bigEndian, List.cons.injEq, and_true, ← UInt8.toNat_inj, UInt32.toNat_toUInt8,
    UInt32.toNat_shiftRight, toNat_ofBigEndian, Nat.shiftRight_eq_div_pow, UInt32.reduceToNat,
    Nat.reduceMod]
  omega

theorem bigEndian_injective : Function.Injective bigEndian := by
  intro v w h
  simp only [bigEndian, List.cons.injEq, and_true] at h
  rw [← ofBigEndian_octets v, ← ofBigEndian_octets w, h.1, h.2.1, h.2.2.1, h.2.2.2]

end Frame

/-- `ntohl` reverses the octets. -/
theorem HeadersPayload.bigEndian_ntohl (v : UInt32) :
    Frame.bigEndian (ntohl v) = (Frame.bigEndian v).reverse :=
  Frame.bigEndian_ofBigEndian _ _ _ _

/-- `characteristics<HEADERS>::is_exclusive`. -/
def Characteristics.Headers.isExclusive (payload : HeadersPayload) : Bool :=
  payload.streamDependency &&& ((1 : UInt32) <<< 31) != 0

theorem and_one_shiftLeft_31_ne_zero_iff (v : UInt32) :
    v &&& ((1 : UInt32) <<< 31) ≠ 0 ↔ 2 ^ 31 ≤ v.toNat := by
  have hone : ((1 : UInt32) <<< 31).toNat = 2 ^ 31 := rfl
  have hlt := v.toNat_lt
  rw [ne_eq, ← UInt32.toNat_inj, UInt32.toNat_and, hone, UInt32.toNat_zero, Nat.and_two_pow,
    Nat.testBit_eq_decide_div_mod_eq]
  -- the bit is the quotient of the number by `2 ^ 31`
  rcases lt_or_ge v.toNat (2 ^ 31) with hsmall | hbig
  · rw [Nat.div_eq_of_lt hsmall]
    simpa using hsmall
  · have hdiv : v.toNat / 2 ^ 31 = 1 := by omega
    rw [hdiv]
    simpa using hbig

/-! ## The layout -/

/-- The priority fields. -/
structure PriorityFields where
  /-- E. -/
  exclusive : Bool
  /-- The stream dependency. -/
  dependency : ℕ
  /-- The dependency has 31 bits. -/
  dependency_lt : dependency < 2 ^ 31
  /-- The weight. -/
  weight : UInt8

namespace PriorityFields

/-- E and the dependency. -/
def word (p : PriorityFields) : UInt32 :=
  UInt32.ofNat (p.exclusive.toNat * 2 ^ 31 + p.dependency)

theorem word_toNat (p : PriorityFields) :
    p.word.toNat = p.exclusive.toNat * 2 ^ 31 + p.dependency := by
  have hexclusive := p.exclusive.toNat_le
  have hdependency := p.dependency_lt
  exact UInt32.toNat_ofNat_of_lt' (by simp only [UInt32.size]; omega)

/-- The octets of the fields. -/
def octets (p : PriorityFields) : Octets := Frame.bigEndian p.word ++ [p.weight]

/-- A number has these fields exactly if it is their word. -/
theorem eq_word_iff (p : PriorityFields) (v : UInt32) :
    v.toNat % 2 ^ 31 = p.dependency ∧ (2 ^ 31 ≤ v.toNat ↔ p.exclusive = true) ↔ v = p.word := by
  have hlt := p.dependency_lt
  have hv := v.toNat_lt
  rw [← UInt32.toNat_inj, word_toNat]
  cases p.exclusive with
  | false =>
    simp only [Bool.toNat_false, Bool.false_eq_true, iff_false, not_le]
    omega
  | true =>
    simp only [Bool.toNat_true, iff_true]
    omega

end PriorityFields

/-- What a HEADERS payload is made of. -/
structure HeadersLayout where
  /-- The padding, if the payload is padded. -/
  padding : Option {padding : Octets // padding.length ≤ 255}
  /-- The priority fields, if the payload has them. -/
  priority : Option PriorityFields
  /-- The header block fragment. -/
  fragment : Octets
  /-- It has at least one octet. -/
  fragment_ne_nil : fragment ≠ []

namespace HeadersLayout

open HeadersPayload Characteristics

variable (l : HeadersLayout)

/-- The padding, if any. -/
def pad : Octets := l.padding.elim [] Subtype.val

/-- The fields in front of the fragment. -/
def fields : Octets :=
  l.padding.elim [] (fun p => [UInt8.ofNat p.val.length]) ++
    l.priority.elim [] PriorityFields.octets

/-- The payload. -/
def octets : Octets := l.fields ++ l.fragment ++ l.pad

/-- The frame has the flags and the payload of the layout. -/
structure Carries (f : Frame) : Prop where
  /-- PADDED. -/
  padded_iff : f.flags &&& Headers.padded ≠ 0 ↔ l.padding.isSome
  /-- PRIORITY. -/
  priority_iff : f.flags &&& Headers.priority ≠ 0 ↔ l.priority.isSome
  /-- The payload. -/
  data_eq : f.data = l.octets

/-- The constructor returns what has been laid out. -/
def Decodes (f : Frame) : Prop :=
  ∃ payload, ofFrame f = .ok payload ∧ payload.data = l.fragment ∧
    (∀ p ∈ l.padding, payload.padLength.toNat = p.val.length) ∧
    ∀ p ∈ l.priority, payload.weight = p.weight ∧
      payload.streamDependency.toNat % 2 ^ 31 = p.dependency ∧
      (Headers.isExclusive payload = true ↔ p.exclusive = true)

/-- The padding is not longer than the fields in front of the fragment. -/
def PaddingShort : Prop := l.pad.length ≤ l.fields.length

instance : Decidable l.PaddingShort := inferInstanceAs (Decidable (_ ≤ _))

/-- The octets of E and the dependency are the same from both ends. -/
def DependencySymmetric : Prop :=
  ∀ p ∈ l.priority, (Frame.bigEndian p.word).reverse = Frame.bigEndian p.word

variable {l} {f : Frame}

theorem length_pad_le : l.pad.length ≤ 255 := by
  unfold pad
  cases l.padding with
  | none => simp
  | some p => exact p.2

/-- The fields in front of the fragment are as long as their flags tell. -/
theorem Carries.offset_eq (h : l.Carries f) : offset f = l.fields.length := by
  have hpadded := h.padded_iff
  have hpriority := h.priority_iff
  unfold offset fields
  rw [List.length_append]
  congr 1
  · cases hl : l.padding <;> simp [hl] at hpadded <;> simp [hpadded]
  · cases hl : l.priority <;> simp [hl] at hpriority <;>
      simp [hpriority, PriorityFields.octets, Frame.bigEndian]

/-- The pad length is that of the padding. -/
theorem Carries.padding_eq (h : l.Carries f) :
    HeadersPayload.padding f = UInt8.ofNat l.pad.length := by
  have hpadded := h.padded_iff
  unfold HeadersPayload.padding
  rw [h.data_eq]
  cases hl : l.padding with
  | none =>
    have hflag : f.flags &&& Headers.padded = 0 := by simpa [hl] using hpadded
    simp [hflag, pad, hl]
  | some p =>
    have hflag : f.flags &&& Headers.padded ≠ 0 := by simp [hpadded, hl]
    rw [if_pos hflag]
    simp [octets, fields, pad, hl]

theorem Carries.padding_toNat (h : l.Carries f) :
    (HeadersPayload.padding f).toNat = l.pad.length := by
  have hle := length_pad_le (l := l)
  rw [h.padding_eq, UInt8.toNat_ofNat', Nat.mod_eq_of_lt (by omega)]

/-- The constructor can read the payload if the padding is short. -/
theorem Carries.readable_iff (h : l.Carries f) : Readable f ↔ l.PaddingShort := by
  have hfragment := List.length_pos_iff.mpr l.fragment_ne_nil
  unfold Readable PaddingShort
  rw [h.offset_eq, h.padding_toNat, h.data_eq, octets]
  -- the fragment has an octet, so the payload is longer than its padding
  simp only [List.length_append, and_iff_left_iff_imp]
  omega

theorem Carries.fragment_eq (h : l.Carries f) : HeadersPayload.fragment f = l.fragment := by
  have hlen : l.octets.length - l.pad.length = (l.fields ++ l.fragment).length := by
    rw [octets, List.length_append, Nat.add_sub_cancel]
  rw [HeadersPayload.fragment, h.offset_eq, h.padding_toNat, h.data_eq, hlen, octets,
    List.take_left, List.drop_left]

/-- What the constructor makes of the priority fields. -/
private theorem Carries.priority_eq (h : l.Carries f) {p : PriorityFields} (hp : p ∈ l.priority) :
    let pos := if f.flags &&& Headers.padded ≠ 0 then 1 else 0
    ntohl (Frame.ofBigEndian (f.data.getD (pos + 0) 0) (f.data.getD (pos + 1) 0)
      (f.data.getD (pos + 2) 0) (f.data.getD (pos + 3) 0)) = ntohl p.word ∧
    f.data.getD (pos + 4) 0 = p.weight := by
  have hpadded := h.padded_iff
  have hpriority : l.priority = some p := hp
  rw [h.data_eq]
  cases hl : l.padding with
  | none =>
    have hflag : f.flags &&& Headers.padded = 0 := by simpa [hl] using hpadded
    simp [hflag, octets, fields, hl, hpriority, PriorityFields.octets, Frame.bigEndian,
      Frame.ofBigEndian_octets]
  | some padding =>
    have hflag : f.flags &&& Headers.padded ≠ 0 := by simp [hpadded, hl]
    simp [hflag, octets, fields, hl, hpriority, PriorityFields.octets, Frame.bigEndian,
      Frame.ofBigEndian_octets]

/-- The constructor returns the fragment if the padding is short, with the octets of E and the
dependency in reverse order. -/
theorem Carries.ofFrame_of_paddingShort (h : l.Carries f) (hshort : l.PaddingShort) :
    ∃ payload, ofFrame f = .ok payload ∧ payload.data = l.fragment ∧
      payload.padLength.toNat = l.pad.length ∧
      ∀ p ∈ l.priority, payload.weight = p.weight ∧ payload.streamDependency = ntohl p.word := by
  obtain ⟨payload, hok, hdata⟩ := ofFrame_eq_ok_iff.mpr (h.readable_iff.mpr hshort)
  refine ⟨payload, hok, hdata.trans h.fragment_eq, ?_⟩
  -- what is returned has come through all checks
  unfold ofFrame at hok
  extract_lets padLength priority pos octet streamDependency weight pos' data at hok
  split_ifs at hok
  cases hok
  refine ⟨h.padding_toNat, fun p hp => ?_⟩
  have hpriority : priority := by simp [priority, h.priority_iff, Option.mem_def.mp hp]
  obtain ⟨hword, hweight⟩ := h.priority_eq hp
  exact ⟨(if_pos hpriority).trans hweight, (if_pos hpriority).trans hword⟩

/-- A payload is decoded to what has been laid out exactly if there is no more padding than there
are fields in front of the fragment, and the dependency reads the same from both ends. -/
theorem decodes_iff (h : l.Carries f) :
    l.Decodes f ↔ l.PaddingShort ∧ l.DependencySymmetric := by
  have hsymmetric (p : PriorityFields) :
      ntohl p.word = p.word ↔ (Frame.bigEndian p.word).reverse = Frame.bigEndian p.word := by
    rw [← bigEndian_ntohl, Frame.bigEndian_injective.eq_iff]
  have hfields (p : PriorityFields) (payload : HeadersPayload) :
      payload.streamDependency.toNat % 2 ^ 31 = p.dependency ∧
        (Headers.isExclusive payload = true ↔ p.exclusive = true) ↔
          payload.streamDependency = p.word := by
    rw [← p.eq_word_iff, ← and_one_shiftLeft_31_ne_zero_iff, Headers.isExclusive, bne_iff_ne]
  constructor
  · rintro ⟨payload, hok, -, -, hpriority⟩
    -- the constructor returns, and so it returns what it makes of short padding
    have hshort := h.readable_iff.mp (readable_of_ofFrame hok)
    obtain ⟨payload', hok', -, -, hpriority'⟩ := h.ofFrame_of_paddingShort hshort
    obtain rfl : payload = payload' := Except.ok.inj (hok.symm.trans hok')
    refine ⟨hshort, fun p hp => (hsymmetric p).mp ?_⟩
    exact (hpriority' p hp).2.symm.trans ((hfields p payload).mp (hpriority p hp).2)
  · rintro ⟨hshort, hdependency⟩
    obtain ⟨payload, hok, hdata, hpad, hpriority⟩ := h.ofFrame_of_paddingShort hshort
    refine ⟨payload, hok, hdata, fun p hp => ?_, fun p hp => ?_⟩
    · rw [hpad, pad, Option.mem_def.mp hp, Option.elim_some]
    · obtain ⟨hweight, hword⟩ := hpriority p hp
      exact ⟨hweight, (hfields p payload).mpr (hword.trans ((hsymmetric p).mpr (hdependency p hp)))⟩

/-- A payload with two octets of padding and a dependency on the stream `0x01000001`. -/
def sample : HeadersLayout where
  padding := some ⟨[0, 0], by decide⟩
  priority := some ⟨false, 0x01000001, by norm_num, 15⟩
  fragment := [0x82]
  fragment_ne_nil := by decide

theorem decodes_sample : sample.Decodes ⟨9, .headers, 0x2C, 1, sample.octets⟩ :=
  (decodes_iff ⟨by decide, by decide, rfl⟩).mpr ⟨by decide, by
    rintro p ⟨⟩
    decide⟩

/-- Two octets of padding cannot be taken off a payload without priority fields, and a dependency
on the first stream becomes one on another stream. -/
theorem not_decodes :
    (¬ ∀ (l : HeadersLayout) (f : Frame), l.Carries f → l.priority = none → l.Decodes f) ∧
      ¬ ∀ (l : HeadersLayout) (f : Frame), l.Carries f → l.padding = none → l.Decodes f := by
  constructor
  · intro h
    have hdecodes := h ⟨some ⟨[0, 0], by decide⟩, none, [0x82], by decide⟩
      ⟨4, .headers, 0x0C, 1, [0x02, 0x82, 0x00, 0x00]⟩ ⟨by decide, by decide, rfl⟩ rfl
    obtain ⟨payload, hok, -⟩ := hdecodes
    cases hok
  · intro h
    have hdecodes := h ⟨none, some ⟨false, 1, by norm_num, 15⟩, [0x82], by decide⟩
      ⟨6, .headers, 0x24, 3, [0x00, 0x00, 0x00, 0x01, 0x0F, 0x82]⟩ ⟨by decide, by decide, rfl⟩ rfl
    obtain ⟨payload, hok, -, -, hpriority⟩ := hdecodes
    cases hok
    exact absurd (hpriority _ rfl).2.1 (by decide)

end HeadersLayout

end Rite
