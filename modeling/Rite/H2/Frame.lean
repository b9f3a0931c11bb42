import Rite.Basic

/-!
# Frames (`h2::frame`) and the payload of HEADERS

The frame and its 9-octet header from `include/protocols/h2.hpp`, and the constructor of
`h2::payload<h2::frame::HEADERS>` from `src/protocols/h2/headers.cpp`, which strips the padding
and the priority fields. The four reads that make up the stream dependency are taken from left to
right, and the host is little-endian, so that `ntohl` reverses the octets.

## Main results

* `Frame.unpack_pack`: unpacking a packed header gives back every field but the upper octet of
  the length;
* `HeadersPayload.ofFrame_eq_data`: without flags the header block fragment is the whole payload;
* `HeadersPayload.ofFrame_survives_iff`: the constructor fails by something else than a
  `std::exception` exactly when no octet of the fragment is left in front of the padding.
-/

namespace Rite

/-- `h2::frame::type`. Its underlying type is `uint8_t`, so the other octets are values of it
too. -/
inductive FrameType
  | data | headers | priority | rstStream | settings
  | pushPromise | ping | goaway | windowUpdate | continuation
  | unknown (octet : {o : Octet // 9 < o})
  deriving DecidableEq

namespace FrameType

/-- The octet that stands for a type in the frame header. -/
def toOctet : FrameType → Octet
  | data => 0x0
  | headers => 0x1
  | priority => 0x2
  | rstStream => 0x3
  | settings => 0x4
  | pushPromise => 0x5
  | ping => 0x6
  | goaway => 0x7
  | windowUpdate => 0x8
  | continuation => 0x9
  | unknown o => o

/-- `static_cast<enum type>`. -/
def ofOctet (o : Octet) : FrameType :=
  if h : 9 < o then unknown ⟨o, h⟩
  else match o.toNat with
    | 0 => data
    | 1 => headers
    | 2 => priority
    | 3 => rstStream
    | 4 => settings
    | 5 => pushPromise
    | 6 => ping
    | 7 => goaway
    | 8 => windowUpdate
    | _ => continuation

@[simp] theorem ofOctet_toOctet (t : FrameType) : ofOctet t.toOctet = t := by
  cases t with
  | unknown o => simp [toOctet, ofOctet, o.2]
  | _ => rfl

@[simp] theorem toOctet_ofOctet (o : Octet) : (ofOctet o).toOctet = o := by
  by_cases h : 9 < o
  · simp [ofOctet, h, toOctet]
  · have hle : o.toNat ≤ 9 := by simpa [UInt8.lt_iff_toNat_lt] using h
    obtain ⟨n, rfl⟩ : ∃ n : ℕ, o = UInt8.ofNat n := ⟨o.toNat, by simp⟩
    have hn : (UInt8.ofNat n).toNat = n % 2 ^ 8 := UInt8.toNat_ofNat'
    rw [← UInt8.ofNat_toNat (x := UInt8.ofNat n), hn] at h ⊢
    rw [hn] at hle
    generalize n % 2 ^ 8 = m at *
    interval_cases m <;> rfl

end FrameType

/-! ## `h2::frame::characteristics` -/

namespace Characteristics

/-- `characteristics<HEADERS>::END_STREAM`. -/
def Headers.endStream : UInt8 := 0x1

/-- `characteristics<HEADERS>::END_HEADERS`. -/
def Headers.endHeaders : UInt8 := 0x4

/-- `characteristics<HEADERS>::PADDED`. -/
def Headers.padded : UInt8 := 0x8

/-- `characteristics<HEADERS>::PRIORITY`. -/
def Headers.priority : UInt8 := 0x20

/-- `characteristics<SETTINGS>::ACK`. -/
def Settings.ack : UInt8 := 0x1

/-- `characteristics<DATA>::END_STREAM`. -/
def Data.endStream : UInt8 := 0x1

/-- `characteristics<DATA>::PADDED`. -/
def Data.padded : UInt8 := 0x8

/-- `characteristics<PING>::ACK`. -/
def Ping.ack : UInt8 := 0x1

/-- `parse` tests END_HEADERS and END_STREAM together. -/
theorem Headers.and_flags_eq_zero_iff {flags : UInt8} :
    flags &&& (endHeaders ||| endStream) = 0 ↔
      flags &&& endHeaders = 0 ∧ flags &&& endStream = 0 := by
  rw [← UInt8.or_eq_zero_iff, ← UInt8.toBitVec_inj, ← UInt8.toBitVec_inj]
  simp only [UInt8.toBitVec_and, UInt8.toBitVec_or, BitVec.and_or_distrib_left]

end Characteristics

/-! ## Frames -/

/-- `h2::frame`. -/
structure Frame where
  /-- The length that the header announces. -/
  length : UInt32
  /-- The type. -/
  type : FrameType
  /-- The flags. -/
  flags : UInt8
  /-- The stream identifier, with the reserved bit. -/
  streamIdentifier : UInt32
  /-- The payload. -/
  data : Octets
  deriving DecidableEq

/-- `HTTP2_FRAME_SIZE`. -/
def frameSize : ℕ := 9

/-- `MAX_FRAME_SIZE`. -/
def maxFrameSize : ℕ := 1024 * 1024 * 4

namespace Frame

/-- The octets of a `uint32_t`, highest first. -/
def bigEndian (v : UInt32) : Octets :=
  [(v >>> 24).toUInt8, (v >>> 16).toUInt8, (v >>> 8).toUInt8, v.toUInt8]

/-- `b0 << 24 | b1 << 16 | b2 << 8 | b3`. -/
def ofBigEndian (b0 b1 b2 b3 : Octet) : UInt32 :=
  b0.toUInt32 <<< 24 ||| b1.toUInt32 <<< 16 ||| b2.toUInt32 <<< 8 ||| b3.toUInt32

/-- `h2::frame::pack` into a buffer of nine octets: the header, without the payload. -/
def pack (f : Frame) : Octets :=
  (bigEndian f.length).tail ++ [f.type.toOctet, f.flags] ++ bigEndian f.streamIdentifier

/-- `h2::frame::unpack` into a fresh frame. `none` is the return value `false`. -/
def unpack : Octets → Option Frame
  | l0 :: l1 :: l2 :: t :: fl :: s0 :: s1 :: s2 :: s3 :: _ =>
    some {
      length := l0.toUInt32 <<< 16 ||| l1.toUInt32 <<< 8 ||| l2.toUInt32
      type := FrameType.ofOctet t
      flags := fl
      streamIdentifier := ofBigEndian s0 s1 s2 s3
      data := [] }
  | _ => none

@[simp] theorem length_pack (f : Frame) : f.pack.length = frameSize := rfl

/-- The number that four octets are the digits of. -/
theorem toNat_ofBigEndian (b0 b1 b2 b3 : Octet) :
    (ofBigEndian b0 b1 b2 b3).toNat =
      2 ^ 24 * b0.toNat + 2 ^ 16 * b1.toNat + 2 ^ 8 * b2.toNat + b3.toNat := by
  have h1 := b1.toNat_lt
  have h2 := b2.toNat_lt
  have h3 := b3.toNat_lt
  have hshift (b : Octet) {k : ℕ} (hk : k ≤ 24) : b.toNat <<< k % 2 ^ 32 = 2 ^ k * b.toNat := by
    have hlt : 2 ^ k * b.toNat < 2 ^ 24 * 2 ^ 8 :=
      Nat.mul_lt_mul_of_le_of_lt (Nat.pow_le_pow_right (by decide) hk) b.toNat_lt (by decide)
    rw [Nat.shiftLeft_eq, Nat.mul_comm, Nat.mod_eq_of_lt (by omega)]
  -- an octet is added to a multiple of what is above it
  calc
    (ofBigEndian b0 b1 b2 b3).toNat
        = 2 ^ 24 * b0.toNat ||| 2 ^ 16 * b1.toNat ||| 2 ^ 8 * b2.toNat ||| b3.toNat := by
      rw [← hshift b0 le_rfl, ← hshift b1 (by decide), ← hshift b2 (by decide)]
      rfl
    _ = 2 ^ 16 * (2 ^ 8 * b0.toNat + b1.toNat) ||| 2 ^ 8 * b2.toNat ||| b3.toNat := by
      rw [← Nat.two_pow_add_eq_or_of_lt (by omega)]
      congr 2
      omega
    _ = 2 ^ 8 * (2 ^ 8 * (2 ^ 8 * b0.toNat + b1.toNat) + b2.toNat) ||| b3.toNat := by
      rw [← Nat.two_pow_add_eq_or_of_lt (by omega)]
      congr 1
      omega
    _ = 2 ^ 24 * b0.toNat + 2 ^ 16 * b1.toNat + 2 ^ 8 * b2.toNat + b3.toNat := by
      rw [← Nat.two_pow_add_eq_or_of_lt h3]
      omega

/-- Reading the octets of a number back gives that number. -/
theorem ofBigEndian_octets (v : UInt32) :
    ofBigEndian (v >>> 24).toUInt8 (v >>> 16).toUInt8 (v >>> 8).toUInt8 v.toUInt8 = v := by
  have hlt := v.toNat_lt
  apply UInt32.toNat_inj.mp
  simp only [toNat_ofBigEndian, UInt32.toNat_toUInt8, UInt32.toNat_shiftRight,
    Nat.shiftRight_eq_div_pow, UInt32.reduceToNat, Nat.reduceMod]
  omega

/-- Three octets hold the lower 24 bits of a number. -/
private theorem octets_and_0xFFFFFF (v : UInt32) :
    (v >>> 16).toUInt8.toUInt32 <<< 16 ||| (v >>> 8).toUInt8.toUInt32 <<< 8 |||
      v.toUInt8.toUInt32 = v &&& 0xFFFFFF := by
  have hthree : (v >>> 16).toUInt8.toUInt32 <<< 16 ||| (v >>> 8).toUInt8.toUInt32 <<< 8 |||
      v.toUInt8.toUInt32 = ofBigEndian 0 (v >>> 16).toUInt8 (v >>> 8).toUInt8 v.toUInt8 := by
    simp [ofBigEndian]
  have hmask : (0xFFFFFF : UInt32).toNat = 2 ^ 24 - 1 := rfl
  apply UInt32.toNat_inj.mp
  rw [hthree, toNat_ofBigEndian, UInt32.toNat_and, hmask, Nat.and_two_pow_sub_one_eq_mod]
  simp only [UInt32.toNat_toUInt8, UInt32.toNat_shiftRight, Nat.shiftRight_eq_div_pow,
    UInt32.reduceToNat, UInt8.toNat_zero, Nat.reduceMod]
  omega

/-- The octets of a frame, as `connection<h2::protocol>::write` sends them. -/
def wire (f : Frame) : Octets := f.pack ++ f.data

theorem wire_ne_nil (f : Frame) : f.wire ≠ [] := by simp [wire, pack, bigEndian]

/-- The payload has the length that the header announces, and that is permitted. -/
def Fits (f : Frame) : Prop :=
  f.data.length = f.length.toNat ∧ f.length.toNat ≤ maxFrameSize

instance (f : Frame) : Decidable f.Fits := inferInstanceAs (Decidable (_ ∧ _))

/-- `pack` and `unpack` agree on a length of 24 bits. -/
theorem unpack_pack (f : Frame) (rest : Octets) :
    unpack (f.pack ++ rest) = some { f with length := f.length &&& 0xFFFFFF, data := [] } := by
  simp only [pack, bigEndian, List.tail_cons, List.cons_append, List.nil_append, unpack,
    octets_and_0xFFFFFF, ofBigEndian_octets, FrameType.ofOctet_toOctet]

/-- A permitted length has 24 bits. -/
theorem unpack_wire {f : Frame} (h : f.Fits) :
    unpack f.wire = some { f with data := [] } := by
  have hlength : f.length &&& 0xFFFFFF = f.length := by
    apply UInt32.toNat_inj.mp
    rw [UInt32.toNat_and, show (0xFFFFFF : UInt32).toNat = 2 ^ 24 - 1 from rfl,
      Nat.and_two_pow_sub_one_eq_mod]
    have hmax : f.length.toNat ≤ 1024 * 1024 * 4 := h.2
    exact Nat.mod_eq_of_lt (by omega)
  rw [wire, unpack_pack, hlength]

/-- The header is in the first nine octets. -/
theorem unpack_append {bytes : Octets} {f : Frame} (h : unpack bytes = some f) (more : Octets) :
    unpack (bytes ++ more) = some f := by
  unfold unpack at h
  split at h
  · exact h
  · cases h

theorem frameSize_le_of_unpack {bytes : Octets} {f : Frame} (h : unpack bytes = some f) :
    frameSize ≤ bytes.length := by
  unfold unpack at h
  split at h
  · simp [frameSize]
  · cases h

/-- The payload is not part of the header. -/
theorem unpack_data {bytes : Octets} {f : Frame} (h : unpack bytes = some f) : f.data = [] := by
  unfold unpack at h
  split at h
  · cases h
    rfl
  · cases h

theorem unpack_isSome {bytes : Octets} (h : frameSize ≤ bytes.length) :
    ∃ f, unpack bytes = some f := by
  match bytes, h with
  | _ :: _ :: _ :: _ :: _ :: _ :: _ :: _ :: _ :: _, _ => exact ⟨_, rfl⟩

/-- A frame that `process` hands to the header decoder. -/
def CarriesHeaders (f : Frame) : Prop := f.type = .headers ∨ f.type = .continuation

instance (f : Frame) : Decidable f.CarriesHeaders := inferInstanceAs (Decidable (_ ∨ _))

/-- A frame that completes the request of its stream unless its headers cannot be decoded. The
flag END_STREAM of HEADERS and that of DATA are the same bit. -/
def EndsStream (f : Frame) : Prop :=
  (f.CarriesHeaders ∨ f.type = .data) ∧ f.flags &&& Characteristics.Headers.endStream ≠ 0

instance (f : Frame) : Decidable f.EndsStream := inferInstanceAs (Decidable (_ ∧ _))

/-- A HEADERS frame that carries a whole header block. -/
def ofBlock (block : Octets) : Frame where
  length := UInt32.ofNat block.length
  type := .headers
  flags := Characteristics.Headers.endHeaders
  streamIdentifier := 1
  data := block

end Frame

/-! ## The HEADERS payload -/

/-- `h2::payload<h2::frame::HEADERS>`. -/
structure HeadersPayload where
  /-- `pad_length`, zero unless PADDED. -/
  padLength : UInt8
  /-- `stream_dependency`, zero unless PRIORITY. -/
  streamDependency : UInt32
  /-- `weight`, zero unless PRIORITY. -/
  weight : UInt8
  /-- The header block fragment. -/
  data : Octets
  deriving DecidableEq

namespace HeadersPayload

open Characteristics

/-- `ntohl`. -/
def ntohl (v : UInt32) : UInt32 :=
  Frame.ofBigEndian v.toUInt8 (v >>> 8).toUInt8 (v >>> 16).toUInt8 (v >>> 24).toUInt8

/-- The number of octets in front of the header block fragment. -/
def offset (f : Frame) : ℕ :=
  (if f.flags &&& Headers.padded ≠ 0 then 1 else 0) +
    (if f.flags &&& Headers.priority ≠ 0 then 5 else 0)

/-- The pad length that the constructor reads. An octet past the end of the payload has no
specified value; `0` stands for it, and the constructor fails whatever it is. -/
def padding (f : Frame) : UInt8 :=
  if f.flags &&& Headers.padded ≠ 0 then f.data.headD 0 else 0

/-- `h2::payload<h2::frame::HEADERS>::payload`. -/
def ofFrame (f : Frame) : Except Fault HeadersPayload :=
  let padLength := padding f
  let priority := f.flags &&& Headers.priority ≠ 0
  let pos := if f.flags &&& Headers.padded ≠ 0 then 1 else 0
  -- `end - pos < 4`
  if priority ∧ f.data.length < pos + 4 then .error (.frameState .invalid)
  else
    let octet := fun i => f.data.getD (pos + i) 0
    let streamDependency :=
      if priority then ntohl (Frame.ofBigEndian (octet 0) (octet 1) (octet 2) (octet 3)) else 0
    let weight := if priority then octet 4 else 0
    let pos := offset f
    -- `assert(end - pos > pad_length)`
    if f.data.length ≤ pos + padLength.toNat then .error .assertion
    -- `data.reserve(pos - begin - pad_length)`
    else if pos < padLength.toNat then .error (.std (.lengthError "vector::reserve"))
    else
      let data := (f.data.take (f.data.length - padLength.toNat)).drop pos
      .ok { padLength, streamDependency, weight, data }

/-- Without PADDED and PRIORITY the fragment is the whole payload, which must not be empty. -/
theorem ofFrame_eq_data {f : Frame} (hpad : f.flags &&& Headers.padded = 0)
    (hprio : f.flags &&& Headers.priority = 0) :
    ofFrame f = if f.data = [] then .error .assertion else .ok ⟨0, 0, 0, f.data⟩ := by
  simp only [ofFrame, offset, padding, hpad, hprio, ne_eq, not_true_eq_false, if_false, false_and,
    UInt8.toNat_zero, add_zero, Nat.le_zero, List.length_eq_zero_iff, lt_irrefl, Nat.sub_zero,
    List.take_length, List.drop_zero]

/-- The ways the constructor can end. -/
theorem ofFrame_cases (f : Frame) :
    (∃ payload, ofFrame f = .ok payload ∧ payload.data ≠ []) ∨
      (∃ e, ofFrame f = .error (.std e)) ∨
      ofFrame f = .error (.frameState .invalid) ∨ ofFrame f = .error .assertion := by
  unfold ofFrame
  extract_lets padLength priority pos octet streamDependency weight pos' data
  split_ifs with hprio hassert hreserve
  · exact .inr (.inr (.inl rfl))
  · exact .inr (.inr (.inr rfl))
  · exact .inr (.inl ⟨_, rfl⟩)
  · refine .inl ⟨_, rfl, fun hnil => ?_⟩
    have hlen : data.length = f.data.length - padLength.toNat - pos' := by
      simp [data]
    rw [show data = [] from hnil, List.length_nil] at hlen
    omega

/-- What a frame carries between the fields in front of its header block fragment and the
padding. -/
def fragment (f : Frame) : Octets :=
  (f.data.take (f.data.length - (padding f).toNat)).drop (offset f)

/-- The padding is not longer than the fields in front of the fragment, and there is a fragment
between them. -/
def Readable (f : Frame) : Prop :=
  (padding f).toNat ≤ offset f ∧ offset f + (padding f).toNat < f.data.length

instance (f : Frame) : Decidable (Readable f) := inferInstanceAs (Decidable (_ ∧ _))

/-- The constructor returns the fragment exactly if the frame is readable. -/
theorem ofFrame_eq_ok_iff {f : Frame} :
    (∃ payload, ofFrame f = .ok payload ∧ payload.data = fragment f) ↔ Readable f := by
  unfold ofFrame Readable
  extract_lets padLength priority pos octet streamDependency weight pos' data
  split_ifs with hprio hassert hreserve
  · -- the five octets of the priority fields are part of the offset
    have hoff : offset f = pos + 5 := congrArg (pos + ·) (if_pos hprio.1)
    simp only [false_and, exists_false, false_iff, not_and, not_lt]
    omega
  · simp only [false_and, exists_false, false_iff, not_and, not_lt]
    exact fun _ => hassert
  · simp only [false_and, exists_false, false_iff, not_and, not_lt]
    exact fun h => absurd h (not_le.mpr hreserve)
  · exact iff_of_true ⟨_, rfl, rfl⟩ ⟨not_lt.mp hreserve, not_le.mp hassert⟩

/-- The constructor does not return anything else. -/
theorem readable_of_ofFrame {f : Frame} {payload : HeadersPayload} (h : ofFrame f = .ok payload) :
    Readable f := by
  refine ofFrame_eq_ok_iff.mp ⟨payload, h, ?_⟩
  unfold ofFrame at h
  extract_lets padLength priority pos octet streamDependency weight pos' data at h
  split_ifs at h
  cases h
  rfl

theorem fragment_ne_nil {f : Frame} (h : Readable f) : fragment f ≠ [] := by
  intro hnil
  have hlen := congrArg List.length hnil
  simp only [fragment, List.length_drop, List.length_take, List.length_nil] at hlen
  have := h.2
  omega

/-- The constructor ends by a crash unless some octet is left in front of the padding. -/
theorem ofFrame_survives_iff (f : Frame) :
    (ofFrame f ≠ .error (.frameState .invalid) ∧ ofFrame f ≠ .error .assertion) ↔
      offset f + (padding f).toNat < f.data.length := by
  unfold ofFrame
  extract_lets padLength priority pos octet streamDependency weight
  split_ifs with hprio hassert hreserve
  · -- the five octets of the priority fields are part of the offset
    have hoff : offset f = pos + 5 := congrArg (pos + ·) (if_pos hprio.1)
    simp only [ne_eq, not_true_eq_false, false_and, false_iff, not_lt]
    omega
  · simpa using hassert
  · simpa using hassert
  · simpa using hassert

end HeadersPayload

end Rite
