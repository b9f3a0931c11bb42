import Rite.Session.Handle
import Rite.ToMathlib.Decimal

/-!
# Integers as text (`pluggable<T>`)

`pluggable<T>` writes a value to a stream, and reads it from one. For the integer types this is a
numeral, or a character for the types of characters. Reading never fails: without digits the value
is zero, a numeral out of range is brought into it, and what follows the digits is left where it is.
A text without anything but white space leaves the variable as it is, which has not been
initialised; what it happens to hold is an argument.

## Main results

* `deserialize_serialize`: a value that is written is read again, unless it is white space;
* `serialize_deserialize_iff`: a text that is read is written again exactly if it is canonical.
-/

namespace Rite

/-- The integer types that streams read and write. -/
inductive IntegerType
  | bool
  | char | signedChar | unsignedChar
  | short | int | long | longLong
  | unsignedShort | unsignedInt | unsignedLong | unsignedLongLong
  deriving DecidableEq

/-- How streams write the values of a type. -/
inductive IntegerFormat
  /-- As `0` or `1`. -/
  | flag
  /-- As the character. -/
  | character
  /-- As a numeral, with a sign. -/
  | signed (bits : ℕ)
  /-- As a numeral without one. -/
  | unsigned (bits : ℕ)

namespace IntegerFormat

/-- The least value, -/
def lo : IntegerFormat → ℤ
  | signed bits => -2 ^ (bits - 1)
  | _ => 0

/-- and the greatest one. A character is the number of its octet, also if `char` is signed. -/
def hi : IntegerFormat → ℤ
  | flag => 1
  | character => 255
  | signed bits => 2 ^ (bits - 1) - 1
  | unsigned bits => 2 ^ bits - 1

theorem lo_le_hi (f : IntegerFormat) : f.lo ≤ f.hi := by
  cases f with
  | flag => decide
  | character => decide
  | signed bits =>
    have hpos : (0 : ℤ) < 2 ^ (bits - 1) := by positivity
    simp only [lo, hi]
    omega
  | unsigned bits =>
    have hpos : (0 : ℤ) < 2 ^ bits := by positivity
    simp only [lo, hi]
    omega

/-- The values. -/
abbrev Carrier (f : IntegerFormat) : Type := Set.Icc f.lo f.hi

/-- `os << x`. -/
def serialize (f : IntegerFormat) (x : f.Carrier) : Octets :=
  match f with
  | character => [UInt8.ofNat x.val.toNat]
  | _ => Decimal.numeral x.val

/-- What is read from a text that does not begin with white space, before it is brought into the
range. -/
def read (s : Octets) : IntegerFormat → ℤ
  -- every number but zero is true
  | flag => (Decimal.scan s).2
  | character => (s.headD 0).toNat
  | signed _ => if (Decimal.scan s).1 then -(Decimal.scan s).2 else (Decimal.scan s).2
  | unsigned bits =>
    let (minus, m) := Decimal.scan s
    -- a number with a minus sign is subtracted from zero, if it is in the range without it
    if minus ∧ 0 < m ∧ m < 2 ^ bits then 2 ^ bits - m else m

/-- `is >> x`, where `held` is what `x` holds. -/
def deserialize (f : IntegerFormat) (held : f.Carrier) (data : Octets) : f.Carrier :=
  let s := data.dropWhile Http.isspace
  if s = [] then held else Set.projIcc f.lo f.hi f.lo_le_hi (f.read s)

/-- The text is what is written for a value. If it is white space, the variable holds that value. -/
def Canonical (f : IntegerFormat) (held : f.Carrier) (text : Octets) : Prop :=
  ∃ x : f.Carrier, text = f.serialize x ∧ ((∃ c ∈ text, Http.isspace c) → held = x)

variable {f : IntegerFormat} {held : f.Carrier} {text : Octets}

theorem not_isspace_of_mem_numeral {c : Octet} {x : ℤ} (h : c ∈ Decimal.numeral x) :
    ¬ Http.isspace c := by
  intro hspace
  rcases Decimal.isNumeral_of_mem h with hdigit | rfl
  · simp only [Decimal.isDigit, Http.isspace, Bool.or_eq_true, Bool.and_eq_true, decide_eq_true_eq,
      UInt8.le_iff_toNat_le, ← UInt8.toNat_inj, UInt8.reduceToNat] at hdigit hspace
    omega
  · revert hspace
    decide

/-- A text of white space is not read. -/
theorem deserialize_of_isspace (h : ∀ c ∈ text, Http.isspace c) : f.deserialize held text = held :=
  if_pos (List.dropWhile_eq_nil_iff.mpr h)

/-- A text without white space in front is read. -/
theorem deserialize_of_not_isspace {c : Octet} (h : ¬ Http.isspace c) :
    f.deserialize held (c :: text) =
      Set.projIcc f.lo f.hi f.lo_le_hi (f.read (c :: text)) := by
  rw [deserialize, List.dropWhile_cons_of_neg h]
  exact if_neg (List.cons_ne_nil c text)

/-- A numeral of a value is read as that value. -/
theorem read_numeral (hf : f ≠ character) (x : f.Carrier) :
    f.read (Decimal.numeral x.val) = x.val := by
  obtain ⟨x, hlo, hhi⟩ := x
  cases f with
  | character => exact absurd rfl hf
  | flag =>
    simp only [lo] at hlo
    simp only [read, Decimal.scan_numeral]
    omega
  | signed bits =>
    simp only [read, Decimal.scan_numeral, decide_eq_true_eq]
    split_ifs <;> omega
  | unsigned bits =>
    -- there is no minus sign
    simp only [lo] at hlo
    have hx : ¬ x < 0 := not_lt.mpr hlo
    simp only [read, Decimal.scan_numeral, hx, decide_false, Bool.false_eq_true, false_and,
      if_false]
    omega

/-- A numeral is read, whatever the variable holds. -/
theorem deserialize_numeral (hf : f ≠ character) (x : f.Carrier) :
    f.deserialize held (Decimal.numeral x.val) = x := by
  obtain ⟨c, s, hs⟩ := List.exists_cons_of_ne_nil (Decimal.numeral_ne_nil x.val)
  have hc : ¬ Http.isspace c := not_isspace_of_mem_numeral (hs ▸ List.mem_cons_self)
  rw [hs, deserialize_of_not_isspace hc, ← hs, read_numeral hf, Set.projIcc_val]

theorem serialize_eq_numeral (hf : f ≠ character) (x : f.Carrier) :
    f.serialize x = Decimal.numeral x.val := by
  cases f with
  | character => exact absurd rfl hf
  | flag => rfl
  | signed bits => rfl
  | unsigned bits => rfl

/-- The number of the octet that is written for a character. -/
theorem toNat_serialize (x : character.Carrier) :
    ∃ c, character.serialize x = [c] ∧ (c.toNat : ℤ) = x.val := by
  obtain ⟨x, hlo, hhi⟩ := x
  simp only [lo] at hlo
  simp only [hi] at hhi
  refine ⟨_, rfl, ?_⟩
  show ((UInt8.ofNat x.toNat).toNat : ℤ) = x
  rw [UInt8.toNat_ofNat']
  omega

/-- A value that is written is read again, if the text is not white space, or the variable holds
the value. -/
theorem deserialize_serialize (x : f.Carrier)
    (h : (∃ c ∈ f.serialize x, Http.isspace c) → held = x) :
    f.deserialize held (f.serialize x) = x := by
  by_cases hf : f = character
  · subst hf
    obtain ⟨c, hc, hx⟩ := toNat_serialize x
    rw [hc] at h ⊢
    by_cases hspace : Http.isspace c
    · rw [deserialize_of_isspace (by simpa using hspace)]
      exact h ⟨c, List.mem_singleton_self c, hspace⟩
    · rw [deserialize_of_not_isspace hspace]
      have hread : character.read [c] = x.val := hx
      rw [hread, Set.projIcc_val]
  · rw [serialize_eq_numeral hf, deserialize_numeral hf]

/-- A text that is read is written again if and only if it is canonical. -/
theorem serialize_deserialize_iff :
    f.serialize (f.deserialize held text) = text ↔ f.Canonical held text := by
  constructor
  · intro h
    refine ⟨_, h.symm, fun ⟨c, hc, hspace⟩ => ?_⟩
    by_cases hf : f = character
    · subst hf
      obtain ⟨d, hd, -⟩ := toNat_serialize (character.deserialize held text)
      -- the text is that one character
      rw [h] at hd
      subst hd
      obtain rfl := List.mem_singleton.mp hc
      exact (deserialize_of_isspace (by simpa using hspace)).symm
    · rw [← h, serialize_eq_numeral hf] at hc
      exact absurd hspace (not_isspace_of_mem_numeral hc)
  · rintro ⟨x, rfl, hheld⟩
    rw [deserialize_serialize x hheld]

/-- A text with more in it than digits and signs is no numeral. -/
theorem not_canonical (hf : f ≠ character) {c : Octet} (hc : c ∈ text)
    (hdigit : Decimal.isDigit c = false) (hminus : c ≠ 0x2D) : ¬ f.Canonical held text := by
  rintro ⟨x, rfl, -⟩
  rw [serialize_eq_numeral hf] at hc
  rcases Decimal.isNumeral_of_mem hc with h | h
  · rw [hdigit] at h
    cases h
  · exact hminus h

end IntegerFormat

namespace IntegerType

/-- The format of a type, with the sizes of LP64. -/
def format : IntegerType → IntegerFormat
  | bool => .flag
  | char | signedChar | unsignedChar => .character
  | short => .signed 16
  | int => .signed 32
  | long | longLong => .signed 64
  | unsignedShort => .unsigned 16
  | unsignedInt => .unsigned 32
  | unsignedLong | unsignedLongLong => .unsigned 64

/-- The values of a type. -/
def Carrier (T : IntegerType) : Type := T.format.Carrier

/-- `pluggable<T>::serialize`. -/
def serialize (T : IntegerType) (data : T.Carrier) : Octets := T.format.serialize data

/-- `pluggable<T>::deserialize`, where `held` is what `t` holds. -/
def deserialize (T : IntegerType) (held : T.Carrier) (data : Octets) : T.Carrier :=
  T.format.deserialize held data

/-- Zero. -/
def zero (T : IntegerType) : T.Carrier := Set.projIcc _ _ T.format.lo_le_hi 0

/-- `pluggable<T>`, where the variable holds zero. -/
instance (T : IntegerType) : Pluggable T.Carrier where
  serialize := T.serialize
  deserialize := T.deserialize T.zero

/-- The text is what the type writes for a value. If it is white space, the variable holds that
value. -/
def Canonical (T : IntegerType) (held : T.Carrier) (text : Octets) : Prop :=
  T.format.Canonical held text

/-- A text that is read is written again if and only if it is canonical. -/
theorem serialize_deserialize_iff {T : IntegerType} {held : T.Carrier} {text : Octets} :
    T.serialize (T.deserialize held text) = text ↔ T.Canonical held text :=
  IntegerFormat.serialize_deserialize_iff

end IntegerType

end Rite
