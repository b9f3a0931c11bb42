import Mathlib

/-!
# Little-endian base-128 numerals with continuation bits

Seven value bits to an octet, least significant group first; the high bit of an octet says that
another one follows. `decode` reads one numeral off the front of a list of octets and fails when
the octets end before the numeral does.

## Main results

* `exists_eq_append_of_decode`: the remaining octets are a proper suffix of the input.
-/

namespace Base128

/-- The seven value bits of an octet. -/
def low (b : UInt8) : ℕ := b.toNat % 128

/-- Read one numeral and return its value and the octets behind it. -/
def decode : List UInt8 → Option (ℕ × List UInt8)
  | [] => none
  | b :: bs =>
    if b.toNat < 128 then some (low b, bs)
    else (decode bs).map fun r => (low b + 128 * r.1, r.2)

@[simp] theorem decode_nil : decode [] = none := rfl

theorem decode_cons_of_lt {b : UInt8} (hb : b.toNat < 128) (bs : List UInt8) :
    decode (b :: bs) = some (low b, bs) := by
  simp [decode, hb]

theorem decode_cons_of_le {b : UInt8} (hb : 128 ≤ b.toNat) (bs : List UInt8) :
    decode (b :: bs) = (decode bs).map fun r => (low b + 128 * r.1, r.2) := by
  simp [decode, Nat.not_lt.mpr hb]

/-- What remains after a numeral is the input less at least one octet. -/
theorem exists_eq_append_of_decode {bs rest : List UInt8} {v : ℕ}
    (h : decode bs = some (v, rest)) : ∃ used, used ≠ [] ∧ bs = used ++ rest := by
  induction bs generalizing v with
  | nil => simp at h
  | cons b bs ih =>
    rcases lt_or_ge b.toNat 128 with hb | hb
    · rw [decode_cons_of_lt hb, Option.some.injEq, Prod.mk.injEq] at h
      exact ⟨[b], by simp, by simp [h.2]⟩
    · rw [decode_cons_of_le hb] at h
      obtain ⟨⟨v', rest'⟩, hdec, heq⟩ := Option.map_eq_some_iff.mp h
      simp only [Prod.mk.injEq] at heq
      obtain ⟨used, -, hused⟩ := ih (heq.2 ▸ hdec)
      exact ⟨b :: used, by simp, by rw [hused, List.cons_append]⟩

theorem length_lt_of_decode {bs rest : List UInt8} {v : ℕ} (h : decode bs = some (v, rest)) :
    rest.length < bs.length := by
  obtain ⟨used, hne, rfl⟩ := exists_eq_append_of_decode h
  have := List.length_pos_iff.mpr hne
  rw [List.length_append]
  omega

end Base128
