import Mathlib

/-!
# Decimal numerals

Numerals of integers as characters of eight bits, and what a reader takes from the front of a text
for a numeral: a sign, if there is one, and digits up to the first character that is none.

## Main results

* `value_natDigits`: the digits of a number have it for their value;
* `scan_numeral`: the numeral of an integer is read back;
* `isNumeral_of_mem`: there are only digits and signs in it.
-/

namespace Decimal

/-- The character of a digit. -/
def digit (d : ℕ) : UInt8 := UInt8.ofNat (48 + d)

/-- The characters of digits. -/
def isDigit (c : UInt8) : Bool := 48 ≤ c.toNat && c.toNat ≤ 57

/-- The digits of a number, the most significant one first. -/
def natDigits (n : ℕ) : List UInt8 :=
  if n < 10 then [digit n] else natDigits (n / 10) ++ [digit (n % 10)]

/-- The numeral of an integer. -/
def numeral (x : ℤ) : List UInt8 :=
  if x < 0 then 0x2D :: natDigits x.natAbs else natDigits x.natAbs

/-- The value of a string of digits. -/
def value (s : List UInt8) : ℕ := s.foldl (fun v c => 10 * v + (c.toNat - 48)) 0

/-- What is read from the front of a text: whether there is a minus sign, and the value of the
digits, which is zero if there are none. -/
def scan (s : List UInt8) : Bool × ℕ :=
  let signed := s.head? = some 0x2B ∨ s.head? = some 0x2D
  (s.head? = some 0x2D, value ((if signed then s.tail else s).takeWhile isDigit))

variable {n d : ℕ}

theorem toNat_digit (hd : d < 10) : (digit d).toNat = 48 + d := by
  rw [digit, UInt8.toNat_ofNat']
  omega

theorem isDigit_digit (hd : d < 10) : isDigit (digit d) := by
  simp only [isDigit, toNat_digit hd, Bool.and_eq_true, decide_eq_true_eq]
  omega

theorem natDigits_of_lt (hn : n < 10) : natDigits n = [digit n] := by
  rw [natDigits, if_pos hn]

theorem natDigits_of_le (hn : 10 ≤ n) : natDigits n = natDigits (n / 10) ++ [digit (n % 10)] := by
  rw [natDigits, if_neg (not_lt.mpr hn)]

theorem natDigits_ne_nil (n : ℕ) : natDigits n ≠ [] := by
  rw [natDigits]
  split_ifs <;> simp

theorem value_append_singleton (s : List UInt8) (c : UInt8) :
    value (s ++ [c]) = 10 * value s + (c.toNat - 48) := by
  rw [value, List.foldl_append]
  rfl

theorem value_natDigits (n : ℕ) : value (natDigits n) = n := by
  induction n using Nat.strong_induction_on with
  | _ n ih =>
    by_cases hn : n < 10
    · rw [natDigits_of_lt hn, ← List.nil_append [digit n], value_append_singleton, toNat_digit hn]
      simp [value]
    · have hlast := toNat_digit (Nat.mod_lt n (show 10 > 0 by omega))
      rw [natDigits_of_le (not_lt.mp hn), value_append_singleton, ih (n / 10) (by omega), hlast]
      omega

theorem isDigit_of_mem {c : UInt8} (h : c ∈ natDigits n) : isDigit c := by
  induction n using Nat.strong_induction_on with
  | _ n ih =>
    by_cases hn : n < 10
    · rw [natDigits_of_lt hn, List.mem_singleton] at h
      rw [h]
      exact isDigit_digit hn
    · rw [natDigits_of_le (not_lt.mp hn), List.mem_append, List.mem_singleton] at h
      rcases h with h | rfl
      · exact ih (n / 10) (by omega) h
      · exact isDigit_digit (Nat.mod_lt n (by omega))

/-- Numerals have digits and signs in them, and nothing else. -/
theorem isNumeral_of_mem {c : UInt8} {x : ℤ} (h : c ∈ numeral x) : isDigit c ∨ c = 0x2D := by
  rw [numeral] at h
  split_ifs at h
  · rcases List.mem_cons.mp h with rfl | h
    · exact .inr rfl
    · exact .inl (isDigit_of_mem h)
  · exact .inl (isDigit_of_mem h)

theorem numeral_ne_nil (x : ℤ) : numeral x ≠ [] := by
  rw [numeral]
  split_ifs
  · exact List.cons_ne_nil _ _
  · exact natDigits_ne_nil _

theorem scan_natDigits (n : ℕ) : scan (natDigits n) = (false, n) := by
  have hall : (natDigits n).takeWhile isDigit = natDigits n :=
    List.takeWhile_eq_self_iff.mpr fun c hc => isDigit_of_mem hc
  -- a digit is not a sign
  have hsign : ∀ c, isDigit c = false → (natDigits n).head? ≠ some c := by
    intro c hc h
    rw [isDigit_of_mem (List.mem_of_mem_head? h)] at hc
    cases hc
  simp [scan, hsign 0x2B (by decide), hsign 0x2D (by decide), hall, value_natDigits]

/-- A numeral is read back. -/
theorem scan_numeral (x : ℤ) : scan (numeral x) = (decide (x < 0), x.natAbs) := by
  rw [numeral]
  split_ifs with hx
  · have hall : (natDigits x.natAbs).takeWhile isDigit = natDigits x.natAbs :=
      List.takeWhile_eq_self_iff.mpr fun c hc => isDigit_of_mem hc
    simp [scan, hall, value_natDigits, hx]
  · simp [scan_natDigits, hx]

end Decimal
