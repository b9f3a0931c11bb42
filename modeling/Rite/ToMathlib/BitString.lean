import Mathlib

/-!
# Bit strings, most significant bit first

The value of a list of bits read as a binary numeral, and the bit string of a given width of a
number. Both are written so that one more bit on the right is one shift of the value, which is
how bit-serial coders build and take apart their codes.

## Main results

* `value_append_singleton`: reading one more bit doubles the value and adds the bit;
* `value_ofNat`, `ofNat_value`: `value` and `ofNat` are inverse to each other at a fixed width;
* `eq_div_of_ofNat_prefix`: a prefix of a bit string is the quotient by a power of two.
-/

namespace BitString

/-- The value of a bit string, most significant bit first. -/
def value (bs : List Bool) : ℕ := bs.foldl (fun n b => 2 * n + b.toNat) 0

/-- The lowest `w` bits of `n`, most significant bit first. -/
def ofNat (w n : ℕ) : List Bool := (List.range w).map fun i => n.testBit (w - 1 - i)

@[simp] theorem value_nil : value [] = 0 := rfl

@[simp] theorem value_append_singleton (bs : List Bool) (b : Bool) :
    value (bs ++ [b]) = 2 * value bs + b.toNat := by
  simp [value]

@[simp] theorem length_ofNat (w n : ℕ) : (ofNat w n).length = w := by
  simp [ofNat]

@[simp] theorem ofNat_zero_width (n : ℕ) : ofNat 0 n = [] := rfl

theorem value_lt (bs : List Bool) : value bs < 2 ^ bs.length := by
  induction bs using List.reverseRecOn with
  | nil => simp
  | append_singleton bs b ih =>
    rw [value_append_singleton, List.length_append, List.length_singleton, pow_succ]
    have := b.toNat_le
    omega

/-- The last bit is the parity, the bits before it are those of the half. -/
theorem ofNat_succ (w n : ℕ) : ofNat (w + 1) n = ofNat w (n / 2) ++ [n.testBit 0] := by
  rw [ofNat, List.range_succ, List.map_append, List.map_singleton, ofNat]
  congr 1
  · refine List.map_congr_left fun i hi => ?_
    have hlt : i < w := List.mem_range.mp hi
    rw [show w + 1 - 1 - i = (w - 1 - i) + 1 by omega, Nat.testBit_succ]
  · simp

theorem value_ofNat {w n : ℕ} (h : n < 2 ^ w) : value (ofNat w n) = n := by
  induction w generalizing n with
  | zero => simp at h; simp [h]
  | succ w ih =>
    rw [ofNat_succ, value_append_singleton, ih (by rw [pow_succ] at h; omega)]
    have hbit : (n.testBit 0).toNat = n % 2 := by
      rw [Nat.testBit_zero]
      rcases Nat.mod_two_eq_zero_or_one n with h0 | h0 <;> simp [h0]
    omega

theorem ofNat_value (bs : List Bool) : ofNat bs.length (value bs) = bs := by
  induction bs using List.reverseRecOn with
  | nil => rfl
  | append_singleton bs b ih =>
    rw [List.length_append, List.length_singleton, ofNat_succ, value_append_singleton]
    have hhalf : (2 * value bs + b.toNat) / 2 = value bs := by
      have := b.toNat_le
      omega
    rw [hhalf, ih]
    congr 2
    cases b <;> simp [Nat.testBit_zero]

/-- Cutting `k` bits off the right is dividing by `2 ^ k`. -/
theorem ofNat_add (w k n : ℕ) : ofNat (w + k) n = ofNat w (n / 2 ^ k) ++ ofNat k n := by
  induction k generalizing n with
  | zero => simp
  | succ k ih =>
    rw [← Nat.add_assoc, ofNat_succ, ih, ofNat_succ k, Nat.div_div_eq_div_mul, ← pow_succ',
      List.append_assoc]

/-- The number `2 ^ k - 1` in the lowest `k` bits is `k` ones. -/
theorem ofNat_mul_add_ones (w k n : ℕ) :
    ofNat (w + k) (n * 2 ^ k + (2 ^ k - 1)) = ofNat w n ++ List.replicate k true := by
  induction k with
  | zero => simp
  | succ k ih =>
    have hpos := Nat.two_pow_pos k
    have hhalf : (n * 2 ^ (k + 1) + (2 ^ (k + 1) - 1)) / 2 = n * 2 ^ k + (2 ^ k - 1) := by
      rw [pow_succ, ← Nat.mul_assoc]
      omega
    have hodd : (n * 2 ^ (k + 1) + (2 ^ (k + 1) - 1)).testBit 0 = true := by
      rw [Nat.testBit_zero, pow_succ, ← Nat.mul_assoc, decide_eq_true_eq]
      omega
    rw [← Nat.add_assoc, ofNat_succ, hhalf, ih, hodd, List.replicate_succ', List.append_assoc]

/-- A string of ones has the largest value of its length. -/
theorem value_of_forall_true {bs : List Bool} (h : ∀ b ∈ bs, b = true) :
    value bs = 2 ^ bs.length - 1 := by
  induction bs using List.reverseRecOn with
  | nil => rfl
  | append_singleton bs b ih =>
    have hpos := Nat.two_pow_pos bs.length
    rw [value_append_singleton, ih fun x hx => h x (by simp [hx]), h b (by simp),
      List.length_append, List.length_singleton, pow_succ, Bool.toNat_true]
    omega

/-- If one bit string is a prefix of another, so it is numerically. -/
theorem eq_div_of_ofNat_prefix {v w m n : ℕ} (hm : m < 2 ^ v) (hn : n < 2 ^ w)
    (h : ofNat v m <+: ofNat w n) : v ≤ w ∧ m = n / 2 ^ (w - v) := by
  have hle : v ≤ w := by simpa using h.length_le
  refine ⟨hle, ?_⟩
  obtain ⟨k, rfl⟩ := Nat.exists_eq_add_of_le hle
  rw [ofNat_add] at h
  have hpre : ofNat v m <+: ofNat v (n / 2 ^ k) :=
    List.prefix_of_prefix_length_le h (List.prefix_append _ _) (by simp)
  have heq : ofNat v m = ofNat v (n / 2 ^ k) := hpre.eq_of_length (by simp)
  have hlt : n / 2 ^ k < 2 ^ v := Nat.div_lt_of_lt_mul (by rwa [← pow_add, Nat.add_comm k v])
  rw [Nat.add_sub_cancel_left, ← value_ofNat hm, heq, value_ofNat hlt]

end BitString
