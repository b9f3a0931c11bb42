import Mathlib

/-!
# Tables bounded by the total size of their entries

A table is a list of entries, newest first. When it has to fit a bound, the oldest entries are
evicted one by one until it does; a new entry evicts what it needs, and all there is if it does
not fit by itself.

## Main results

* `evict_isPrefix`, `insert_isPrefix`: a table that evicts stays a prefix of one that does not;
* `total_evict_le`, `total_insert_le`: it stays within the bound;
* `length_mul_le`: a bound on the total size bounds the number of entries;
* `total_take_le_iff`: what it takes for a number of entries to be a bound on their size.
-/

namespace BoundedTable

variable {α : Type*} (size : α → ℕ)

/-- The total size of a table. -/
def total (table : List α) : ℕ := (table.map size).sum

/-- Drop entries from a list with the oldest entry first, until the rest fits. -/
def evictOldest (max : ℕ) : List α → List α
  | [] => []
  | a :: as => if total size (a :: as) ≤ max then a :: as else evictOldest max as

/-- Evict the oldest entries until the table fits. -/
def evict (max : ℕ) (table : List α) : List α := (evictOldest size max table.reverse).reverse

/-- Enter a new entry. -/
def insert (max : ℕ) (a : α) (table : List α) : List α :=
  if size a ≤ max then a :: evict size (max - size a) table else []

variable {size}

@[simp] theorem total_nil : total size [] = 0 := rfl

@[simp] theorem total_cons (a : α) (table : List α) :
    total size (a :: table) = size a + total size table := by
  simp [total]

theorem total_reverse (table : List α) : total size table.reverse = total size table := by
  simp [total, List.sum_reverse]

private theorem evictOldest_suffix (max : ℕ) (l : List α) : evictOldest size max l <:+ l := by
  induction l with
  | nil => exact List.suffix_rfl
  | cons a as ih =>
    unfold evictOldest
    split_ifs
    · exact List.suffix_rfl
    · exact ih.trans (List.suffix_cons a as)

private theorem total_evictOldest_le (max : ℕ) (l : List α) :
    total size (evictOldest size max l) ≤ max := by
  induction l with
  | nil => exact Nat.zero_le max
  | cons a as ih =>
    unfold evictOldest
    split_ifs with h
    · exact h
    · exact ih

/-- Eviction leaves the newest entries. -/
theorem evict_isPrefix (max : ℕ) (table : List α) : evict size max table <+: table := by
  rw [evict, ← List.reverse_suffix, List.reverse_reverse]
  exact evictOldest_suffix max table.reverse

theorem total_evict_le (max : ℕ) (table : List α) : total size (evict size max table) ≤ max := by
  rw [evict, total_reverse]
  exact total_evictOldest_le max table.reverse

theorem insert_isPrefix (max : ℕ) (a : α) {table l : List α} (h : table <+: l) :
    insert size max a table <+: a :: l := by
  unfold insert
  split_ifs
  · exact List.cons_prefix_cons.mpr ⟨rfl, (evict_isPrefix _ table).trans h⟩
  · exact List.nil_prefix

theorem total_insert_le (max : ℕ) (a : α) (table : List α) :
    total size (insert size max a table) ≤ max := by
  unfold insert
  split_ifs with h
  · have hle : total size (evict size (max - size a) table) ≤ max - size a :=
      total_evict_le (max - size a) table
    rw [total_cons]
    omega
  · exact Nat.zero_le max

/-- Entries of some least size are few. -/
theorem length_mul_le {c : ℕ} (hc : ∀ a, c ≤ size a) (table : List α) :
    table.length * c ≤ total size table := by
  induction table with
  | nil => simp
  | cons a as ih =>
    have := hc a
    rw [List.length_cons, total_cons, Nat.add_mul]
    omega

theorem total_append (table table' : List α) :
    total size (table ++ table') = total size table + total size table' := by
  simp [total]

/-- The newest `n` entries take no more than `n` only if there are none of them or all entries take
no more than that. -/
theorem total_take_le_iff {c : ℕ} (h1 : 1 < c) (hc : ∀ a, c ≤ size a) (table : List α) (n : ℕ) :
    total size (table.take n) ≤ n ↔ n = 0 ∨ total size table ≤ n := by
  have hsplit : total size (table.take n) + total size (table.drop n) = total size table := by
    rw [← total_append, List.take_append_drop]
  constructor
  · intro h
    rcases le_or_gt table.length n with hle | hlt
    · rw [List.take_of_length_le hle] at h
      exact .inr h
    · -- these are `n` entries, each of them larger than one
      have hlen := length_mul_le hc (table.take n)
      rw [List.length_take_of_le hlt.le] at hlen
      have hzero : ¬ 0 < n := by
        intro hpos
        have : n * 1 < n * c := Nat.mul_lt_mul_of_pos_left h1 hpos
        omega
      exact .inl (by omega)
  · rintro (rfl | h)
    · exact le_rfl
    · omega

end BoundedTable
