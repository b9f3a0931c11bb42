import Mathlib

/-!
# Windows over the last elements of a sequence

Two ways to keep the last elements of a sequence in bounded space: a list with the newest element
first that drops its last element when it gets too long, and an array that is written slot by slot
and from the beginning again.

## Main results

* `pushAll_eq`: the list has the last elements, newest first;
* `Ring.next_writeAll`, `Ring.getElem?_writeAll`: where the array is written next, and what is in
  its slots;
* `Ring.slots_writeAll_perm`: the slots are the last elements and the slots that are not filled.
-/

namespace BoundedWindow

variable {α : Type*}

/-! ## A list -/

/-- Put an element in front, and drop the last one if there are more than `K`. -/
def push (K : ℕ) (window : List α) (x : α) : List α :=
  if K < (x :: window).length then (x :: window).dropLast else x :: window

/-- Put elements in front, one after the other. -/
def pushAll (K : ℕ) (window xs : List α) : List α := xs.foldl (push K) window

theorem push_take (K : ℕ) (l : List α) (x : α) : push K (l.take K) x = (x :: l).take K := by
  rw [push]
  split_ifs with h
  · -- the window is full
    rw [List.length_cons, List.length_take] at h
    have hlength : (x :: l.take K).length - 1 = K := by
      rw [List.length_cons, List.length_take]
      omega
    rw [List.dropLast_eq_take, hlength]
    cases K with
    | zero => rfl
    | succ K => rw [List.take_succ_cons, List.take_succ_cons, List.take_take, min_eq_left K.le_succ]
  · rw [List.length_cons, List.length_take] at h
    cases K with
    | zero => omega
    | succ K =>
      rw [List.take_succ_cons, List.take_of_length_le (by omega), List.take_of_length_le (by omega)]

/-- The window has the last elements, the newest one first. -/
theorem pushAll_eq (K : ℕ) (xs : List α) : pushAll K [] xs = xs.reverse.take K := by
  induction xs using List.reverseRecOn with
  | nil => simp [pushAll]
  | append_singleton xs x ih =>
    have hpush : pushAll K [] (xs ++ [x]) = push K (pushAll K [] xs) x := by
      rw [pushAll, List.foldl_append]
      rfl
    rw [hpush, ih, List.reverse_append]
    exact push_take K xs.reverse x

/-! ## An array -/

/-- Slots, and the one that is written next. -/
structure Ring (α : Type*) where
  /-- The slots. -/
  slots : List α
  /-- The index of the slot that is written next. -/
  next : ℕ

namespace Ring

/-- No slot has been written, and each holds `a`. -/
def new (N : ℕ) (a : α) : Ring α := ⟨List.replicate N a, 0⟩

/-- Write a slot. -/
def write (r : Ring α) (x : α) : Ring α := ⟨r.slots.set r.next x, (r.next + 1) % r.slots.length⟩

/-- Write slots, one after the other. -/
def writeAll (r : Ring α) (xs : List α) : Ring α := xs.foldl write r

theorem writeAll_concat (r : Ring α) (xs : List α) (x : α) :
    r.writeAll (xs ++ [x]) = (r.writeAll xs).write x := by
  rw [writeAll, List.foldl_append]
  rfl

variable {N : ℕ} {a : α}

@[simp] theorem length_writeAll (N : ℕ) (a : α) (xs : List α) :
    ((new N a).writeAll xs).slots.length = N := by
  induction xs using List.reverseRecOn with
  | nil => simp [writeAll, new]
  | append_singleton xs x ih =>
    rw [writeAll_concat, write, List.length_set, ih]

/-- The slot that is written next is the number of the elements, modulo that of the slots. -/
theorem next_writeAll (N : ℕ) (a : α) (xs : List α) :
    ((new N a).writeAll xs).next = xs.length % N := by
  induction xs using List.reverseRecOn with
  | nil => simp [writeAll, new]
  | append_singleton xs x ih =>
    rw [writeAll_concat, write, length_writeAll, ih, Nat.mod_add_mod, List.length_append,
      List.length_singleton]

/-- A slot holds the last element whose number is that of the slot, modulo that of the slots. -/
theorem getElem?_writeAll (hN : 0 < N) {xs : List α} {i : ℕ} (hi : i < xs.length)
    (hlast : ∀ k, i < k → k < xs.length → k % N ≠ i % N) :
    ((new N a).writeAll xs).slots[i % N]? = xs[i]? := by
  induction xs using List.reverseRecOn with
  | nil => simp at hi
  | append_singleton xs x ih =>
    rw [List.length_append, List.length_singleton] at hi hlast
    have hslot : i % N < ((new N a).writeAll xs).slots.length := by
      rw [length_writeAll]
      exact Nat.mod_lt i hN
    rw [writeAll_concat, write, next_writeAll]
    rcases Nat.lt_succ_iff_lt_or_eq.mp hi with hi | rfl
    · -- the new element goes to another slot
      have hne : xs.length % N ≠ i % N := hlast xs.length hi (by omega)
      rw [List.getElem?_set_ne hne, ih hi fun k hik hk => hlast k hik (by omega),
        List.getElem?_append_left hi]
    · rw [List.getElem?_set_self hslot]
      simp

/-- A slot that is not written yet holds what it has held at first. -/
theorem getElem?_writeAll_of_le {xs : List α} {j : ℕ} (hj : j < N) (hxs : xs.length ≤ j) :
    ((new N a).writeAll xs).slots[j]? = some a := by
  induction xs using List.reverseRecOn with
  | nil => simp [writeAll, new, hj]
  | append_singleton xs x ih =>
    rw [List.length_append, List.length_singleton] at hxs
    have hne : xs.length % N ≠ j := by
      rw [Nat.mod_eq_of_lt (by omega)]
      omega
    rw [writeAll_concat, write, next_writeAll, List.getElem?_set_ne hne, ih (by omega)]

/-- As long as no slot is written twice, the elements are in front of the others. -/
theorem slots_writeAll_of_le {xs : List α} (hxs : xs.length ≤ N) :
    ((new N a).writeAll xs).slots = xs ++ List.replicate (N - xs.length) a := by
  refine List.ext_getElem? fun j => ?_
  by_cases hj : j < N
  · by_cases hlt : j < xs.length
    · have hlast : ∀ k, j < k → k < xs.length → k % N ≠ j % N := by
        intro k hjk hk
        rw [Nat.mod_eq_of_lt (hk.trans_le hxs), Nat.mod_eq_of_lt hj]
        exact hjk.ne'
      have hget := getElem?_writeAll (a := a) ((Nat.zero_le j).trans_lt hj) hlt hlast
      rw [Nat.mod_eq_of_lt hj] at hget
      rw [hget, List.getElem?_append_left hlt]
    · rw [getElem?_writeAll_of_le hj (by omega), List.getElem?_append_right (by omega),
        List.getElem?_replicate_of_lt (by omega)]
  · rw [List.getElem?_eq_none (by simp; omega), List.getElem?_eq_none (by simp; omega)]

/-- The slot that is written next holds the oldest of the last elements. -/
theorem getElem?_slots_next (hN : 0 < N) {xs : List α} (hxs : N ≤ xs.length) :
    ((new N a).writeAll xs).slots[xs.length % N]? = xs[xs.length - N]? := by
  have hmod : xs.length % N = (xs.length - N) % N := Nat.mod_eq_sub_mod hxs
  rw [hmod]
  refine getElem?_writeAll hN (by omega) fun k hlo hhi heq => ?_
  have hdvd := (Nat.modEq_iff_dvd' hlo.le).mp heq.symm
  have hle := Nat.le_of_dvd (by omega) hdvd
  omega

/-- From then on the slots are the last elements, in some order. -/
theorem slots_writeAll_perm_drop (hN : 0 < N) {xs : List α} (hxs : N ≤ xs.length) :
    ((new N a).writeAll xs).slots.Perm (xs.drop (xs.length - N)) := by
  induction xs using List.reverseRecOn with
  | nil => simp at hxs; omega
  | append_singleton xs x ih =>
    rw [List.length_append, List.length_singleton] at hxs ⊢
    by_cases hfull : N ≤ xs.length
    · -- the slot that is written has held the oldest of the last elements
      have hlength := length_writeAll N a xs
      have hslot : xs.length % N < ((new N a).writeAll xs).slots.length := by
        rw [hlength]
        exact Nat.mod_lt _ hN
      have hold : ((new N a).writeAll xs).slots[xs.length % N]? = xs[xs.length - N]? :=
        getElem?_slots_next hN hfull
      have hdrop : xs.drop (xs.length - N) =
          xs[xs.length - N] :: xs.drop (xs.length - N + 1) := List.drop_eq_getElem_cons (by omega)
      have herase : (((new N a).writeAll xs).slots.eraseIdx (xs.length % N)).Perm
          (xs.drop (xs.length - N + 1)) := by
        have hperm := (List.getElem_cons_eraseIdx_perm hslot).trans (ih hfull)
        rw [List.getElem?_eq_getElem hslot, List.getElem?_eq_getElem (by omega),
          Option.some_inj] at hold
        rw [hold, hdrop] at hperm
        exact List.perm_cons _ |>.mp hperm
      rw [writeAll_concat, write, next_writeAll, List.drop_append_of_le_length (by omega),
        show xs.length + 1 - N = xs.length - N + 1 by omega]
      exact (List.set_perm_cons_eraseIdx hslot x).trans
        ((herase.cons x).trans (List.perm_append_singleton x _).symm)
    · -- the last slot is written for the first time
      have hall : xs.length + 1 = N := by omega
      rw [slots_writeAll_of_le (by simp; omega)]
      simp [hall]

/-- The slots are the last elements, and those that are not written. -/
theorem slots_writeAll_perm (hN : 0 < N) (a : α) (xs : List α) :
    ((new N a).writeAll xs).slots.Perm
      (xs.drop (xs.length - N) ++ List.replicate (N - xs.length) a) := by
  rcases le_total xs.length N with h | h
  · rw [slots_writeAll_of_le h, Nat.sub_eq_zero_of_le h, List.drop_zero]
  · rw [Nat.sub_eq_zero_of_le h, List.replicate_zero, List.append_nil]
    exact slots_writeAll_perm_drop hN h

end Ring

end BoundedWindow
