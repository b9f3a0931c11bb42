import Mathlib

/-!
# Entries that are put into a finite map

A list of entries is put into a finite map one after the other. Under distinct keys each of them is
found again, whatever the order; other keys keep what they had.

## Main results

* `lookup_insertMany`: the last entry with a key is the one that is found;
* `lookup_insertMany_of_notMem`: a key that no entry has keeps its value;
* `lookup_insertMany_of_mem`: entries with distinct keys are found;
* `lookup_insertMany_eq_some`: what is found is from an entry, or has been there before.
-/

namespace AList

variable {α β : Type*} [DecidableEq α]

/-- Put the entries of a list into a map, the first one first. -/
def insertMany (m : AList fun _ : α => β) (l : List (α × β)) : AList fun _ : α => β :=
  l.foldl (fun m e => m.insert e.1 e.2) m

variable {m : AList fun _ : α => β} {l : List (α × β)} {k : α} {v : β}

@[simp] theorem insertMany_nil (m : AList fun _ : α => β) : m.insertMany [] = m := rfl

@[simp] theorem insertMany_cons (m : AList fun _ : α => β) (e : α × β) (l : List (α × β)) :
    m.insertMany (e :: l) = (m.insert e.1 e.2).insertMany l := rfl

/-- Of entries with one key the last one stays. -/
theorem lookup_insertMany (m : AList fun _ : α => β) (l : List (α × β)) (k : α) :
    (m.insertMany l).lookup k =
      ((l.filter fun e => e.1 = k).map Prod.snd).getLast?.or (m.lookup k) := by
  induction l using List.reverseRecOn with
  | nil => rfl
  | append_singleton l e ih =>
    have hinsert : m.insertMany (l ++ [e]) = (m.insertMany l).insert e.1 e.2 := by
      rw [insertMany, List.foldl_append]
      rfl
    rw [hinsert]
    by_cases hk : k = e.1
    · subst hk
      simp [lookup_insert]
    · rw [lookup_insert_ne hk, ih]
      simp [Ne.symm hk]

theorem lookup_insertMany_of_notMem (h : k ∉ l.map Prod.fst) :
    (m.insertMany l).lookup k = m.lookup k := by
  have hnone : (l.filter fun e => e.1 = k) = [] := by
    rw [List.filter_eq_nil_iff]
    intro e he heq
    exact h (List.mem_map.mpr ⟨e, he, of_decide_eq_true heq⟩)
  rw [lookup_insertMany, hnone]
  rfl

theorem lookup_insertMany_of_mem (hl : (l.map Prod.fst).Nodup) (h : (k, v) ∈ l) :
    (m.insertMany l).lookup k = some v := by
  induction l generalizing m with
  | nil => cases h
  | cons e l ih =>
    rw [List.map_cons, List.nodup_cons] at hl
    rw [insertMany_cons]
    rcases List.mem_cons.mp h with rfl | h
    · -- no later entry has the key
      rw [lookup_insertMany_of_notMem hl.1, lookup_insert]
    · exact ih hl.2 h

theorem lookup_insertMany_eq_some (h : (m.insertMany l).lookup k = some v) :
    (k, v) ∈ l ∨ m.lookup k = some v := by
  rw [lookup_insertMany, Option.or_eq_some_iff] at h
  rcases h with h | h
  · obtain ⟨e, he, rfl⟩ := List.mem_map.mp (List.mem_of_getLast? h)
    obtain ⟨hmem, hk⟩ := List.mem_filter.mp he
    obtain rfl := of_decide_eq_true hk
    exact .inl hmem
  · exact .inr h.2

end AList
