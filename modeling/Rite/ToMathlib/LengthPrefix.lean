import Mathlib

/-!
# Names with their lengths

A list of names is written with the length of each name in an octet in front of it.

## Main results

* `entry_append_eq_cons_iff`: what begins with an entry, by its first octet;
* `lists_cons_iff`: looking for a name, one entry at a time.
-/

namespace LengthPrefix

/-- A name whose length fits into an octet. -/
abbrev Name := {n : List UInt8 // n.length < 256}

/-- A name behind its length. -/
def entry (n : Name) : List UInt8 := UInt8.ofNat n.1.length :: n.1

/-- There is an entry for the name, and nothing but complete entries in front of it. -/
def Lists (n : Name) (s : List UInt8) : Prop :=
  ∃ (names : List Name) (rest : List UInt8), s = names.flatMap entry ++ (entry n ++ rest)

variable {n : Name} {c : UInt8} {s t : List UInt8}

/-- The first octet tells where an entry ends. -/
theorem entry_append_eq_cons_iff :
    c :: s = entry n ++ t ↔
      c.toNat ≤ s.length ∧ s.take c.toNat = n.1 ∧ s.drop c.toNat = t := by
  have hlength : (UInt8.ofNat n.1.length).toNat = n.1.length :=
    UInt8.toNat_ofNat_of_lt' n.2
  rw [entry, List.cons_append, List.cons.injEq]
  constructor
  · rintro ⟨rfl, rfl⟩
    rw [hlength, List.length_append]
    exact ⟨Nat.le_add_right _ _, List.take_left, List.drop_left⟩
  · rintro ⟨hle, htake, rfl⟩
    rw [← htake, List.length_take, Nat.min_eq_left hle, UInt8.ofNat_toNat]
    exact ⟨rfl, (List.take_append_drop _ _).symm⟩

theorem not_lists_nil (n : Name) : ¬ Lists n [] := by
  rintro ⟨names, rest, heq⟩
  have hentry := (List.append_eq_nil_iff.mp heq.symm).2
  exact List.cons_ne_nil _ _ hentry

/-- The first entry is complete, and it is the one, or the one comes later. -/
theorem lists_cons_iff :
    Lists n (c :: s) ↔
      c.toNat ≤ s.length ∧ (s.take c.toNat = n.1 ∨ Lists n (s.drop c.toNat)) := by
  constructor
  · rintro ⟨_ | ⟨n', names⟩, rest, heq⟩
    · obtain ⟨hle, htake, -⟩ := entry_append_eq_cons_iff.mp heq
      exact ⟨hle, .inl htake⟩
    · rw [List.flatMap_cons, List.append_assoc] at heq
      obtain ⟨hle, -, hdrop⟩ := entry_append_eq_cons_iff.mp heq
      exact ⟨hle, .inr ⟨names, rest, hdrop⟩⟩
  · rintro ⟨hle, htake | ⟨names, rest, hdrop⟩⟩
    · exact ⟨[], s.drop c.toNat, entry_append_eq_cons_iff.mpr ⟨hle, htake, rfl⟩⟩
    · have hlt : (s.take c.toNat).length < 256 := by
        rw [List.length_take, Nat.min_eq_left hle]
        exact c.toNat_lt
      refine ⟨⟨s.take c.toNat, hlt⟩ :: names, rest, ?_⟩
      rw [List.flatMap_cons, List.append_assoc]
      exact entry_append_eq_cons_iff.mpr ⟨hle, rfl, hdrop⟩

end LengthPrefix
