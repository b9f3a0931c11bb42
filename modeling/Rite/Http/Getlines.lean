import Rite.Http.Request

/-!
# Separated strings

Queries, cookies and files are taken apart at separators: `std::getline` takes the pieces between
them, and `find` the first one.

## Main results

* `separated_induction`: what is shown piece by piece holds of the string;
* `getlines_flatMap`, `getlines_intercalate`: pieces are read back from in front of their
  separators, and from between them;
* `takeWhile_ne_append`, `dropWhile_ne_append`: so are the two sides of the first separator.
-/

namespace Rite

namespace Http

/-! ## The first separator -/

section Find

variable {c : Octet} {s : Octets}

private theorem decide_ne_of_notMem (h : c ∉ s) : ∀ d ∈ s, decide (d ≠ c) := by
  rintro d hd
  refine decide_eq_true ?_
  rintro rfl
  exact h hd

theorem takeWhile_ne_eq_self (h : c ∉ s) : s.takeWhile (· ≠ c) = s :=
  List.takeWhile_eq_self_iff.mpr (decide_ne_of_notMem h)

theorem dropWhile_ne_eq_nil (h : c ∉ s) : s.dropWhile (· ≠ c) = [] :=
  List.dropWhile_eq_nil_iff.mpr (decide_ne_of_notMem h)

/-- What stands in front of a separator is found again, -/
theorem takeWhile_ne_append (h : c ∉ s) (t : Octets) : (s ++ c :: t).takeWhile (· ≠ c) = s := by
  rw [List.takeWhile_append_of_pos (decide_ne_of_notMem h), List.takeWhile_cons_of_neg (by simp),
    List.append_nil]

/-- and so is the separator with what stands behind it. -/
theorem dropWhile_ne_append (h : c ∉ s) (t : Octets) :
    (s ++ c :: t).dropWhile (· ≠ c) = c :: t := by
  rw [List.dropWhile_append_of_pos (decide_ne_of_notMem h), List.dropWhile_cons_of_neg (by simp)]

/-- A string is all in front of a separator that it does not have, or the first one cuts it. -/
theorem first_cases (c : Octet) (s : Octets) :
    c ∉ s ∧ s.takeWhile (· ≠ c) = s ∧ (s.dropWhile (· ≠ c)).tail = [] ∨
      ∃ u v, s = u ++ c :: v ∧ c ∉ u ∧ s.takeWhile (· ≠ c) = u ∧
        (s.dropWhile (· ≠ c)).tail = v := by
  by_cases hmem : c ∈ s
  · obtain ⟨u, v, rfl, hu⟩ := List.eq_append_cons_of_mem hmem
    refine .inr ⟨u, v, rfl, hu, takeWhile_ne_append hu v, ?_⟩
    rw [dropWhile_ne_append hu, List.tail_cons]
  · exact .inl ⟨hmem, takeWhile_ne_eq_self hmem, by rw [dropWhile_ne_eq_nil hmem, List.tail_nil]⟩

/-- The octets of a string are the separator and those on its two sides. -/
theorem mem_iff_of_first {d : Octet} (hd : d ≠ c) (s : Octets) :
    d ∈ s ↔ d ∈ s.takeWhile (· ≠ c) ∨ d ∈ (s.dropWhile (· ≠ c)).tail := by
  rcases first_cases c s with ⟨-, htake, hdrop⟩ | ⟨u, v, rfl, -, htake, hdrop⟩
  · rw [htake, hdrop]
    simp
  · rw [htake, hdrop]
    simp [hd]

/-- The separator is not in front of the first one. -/
theorem notMem_takeWhile_ne (c : Octet) (s : Octets) : c ∉ s.takeWhile (· ≠ c) := by
  intro h
  simpa using List.mem_takeWhile_imp h

end Find

/-! ## Pieces -/

section Split

variable {separator : Octet} {s l : Octets} {parts : List Octets}

/-- A string is a piece without separators, or has such a piece and a separator in front. -/
theorem separated_induction (separator : Octet) {motive : Octets → Prop}
    (single : ∀ x, separator ∉ x → motive x)
    (append : ∀ x y, separator ∉ x → motive y → motive (x ++ separator :: y)) (s : Octets) :
    motive s := by
  induction hn : s.length using Nat.strong_induction_on generalizing s with
  | _ n ih =>
    by_cases hmem : separator ∈ s
    · -- what follows the first separator is shorter
      obtain ⟨x, y, rfl, hx⟩ := List.eq_append_cons_of_mem hmem
      refine append x y hx (ih y.length ?_ y rfl)
      rw [← hn, List.length_append, List.length_cons]
      omega
    · exact single s hmem

theorem notMem_of_mem_splitOn (h : l ∈ s.splitOn separator) : separator ∉ l := by
  induction s using separated_induction separator with
  | single x hx =>
    rw [List.splitOn_eq_singleton hx, List.mem_singleton] at h
    rwa [h]
  | append x y hx ih =>
    rw [List.splitOn_append_cons_self_of_not_mem hx] at h
    rcases List.mem_cons.mp h with rfl | h
    · exact hx
    · exact ih h

/-- The octets of a string are the separators and those in its pieces. -/
theorem mem_iff_of_ne {c : Octet} (hc : c ≠ separator) (s : Octets) :
    c ∈ s ↔ ∃ x ∈ s.splitOn separator, c ∈ x := by
  induction s using separated_induction separator with
  | single x hx => simp [List.splitOn_eq_singleton hx]
  | append x y hx ih =>
    rw [List.splitOn_append_cons_self_of_not_mem hx]
    simp [hc, ih]

/-- Only an empty piece at the end is not read. -/
theorem mem_getlines_or (h : l ∈ s.splitOn separator) : l ∈ getlines separator s ∨ l = [] := by
  simp only [getlines]
  split_ifs with hlast
  · rw [← List.dropLast_append_getLast? [] hlast] at h
    simpa using h
  · exact .inl h

theorem mem_splitOn_of_mem_getlines (h : l ∈ getlines separator s) : l ∈ s.splitOn separator := by
  simp only [getlines] at h
  split_ifs at h
  · exact List.dropLast_subset _ h
  · exact h

/-- There is no separator in what is read. -/
theorem notMem_of_mem_getlines (h : l ∈ getlines separator s) : separator ∉ l :=
  notMem_of_mem_splitOn (mem_splitOn_of_mem_getlines h)

/-- Lines that are written one after the other are read one after the other. -/
theorem getlines_flatMap {lines : List Octets} (h : ∀ l ∈ lines, separator ∉ l) :
    getlines separator (lines.flatMap fun l => l ++ [separator]) = lines := by
  have hsplit : (lines.flatMap fun l => l ++ [separator]).splitOn separator = lines ++ [[]] := by
    induction lines with
    | nil => rfl
    | cons l lines ih =>
      have hl := h l List.mem_cons_self
      rw [List.flatMap_cons, List.append_assoc, List.singleton_append,
        List.splitOn_append_cons_self_of_not_mem hl,
        ih fun l' hl' => h l' (List.mem_cons_of_mem l hl'), List.cons_append]
  simp [getlines, hsplit]

/-- Pieces that are not empty are read back from between their separators. -/
theorem getlines_intercalate (hsep : ∀ l ∈ parts, separator ∉ l) (hne : ∀ l ∈ parts, l ≠ []) :
    getlines separator ([separator].intercalate parts) = parts := by
  by_cases hparts : parts = []
  · subst hparts
    rfl
  · -- the last piece is not empty, and so it is read as well
    have hlast : parts.getLast? ≠ some [] := fun h => hne [] (List.mem_of_getLast? h) rfl
    rw [getlines, List.splitOn_intercalate separator hsep hparts]
    exact if_neg hlast

/-- The piece that is not read counts for nothing. -/
theorem sum_map_getlines {f : Octets → ℕ} (hf : f [] = 0) (s : Octets) :
    ((getlines separator s).map f).sum = ((s.splitOn separator).map f).sum := by
  simp only [getlines]
  split_ifs with hlast
  · conv_rhs => rw [← List.dropLast_append_getLast? [] hlast]
    rw [List.map_append, List.sum_append, List.map_singleton, List.sum_singleton, hf, Nat.add_zero]
  · rfl

/-- If no piece is taken apart, the pieces are read one by one. -/
theorem getlines_of_splitOn_eq_map {f : Octets → Octets} {t : Octets} (hf : ∀ x, f x = [] ↔ x = [])
    (h : t.splitOn separator = (s.splitOn separator).map f) :
    getlines separator t = (getlines separator s).map f := by
  -- the last pieces are both empty or both not
  have hlast : (t.splitOn separator).getLast? = some [] ↔
      (s.splitOn separator).getLast? = some [] := by
    rw [h, List.getLast?_map]
    simp [hf]
  simp only [getlines, hlast]
  split_ifs
  · rw [h, List.map_dropLast]
  · exact h

end Split

end Http

end Rite
