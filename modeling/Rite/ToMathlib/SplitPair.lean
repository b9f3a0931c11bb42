import Mathlib

/-!
# Splitting a list at a pair

A list is cut wherever two given elements follow each other, as a text is at its line ends.

## Main results

* `exists_first_pair`: there is a first pair;
* `splitPair_append`: a piece in front of the pair is cut off;
* `splitPair_flatMap`: pieces with the pair behind each are found again;
* `not_infix_of_mem_splitPair`: there is no pair in a piece.
-/

namespace List

variable {α : Type*} [DecidableEq α] {a b : α}

/-- The pieces of a list between the pairs of `a` and `b`. -/
def splitPair (a b : α) : List α → List (List α)
  | [] => [[]]
  | [c] => [[c]]
  | c :: d :: s =>
    if c = a ∧ d = b then [] :: splitPair a b s
    else (splitPair a b (d :: s)).modifyHead (c :: ·)

theorem splitPair_pair (s : List α) : splitPair a b (a :: b :: s) = [] :: splitPair a b s :=
  if_pos ⟨rfl, rfl⟩

/-- An element that begins no pair belongs to the piece behind it. -/
theorem splitPair_cons {c : α} {s : List α} (h : ¬ (c = a ∧ s.head? = some b)) :
    splitPair a b (c :: s) = (splitPair a b s).modifyHead (c :: ·) := by
  cases s with
  | nil => rfl
  | cons d s => exact if_neg fun hpair => h ⟨hpair.1, by rw [hpair.2]; rfl⟩

omit [DecidableEq α] in
/-- A pair in a list is at its beginning, or behind the first element. -/
theorem pair_infix_cons_iff {c : α} {s : List α} :
    [a, b] <:+: c :: s ↔ (c = a ∧ s.head? = some b) ∨ [a, b] <:+: s := by
  rw [infix_cons_iff, cons_prefix_cons, eq_comm (a := a)]
  cases s with
  | nil => simp
  | cons d s => simp [cons_prefix_cons, eq_comm]

omit [DecidableEq α] in
/-- Of the pairs in a list there is a first one. -/
theorem exists_first_pair {s : List α} (h : [a, b] <:+: s) :
    ∃ u w, s = u ++ a :: b :: w ∧ ¬ [a, b] <:+: u := by
  induction s with
  | nil => simp at h
  | cons c s ih =>
    by_cases hhead : c = a ∧ s.head? = some b
    · obtain ⟨rfl, hs⟩ := hhead
      obtain ⟨w, rfl⟩ := head?_eq_some_iff.mp hs
      exact ⟨[], w, rfl, by simp⟩
    · obtain ⟨u, w, rfl, hu⟩ := ih ((pair_infix_cons_iff.mp h).resolve_left hhead)
      refine ⟨c :: u, w, rfl, ?_⟩
      rw [pair_infix_cons_iff, not_or]
      refine ⟨fun hpair => hhead ⟨hpair.1, ?_⟩, hu⟩
      -- what is behind the first element begins as the part in front of the pair does
      rw [head?_append, hpair.2]
      rfl

/-- A list without the pair is cut off in front of one. -/
theorem splitPair_append (hab : a ≠ b) {s : List α} (h : ¬ [a, b] <:+: s) (t : List α) :
    splitPair a b (s ++ a :: b :: t) = s :: splitPair a b t := by
  induction s with
  | nil => exact splitPair_pair t
  | cons c s ih =>
    rw [pair_infix_cons_iff, not_or] at h
    -- the first element of the pair does not end another one
    have hhead : ¬ (c = a ∧ (s ++ a :: b :: t).head? = some b) := by
      rintro ⟨rfl, hhead⟩
      cases s with
      | nil => exact hab (Option.some_inj.mp hhead)
      | cons d s => exact h.1 ⟨rfl, hhead⟩
    rw [cons_append, splitPair_cons hhead, ih h.2]
    rfl

/-- Pieces that have the pair behind them are found again. -/
theorem splitPair_flatMap (hab : a ≠ b) {pieces : List (List α)}
    (h : ∀ s ∈ pieces, ¬ [a, b] <:+: s) :
    splitPair a b (pieces.flatMap (· ++ [a, b])) = pieces ++ [[]] := by
  induction pieces with
  | nil => rfl
  | cons s pieces ih =>
    rw [forall_mem_cons] at h
    rw [flatMap_cons, append_assoc, cons_append, cons_append, nil_append,
      splitPair_append hab h.1, ih h.2, cons_append]

/-- The first piece is what the list begins with. -/
theorem exists_splitPair_eq_cons (a b : α) (s : List α) :
    ∃ l pieces, splitPair a b s = l :: pieces ∧ l <+: s := by
  fun_induction splitPair a b s with
  | case1 => exact ⟨[], [], rfl, nil_prefix⟩
  | case2 c => exact ⟨[c], [], rfl, prefix_rfl⟩
  | case3 c d s hpair ih => exact ⟨[], _, rfl, nil_prefix⟩
  | case4 c d s hpair ih =>
    obtain ⟨l, pieces, heq, hl⟩ := ih
    exact ⟨c :: l, pieces, by rw [heq]; rfl, (prefix_cons_inj c).mpr hl⟩

/-- There is no pair in a piece. -/
theorem not_infix_of_mem_splitPair {s l : List α} (h : l ∈ splitPair a b s) :
    ¬ [a, b] <:+: l := by
  fun_induction splitPair a b s generalizing l with
  | case1 =>
    rw [mem_singleton.mp h]
    exact fun hinfix => by simpa using hinfix.length_le
  | case2 c =>
    rw [mem_singleton.mp h]
    exact fun hinfix => by simpa using hinfix.length_le
  | case3 c d s hpair ih =>
    rcases mem_cons.mp h with rfl | h
    · exact fun hinfix => by simpa using hinfix.length_le
    · exact ih h
  | case4 c d s hpair ih =>
    obtain ⟨first, pieces, heq, hfirst⟩ := exists_splitPair_eq_cons a b (d :: s)
    rw [heq] at h ih
    rcases mem_cons.mp h with rfl | h
    · -- a pair at the beginning of the piece would be one of the list
      rw [pair_infix_cons_iff, not_or]
      refine ⟨fun ⟨hc, hhead⟩ => hpair ⟨hc, ?_⟩, ih mem_cons_self⟩
      cases first with
      | nil => cases hhead
      | cons e first =>
        rw [← Option.some_inj.mp hhead]
        exact ((cons_prefix_cons.mp hfirst).1).symm
    · exact ih (mem_cons_of_mem first h)

end List
