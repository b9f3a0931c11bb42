import Mathlib

/-!
# Order statistics

The elements of a list by their rank: the first order statistic is the least element.

## Main results

* `orderStatistic_perm`: the order of the list does not matter;
* `orderStatistic_mem`, `orderStatistic_mono`: the order statistics are elements of the list, and
  they grow with the rank;
* `orderStatistic_append_replicate`: copies of a lower bound move the ranks.
-/

namespace List

variable {α : Type*} [LinearOrder α] [Inhabited α]

/-- The element of rank `k`, counted from one. -/
def orderStatistic (l : List α) (k : ℕ) : α := (l.mergeSort (· ≤ ·)).getD (k - 1) default

variable {l l' : List α} {a : α} {j k r : ℕ}

theorem orderStatistic_perm (h : l.Perm l') (k : ℕ) :
    l.orderStatistic k = l'.orderStatistic k := by
  have hperm : (l.mergeSort (· ≤ ·)).Perm (l'.mergeSort (· ≤ ·)) :=
    (mergeSort_perm l _).trans (h.trans (mergeSort_perm l' _).symm)
  rw [orderStatistic, orderStatistic, hperm.eq_of_sortedLE sortedLE_mergeSort sortedLE_mergeSort]

theorem orderStatistic_eq_getElem (hk : k - 1 < l.length) :
    l.orderStatistic k =
      (l.mergeSort (· ≤ ·)).get ⟨k - 1, by rwa [length_mergeSort]⟩ := by
  rw [orderStatistic, getD_eq_getElem _ _ (by rwa [length_mergeSort])]
  rfl

theorem orderStatistic_mem (hk : k - 1 < l.length) : l.orderStatistic k ∈ l := by
  rw [orderStatistic_eq_getElem hk]
  exact mem_mergeSort.mp (get_mem _ _)

theorem orderStatistic_mono (hjk : j ≤ k) (hk : k - 1 < l.length) :
    l.orderStatistic j ≤ l.orderStatistic k := by
  rw [orderStatistic_eq_getElem hk, orderStatistic_eq_getElem (by omega)]
  exact sortedLE_mergeSort.monotone_get (show j - 1 ≤ k - 1 by omega)

/-- Copies of a lower bound are the first order statistics. -/
theorem orderStatistic_append_replicate (hl : ∀ x ∈ l, a ≤ x) (hk : 1 ≤ k) :
    (l ++ replicate r a).orderStatistic k =
      if k ≤ r then a else l.orderStatistic (k - r) := by
  have hsorted : (replicate r a ++ l.mergeSort (· ≤ ·)).SortedLE := by
    rw [sortedLE_iff_pairwise, pairwise_append]
    refine ⟨pairwise_replicate.mpr (.inr le_rfl), sortedLE_mergeSort.pairwise, fun x hx y hy => ?_⟩
    rw [eq_of_mem_replicate hx]
    exact hl y (mem_mergeSort.mp hy)
  have hperm : ((l ++ replicate r a).mergeSort (· ≤ ·)).Perm
      (replicate r a ++ l.mergeSort (· ≤ ·)) :=
    (mergeSort_perm _ _).trans (perm_append_comm.trans ((mergeSort_perm l _).symm.append_left _))
  rw [orderStatistic, hperm.eq_of_sortedLE sortedLE_mergeSort hsorted]
  split_ifs with hkr
  · rw [getD_append _ _ _ _ (by simp; omega), getD_eq_getElem _ _ (by simp; omega),
      getElem_replicate]
  · rw [getD_append_right _ _ _ _ (by simp; omega), length_replicate, orderStatistic]
    congr 1
    omega

end List
