import Rite.Odin.RequestLog
import Rite.ToMathlib.OrderStatistic

/-!
# Percentiles of the request log

`calculate_percentiles` sorts the durations of all 32768 slots, whether they have been written or
not, and picks elements by rank. Durations are whole milliseconds, which a `double` holds exactly.

## Main results

* `percentile_eq`: a percentile is an order statistic of the latest durations and of as many zeros
  as there are slots that have not been written;
* `describes_iff`: the percentiles describe the latest requests exactly if all slots have been
  written, or the zeros do not show;
* `not_describes`: the median of a single request is zero.
-/

namespace Rite

/-- `odin_percentiles`. -/
structure OdinPercentiles where
  /-- `p99`. -/
  p99 : ℤ
  /-- `p90`. -/
  p90 : ℤ
  /-- `p75`. -/
  p75 : ℤ
  /-- `p50`. -/
  p50 : ℤ

/-- The duration of a request, in milliseconds. -/
def OdinTiming.duration (t : OdinTiming) : ℤ := (t.flushed - t.received).tdiv 1000000

namespace Odin

/-- `durations`, once they are sorted. -/
def sortedDurations (o : Odin) : List ℤ := (o.timings.map OdinTiming.duration).mergeSort (· ≤ ·)

/-- `durations[static_cast<size_t>(n * p) - 1]`, with `p` in percent. The products of 32768 are so
far from the next integer that rounding does not change what is left of them. -/
def percentile (o : Odin) (p : ℕ) : ℤ :=
  let n := o.sortedDurations.length
  o.sortedDurations.getD (n * p / 100 - 1) default

/-- `calculate_percentiles`. -/
def calculatePercentiles (o : Odin) : OdinPercentiles where
  p99 := o.percentile 99
  p90 := o.percentile 90
  p75 := o.percentile 75
  p50 := o.percentile 50

/-- The durations of the requests that have been logged, the oldest one first. -/
def durations (calls : List OdinCall) : List ℤ :=
  (calls.filterMap logged).map fun e => e.2.duration

/-- The sample: the latest durations. -/
def sample (calls : List OdinCall) : List ℤ :=
  (durations calls).drop ((durations calls).length - 32768)

/-- The rank of a percentile in a sample. -/
def rank (m p : ℕ) : ℕ := max 1 (m * p / 100)

/-- The percentiles describe the sample. -/
structure Describes (r : OdinPercentiles) (sample : List ℤ) : Prop where
  /-- Each is an order statistic. -/
  p50 : r.p50 = sample.orderStatistic (rank sample.length 50)
  /-- Each is an order statistic. -/
  p75 : r.p75 = sample.orderStatistic (rank sample.length 75)
  /-- Each is an order statistic. -/
  p90 : r.p90 = sample.orderStatistic (rank sample.length 90)
  /-- Each is an order statistic. -/
  p99 : r.p99 = sample.orderStatistic (rank sample.length 99)
  /-- They are not below the minimum, and not above the maximum. -/
  between : ∀ x ∈ [r.p50, r.p75, r.p90, r.p99], (∃ d ∈ sample, d ≤ x) ∧ ∃ d ∈ sample, x ≤ d
  /-- They do not decrease. -/
  mono : r.p50 ≤ r.p75 ∧ r.p75 ≤ r.p90 ∧ r.p90 ≤ r.p99

/-- The element of the sample with the rank that `p` has among 32768 elements, less the slots that
have not been written, is that of the rank which `p` has in the sample; if there is no such rank,
the latter is zero. -/
def ZerosHidden (sample : List ℤ) (p : ℕ) : Prop :=
  sample.orderStatistic (rank sample.length p) =
    if 32768 * p / 100 ≤ 32768 - sample.length then 0
    else sample.orderStatistic (32768 * p / 100 - (32768 - sample.length))

instance (sample : List ℤ) (p : ℕ) : Decidable (ZerosHidden sample p) :=
  inferInstanceAs (Decidable (_ = _))

/-! ## The slots -/

variable {calls : List OdinCall}

theorem length_sample (calls : List OdinCall) :
    (sample calls).length = min (durations calls).length 32768 := by
  rw [sample, List.length_drop]
  omega

/-- The durations of the slots are the sample and zeros. -/
theorem map_timings_perm (adminPath : Octets) (calls : List OdinCall) :
    ((run (create adminPath) calls).timings.map OdinTiming.duration).Perm
      (sample calls ++ List.replicate (32768 - (sample calls).length) 0) := by
  have hslots : (run (create adminPath) calls).timings =
      ((BoundedWindow.Ring.new 32768 {}).writeAll
        ((calls.filterMap logged).map Prod.snd)).slots :=
      congrArg (·.slots) (run_eq adminPath calls).2.1
  have hperm := (BoundedWindow.Ring.slots_writeAll_perm (show 0 < 32768 by decide) {}
    ((calls.filterMap logged).map Prod.snd)).map OdinTiming.duration
  have hzero : OdinTiming.duration {} = 0 := rfl
  have hrest : 32768 - (sample calls).length = 32768 - (calls.filterMap logged).length := by
    rw [length_sample, durations, List.length_map]
    omega
  rw [hslots, hrest]
  rw [List.map_append, List.map_replicate, hzero, List.map_drop, List.length_map, List.map_map]
    at hperm
  simpa only [sample, durations, List.length_map, Function.comp_def] using hperm

/-- A percentile is an order statistic of the sample with zeros. -/
theorem percentile_eq (adminPath : Octets) (calls : List OdinCall) (p : ℕ) :
    (run (create adminPath) calls).percentile p =
      (sample calls ++ List.replicate (32768 - (sample calls).length) 0).orderStatistic
        (32768 * p / 100) := by
  have hperm := map_timings_perm adminPath calls
  have hle : (sample calls).length ≤ 32768 := by
    rw [length_sample]
    omega
  have hlength : (run (create adminPath) calls).sortedDurations.length = 32768 := by
    rw [sortedDurations, List.length_mergeSort, hperm.length_eq, List.length_append,
      List.length_replicate]
    omega
  rw [percentile, hlength, ← List.orderStatistic_perm hperm]
  rfl

/-- The zeros come first, as no duration is negative. -/
theorem percentile_eq_ite (adminPath : Octets) (hnonneg : ∀ d ∈ durations calls, 0 ≤ d) {p : ℕ}
    (hp : 1 ≤ 32768 * p / 100) :
    (run (create adminPath) calls).percentile p =
      if 32768 * p / 100 ≤ 32768 - (sample calls).length then 0
      else (sample calls).orderStatistic (32768 * p / 100 - (32768 - (sample calls).length)) := by
  rw [percentile_eq]
  exact List.orderStatistic_append_replicate
    (fun d hd => hnonneg d (List.drop_subset _ _ hd)) hp

/-- A rank is one of the sample. -/
theorem rank_sub_one_lt {m p : ℕ} (hm : 0 < m) (hp : p ≤ 100) : rank m p - 1 < m := by
  have hle : m * p / 100 ≤ m :=
    calc
      m * p / 100 ≤ m * 100 / 100 := Nat.div_le_div_right (Nat.mul_le_mul_left m hp)
      _ = m := Nat.mul_div_cancel m (by decide)
  unfold rank
  omega

theorem rank_mono {m p q : ℕ} (hpq : p ≤ q) : rank m p ≤ rank m q :=
  max_le_max le_rfl (Nat.div_le_div_right (Nat.mul_le_mul_left m hpq))

/-- If all slots have been written, there are no zeros. -/
theorem zerosHidden_of_le (hfull : 32768 ≤ (durations calls).length) {p : ℕ}
    (hp : 1 ≤ 32768 * p / 100) : ZerosHidden (sample calls) p := by
  have hlength : (sample calls).length = 32768 := by
    rw [length_sample]
    omega
  rw [ZerosHidden, hlength, rank, max_eq_right hp, Nat.sub_self, if_neg (by omega), Nat.sub_zero]

/-- The order statistics of a sample describe it. -/
theorem describes_of_eq {sample : List ℤ} (hne : sample ≠ []) {r : OdinPercentiles}
    (h50 : r.p50 = sample.orderStatistic (rank sample.length 50))
    (h75 : r.p75 = sample.orderStatistic (rank sample.length 75))
    (h90 : r.p90 = sample.orderStatistic (rank sample.length 90))
    (h99 : r.p99 = sample.orderStatistic (rank sample.length 99)) : Describes r sample := by
  have hpos : 0 < sample.length := List.length_pos_iff.mpr hne
  have hbound : ∀ p ≤ 100, (∃ d ∈ sample, d ≤ sample.orderStatistic (rank sample.length p)) ∧
      ∃ d ∈ sample, sample.orderStatistic (rank sample.length p) ≤ d := by
    intro p hp
    have hmem := List.orderStatistic_mem (rank_sub_one_lt hpos hp)
    exact ⟨⟨_, hmem, le_rfl⟩, ⟨_, hmem, le_rfl⟩⟩
  refine ⟨h50, h75, h90, h99, fun x hx => ?_, ?_, ?_, ?_⟩
  · simp only [List.mem_cons, List.not_mem_nil, or_false] at hx
    rcases hx with rfl | rfl | rfl | rfl
    · exact h50 ▸ hbound 50 (by decide)
    · exact h75 ▸ hbound 75 (by decide)
    · exact h90 ▸ hbound 90 (by decide)
    · exact h99 ▸ hbound 99 (by decide)
  · rw [h50, h75]
    exact List.orderStatistic_mono (rank_mono (by decide)) (rank_sub_one_lt hpos (by decide))
  · rw [h75, h90]
    exact List.orderStatistic_mono (rank_mono (by decide)) (rank_sub_one_lt hpos (by decide))
  · rw [h90, h99]
    exact List.orderStatistic_mono (rank_mono (by decide)) (rank_sub_one_lt hpos (by decide))

/-- The percentiles describe the latest requests if and only if all slots have been written, or the
zeros of those that have not do not show. -/
theorem describes_iff (adminPath : Octets) (hne : durations calls ≠ [])
    (hnonneg : ∀ d ∈ durations calls, 0 ≤ d) :
    Describes (run (create adminPath) calls).calculatePercentiles (sample calls) ↔
      32768 ≤ (durations calls).length ∨
        ∀ p ∈ [50, 75, 90, 99], ZerosHidden (sample calls) p := by
  have h50 := percentile_eq_ite adminPath hnonneg (p := 50) (by decide)
  have h75 := percentile_eq_ite adminPath hnonneg (p := 75) (by decide)
  have h90 := percentile_eq_ite adminPath hnonneg (p := 90) (by decide)
  have h99 := percentile_eq_ite adminPath hnonneg (p := 99) (by decide)
  constructor
  · intro h
    refine .inr fun p hp => ?_
    simp only [List.mem_cons, List.not_mem_nil, or_false] at hp
    rcases hp with rfl | rfl | rfl | rfl
    · exact h.p50.symm.trans h50
    · exact h.p75.symm.trans h75
    · exact h.p90.symm.trans h90
    · exact h.p99.symm.trans h99
  · intro h
    have hhidden : ∀ p ∈ [50, 75, 90, 99], ZerosHidden (sample calls) p := by
      rcases h with hfull | h
      · intro p hp
        refine zerosHidden_of_le hfull ?_
        simp only [List.mem_cons, List.not_mem_nil, or_false] at hp
        rcases hp with rfl | rfl | rfl | rfl
        all_goals decide
      · exact h
    have hsample : sample calls ≠ [] := by
      rw [← List.length_pos_iff, length_sample]
      have := List.length_pos_iff.mpr hne
      omega
    exact describes_of_eq hsample (h50.trans (hhidden 50 (by simp)).symm)
      (h75.trans (hhidden 75 (by simp)).symm) (h90.trans (hhidden 90 (by simp)).symm)
      (h99.trans (hhidden 99 (by simp)).symm)

/-- A request that takes the given time. -/
def sampleCall (milliseconds : ℤ) : OdinCall where
  request := {}
  addr := []
  context := .timing {}
  now := 1000000 * milliseconds

theorem durations_sampleCall (times : List ℤ) : durations (times.map sampleCall) = times := by
  simp [durations, logged, sampleCall, OdinTiming.duration, List.filterMap_map, Function.comp_def]

theorem sample_sampleCall {times : List ℤ} (h : times.length ≤ 32768) :
    sample (times.map sampleCall) = times := by
  rw [sample, durations_sampleCall, Nat.sub_eq_zero_of_le h, List.drop_zero]

/-- Two requests that take no time, and one between them that is slower than any percentile. -/
theorem describes_sample :
    Describes (run (create []) ([0, 5, 0].map sampleCall)).calculatePercentiles
      (sample ([0, 5, 0].map sampleCall)) := by
  have hne : durations ([0, 5, 0].map sampleCall) ≠ [] := by
    rw [durations_sampleCall]
    decide
  have hnonneg : ∀ d ∈ durations ([0, 5, 0].map sampleCall), 0 ≤ d := by
    rw [durations_sampleCall]
    decide
  have hsorted : [0, 5, 0].mergeSort (· ≤ ·) = [0, 0, (5 : ℤ)] := by
    simp [List.mergeSort, List.MergeSort.Internal.splitInTwo, List.splitAt, List.splitAt.go]
  refine (describes_iff [] hne hnonneg).mpr (.inr ?_)
  rw [sample_sampleCall (by decide)]
  simp [ZerosHidden, rank, List.orderStatistic, hsorted]

/-- The median of a single request is the zero of a slot that has not been written. -/
theorem not_describes :
    ¬ ∀ adminPath calls, durations calls ≠ [] → (∀ d ∈ durations calls, 0 ≤ d) →
      Describes (run (create adminPath) calls).calculatePercentiles (sample calls) := by
  intro h
  have hne : durations ([5].map sampleCall) ≠ [] := by
    rw [durations_sampleCall]
    decide
  have hnonneg : ∀ d ∈ durations ([5].map sampleCall), 0 ≤ d := by
    rw [durations_sampleCall]
    decide
  have hmedian := (h [] ([5].map sampleCall) hne hnonneg).p50
  have hzero := percentile_eq_ite [] hnonneg (p := 50) (by decide)
  rw [calculatePercentiles, hzero, sample_sampleCall (by decide)] at hmedian
  simp [rank, List.orderStatistic] at hmedian

end Odin

end Rite
