import Mathlib

/-!
# What a machine comes to

A machine is a step function that says where an action leads, if it is possible at all. Several
threads make one machine, whose actions are the steps of each; then more than one action can be
possible, and which is taken is not determined.

A machine stops in a state where no action is possible. What holds wherever it stops, however it
goes on, is *inevitable*, if it has to stop at all.

## Main results

* `Inevitable.of_foldlM`: what is inevitable stays so along a run;
* `Inevitable.of_measure`: a measure that every step makes smaller;
* `inevitable_iff_of_only`: a state in which one action is possible comes to what the next one
  comes to.
-/

variable {σ α : Type*} {step : σ → α → Option σ} {P : σ → Prop} {s s' : σ}

/-- No action is possible. -/
def Stops (step : σ → α → Option σ) (s : σ) : Prop := ∀ a, step s a = none

/-- Every run from the state comes to an end, and `P` holds where it ends. -/
inductive Inevitable (step : σ → α → Option σ) (P : σ → Prop) : σ → Prop
  | stop {s : σ} : Stops step s → P s → Inevitable step P s
  | next {s : σ} : ¬ Stops step s → (∀ a s', step s a = some s' → Inevitable step P s') →
    Inevitable step P s

theorem not_stops_of_step {a : α} (h : step s a = some s') : ¬ Stops step s := by
  intro hstops
  simp [hstops a] at h

namespace Inevitable

/-- It holds where the machine stops. -/
theorem holds (h : Inevitable step P s) (hstops : Stops step s) : P s := by
  cases h with
  | stop _ hP => exact hP
  | next hnot => exact absurd hstops hnot

theorem after {a : α} (h : Inevitable step P s) (hstep : step s a = some s') :
    Inevitable step P s' := by
  cases h with
  | stop hstops => exact absurd hstops (not_stops_of_step hstep)
  | next _ hall => exact hall a s' hstep

theorem mono {Q : σ → Prop} (h : Inevitable step P s) (hPQ : ∀ s, P s → Q s) :
    Inevitable step Q s := by
  induction h with
  | stop hstops hP => exact .stop hstops (hPQ _ hP)
  | next hnot _ ih => exact .next hnot ih

/-- What is inevitable stays so along a run. -/
theorem of_foldlM {as : List α} (h : Inevitable step P s) (hrun : as.foldlM step s = some s') :
    Inevitable step P s' := by
  induction as generalizing s with
  | nil =>
    obtain rfl : s = s' := by simpa using hrun
    exact h
  | cons a as ih =>
    rw [List.foldlM_cons] at hrun
    obtain ⟨m, hm, hrest⟩ := Option.bind_eq_some_iff.mp hrun
    exact ih (h.after hm) hrest

/-- If every step keeps `I` and makes a measure smaller, then the machine stops, and what `I` gives
there is inevitable. -/
theorem of_measure {I : σ → Prop} (m : σ → ℕ)
    (hstep : ∀ s a s', I s → step s a = some s' → I s' ∧ m s' < m s)
    (hstop : ∀ s, I s → Stops step s → P s) (hs : I s) : Inevitable step P s := by
  induction hm : m s using Nat.strong_induction_on generalizing s with
  | _ n ih =>
    by_cases hstops : Stops step s
    · exact .stop hstops (hstop s hs hstops)
    · refine .next hstops fun a s' ha => ?_
      obtain ⟨hs', hlt⟩ := hstep s a s' hs ha
      exact ih (m s') (hm ▸ hlt) hs' rfl

end Inevitable

/-- Where the machine stops, nothing else comes. -/
theorem inevitable_iff_of_stops (hstops : Stops step s) : Inevitable step P s ↔ P s :=
  ⟨fun h => h.holds hstops, .stop hstops⟩

/-- If one action is possible, the machine comes to what it comes to behind that. -/
theorem inevitable_iff_of_only {a : α} (hstep : step s a = some s')
    (honly : ∀ b, b ≠ a → step s b = none) : Inevitable step P s ↔ Inevitable step P s' := by
  refine ⟨fun h => h.after hstep, fun h => .next (not_stops_of_step hstep) fun b s'' hb => ?_⟩
  -- another action would not be possible
  by_cases hba : b = a
  · subst hba
    rw [hstep, Option.some_inj] at hb
    exact hb ▸ h
  · simp [honly b hba] at hb
