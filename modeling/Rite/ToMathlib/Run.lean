import Mathlib

/-!
# Runs of a state machine, with a history

A run is a list of steps, each of which starts where the one before it ended. What a specification
says of a step may depend on what has happened before; a *history* is a value that every step
updates, and `Along` says that a property of history and step holds at every step.

## Main results

* `Run.along`: an invariant that links the history and the state;
* `Run.forall_mem`: an invariant of the state alone;
* `Run.forall_dst`, `Run.forall_dst_iff`: one that some of the steps preserve, or only they;
* `Run.forall_mem_iff`: two conditions on the steps that are the same as long as such a one holds;
* `Run.forall_of_getLast?`: what cannot have happened in a run, by how it ends;
* `Run.of_append`: an invariant that links the steps so far and the state;
* `Run.pairwise`: what holds behind a step, and is never lost, holds at every later step.
-/

variable {κ σ γ : Type*} {src dst : κ → σ}

/-- Each step of the list starts where the one before it ended, and the first one in `s`. -/
inductive Run (src dst : κ → σ) : σ → List κ → Prop
  | nil (s : σ) : Run src dst s []
  | cons {s : σ} {k : κ} {ks : List κ} : src k = s → Run src dst (dst k) ks →
    Run src dst s (k :: ks)

/-- At every step of the list, `C` holds of the history and the step. -/
def Along (update : γ → κ → γ) (C : γ → κ → Prop) : γ → List κ → Prop
  | _, [] => True
  | g, k :: ks => C g k ∧ Along update C (update g k) ks

section Along

variable {update : γ → κ → γ} {C D : γ → κ → Prop} {g : γ} {ks : List κ}

instance Along.decidable [∀ g k, Decidable (C g k)] :
    (g : γ) → (ks : List κ) → Decidable (Along update C g ks)
  | _, [] => inferInstanceAs (Decidable True)
  | g, k :: ks =>
    have := Along.decidable (update g k) ks
    inferInstanceAs (Decidable (C g k ∧ Along update C (update g k) ks))

theorem Along.mono (h : Along update C g ks) (hCD : ∀ g k, C g k → D g k) :
    Along update D g ks := by
  induction ks generalizing g with
  | nil => trivial
  | cons k ks ih => exact ⟨hCD _ _ h.1, ih h.2⟩

end Along

namespace Run

variable {s : σ} {ks : List κ}

/-- An invariant `I` of the history and the state: it holds at every step if it holds at first
and every step preserves it that satisfies `C`. -/
theorem along {update : γ → κ → γ} {C : γ → κ → Prop} {I : γ → σ → Prop} {g : γ}
    (hrun : Run src dst s ks) (hC : Along update C g ks) (hI : I g s)
    (hstep : ∀ g k, I g (src k) → C g k → I (update g k) (dst k)) :
    Along update (fun g k => I g (src k) ∧ C g k) g ks := by
  induction hrun generalizing g with
  | nil => trivial
  | cons hsrc _ ih =>
    subst hsrc
    exact ⟨⟨hI, hC.1⟩, ih hC.2 (hstep _ _ hI hC.1)⟩

/-- An invariant of the state holds at every step. -/
theorem forall_mem {I : σ → Prop} (hrun : Run src dst s ks) (hI : I s)
    (hstep : ∀ k, I (src k) → I (dst k)) : ∀ k ∈ ks, I (src k) := by
  induction hrun with
  | nil => simp
  | cons hsrc _ ih =>
    subst hsrc
    intro k hk
    rcases List.mem_cons.mp hk with rfl | hk
    · exact hI
    · exact ih (hstep _ hI) k hk

/-- An invariant of the state that the steps with `C` preserve. -/
theorem forall_dst {I : σ → Prop} {C : κ → Prop} (hrun : Run src dst s ks) (hI : I s)
    (hC : ∀ k ∈ ks, C k) (hstep : ∀ k, I (src k) → C k → I (dst k)) : ∀ k ∈ ks, I (dst k) := by
  induction hrun with
  | nil => simp
  | @cons s k ks hsrc _ ih =>
    subst hsrc
    have hk := hstep k hI (hC k List.mem_cons_self)
    intro k' hk'
    rcases List.mem_cons.mp hk' with rfl | hk'
    · exact hk
    · exact ih hk (fun a ha => hC a (List.mem_cons_of_mem k ha)) k' hk'

/-- Two conditions that are the same where an invariant holds that the steps with `C` preserve. -/
theorem forall_mem_iff {I : σ → Prop} {C D : κ → Prop} (hrun : Run src dst s ks) (hI : I s)
    (hiff : ∀ k, I (src k) → (C k ↔ D k)) (hstep : ∀ k, I (src k) → C k → I (dst k)) :
    (∀ k ∈ ks, C k) ↔ ∀ k ∈ ks, D k := by
  induction hrun with
  | nil => simp
  | cons hsrc _ ih =>
    subst hsrc
    rw [List.forall_mem_cons, List.forall_mem_cons, ← hiff _ hI]
    exact and_congr_right fun hk => ih (hstep _ hI hk)

/-- An invariant of the state that the steps with `C` preserve, and no others do. -/
theorem forall_dst_iff {I : σ → Prop} {C : κ → Prop} (hrun : Run src dst s ks) (hI : I s)
    (hstep : ∀ k, I (src k) → (I (dst k) ↔ C k)) : (∀ k ∈ ks, I (dst k)) ↔ ∀ k ∈ ks, C k :=
  hrun.forall_mem_iff hI hstep fun _ _ => id

/-- If the steps without `C` lead from `I` to something that is never lost, then there are none in
a run that does not end there. -/
theorem forall_of_getLast? {I J : σ → Prop} {C : κ → Prop} (hrun : Run src dst s ks) (hI : I s)
    (hgood : ∀ k, I (src k) → C k → I (dst k)) (hbad : ∀ k, I (src k) → ¬ C k → J (dst k))
    (hJ : ∀ k, J (src k) → J (dst k)) (hlast : ∀ k ∈ ks.getLast?, ¬ J (dst k)) :
    ∀ k ∈ ks, C k := by
  induction hrun with
  | nil => simp
  | @cons s k ks hsrc htail ih =>
    subst hsrc
    by_cases hk : C k
    · have hlast' : ∀ a ∈ ks.getLast?, ¬ J (dst a) := by
        intro a ha
        refine hlast a ?_
        rw [List.getLast?_cons, Option.mem_def.mp ha]
        rfl
      intro a ha
      rcases List.mem_cons.mp ha with rfl | ha
      · exact hk
      · exact ih (hgood k hI hk) hlast' a ha
    · -- from here on the run is in `J`
      have hall : ∀ a ∈ k :: ks, J (dst a) := List.forall_mem_cons.mpr
        ⟨hbad k hI hk, htail.forall_dst (hbad k hI hk) (fun _ _ => trivial) fun a ha _ => hJ a ha⟩
      have hmem := List.getLast_mem (List.cons_ne_nil k ks)
      exact absurd (hall _ hmem) (hlast _ (List.getLast?_eq_getLast_of_ne_nil _))

/-- What holds behind a step, and is never lost, holds at every later step. -/
theorem pairwise {I : σ → Prop} (hrun : Run src dst s ks) (hstep : ∀ k, I (src k) → I (dst k)) :
    ks.Pairwise fun a b => I (dst a) → I (src b) := by
  induction hrun with
  | nil => exact .nil
  | cons _ htail ih => exact .cons (fun b hb hI => htail.forall_mem hI hstep b hb) ih

/-- An invariant of the steps so far and the state, up to a step of the run. -/
theorem of_append {I : List κ → σ → Prop} {k : κ} {later : List κ}
    (hrun : Run src dst s (ks ++ k :: later)) (hI : I [] s)
    (hstep : ∀ earlier, ∀ a ∈ ks, I earlier (src a) → I (earlier ++ [a]) (dst a)) :
    I ks (src k) := by
  induction ks generalizing s I with
  | nil =>
    cases hrun with
    | cons hsrc _ => exact hsrc ▸ hI
  | cons a ks ih =>
    cases hrun with
    | cons hsrc htail =>
      subst hsrc
      refine ih (I := fun earlier => I (a :: earlier)) htail ?_ ?_
      · exact hstep [] a List.mem_cons_self hI
      · exact fun earlier b hb h => hstep (a :: earlier) b (List.mem_cons_of_mem a hb) h

/-- A run, seen from one of its steps. -/
theorem split (hrun : Run src dst s ks) {i : ℕ} (hi : i < ks.length) :
    Run src dst s (ks.take i ++ ks[i] :: ks.drop (i + 1)) := by
  rwa [List.getElem_cons_drop, List.take_append_drop]

/-- A run, seen from two of its steps. -/
theorem split_later {k : κ} {later : List κ} (hrun : Run src dst s (ks ++ k :: later)) {i : ℕ}
    (hi : i < later.length) :
    Run src dst s (ks ++ k :: (later.take i ++ later[i] :: later.drop (i + 1))) := by
  rwa [List.getElem_cons_drop, List.take_append_drop]

/-- The rest of a run starts where the step in front of it ended. -/
theorem tail_of_append {k : κ} {tail : List κ} (hrun : Run src dst s (ks ++ k :: tail)) :
    Run src dst (dst k) tail := by
  induction ks generalizing s with
  | nil =>
    cases hrun with
    | cons _ htail => exact htail
  | cons a ks ih =>
    cases hrun with
    | cons _ htail => exact ih htail

end Run
