import Rite.ToMathlib.Run

/-!
# Transitions of a machine

A machine is a step function that says where an action leads, if it is possible at all. Its
transitions make up runs, and a list of actions makes up the run that goes on as long as the
actions are possible.

## Main results

* `Transition.run_trace`: a trace is a run.
-/

variable {σ α : Type*}

/-- A step of a machine from one state to the next. -/
structure Transition (step : σ → α → Option σ) where
  /-- The state in front of the step. -/
  before : σ
  /-- What is done. -/
  action : α
  /-- The state behind the step. -/
  after : σ
  /-- The machine can do this. -/
  valid : step before action = some after

namespace Transition

variable {step : σ → α → Option σ}

/-- The transitions follow one another, from the state `s` on. -/
abbrev Runs (s : σ) (ks : List (Transition step)) : Prop := Run before after s ks

/-- The transitions that the actions lead to, as long as they are possible. -/
def trace (step : σ → α → Option σ) : σ → List α → List (Transition step)
  | _, [] => []
  | s, a :: as =>
    match h : step s a with
    | some s' => ⟨s, a, s', h⟩ :: trace step s' as
    | none => []

/-- A trace is a run. -/
theorem run_trace (step : σ → α → Option σ) (s : σ) (as : List α) :
    Runs s (trace step s as) := by
  induction as generalizing s with
  | nil => exact .nil s
  | cons a as ih =>
    rw [trace]
    split
    next s' h => exact .cons rfl (ih s')
    next h => exact .nil s

end Transition
