import Rite.ToMathlib.Transition

/-!
# Reference counting of connections

The references to one connection of `rite::server<https>`: the event loop takes one for each call
of `on_read` that it dispatches, and `on_read` one for each response callback. The threads are
counted by where they are in the code; the sentinel deletes the connection when it finds no
references, and the event loop passes over a connection that has been deleted.

The loop of `on_read` releases the reference of the call at the end of each iteration and goes on
reading. A response callback releases its own reference in front of its last statement, and not at
all if it is left by an exception.

## Main results

* `imbalance_before`: in every run, what `refs_` differs by from the number of the holders;
* `sound_iff`: the count is right in every state of a run exactly if no iteration of `on_read`
  comes to its end and no response callback does;
* `not_sound`: it becomes negative, and the connection is deleted in the hands of its readers.
-/

namespace Rite

namespace References

/-- A connection, and the number of threads at each place of the code that uses it. -/
structure State where
  /-- `refs_`. -/
  refs : ℤ := 0
  /-- `closed_`. -/
  closed : Bool := false
  /-- The sentinel has deleted the connection. -/
  deleted : Bool := false
  /-- Calls of `on_read` in front of `socket->read`. -/
  reading : ℕ := 0
  /-- Calls of `on_read` that have read a chunk. -/
  serving : ℕ := 0
  /-- Response callbacks in front of `h2_sock->release`. -/
  responding : ℕ := 0
  /-- Response callbacks behind it. -/
  leaving : ℕ := 0
  deriving DecidableEq

/-- The steps of the threads. -/
inductive Action
  /-- The event loop finds the connection alive, takes a reference and dispatches `on_read`. -/
  | dispatch
  /-- `socket->read` returns zero. -/
  | eof
  /-- `socket->read` returns a negative number. -/
  | failure
  /-- `socket->read` returns a positive number. -/
  | chunk
  /-- `on_read` calls `terminate`, itself or in `process`. -/
  | terminate
  /-- `on_read` takes a reference for the response callback of a request. -/
  | request
  /-- `on_read` releases a reference behind the chunk, and goes on reading. -/
  | iterate
  /-- A response callback ends by an exception, or is given up before it has begun. -/
  | abandon
  /-- A response callback releases its reference. -/
  | release
  /-- It marks the stream of the connection as closed, and returns. -/
  | touch
  /-- The sentinel looks at the connection, which has been idle or not. -/
  | sentinel (idle : Bool)
  deriving DecidableEq

/-- What a step does, if there is a thread that can take it. -/
def step (s : State) : Action → Option State
  | .dispatch =>
    if s.deleted then some s else some { s with refs := s.refs + 1, reading := s.reading + 1 }
  | .eof =>
    if s.reading = 0 then none
    else some { s with refs := s.refs - 1, closed := true, reading := s.reading - 1 }
  | .failure =>
    if s.reading = 0 then none
    else some { s with refs := s.refs - 1, reading := s.reading - 1 }
  | .chunk =>
    if s.reading = 0 then none
    else some { s with reading := s.reading - 1, serving := s.serving + 1 }
  | .terminate => if s.serving = 0 then none else some { s with closed := true }
  | .request =>
    if s.serving = 0 then none
    else some { s with refs := s.refs + 1, responding := s.responding + 1 }
  | .iterate =>
    if s.serving = 0 then none
    else some { s with
      refs := s.refs - 1, reading := s.reading + 1, serving := s.serving - 1 }
  | .abandon =>
    if s.responding = 0 then none else some { s with responding := s.responding - 1 }
  | .release =>
    if s.responding = 0 then none
    else some { s with
      refs := s.refs - 1, responding := s.responding - 1, leaving := s.leaving + 1 }
  | .touch => if s.leaving = 0 then none else some { s with leaving := s.leaving - 1 }
  | .sentinel idle =>
    if s.deleted then none
    else if idle ∧ s.refs ≤ 0 ∨ s.closed ∧ s.refs ≤ 0 then some { s with deleted := true }
    else some s

namespace State

/-- A connection that has just been accepted. -/
def accepted : State := {}

/-- The calls of `on_read` that have not returned, and the response callbacks that have not
finished. -/
def holders (s : State) : ℕ := s.reading + s.serving + s.responding + s.leaving

/-- What the count differs by from the number of the holders. -/
def imbalance (s : State) : ℤ := s.refs - s.holders

/-- The count is right. -/
structure Sound (s : State) : Prop where
  /-- It is the number of the holders. -/
  count : s.refs = s.holders
  /-- It is not negative. -/
  nonneg : 0 ≤ s.refs
  /-- A connection that has been deleted has no holders. -/
  alive : s.deleted → s.holders = 0
  /-- No callback is about to touch the connection without a reference of its own. -/
  owned : s.leaving = 0

end State

/-- What a step adds to the count for more than it adds to the holders. -/
def Action.drift : Action → ℤ
  | .iterate | .release => -1
  | .abandon | .touch => 1
  | _ => 0

/-- What the count differs by changes with each step by a constant. -/
theorem imbalance_step {s s' : State} {a : Action} (h : step s a = some s') :
    s'.imbalance = s.imbalance + a.drift := by
  -- the same arithmetic for each step
  cases a <;> simp only [step] at h <;> split_ifs at h <;> cases h <;>
    simp only [State.imbalance, State.holders, Action.drift] <;> omega

/-- In a run, what the count differs by is the sum of these constants. -/
theorem imbalance_before {ks later : List (Transition step)} {k : Transition step}
    (hrun : Transition.Runs .accepted (ks ++ k :: later)) :
    k.before.imbalance = (ks.map fun a => a.action.drift).sum := by
  refine hrun.of_append (I := fun earlier s =>
    s.imbalance = (earlier.map fun a => a.action.drift).sum) rfl ?_
  intro earlier a _ hI
  rw [imbalance_step a.valid, hI, List.map_append, List.sum_append, List.map_singleton,
    List.sum_singleton]

/-! ## When the count is right -/

/-- A step that changes the count and the holders alike. -/
def Action.Balanced (a : Action) : Prop := a ≠ .iterate ∧ a ≠ .abandon ∧ a ≠ .release

instance (a : Action) : Decidable a.Balanced := inferInstanceAs (Decidable (_ ∧ _ ∧ _))

section Step

variable {s s' : State} {a : Action}

/-- Only the sentinel deletes a connection, and it finds no references. -/
theorem deleted_step (h : step s a = some s') (hdeleted : s'.deleted) :
    s.deleted ∨ s.refs ≤ 0 ∧ s'.holders = s.holders := by
  cases a with
  | sentinel idle =>
    simp only [step] at h
    split_ifs at h with hgone hcheck
    · cases h
      refine .inr ⟨?_, rfl⟩
      rcases hcheck with hcheck | hcheck <;> exact hcheck.2
    · cases h
      exact .inl hdeleted
  | _ =>
    simp only [step] at h
    split_ifs at h <;> cases h <;> exact .inl hdeleted

/-- Nobody can do anything to a connection that has been deleted, if nobody holds it. -/
theorem step_of_deleted (h : step s a = some s') (hdeleted : s.deleted) (hs : s.holders = 0) :
    s' = s := by
  simp only [State.holders] at hs
  cases a with
  | dispatch =>
    rw [step, if_pos hdeleted] at h
    exact (Option.some_inj.mp h).symm
  | sentinel idle =>
    rw [step, if_pos hdeleted] at h
    cases h
  | _ =>
    -- each of the other steps needs a thread
    simp only [step] at h
    rw [if_pos (by omega)] at h
    cases h

/-- The callbacks that have released their reference are the only ones to touch the connection. -/
theorem leaving_step (h : step s a = some s') (ha : a.Balanced) (hs : s.leaving = 0) :
    s'.leaving = 0 := by
  cases a with
  | release => exact absurd rfl ha.2.2
  | touch =>
    rw [step, if_pos hs] at h
    cases h
  | _ =>
    simp only [step] at h
    split_ifs at h <;> cases h <;> exact hs

/-- A step keeps the count right exactly if it is balanced. -/
theorem sound_step_iff (h : step s a = some s') (hs : s.Sound) : s'.Sound ↔ a.Balanced := by
  have hbefore : s.imbalance = 0 := sub_eq_zero.mpr hs.count
  have hafter := imbalance_step h
  constructor
  · intro hs'
    have hzero : s'.imbalance = 0 := sub_eq_zero.mpr hs'.count
    have hdrift : a.drift = 0 := by omega
    refine ⟨?_, ?_, ?_⟩ <;> rintro rfl <;> simp [Action.drift] at hdrift
  · -- a balanced step has no drift, unless it is the touch of a callback, which there is none of
    intro ha
    have hdrift : a.drift = 0 := by
      cases a with
      | iterate => exact absurd rfl ha.1
      | abandon => exact absurd rfl ha.2.1
      | release => exact absurd rfl ha.2.2
      | touch =>
        rw [step, if_pos hs.owned] at h
        cases h
      | _ => rfl
    have hcount : s'.refs = s'.holders := by
      rw [hbefore, hdrift] at hafter
      exact sub_eq_zero.mp hafter
    refine ⟨hcount, hcount ▸ Int.natCast_nonneg _, fun hdeleted => ?_, leaving_step h ha hs.owned⟩
    rcases deleted_step h hdeleted with hgone | ⟨hrefs, hholders⟩
    · rw [step_of_deleted h hgone (hs.alive hgone)]
      exact hs.alive hgone
    · -- the sentinel has found no references, and there are as many holders
      have hcount' := hs.count
      omega

end Step

/-- The count is right in every state of a run exactly if no iteration of `on_read` comes to its
end, and no response callback. -/
theorem sound_iff {ks : List (Transition step)} (hrun : Transition.Runs .accepted ks) :
    (∀ k ∈ ks, k.after.Sound) ↔ ∀ k ∈ ks, k.action.Balanced := by
  have haccepted : State.accepted.Sound := ⟨rfl, le_rfl, (nomatch ·), rfl⟩
  refine hrun.forall_dst_iff haccepted fun k hk => ?_
  exact sound_step_iff k.valid hk

/-- Two dispatches, a request, and the end of the connection. -/
theorem sound_sample :
    (Transition.trace step .accepted
        [.dispatch, .chunk, .request, .dispatch, .eof, .terminate, .sentinel true]).Forall
      fun k => k.after.Sound :=
  List.forall_iff_forall_mem.mpr ((sound_iff (Transition.run_trace ..)).mpr (by decide))

/-- The release behind the first chunk leaves the call of `on_read` without a reference: the
sentinel deletes the connection, or the next error makes the count negative. A response callback
touches the connection when it has given up its own reference. -/
theorem not_sound :
    (¬ ∀ ks : List (Transition step), Transition.Runs .accepted ks →
        ∀ k ∈ ks, k.after.refs = k.after.holders) ∧
      (¬ ∀ ks : List (Transition step), Transition.Runs .accepted ks →
        ∀ k ∈ ks, 0 ≤ k.after.refs) ∧
      (¬ ∀ ks : List (Transition step), Transition.Runs .accepted ks →
        ∀ k ∈ ks, k.after.deleted → k.after.holders = 0) ∧
      ¬ ∀ ks : List (Transition step), Transition.Runs .accepted ks →
        ∀ k ∈ ks, k.action ≠ .touch := by
  have hrun := Transition.run_trace step .accepted
  refine ⟨fun h => ?_, fun h => ?_, fun h => ?_, fun h => ?_⟩
  · exact absurd (h _ (hrun [.dispatch, .chunk, .iterate])) (by decide)
  · exact absurd (h _ (hrun [.dispatch, .chunk, .iterate, .failure])) (by decide)
  · exact absurd (h _ (hrun [.dispatch, .chunk, .iterate, .sentinel true])) (by decide)
  · exact absurd (h _ (hrun [.dispatch, .chunk, .request, .release, .touch])) (by decide)

end References

end Rite
