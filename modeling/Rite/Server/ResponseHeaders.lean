import Rite.Server.Response
import Rite.ToMathlib.Transition

/-!
# Response headers and the shared serializer

The response callbacks of a connection share the serializer `parameters_->hpack.tx`, which keeps
the payload between `serialize` and `finish`, and only the write that follows is locked. Each
callback takes the three steps one after the other; the steps of different callbacks interleave.

## Main results

* `own_conditions`: the HEADERS frames carry the headers of their own responses if each call of
  `serialize` finds the payload empty, and only then if every response that has been begun is
  written;
* `not_own`: otherwise the headers of one response go out on the stream of another.
-/

namespace Rite

namespace ResponseHeaders

open Hpack (Header Serializer)

/-- Where a response callback is, with the HEADERS frame that it has. -/
inductive Phase
  /-- In front of `serialize`. -/
  | idle
  /-- Behind `serialize`. -/
  | serialized
  /-- Behind `finish`. -/
  | finished (preload : Frame)
  /-- Behind the write. -/
  | written (preload : Frame)
  deriving DecidableEq

namespace Phase

/-- The frame that has been written. -/
def sent : Phase → Option Frame
  | written preload => some preload
  | _ => none

/-- The response has not been begun, or is written. -/
def Settled (p : Phase) : Prop := p = idle ∨ p.sent.isSome

instance (p : Phase) : Decidable p.Settled := inferInstanceAs (Decidable (_ ∨ _))

@[simp] theorem sent_eq_some_iff {p : Phase} {preload : Frame} :
    p.sent = some preload ↔ p = written preload := by
  cases p <;> simp [sent]

end Phase

/-- The serializer of a connection, and its response callbacks. -/
structure State (ι : Type) where
  /-- `parameters_->hpack.tx`. -/
  tx : Serializer
  /-- The callbacks. -/
  phase : ι → Phase

/-- The steps of the callbacks. -/
inductive Action (ι : Type)
  | serialize (i : ι)
  | finish (i : ι)
  | write (i : ι)
  deriving DecidableEq

variable {ι : Type} [DecidableEq ι]

/-- What a step does, if the callback is where it takes that step. A response comes with the
stream that it is on. -/
def step (order : List (ℕ × Header)) (responses : ι → UInt32 × Response) (s : State ι) :
    Action ι → Option (State ι)
  | .serialize i =>
    match s.phase i with
    | .idle => some
      ⟨s.tx.serialize order (H2.headerList (responses i).2), Function.update s.phase i .serialized⟩
    | _ => none
  | .finish i =>
    match s.phase i with
    | .serialized =>
      let (preload, tx) := s.tx.finish (responses i).1
      some ⟨tx, Function.update s.phase i (.finished preload)⟩
    | _ => none
  | .write i =>
    match s.phase i with
    | .finished preload => some ⟨s.tx, Function.update s.phase i (.written preload)⟩
    | _ => none

/-- No response has been begun. -/
def State.fresh : State ι := ⟨{}, fun _ => .idle⟩

/-- The encoding of the status and the headers of a response. -/
def encoding (order : List (ℕ × Header)) (response : Response) : Octets :=
  (({} : Serializer).serialize order (H2.headerList response)).payload

/-- Each response that has been begun is written. -/
def State.Complete (s : State ι) : Prop := ∀ i, (s.phase i).Settled

instance [Fintype ι] (s : State ι) : Decidable s.Complete := inferInstanceAs (Decidable (∀ _, _))

/-- A HEADERS frame on the stream of its response that carries its encoding, and nothing else. -/
def Carries (order : List (ℕ × Header)) (response : UInt32 × Response) (f : Frame) : Prop :=
  f.type = .headers ∧ f.streamIdentifier = response.1 ∧ f.data = encoding order response.2

instance (order : List (ℕ × Header)) (response : UInt32 × Response) (f : Frame) :
    Decidable (Carries order response f) := inferInstanceAs (Decidable (_ ∧ _ ∧ _))

/-- What has been written carries the headers of its own response. -/
def State.Own (order : List (ℕ × Header)) (responses : ι → UInt32 × Response) (s : State ι) :
    Prop :=
  ∀ i, ∀ preload ∈ (s.phase i).sent, Carries order (responses i) preload

instance [Fintype ι] (order : List (ℕ × Header)) (responses : ι → UInt32 × Response)
    (s : State ι) : Decidable (s.Own order responses) :=
  inferInstanceAs (Decidable (∀ i, ∀ preload ∈ (s.phase i).sent, _))

section Step

variable {order : List (ℕ × Header)} {responses : ι → UInt32 × Response} {s s' : State ι}
  {a : Action ι}

/-- Everything that a step can do. -/
theorem step_cases (h : step order responses s a = some s') :
    (∃ i, a = .serialize i ∧ s.phase i = .idle ∧
      s' = ⟨s.tx.serialize order (H2.headerList (responses i).2),
        Function.update s.phase i .serialized⟩) ∨
    (∃ i, a = .finish i ∧ s.phase i = .serialized ∧
      s' = ⟨⟨[]⟩, Function.update s.phase i (.finished (s.tx.finish (responses i).1).1)⟩) ∨
    ∃ i preload, a = .write i ∧ s.phase i = .finished preload ∧
      s' = ⟨s.tx, Function.update s.phase i (.written preload)⟩ := by
  cases a with
  | serialize i =>
    simp only [step] at h
    split at h
    next hphase => exact .inl ⟨i, rfl, hphase, (Option.some_inj.mp h).symm⟩
    next => cases h
  | finish i =>
    simp only [step] at h
    split at h
    next hphase => exact .inr (.inl ⟨i, rfl, hphase, (Option.some_inj.mp h).symm⟩)
    next => cases h
  | write i =>
    simp only [step] at h
    split at h
    next preload hphase => exact .inr (.inr ⟨i, preload, rfl, hphase, (Option.some_inj.mp h).symm⟩)
    next => cases h

/-- Every response has a status, so that its encoding is not empty. -/
theorem encoding_ne_nil (order : List (ℕ × Header)) (response : Response) :
    encoding order response ≠ [] := by
  rw [encoding, Serializer.serialize_payload, H2.headerList, List.flatMap_cons]
  simp [Serializer.field_ne_nil]

theorem payload_serialize (order : List (ℕ × Header)) (response : Response) (tx : Serializer) :
    (tx.serialize order (H2.headerList response)).payload =
      tx.payload ++ encoding order response := by
  rw [encoding, Serializer.serialize_payload, Serializer.serialize_payload, List.nil_append]

/-! ## One response at a time -/

/-- A response that has its HEADERS frame. -/
def State.Has (s : State ι) (i : ι) (preload : Frame) : Prop :=
  s.phase i = .finished preload ∨ s.phase i = .written preload

/-- At most one response is between `serialize` and `finish`, and the payload is its encoding. -/
structure State.Separate (order : List (ℕ × Header)) (responses : ι → UInt32 × Response)
    (s : State ι) : Prop where
  /-- The payload belongs to one response alone. -/
  alone : ∀ i, s.phase i = .serialized →
    s.tx.payload = encoding order (responses i).2 ∧ ∀ j, s.phase j = .serialized → j = i
  /-- It belongs to some response. -/
  pending : s.tx.payload ≠ [] → ∃ i, s.phase i = .serialized
  /-- The frames are right. -/
  carries : ∀ i preload, s.Has i preload → Carries order (responses i) preload

/-- A frame is wrong, or is going to be: the payload is longer than that of any response that
can take it. -/
def State.Mixed (order : List (ℕ × Header)) (responses : ι → UInt32 × Response) (s : State ι) :
    Prop :=
  (∃ i preload, s.Has i preload ∧ ¬ Carries order (responses i) preload) ∨
    (∃ i, s.phase i = .serialized) ∧
      ∀ i, s.phase i = .serialized → (encoding order (responses i).2).length < s.tx.payload.length

/-- A response that has its frame keeps it. -/
theorem has_step (h : step order responses s a = some s') {i : ι} {preload : Frame}
    (hi : s.Has i preload) : s'.Has i preload := by
  -- a callback without a frame gets one, or one that has it writes it
  unfold State.Has at hi ⊢
  rcases step_cases h with ⟨j, -, hj, rfl⟩ | ⟨j, -, hj, rfl⟩ | ⟨j, preload', -, hj, rfl⟩
  all_goals
    simp only [Function.update_apply]
    split_ifs with hij
  · subst hij
    simp [hj] at hi
  · exact hi
  · subst hij
    simp [hj] at hi
  · exact hi
  · subst hij
    exact .inr (by simpa [hj] using hi)
  · exact hi

/-- A step that finds the payload empty, or does not add to it, keeps the responses apart. -/
theorem separate_step (hs : s.Separate order responses)
    (h : step order responses s a = some s')
    (hclear : ∀ i, a = .serialize i → s.tx.payload = []) : s'.Separate order responses := by
  rcases step_cases h with ⟨i, rfl, hi, rfl⟩ | ⟨i, rfl, hi, rfl⟩ | ⟨i, preload, rfl, hi, rfl⟩
  · -- an empty payload belongs to no response
    have hnone : ∀ j, s.phase j ≠ .serialized := fun j hj =>
      encoding_ne_nil order (responses j).2 ((hs.alone j hj).1.symm.trans (hclear i rfl))
    have honly : ∀ j, Function.update s.phase i .serialized j = .serialized → j = i := by
      intro j hj
      by_contra hji
      exact hnone j (by rwa [Function.update_of_ne hji] at hj)
    refine ⟨fun j hj => ?_, fun _ => ⟨i, Function.update_self ..⟩, fun j preload hj => ?_⟩
    · obtain rfl := honly j hj
      refine ⟨?_, honly⟩
      rw [payload_serialize, hclear j rfl, List.nil_append]
    · simp only [State.Has, Function.update_apply] at hj
      split_ifs at hj with hji
      · simp at hj
      · exact hs.carries j preload hj
  · -- `finish` takes the payload of the only response that can have one
    refine ⟨fun j hj => ?_, fun hne => absurd rfl hne, fun j preload hj => ?_⟩
    · simp only [Function.update_apply] at hj
      split_ifs at hj with hji
      exact absurd ((hs.alone i hi).2 j hj) hji
    · simp only [State.Has, Function.update_apply] at hj
      split_ifs at hj with hji
      · subst hji
        obtain rfl : _ = preload := by simpa using hj
        exact ⟨rfl, rfl, (hs.alone j hi).1⟩
      · exact hs.carries j preload hj
  · -- a write leaves the serializer to the response that it belongs to
    refine ⟨fun j hj => ?_, fun hne => ?_, fun j preload' hj => ?_⟩
    · simp only [Function.update_apply] at hj
      split_ifs at hj with hji
      refine ⟨(hs.alone j hj).1, fun j' hj' => ?_⟩
      simp only [Function.update_apply] at hj'
      split_ifs at hj'
      exact (hs.alone j hj).2 j' hj'
    · obtain ⟨j, hj⟩ := hs.pending hne
      have hji : j ≠ i := by
        rintro rfl
        rw [hi] at hj
        cases hj
      exact ⟨j, by simpa [Function.update_of_ne hji] using hj⟩
    · simp only [State.Has, Function.update_apply] at hj
      split_ifs at hj with hji
      · subst hji
        obtain rfl : preload = preload' := by simpa using hj
        exact hs.carries j preload (.inl hi)
      · exact hs.carries j preload' hj

/-- A response that is serialized behind another one gets a payload that is too long for both. -/
theorem mixed_of_step (hs : s.Separate order responses)
    (h : step order responses s a = some s')
    (hclear : ¬ ∀ i, a = .serialize i → s.tx.payload = []) : s'.Mixed order responses := by
  push Not at hclear
  obtain ⟨i, rfl, hne⟩ := hclear
  obtain ⟨j, hj⟩ := hs.pending hne
  rcases step_cases h with ⟨i', heq, hi, rfl⟩ | ⟨i', heq, -⟩ | ⟨i', preload, heq, -⟩
  · obtain rfl : i = i' := by simpa using heq
    have hi' := List.length_pos_iff.mpr (encoding_ne_nil order (responses i).2)
    have hpos := List.length_pos_iff.mpr hne
    refine .inr ⟨⟨i, Function.update_self ..⟩, fun j' hj' => ?_⟩
    rw [payload_serialize, List.length_append]
    simp only [Function.update_apply] at hj'
    split_ifs at hj' with hji
    · subst hji
      omega
    · rw [(hs.alone j' hj').1]
      omega
  · cases heq
  · cases heq

/-- A wrong frame stays wrong, and a payload that is too long makes one. -/
theorem mixed_step (hs : s.Mixed order responses)
    (h : step order responses s a = some s') : s'.Mixed order responses := by
  rcases hs with ⟨j, preload, hj, hwrong⟩ | ⟨⟨j, hj⟩, hlong⟩
  · exact .inl ⟨j, preload, has_step h hj, hwrong⟩
  · rcases step_cases h with ⟨i, -, -, rfl⟩ | ⟨i, -, hi, rfl⟩ | ⟨i, preload, -, hi, rfl⟩
    · -- the payload only grows
      refine .inr ⟨⟨i, Function.update_self ..⟩, fun j' hj' => ?_⟩
      have hlt := hlong j hj
      rw [payload_serialize, List.length_append]
      simp only [Function.update_apply] at hj'
      split_ifs at hj' with hji
      · subst hji
        omega
      · have := hlong j' hj'
        omega
    · -- the frame takes the whole payload
      refine .inl ⟨i, (s.tx.finish (responses i).1).1, .inl (Function.update_self ..), ?_⟩
      rintro ⟨-, -, hdata⟩
      exact absurd (congrArg List.length hdata) (hlong i hi).ne'
    · have hji : j ≠ i := by
        rintro rfl
        rw [hi] at hj
        cases hj
      refine .inr ⟨⟨j, by simpa [Function.update_of_ne hji] using hj⟩, fun j' hj' => ?_⟩
      simp only [Function.update_apply] at hj'
      split_ifs at hj'
      exact hlong j' hj'

end Step

/-! ## Runs -/

section Run

variable {order : List (ℕ × Header)} {responses : ι → UInt32 × Response}
  {ks : List (Transition (step order responses))}

/-- The step does not call `serialize` while the payload of another response is there. -/
def Clear (k : Transition (step order responses)) : Prop :=
  ∀ i, k.action = .serialize i → k.before.tx.payload = []

instance [Fintype ι] (k : Transition (step order responses)) : Decidable (Clear k) :=
  inferInstanceAs (Decidable (∀ _, _ → _))

omit [DecidableEq ι] in
theorem separate_fresh : (State.fresh : State ι).Separate order responses where
  alone _ h := by cases h
  pending h := absurd rfl h
  carries _ _ h := by rcases h with h | h <;> cases h

omit [DecidableEq ι] in
/-- A run at whose end a frame is wrong, or is going to be, is not complete, or has written a wrong
frame. -/
theorem not_complete_of_mixed {s : State ι} (hs : s.Mixed order responses)
    (hown : s.Own order responses) : ¬ s.Complete := by
  intro hcomplete
  rcases hs with ⟨i, preload, hi, hwrong⟩ | ⟨⟨i, hi⟩, -⟩
  · rcases hi with hi | hi
    · have := hcomplete i
      simp [Phase.Settled, Phase.sent, hi] at this
    · exact hwrong (hown i preload (Phase.sent_eq_some_iff.mpr hi))
  · have := hcomplete i
    simp [Phase.Settled, Phase.sent, hi] at this

/-- In a run in which each call of `serialize` finds the payload empty, the HEADERS frames carry the
headers of their own responses; and if every response that has been begun is written, in no other
run. -/
theorem own_conditions (hrun : Transition.Runs State.fresh ks) :
    ((∀ k ∈ ks, Clear k) → ∀ k ∈ ks, k.after.Own order responses) ∧
      ((∀ k ∈ ks.getLast?, k.after.Complete) → (∀ k ∈ ks, k.after.Own order responses) →
        ∀ k ∈ ks, Clear k) := by
  constructor
  · intro hclear k hk
    have hseparate := hrun.forall_dst separate_fresh hclear fun k hk =>
      separate_step hk k.valid
    exact fun i preload hi =>
      (hseparate k hk).carries i preload (.inr (Phase.sent_eq_some_iff.mp hi))
  · -- behind a call that finds a payload, the responses stay mixed to the end of the run
    intro hcomplete hown
    refine hrun.forall_of_getLast? separate_fresh (fun k hk => separate_step hk k.valid)
      (fun k hk => mixed_of_step hk k.valid) (fun k hk => mixed_step hk k.valid)
      fun k hk hmixed => ?_
    exact not_complete_of_mixed hmixed (hown k (List.mem_of_mem_getLast? hk)) (hcomplete k hk)

end Run

/-- Two responses on two streams. -/
def sampleResponses : Bool → UInt32 × Response
  | true => (1, ⟨200, [], []⟩)
  | false => (3, ⟨404, [], []⟩)

/-- The second response is serialized behind `finish` of the first one, and before its write. -/
theorem own_sample :
    (Transition.trace (step Hpack.staticHeaderTable.items sampleResponses) .fresh
        [.serialize true, .finish true, .serialize false, .write true, .finish false,
          .write false]).Forall
      fun k => k.after.Own Hpack.staticHeaderTable.items sampleResponses :=
  List.forall_iff_forall_mem.mpr
    ((own_conditions (Transition.run_trace ..)).1 (by decide +kernel))

/-- If both are serialized first, the one on stream 1 carries the headers of both. -/
theorem not_own :
    ¬ ∀ (order : List (ℕ × Header)) (responses : Bool → UInt32 × Response)
        (ks : List (Transition (step order responses))), Transition.Runs .fresh ks →
      (∀ k ∈ ks.getLast?, k.after.Complete) → ∀ k ∈ ks, k.after.Own order responses := by
  intro h
  have hrun := Transition.run_trace (step Hpack.staticHeaderTable.items sampleResponses) .fresh
    [.serialize true, .serialize false, .finish true, .write true, .finish false, .write false]
  exact absurd (h _ _ _ hrun (by decide)) (by decide)

end ResponseHeaders

end Rite
