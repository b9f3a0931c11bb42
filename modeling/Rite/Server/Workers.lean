import Rite.H2.Server
import Rite.ToMathlib.Transition

/-!
# Several workers on one connection

The event loop dispatches a call of `on_read` for each event of a connection, so that several
workers can be on it. A worker takes three kinds of steps, each of them under the lock or atomic by
itself: it reads a chunk, calls `process`, and moves the request out of the connection behind
`eNewRequest`. What the other workers do in between is not determined. The chunks are numbered in
the order in which they are read.

A request that has been moved out leaves one without a stream identifier behind; who finds it there
gets a `std::bad_optional_access`, and terminates the connection.

## Main results

* `served_of_orderly`: the chunks are processed in the order in which they are read, and each
  request is handled by the worker that has completed it, in every run in which no worker calls
  `process` while another has octets of an earlier chunk, or completes a request while another has
  not moved its own;
* `not_served`: otherwise chunks are processed out of order, and requests get lost.
-/

namespace Rite

namespace H2

open Hpack (Parser)
open Connection (final HandleEnd QuietEnd)

/-! ## Requests that `process` completes -/

/-- What `parse` returns for the headers of a frame, if it has any. -/
def Frame.parsed (frame : Frame) (rx : Parser) : Option Hpack.Error :=
  if frame.CarriesHeaders then
    match (Parser.parse frame).run rx with
    | .ok e _ => some e
    | .error _ _ => none
  else some .done

/-- There is a frame with END_STREAM, and its headers can be decoded if it has any. -/
def Call.Completes (k : Call) : Prop :=
  ∃ frame ∈ k.frame, frame.EndsStream ∧ Frame.parsed frame k.before.rx = some .done

instance (k : Call) : Decidable k.Completes := inferInstanceAs (Decidable (∃ frame ∈ k.frame, _))

/-- A call that returns `eNewRequest` completes a request, which is there. -/
theorem Call.completes_of_newRequest {k : Call} (h : k.returned = some .newRequest) :
    k.Completes ∧ ∃ rest c request, k.result = .ok (.newRequest, rest) c ∧
      c.request = some request := by
  obtain ⟨frame, rest, c, hframe, hends, hend, hresult⟩ := frame_of_newRequest h
  rcases hend.newRequest_cases with ⟨hd, -, rfl⟩ | ⟨hh, -, rx, hrun, rfl⟩
  · have hh : ¬ frame.CarriesHeaders := by simp [Frame.CarriesHeaders, hd]
    exact ⟨⟨frame, hframe, hends, if_neg hh⟩, rest, _, _, hresult, rfl⟩
  · have hrun' : (Parser.parse frame).run k.before.rx = _ := hrun
    refine ⟨⟨frame, hframe, hends, ?_⟩, rest, _, _, hresult, rfl⟩
    rw [Frame.parsed, if_pos hh, hrun']

/-- The other calls leave the request of the connection alone. -/
theorem Call.request_of_ne_newRequest {k : Call} (h : k.returned ≠ some .newRequest) :
    (final k.result).request = k.before.request := by
  cases hframe : k.frame with
  | none =>
    have hquiet := result_of_no_frame hframe
    generalize k.result = r at hquiet
    cases hquiet <;> rfl
  | some frame =>
    obtain ⟨-, rest, r, hend, hresult⟩ := result_of_frame hframe
    have hne : ∀ c, r ≠ .ok .newRequest c := by
      rintro c rfl
      exact h (Call.returned_eq_some_iff.mpr ⟨rest, c, hresult⟩)
    rw [hresult, final_map]
    cases hend with
    | bodyRequest | blockRequest => exact absurd rfl (hne _)
    | _ => rfl

namespace Workers

/-! ## The steps -/

/-- Where a worker is in `on_read`. -/
inductive Phase
  /-- In front of `socket->read`. -/
  | reading
  /-- In front of `process`, with what is left of its chunk. -/
  | processing (chunk : ℕ) (pos : Octets)
  /-- Behind `eNewRequest`, in front of the move. -/
  | waiting (chunk : ℕ) (pos : Octets)
  /-- The call is over. -/
  | returned
  deriving DecidableEq

namespace Phase

/-- What is left of the chunk of a worker. -/
def pos : Phase → Octets
  | processing _ pos | waiting _ pos => pos
  | _ => []

/-- The chunk that a worker has octets of. -/
def chunk : Phase → Option ℕ
  | processing n pos | waiting n pos => if pos = [] then none else some n
  | _ => none

/-- The worker has not moved its request yet. -/
def Waiting : Phase → Prop
  | waiting _ _ => True
  | _ => False

instance : (p : Phase) → Decidable p.Waiting
  | waiting _ _ => isTrue trivial
  | reading | processing _ _ | returned => isFalse id

@[simp] theorem chunk_processing_eq_some_iff {n m : ℕ} {pos : Octets} :
    (processing n pos).chunk = some m ↔ pos ≠ [] ∧ n = m := by
  by_cases h : pos = [] <;> simp [chunk, h]

@[simp] theorem chunk_waiting_eq_some_iff {n m : ℕ} {pos : Octets} :
    (waiting n pos).chunk = some m ↔ pos ≠ [] ∧ n = m := chunk_processing_eq_some_iff

end Phase

/-- A connection and its workers. -/
structure State (ι : Type) where
  /-- The connection. -/
  conn : Connection
  /-- The workers. -/
  phase : ι → Phase
  /-- The number of the chunks that have been read. -/
  chunks : ℕ
  /-- The chunks in the order in which their octets have been processed. -/
  processed : List ℕ
  /-- The requests that the calls of `process` by each worker have completed. -/
  completed : ι → List Request
  /-- The requests that each worker has passed to `handle`. -/
  handled : ι → List Request

/-- The steps of the workers. -/
inductive Action (ι : Type)
  /-- Read a chunk; none is read at the end of the stream, or by an error. -/
  | read (i : ι) (octets : Octets)
  /-- Call `process`. -/
  | process (i : ι)
  /-- Move the request out, and pass it to `handle`, which ends somehow. -/
  | move (i : ι) (behaviour : Behaviour)
  deriving DecidableEq

variable {ι : Type} [DecidableEq ι]

/-- A new connection, whose workers are in front of their first read. -/
def State.accepted (table : Hpack.StaticTable) (ch : Octet) : State ι where
  conn := .fresh table ch
  phase _ := .reading
  chunks := 0
  processed := []
  completed _ := []
  handled _ := []

/-- The octets `pos` of the chunk `n` are processed. -/
def State.feed (s : State ι) (n : ℕ) (pos : Octets) : List ℕ :=
  if pos = [] then s.processed else s.processed ++ [n]

/-- Where a call of `process` on the chunk `n` leads, if the program goes on. -/
def afterProcess (s : State ι) (i : ι) (n : ℕ) :
    EStateM.Result Fault Connection (Result × Octets) → Option (State ι)
  | .ok (.eof, _) conn => some { s with conn, phase := Function.update s.phase i .reading }
  | .ok (.newRequest, rest) conn => some { s with
      conn
      phase := Function.update s.phase i (.waiting n rest)
      completed := Function.update s.completed i (s.completed i ++ conn.request.toList) }
  | .ok (_, rest) conn =>
    some { s with conn, phase := Function.update s.phase i (.processing n rest) }
  | .error (.std _) conn => some { s with
      conn := { conn with closed := true }
      phase := Function.update s.phase i .reading }
  | .error _ _ => none

/-- What a step does, if the worker is where it takes that step. -/
def step (s : State ι) : Action ι → Option (State ι)
  | .read i octets =>
    match s.phase i with
    | .reading =>
      if octets = [] then some { s with phase := Function.update s.phase i .returned }
      else some { s with
        phase := Function.update s.phase i (.processing s.chunks octets)
        chunks := s.chunks + 1 }
    | _ => none
  | .process i =>
    match s.phase i with
    | .processing n pos =>
      afterProcess { s with processed := s.feed n pos } i n ((Connection.process pos).run s.conn)
    | _ => none
  | .move i behaviour =>
    match s.phase i with
    | .waiting n pos =>
      match s.conn.request with
      | some request =>
        some { s with
          conn := { s.conn with
            request := none
            closed := s.conn.closed || behaviour = .stdException }
          phase := Function.update s.phase i
            (if behaviour = .returned then .processing n pos else .reading)
          handled := Function.update s.handled i (s.handled i ++ [request]) }
      | none =>
        -- `std::bad_optional_access`
        some { s with
          conn := { s.conn with closed := true }
          phase := Function.update s.phase i .reading }
    | _ => none

/-- The ways in which a step can end. -/
inductive StepEnd (s : State ι) : Action ι → State ι → Prop
  /-- There is no more to read. -/
  | ended {i : ι} : s.phase i = .reading →
    StepEnd s (.read i []) { s with phase := Function.update s.phase i .returned }
  /-- The worker has read a chunk. -/
  | chunk {i : ι} {octets : Octets} : octets ≠ [] → s.phase i = .reading →
    StepEnd s (.read i octets) { s with
      phase := Function.update s.phase i (.processing s.chunks octets)
      chunks := s.chunks + 1 }
  /-- The worker has completed a request. -/
  | request {i : ι} {n : ℕ} {pos rest : Octets} {conn : Connection} {request : Request} :
    s.phase i = .processing n pos → pos ≠ [] → Call.Completes ⟨s.conn, pos, .returned⟩ →
    conn.request = some request →
    StepEnd s (.process i) { s with
      conn
      phase := Function.update s.phase i (.waiting n rest)
      processed := s.feed n pos
      completed := Function.update s.completed i (s.completed i ++ [request]) }
  /-- The worker has called `process`, to no such effect. -/
  | processed {i : ι} {n : ℕ} {pos : Octets} {conn : Connection} {p : Phase} :
    s.phase i = .processing n pos → conn.request = s.conn.request →
    p = .reading ∨ pos ≠ [] ∧ (∃ rest, p = .processing n rest) →
    StepEnd s (.process i) { s with
      conn
      phase := Function.update s.phase i p
      processed := s.feed n pos }
  /-- The worker has handled a request. -/
  | handled {i : ι} {n : ℕ} {pos : Octets} {behaviour : Behaviour} {conn : Connection}
    {request : Request} {p : Phase} : s.phase i = .waiting n pos →
    s.conn.request = some request → p = .reading ∨ p = .processing n pos →
    StepEnd s (.move i behaviour) { s with
      conn
      phase := Function.update s.phase i p
      handled := Function.update s.handled i (s.handled i ++ [request]) }
  /-- Another worker has moved the request. -/
  | missing {i : ι} {n : ℕ} {pos : Octets} {behaviour : Behaviour} {conn : Connection} :
    s.phase i = .waiting n pos → s.conn.request = none →
    StepEnd s (.move i behaviour) { s with
      conn
      phase := Function.update s.phase i .reading }

section Step

variable {s s' : State ι} {a : Action ι}

private theorem step_process {i : ι} {n : ℕ} {pos : Octets} (hphase : s.phase i = .processing n pos)
    (h : afterProcess { s with processed := s.feed n pos } i n
      ((Connection.process pos).run s.conn) = some s') : StepEnd s (.process i) s' := by
  set k : Call := ⟨s.conn, pos, .returned⟩ with hk
  change afterProcess _ i n k.result = some s' at h
  by_cases hnew : k.returned = some .newRequest
  · obtain ⟨hcompletes, rest, conn, request, hresult, hrequest⟩ :=
      Call.completes_of_newRequest hnew
    have hpos : pos ≠ [] := by
      rintro rfl
      simp [Call.result, hk] at hresult
    rw [hresult] at h
    simp only [afterProcess, hrequest, Option.toList_some] at h
    cases h
    exact .request hphase hpos hcompletes hrequest
  · have hrequest := Call.request_of_ne_newRequest hnew
    cases hresult : k.result with
    | ok v conn =>
      obtain ⟨r, rest⟩ := v
      rw [hresult] at h hrequest
      -- `process` returns `eEof` without octets
      have hpos : r ≠ .eof → pos ≠ [] := by
        rintro hr rfl
        simp only [Call.result, hk, Connection.process_nil] at hresult
        cases hresult
        exact hr rfl
      cases r with
      | newRequest => exact absurd (Call.returned_eq_some_iff.mpr ⟨rest, conn, hresult⟩) hnew
      | eof =>
        cases h
        exact .processed hphase hrequest (.inl rfl)
      | _ =>
        cases h
        exact .processed hphase hrequest (.inr ⟨hpos (by decide), rest, rfl⟩)
    | error e conn =>
      rw [hresult] at h hrequest
      cases e with
      | std e =>
        cases h
        exact .processed hphase hrequest (.inl rfl)
      | _ => cases h

/-- The ways in which a step can end. -/
theorem stepEnd_of_step (h : step s a = some s') : StepEnd s a s' := by
  cases a with
  | read i octets =>
    simp only [step] at h
    split at h
    next hphase =>
      split_ifs at h with hnil
      · cases h
        subst hnil
        exact .ended hphase
      · cases h
        exact .chunk hnil hphase
    next => cases h
  | process i =>
    simp only [step] at h
    split at h
    next n pos hphase => exact step_process hphase h
    next => cases h
  | move i behaviour =>
    simp only [step] at h
    split at h
    next n pos hphase =>
      split at h
      next request hrequest =>
        cases h
        refine .handled hphase hrequest ?_
        split_ifs
        · exact .inr rfl
        · exact .inl rfl
      next hrequest =>
        cases h
        exact .missing hphase hrequest
    next => cases h

/-- If the step is a call of `process` with octets, then no other worker has octets of an earlier
chunk; and if the call completes a request, then no other worker has not moved its own. -/
def Orderly (s : State ι) : Action ι → Prop
  | .process i =>
    (∀ n ∈ (s.phase i).chunk, ∀ j, j ≠ i → ∀ m ∈ (s.phase j).chunk, n ≤ m) ∧
      (Call.Completes ⟨s.conn, (s.phase i).pos, .returned⟩ → ∀ j, j ≠ i → ¬ (s.phase j).Waiting)
  | _ => True

instance [Fintype ι] (s : State ι) : (a : Action ι) → Decidable (Orderly s a)
  | .process i => inferInstanceAs (Decidable
      ((∀ n ∈ (s.phase i).chunk, ∀ j, j ≠ i → ∀ m ∈ (s.phase j).chunk, n ≤ m) ∧ (_ → _)))
  | .read _ _ | .move _ _ => inferInstanceAs (Decidable True)

/-! ## The order of the chunks -/

/-- The chunks have been processed in order, and no worker has octets of an earlier one. -/
structure State.Sorted (s : State ι) : Prop where
  /-- They have been processed in order. -/
  ordered : s.processed.Pairwise (· ≤ ·)
  /-- The workers have chunks that have been read. -/
  read : ∀ i, ∀ m ∈ (s.phase i).chunk, m < s.chunks
  /-- The chunks that have been processed have been read, and are not behind any other. -/
  earlier : ∀ n ∈ s.processed, n < s.chunks ∧ ∀ i, ∀ m ∈ (s.phase i).chunk, n ≤ m

omit [DecidableEq ι] in
theorem sorted_accepted (table : Hpack.StaticTable) (ch : Octet) :
    (State.accepted table ch : State ι).Sorted where
  ordered := .nil
  read _ _ h := by cases h
  earlier _ h := by cases h

omit [DecidableEq ι] in
/-- Workers may drop their octets. -/
theorem State.Sorted.mono (hs : s.Sorted) (hchunks : s'.chunks = s.chunks)
    (hprocessed : s'.processed = s.processed)
    (hphase : ∀ i, ∀ m ∈ (s'.phase i).chunk, m ∈ (s.phase i).chunk) : s'.Sorted := by
  refine ⟨hprocessed ▸ hs.ordered, fun i m hm => hchunks ▸ hs.read i m (hphase i m hm), ?_⟩
  intro n hn
  rw [hprocessed] at hn
  obtain ⟨hlt, hle⟩ := hs.earlier n hn
  exact ⟨hchunks ▸ hlt, fun i m hm => hle i m (hphase i m hm)⟩

omit [DecidableEq ι] in
/-- A worker that has the earliest chunk may process it. -/
theorem State.Sorted.feed (hs : s.Sorted) {i : ι} {n : ℕ} {pos : Octets}
    (hphase : s.phase i = .processing n pos) (hpos : pos ≠ [])
    (hothers : ∀ j, j ≠ i → ∀ m ∈ (s.phase j).chunk, n ≤ m) :
    ({ s with processed := s.feed n pos } : State ι).Sorted := by
  have hmem : n ∈ (s.phase i).chunk := by simp [hphase, hpos]
  have hfeed : s.feed n pos = s.processed ++ [n] := if_neg hpos
  refine ⟨?_, hs.read, fun m hm => ?_⟩
  · simp only [hfeed]
    refine List.pairwise_append.mpr ⟨hs.ordered, List.pairwise_singleton _ _, fun m hm m' hm' => ?_⟩
    rw [List.mem_singleton.mp hm']
    exact (hs.earlier m hm).2 i n hmem
  · simp only [hfeed] at hm
    rcases List.mem_append.mp hm with hm | hm
    · exact hs.earlier m hm
    · rw [List.mem_singleton.mp hm]
      refine ⟨hs.read i n hmem, fun j m' hm' => ?_⟩
      by_cases hj : j = i
      · subst hj
        rw [hphase, Option.mem_def, Phase.chunk_processing_eq_some_iff] at hm'
        exact hm'.2.le
      · exact hothers j hj m' hm'

/-- A worker that gets no octets. -/
theorem mem_chunk_update {i j : ι} {p : Phase} {m : ℕ}
    (hp : ∀ m ∈ p.chunk, m ∈ (s.phase i).chunk)
    (hm : m ∈ (Function.update s.phase i p j).chunk) : m ∈ (s.phase j).chunk := by
  rw [Function.update_apply] at hm
  split_ifs at hm with hj
  · subst hj
    exact hp m hm
  · exact hm

/-- A step in an orderly run keeps the chunks in order. -/
theorem sorted_step (hs : s.Sorted) (h : step s a = some s') (horderly : Orderly s a) :
    s'.Sorted := by
  have hnone : ∀ i, ∀ m ∈ (none : Option ℕ), m ∈ (s.phase i).chunk := fun _ _ h => by cases h
  cases stepEnd_of_step h with
  | @ended i => exact hs.mono rfl rfl fun j m => mem_chunk_update (hnone i)
  | @missing i => exact hs.mono rfl rfl fun j m => mem_chunk_update (hnone i)
  | @chunk i octets hne =>
    -- the new chunk is behind all others
    refine ⟨hs.ordered, fun j m hm => ?_, fun n hn => ?_⟩
    · simp only [Function.update_apply] at hm
      split_ifs at hm
      · exact Nat.lt_succ_of_le (Phase.chunk_processing_eq_some_iff.mp hm).2.ge
      · exact Nat.lt_succ_of_lt (hs.read j m hm)
    · obtain ⟨hlt, hle⟩ := hs.earlier n hn
      refine ⟨Nat.lt_succ_of_lt hlt, fun j m hm => ?_⟩
      simp only [Function.update_apply] at hm
      split_ifs at hm
      · exact hlt.le.trans (Phase.chunk_processing_eq_some_iff.mp hm).2.le
      · exact hle j m hm
  | @request i n pos rest conn request hphase hpos =>
    -- what is left of the chunk stays with the worker
    have hothers := horderly.1 n (by simp [hphase, hpos])
    refine (hs.feed hphase hpos hothers).mono rfl rfl fun j m => mem_chunk_update fun m hm => ?_
    simpa [hphase, hpos] using (Phase.chunk_waiting_eq_some_iff.mp hm).2
  | @processed i n pos conn p hphase hrequest hp =>
    -- a call at the end of a chunk processes none of it
    by_cases hpos : pos = []
    · have hfeed : s.feed n pos = s.processed := if_pos hpos
      rcases hp with rfl | ⟨hne, -⟩
      · exact hs.mono rfl hfeed fun j m => mem_chunk_update (hnone i)
      · exact absurd hpos hne
    · have hothers := horderly.1 n (by simp [hphase, hpos])
      refine (hs.feed hphase hpos hothers).mono rfl rfl fun j m => mem_chunk_update fun m hm => ?_
      rcases hp with rfl | ⟨-, rest, rfl⟩
      · cases hm
      · simpa [hphase, hpos] using (Phase.chunk_processing_eq_some_iff.mp hm).2
  | @handled i n pos behaviour conn request p hphase _ hp =>
    -- the worker goes on with its chunk, or drops it
    refine hs.mono rfl rfl fun j m => mem_chunk_update fun m hm => ?_
    rcases hp with rfl | rfl
    · cases hm
    · rw [hphase]
      exact hm

/-! ## The requests -/

/-- The workers have handled the requests that they have completed, but for one that has not been
moved yet. -/
structure State.Attended (s : State ι) : Prop where
  /-- A worker that does not wait has handled all of its requests. -/
  handled : ∀ i, ¬ (s.phase i).Waiting → s.completed i = s.handled i
  /-- One that waits finds the last of its requests in the connection. -/
  pending : ∀ i, (s.phase i).Waiting →
    ∃ request, s.conn.request = some request ∧ s.completed i = s.handled i ++ [request]
  /-- No two of them wait. -/
  alone : ∀ i j, (s.phase i).Waiting → (s.phase j).Waiting → i = j

omit [DecidableEq ι] in
theorem attended_accepted (table : Hpack.StaticTable) (ch : Octet) :
    (State.accepted table ch : State ι).Attended where
  handled _ _ := rfl
  pending _ h := absurd h id
  alone _ _ h := absurd h id

omit [DecidableEq ι] in
/-- A step that has nothing to do with requests. -/
theorem State.Attended.mono (hs : s.Attended) (hrequest : s'.conn.request = s.conn.request)
    (hcompleted : s'.completed = s.completed) (hhandled : s'.handled = s.handled)
    (hphase : ∀ i, (s'.phase i).Waiting ↔ (s.phase i).Waiting) : s'.Attended := by
  refine ⟨fun i hi => ?_, fun i hi => ?_, fun i j hi hj => ?_⟩
  · rw [hcompleted, hhandled]
    exact hs.handled i (mt (hphase i).mpr hi)
  · rw [hrequest, hcompleted, hhandled]
    exact hs.pending i ((hphase i).mp hi)
  · exact hs.alone i j ((hphase i).mp hi) ((hphase j).mp hj)

/-- A worker that did not wait before the step, and does not wait behind it. -/
theorem waiting_update_iff {i j : ι} {p : Phase} (hi : ¬ (s.phase i).Waiting) (hp : ¬ p.Waiting) :
    (Function.update s.phase i p j).Waiting ↔ (s.phase j).Waiting := by
  rw [Function.update_apply]
  split_ifs with hj
  · subst hj
    exact iff_of_false hp hi
  · rfl

/-- A step in an orderly run leaves no request unattended. -/
theorem attended_step (hs : s.Attended) (h : step s a = some s') (horderly : Orderly s a) :
    s'.Attended := by
  cases stepEnd_of_step h with
  | @ended i hphase =>
    exact hs.mono rfl rfl rfl fun j => waiting_update_iff (by simp [hphase, Phase.Waiting]) id
  | @chunk i octets _ hphase =>
    exact hs.mono rfl rfl rfl fun j => waiting_update_iff (by simp [hphase, Phase.Waiting]) id
  | @processed i n pos conn p hphase hrequest hp =>
    refine hs.mono hrequest rfl rfl fun j => waiting_update_iff ?_ ?_
    · simp [hphase, Phase.Waiting]
    · rcases hp with rfl | ⟨-, rest, rfl⟩ <;> exact id
  | @request i n pos rest conn request hphase _ hcompletes hrequest =>
    -- nobody else waits, so nobody loses a request to this one
    have hothers : ∀ j, j ≠ i → ¬ (s.phase j).Waiting := horderly.2 (by rwa [hphase])
    have hi : ¬ (s.phase i).Waiting := by simp [hphase, Phase.Waiting]
    have honly : ∀ j, (Function.update s.phase i (.waiting n rest) j).Waiting → j = i := by
      intro j hj
      by_contra hji
      rw [Function.update_of_ne hji] at hj
      exact hothers j hji hj
    refine ⟨fun j hj => ?_, fun j hj => ?_, fun j j' hj hj' => ?_⟩
    · have hji : j ≠ i := by
        rintro rfl
        exact hj (by simp [Phase.Waiting])
      simp only [Function.update_of_ne hji] at hj ⊢
      exact hs.handled j hj
    · obtain rfl := honly j hj
      refine ⟨request, hrequest, ?_⟩
      simp only [Function.update_self]
      rw [hs.handled j hi]
    · exact (honly j hj).trans (honly j' hj').symm
  | @handled i n pos behaviour conn request p hphase hrequest hp =>
    have hi : (s.phase i).Waiting := by simp [hphase, Phase.Waiting]
    obtain ⟨request', hrequest', hcompleted⟩ := hs.pending i hi
    obtain rfl : request = request' := Option.some_inj.mp (hrequest.symm.trans hrequest')
    -- nobody waits any more
    have hnobody : ∀ j, ¬ (Function.update s.phase i p j).Waiting := by
      intro j hj
      rw [Function.update_apply] at hj
      split_ifs at hj with hji
      · rcases hp with rfl | rfl <;> exact hj
      · exact hji (hs.alone j i hj hi)
    refine ⟨fun j _ => ?_, fun j hj => absurd hj (hnobody j), fun j _ hj => absurd hj (hnobody j)⟩
    simp only [Function.update_apply]
    split_ifs with hji
    · rw [hji, hcompleted]
    · exact hs.handled j fun hj => hji (hs.alone j i hj hi)
  | @missing i n pos behaviour conn hphase hnone =>
    -- who waits finds its request
    have hi : (s.phase i).Waiting := by simp [hphase, Phase.Waiting]
    obtain ⟨request, hrequest, -⟩ := hs.pending i hi
    rw [hnone] at hrequest
    cases hrequest

end Step

/-! ## Runs -/

/-- The chunks have been processed in the order in which they were read, and the workers have
handled each request that they have completed once, but for those that they have not moved yet. -/
structure State.Served (s : State ι) : Prop where
  /-- The order of the chunks. -/
  ordered : s.processed.Pairwise (· ≤ ·)
  /-- The requests of each worker. -/
  once : ∀ i, if (s.phase i).Waiting then ∃ request, s.completed i = s.handled i ++ [request]
    else s.completed i = s.handled i

/-- In an orderly run the chunks are processed in the order in which they are read, and each
request is handled once, by the worker that has completed it. -/
theorem served_of_orderly {table : Hpack.StaticTable} {ch : Octet}
    {ks : List (Transition (step (ι := ι)))} (hrun : Transition.Runs (.accepted table ch) ks)
    (horderly : ∀ k ∈ ks, Orderly k.before k.action) : ∀ k ∈ ks, k.after.Served := by
  have hsorted := hrun.forall_dst (sorted_accepted table ch) horderly fun k hk =>
    sorted_step hk k.valid
  have hattended := hrun.forall_dst (attended_accepted table ch) horderly fun k hk =>
    attended_step hk k.valid
  intro k hk
  refine ⟨(hsorted k hk).ordered, fun i => ?_⟩
  split_ifs with hi
  · obtain ⟨request, -, hcompleted⟩ := (hattended k hk).pending i hi
    exact ⟨request, hcompleted⟩
  · exact (hattended k hk).handled i hi

/-- The second worker reads its chunk while the first one works on its own. -/
theorem served_sample :
    (Transition.trace step (.accepted Hpack.staticHeaderTable 0)
        [.read true (handshake ++ Frame.wire ⟨2, .headers, 0x5, 1, [0x82, 0x84]⟩), .process true,
          .process true, .read false (Frame.wire ⟨2, .headers, 0x5, 3, [0x82, 0x84]⟩),
          .process true, .move true .returned, .process false, .process true,
          .move false .stdException]).Forall
      fun k => k.after.Served :=
  List.forall_iff_forall_mem.mpr (served_of_orderly (Transition.run_trace ..) (by decide +kernel))

/-- The second chunk is processed first; or a request is replaced by that of the other worker,
before it has been moved. -/
theorem not_served :
    (¬ ∀ (table : Hpack.StaticTable) (ch : Octet) (ks : List (Transition (step (ι := Bool)))),
        Transition.Runs (.accepted table ch) ks →
        ∀ k ∈ ks, k.after.processed.Pairwise (· ≤ ·)) ∧
      ¬ ∀ (table : Hpack.StaticTable) (ch : Octet) (ks : List (Transition (step (ι := Bool)))),
        Transition.Runs (.accepted table ch) ks →
        ∀ k ∈ ks, ∀ i, ¬ (k.after.phase i).Waiting → k.after.completed i = k.after.handled i := by
  have hrun := Transition.run_trace (step (ι := Bool)) (.accepted Hpack.staticHeaderTable 0)
  refine ⟨fun h => ?_, fun h => ?_⟩
  · have hsorted := h _ _ _ (hrun [.read true handshake,
      .read false (Frame.wire ⟨2, .headers, 0x5, 1, [0x82, 0x84]⟩), .process false, .process true])
    exact absurd hsorted (by decide)
  · have hhandled := h _ _ _ (hrun
      [.read true (handshake ++ Frame.wire ⟨2, .headers, 0x5, 1, [0x82, 0x84]⟩), .process true,
        .process true, .process true, .read false (Frame.wire ⟨2, .headers, 0x5, 3, [0x82, 0x84]⟩),
        .process false, .move true .returned, .move false .returned])
    have hlength := fun k hk i hi => congrArg List.length (hhandled k hk i hi)
    exact absurd hlength (by decide +kernel)

end Workers

end H2

end Rite
