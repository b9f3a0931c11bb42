import Mathlib

/-!
# Items that are written under a lock

Threads write to one output. Each has a queue of items, and an item is written piece by piece by a
thread that holds the lock. Items can be added to the queues at any time.

What has been written is then a sequence of whole items, but for the last one, and those of each
thread are in the order in which they were added.

## Main results

* `Serialized.step`: a step keeps the output a sequence of items;
* `Serialized.filter_append`: the items of a thread, told apart by what they are, are in the order
  of its queue, and none is missing;
* `exists_step_of_not_done`: as long as there is something to be written, a thread can go on;
* `work_lt`: and every step that adds nothing brings the end nearer.
-/

namespace CriticalSection

variable {ι σ β : Type*}

/-- The output, the lock and the queues. -/
structure State (ι σ β : Type*) where
  /-- What has been written. -/
  output : List β := []
  /-- The thread that holds the lock, with the pieces that it has still to write. -/
  holder : Option (ι × List β) := none
  /-- The items that each thread has still to write. -/
  queue : ι → List σ

/-- The steps of the threads. -/
inductive Action (ι σ : Type*)
  /-- Add items to the queue of a thread. -/
  | enqueue (i : ι) (items : List σ)
  /-- Take the lock for the next item. -/
  | acquire (i : ι)
  /-- Write the next piece. -/
  | write (i : ι)
  /-- Release the lock behind the last piece. -/
  | release (i : ι)

namespace State

/-- There is nothing to be written. -/
def empty : State ι σ β where
  queue _ := []

/-- What the thread that holds the lock has still to write. -/
def pending (s : State ι σ β) : List β := s.holder.elim [] Prod.snd

/-- All items have been written. -/
def Done (s : State ι σ β) : Prop := s.holder = none ∧ ∀ i, s.queue i = []

end State

variable [DecidableEq ι]

/-- What a step does, if the thread is where it takes that step. -/
def step (pieces : σ → List β) (s : State ι σ β) : Action ι σ → Option (State ι σ β)
  | .enqueue i items =>
    some { s with queue := Function.update s.queue i (s.queue i ++ items) }
  | .acquire i =>
    match s.holder, s.queue i with
    | none, item :: items => some { s with
        holder := some (i, pieces item)
        queue := Function.update s.queue i items }
    | _, _ => none
  | .write i =>
    match s.holder with
    | some (j, piece :: rest) =>
      if j = i then some { s with output := s.output ++ [piece], holder := some (i, rest) }
      else none
    | _ => none
  | .release i =>
    match s.holder with
    | some (j, []) => if j = i then some { s with holder := none } else none
    | _ => none

/-- The items that have been added to each queue, behind a step. -/
def Action.added (added : ι → List σ) : Action ι σ → ι → List σ
  | .enqueue i items => Function.update added i (added i ++ items)
  | _ => added

/-- The output is made of the items `sent`, each with its thread, but for what is pending; and with
what is left in the queues these are the items that have been added. -/
structure Serialized (pieces : σ → List β) (added : ι → List σ) (s : State ι σ β)
    (sent : List (ι × σ)) : Prop where
  /-- The output is made of whole items. -/
  output : s.output ++ s.pending = sent.flatMap fun e => pieces e.2
  /-- Those of each thread are in their order. -/
  order : ∀ i, (sent.filter (·.1 = i)).map Prod.snd ++ s.queue i = added i

section Step

variable {pieces : σ → List β} {added : ι → List σ} {s s' : State ι σ β} {a : Action ι σ}

/-- Everything that a step can do. -/
theorem step_cases (h : step pieces s a = some s') :
    (∃ i items, a = .enqueue i items ∧
      s' = { s with queue := Function.update s.queue i (s.queue i ++ items) }) ∨
    (∃ i item items, a = .acquire i ∧ s.holder = none ∧ s.queue i = item :: items ∧
      s' = { s with
        holder := some (i, pieces item)
        queue := Function.update s.queue i items }) ∨
    (∃ i piece rest, a = .write i ∧ s.holder = some (i, piece :: rest) ∧
      s' = { s with output := s.output ++ [piece], holder := some (i, rest) }) ∨
    ∃ i, a = .release i ∧ s.holder = some (i, []) ∧ s' = { s with holder := none } := by
  cases a with
  | enqueue i items => exact .inl ⟨i, items, rfl, (Option.some_inj.mp h).symm⟩
  | acquire i =>
    simp only [step] at h
    split at h
    next item items hholder hqueue =>
      exact .inr (.inl ⟨i, item, items, rfl, hholder, hqueue, (Option.some_inj.mp h).symm⟩)
    next => cases h
  | write i =>
    simp only [step] at h
    split at h
    next j piece rest hholder =>
      split_ifs at h with hji
      subst hji
      exact .inr (.inr (.inl ⟨j, piece, rest, rfl, hholder, (Option.some_inj.mp h).symm⟩))
    next => cases h
  | release i =>
    simp only [step] at h
    split at h
    next j hholder =>
      split_ifs at h with hji
      subst hji
      exact .inr (.inr (.inr ⟨j, rfl, hholder, (Option.some_inj.mp h).symm⟩))
    next => cases h

theorem serialized_empty : Serialized pieces (fun _ => []) (State.empty : State ι σ β) [] where
  output := rfl
  order _ := rfl

/-- A step keeps the output a sequence of items. -/
theorem Serialized.step {sent : List (ι × σ)} (hs : Serialized pieces added s sent)
    (h : step pieces s a = some s') : ∃ sent', Serialized pieces (a.added added) s' sent' := by
  rcases step_cases h with ⟨i, items, rfl, rfl⟩ | ⟨i, item, items, rfl, hholder, hqueue, rfl⟩ |
    ⟨i, piece, rest, rfl, hholder, rfl⟩ | ⟨i, rfl, hholder, rfl⟩
  · refine ⟨sent, hs.output, fun j => ?_⟩
    by_cases hji : j = i
    · subst hji
      simp [Action.added, ← hs.order j]
    · simpa [Action.added, hji] using hs.order j
  · -- the item that the thread begins is the next one
    refine ⟨sent ++ [(i, item)], ?_, fun j => ?_⟩
    · have houtput := hs.output
      simp only [State.pending, hholder, Option.elim_none, List.append_nil] at houtput
      simp [State.pending, houtput]
    · have horder := hs.order j
      by_cases hji : j = i
      · subst hji
        simpa [Action.added, hqueue] using horder
      · simpa [Action.added, hji, Ne.symm hji] using horder
  · refine ⟨sent, ?_, hs.order⟩
    rw [← hs.output]
    simp [State.pending, hholder]
  · refine ⟨sent, ?_, hs.order⟩
    rw [← hs.output]
    simp [State.pending, hholder]

/-- So do the steps of a list. -/
theorem Serialized.foldlM {as : List (Action ι σ)} {sent : List (ι × σ)}
    (hs : Serialized pieces added s sent)
    (h : as.foldlM (CriticalSection.step pieces) s = some s') :
    ∃ sent', Serialized pieces (as.foldl Action.added added) s' sent' := by
  induction as generalizing added s sent with
  | nil =>
    obtain rfl : s = s' := by simpa using h
    exact ⟨sent, hs⟩
  | cons a as ih =>
    rw [List.foldlM_cons] at h
    obtain ⟨m, hm, hrest⟩ := Option.bind_eq_some_iff.mp h
    obtain ⟨sent', hs'⟩ := hs.step hm
    exact ih hs' hrest

/-- The items of a thread that have been written, if they are told apart from those of the others
by `p`. -/
theorem Serialized.filter_append {sent : List (ι × σ)} (hs : Serialized pieces added s sent)
    {i : ι} {p : σ → Prop} [DecidablePred p] (hown : ∀ x ∈ added i, p x)
    (hother : ∀ j, j ≠ i → ∀ x ∈ added j, ¬ p x) :
    (sent.map Prod.snd).filter p ++ s.queue i = added i := by
  have hmem : ∀ e ∈ sent, e.2 ∈ added e.1 := fun e he => by
    rw [← hs.order e.1]
    exact List.mem_append_left _
      (List.mem_map.mpr ⟨e, List.mem_filter.mpr ⟨he, by simp⟩, rfl⟩)
  have hiff : ∀ e ∈ sent, (decide (p e.2) = true ↔ decide (e.1 = i) = true) := fun e he => by
    simp only [decide_eq_true_eq]
    refine ⟨fun hp => ?_, fun heq => hown _ (heq ▸ hmem e he)⟩
    by_contra hne
    exact hother _ hne _ (hmem e he) hp
  rw [List.filter_map, ← hs.order i]
  congr 2
  exact List.filter_congr fun e he => Bool.eq_iff_iff.mpr (hiff e he)

/-- As long as there is something to be written, a thread can go on. -/
theorem exists_step_of_not_done (pieces : σ → List β) (h : ¬ s.Done) :
    ∃ i a s', a ∈ [Action.acquire i, .write i, .release i] ∧ step pieces s a = some s' := by
  cases hholder : s.holder with
  | some e =>
    obtain ⟨i, rest⟩ := e
    cases rest with
    | nil =>
      refine ⟨i, .release i, { s with holder := none }, by simp, ?_⟩
      simp only [step, hholder, if_true]
    | cons piece rest =>
      refine ⟨i, .write i, { s with output := s.output ++ [piece], holder := some (i, rest) },
        by simp, ?_⟩
      simp only [step, hholder, if_true]
  | none =>
    -- the lock is free for a thread that has something to write
    obtain ⟨i, hi⟩ : ∃ i, s.queue i ≠ [] := by
      by_contra hall
      push Not at hall
      exact h ⟨hholder, hall⟩
    obtain ⟨item, items, hqueue⟩ := List.exists_cons_of_ne_nil hi
    refine ⟨i, .acquire i, { s with
      holder := some (i, pieces item)
      queue := Function.update s.queue i items }, by simp, ?_⟩
    simp only [step, hholder, hqueue]

/-! ## The work that is left -/

section Work

variable {threads : Finset ι}

/-- The number of steps until the threads have written everything. -/
def State.work (pieces : σ → List β) (threads : Finset ι) (s : State ι σ β) : ℕ :=
  ∑ i ∈ threads, ((s.queue i).map fun x => (pieces x).length + 2).sum +
    s.holder.elim 0 fun e => e.2.length + 1

/-- A sum changes where its function does. -/
theorem sum_update_add {γ : Type*} (g : ι → γ → ℕ) (f : ι → γ) {i : ι} (hi : i ∈ threads) (b : γ) :
    ∑ j ∈ threads, g j (Function.update f i b j) + g i (f i) =
      ∑ j ∈ threads, g j (f j) + g i b := by
  have hrest : ∑ j ∈ threads.erase i, g j (Function.update f i b j) =
      ∑ j ∈ threads.erase i, g j (f j) :=
    Finset.sum_congr rfl fun j hj => by rw [Function.update_of_ne (Finset.ne_of_mem_erase hj)]
  rw [← Finset.add_sum_erase _ _ hi, ← Finset.add_sum_erase _ (fun j => g j (f j)) hi, hrest,
    Function.update_self]
  omega

/-- Items that are added are more work. -/
theorem work_enqueue {i : ι} {items : List σ} (h : step pieces s (.enqueue i items) = some s')
    (hi : i ∈ threads) :
    s'.work pieces threads =
      s.work pieces threads + (items.map fun x => (pieces x).length + 2).sum := by
  obtain rfl := Option.some_inj.mp h
  have hsum :=
    sum_update_add (fun _ queue => (queue.map fun x => (pieces x).length + 2).sum) s.queue hi
      (s.queue i ++ items)
  rw [List.map_append, List.sum_append] at hsum
  simp only [State.work]
  omega

/-- Every other step takes from the work that is left. -/
theorem work_lt (h : step pieces s a = some s') (ha : ∀ i items, a ≠ .enqueue i items)
    (hthreads : ∀ i, a = .acquire i → i ∈ threads) :
    s'.work pieces threads < s.work pieces threads := by
  unfold State.work
  rcases step_cases h with ⟨i, items, rfl, -⟩ | ⟨i, item, items, rfl, hholder, hqueue, rfl⟩ |
    ⟨i, piece, rest, -, hholder, rfl⟩ | ⟨i, -, hholder, rfl⟩
  · exact absurd rfl (ha i items)
  · -- the item leaves its queue, and what has to be done with it is one step less
    have hsum := sum_update_add (fun _ queue => (queue.map fun x => (pieces x).length + 2).sum)
      s.queue (hthreads i rfl) items
    rw [hqueue, List.map_cons, List.sum_cons] at hsum
    simp only [hholder, Option.elim_some, Option.elim_none]
    omega
  · simp [hholder]
  · simp [hholder]

end Work

end Step

end CriticalSection
