import Rite.ToMathlib.Transition

/-!
# The event loop (`rite::server<T>::operator()`)

The loop keeps a table of connections. The index of an entry is what `epoll` is told for the socket
of its connection, so that an event leads to the entry. Every connection has a thread of its own,
its sentinel, which marks the entry by its topmost bit when the connection is over, and deletes the
connection; an entry that is marked is used again.

A connection is known by its address, which an allocator may use again for another one. An event is
known by the word `data` alone: for the listening socket its low half has been set to the
descriptor of that socket, and for a connection it is the index.

That `epoll_wait` or `epoll_ctl` fails is left out. What the sentinel waits for is left open, and
so is what `accept` and `on_accept` come to.

## Main results

* `Coherent.step`: a step keeps the table, the sentinels and the events together;
* `coherent_of_run`: an active entry is the address of one allocated connection, whose sentinel
  watches this entry and no other; a sentinel deletes its own connection; and no event leads out of
  the table;
* `dispatched_iff`: an event of an open connection is dispatched to it exactly if the index is not
  the descriptor of the listening socket;
* `alive_iff`: the loop never holds a connection that has been deleted exactly if no sentinel
  deletes one between the look at its entry and `take`.
-/

namespace Rite

namespace EventLoop

/-! ## Entries -/

/-- Bit 63 of an entry. -/
def inactiveBit : UInt64 := (1 : UInt64) <<< 63

/-- `connection<void>::invalid`. -/
def invalid : UInt64 := 0x8000000000000000

/-- The connection of the entry is no longer there. -/
def Inactive (entry : UInt64) : Prop := entry &&& inactiveBit ≠ 0

instance (entry : UInt64) : Decidable (Inactive entry) := inferInstanceAs (Decidable (_ ≠ _))

/-- The pointer without what the application keeps in its topmost bits. -/
def pointer (entry : UInt64) : UInt64 := entry &&& ((~~~0 : UInt64) >>> 16)

/-- What an allocator can return. -/
def IsAddress (a : UInt64) : Prop := a.toNat < 2 ^ 47

instance (a : UInt64) : Decidable (IsAddress a) := inferInstanceAs (Decidable (_ < _))

theorem inactive_iff {entry : UInt64} : Inactive entry ↔ entry.toNat.testBit 63 = true := by
  rw [Inactive, ne_eq, ← UInt64.toNat_inj, UInt64.toNat_and,
    show inactiveBit.toNat = 2 ^ 63 from rfl, Nat.and_two_pow]
  cases entry.toNat.testBit 63 <;> simp

theorem IsAddress.not_inactive {a : UInt64} (h : IsAddress a) : ¬ Inactive a := by
  rw [inactive_iff, Nat.testBit_lt_two_pow (h.trans (by decide))]
  exact Bool.false_ne_true

theorem inactive_or (a : UInt64) : Inactive (a ||| inactiveBit) := by
  rw [inactive_iff, UInt64.toNat_or, Nat.testBit_or, show inactiveBit.toNat = 2 ^ 63 from rfl,
    Nat.testBit_two_pow_self, Bool.or_true]

theorem IsAddress.pointer_eq {a : UInt64} (h : IsAddress a) : pointer a = a := by
  rw [pointer, ← UInt64.toNat_inj, UInt64.toNat_and]
  change a.toNat &&& (2 ^ 48 - 1) = a.toNat
  rw [Nat.and_two_pow_sub_one_eq_mod]
  exact Nat.mod_eq_of_lt (h.trans (by decide))

/-! ## The steps -/

/-- Where the thread of a connection is in `connection_sentinel`. -/
inductive Sentinel
  /-- In front of its look at the table. -/
  | starting (idx : ℕ)
  /-- It waits for the end of the connection `con`. -/
  | watching (idx : ℕ) (con : UInt64)
  /-- It has marked the entry, and is about to delete the connection. -/
  | leaving (con : UInt64)
  deriving DecidableEq

/-- An event of `epoll_wait`. -/
structure Event where
  /-- `data`. -/
  data : UInt64
  /-- `events & EPOLLIN`. -/
  epollin : Bool
  deriving DecidableEq

/-- `data.fd`, the low half. -/
def Event.fd (e : Event) : UInt32 := e.data.toUInt32

/-- The loop, its table and the connections. -/
structure State where
  /-- `connections_`. -/
  connections : List UInt64
  /-- The connections that have not been deleted. -/
  allocated : UInt64 → Bool := fun _ => false
  /-- The thread that has been started for a connection. -/
  sentinel : UInt64 → Option Sentinel := fun _ => none
  /-- The `data` that `epoll` has for the socket of a connection. -/
  registered : UInt64 → Option UInt64 := fun _ => none
  /-- The events that are still to be handled. -/
  events : List Event := []
  /-- `client`, between the look at its entry and `take`. -/
  client : Option UInt64 := none

/-- The steps of the loop and of the sentinels. -/
inductive Action
  /-- `epoll_wait` returns events: for the listening socket, or for that of a connection. -/
  | wait (ready : List (Option UInt64 × Bool))
  /-- The next event is handled. If `accept` is called, this is the connection that `on_accept`
  returns, unless one of them fails. -/
  | handle (accepted : Option UInt64)
  /-- `take`, and `dispatch` of `on_read`. -/
  | take
  /-- The sentinel of the connection `a` looks at the table. -/
  | start (a : UInt64)
  /-- It marks the entry. -/
  | mark (a : UInt64)
  /-- It deletes the connection. -/
  | delete (a : UInt64)
  deriving DecidableEq

/-- The event for a socket that is ready, if it is known to `epoll`. -/
def State.report (listening : UInt64) (s : State) (ready : Option UInt64 × Bool) : Option Event :=
  (ready.1.elim (some listening) s.registered).map (⟨·, ready.2⟩)

/-- A connection is stored in the first entry that is inactive. Without one it is deleted again. -/
def State.store (s : State) (con : UInt64) : State :=
  match s.connections.findIdx? (Inactive ·) with
  | none => s
  | some idx => { s with
    connections := s.connections.set idx con
    allocated := Function.update s.allocated con true
    sentinel := Function.update s.sentinel con (some (.starting idx))
    registered := Function.update s.registered con (some (UInt64.ofNat idx)) }

/-- The event of a connection is handled, if its entry is in the table. -/
def State.look (s : State) (e : Event) : Option State :=
  if e.epollin then
    match s.connections[e.data.toNat]? with
    | none => none
    -- the event of a connection that is no longer there is skipped
    | some entry => some (if Inactive entry then s else { s with client := some (pointer entry) })
  else some s

/-- What a step does, if it is possible. The `data` of the listening socket is `listening`. -/
def step (listening : UInt64) (s : State) : Action → Option State
  | .wait ready =>
    if s.events = [] ∧ s.client = none then
      some { s with events := ready.filterMap (s.report listening) }
    else none
  | .handle accepted =>
    match s.client, s.events with
    | none, e :: events =>
      if e.fd = listening.toUInt32 then
        match accepted with
        | none => some { s with events }
        | some con =>
          if s.allocated con = false ∧ IsAddress con then some ({ s with events }.store con)
          else none
      else { s with events }.look e
    | _, _ => none
  | .take => s.client.map fun _ => { s with client := none }
  | .start a =>
    match s.sentinel a with
    | some (.starting idx) =>
      s.connections[idx]?.map fun entry =>
        { s with sentinel := Function.update s.sentinel a (some (.watching idx (pointer entry))) }
    | _ => none
  | .mark a =>
    match s.sentinel a with
    | some (.watching idx con) => some { s with
      connections := s.connections.set idx (con ||| inactiveBit)
      sentinel := Function.update s.sentinel a (some (.leaving con)) }
    | _ => none
  | .delete a =>
    match s.sentinel a with
    | some (.leaving con) => some { s with
      allocated := Function.update s.allocated con false
      sentinel := Function.update s.sentinel a none
      registered := Function.update s.registered con none }
    | _ => none

/-- The loop in front of its first event, with a table of `n` entries. -/
def State.fresh (n : ℕ) : State where
  connections := List.replicate n invalid

/-! ## What the steps keep -/

/-- The entry `i` has the connection, and its events have the index of the entry. -/
def State.Has (s : State) (a : UInt64) (i : ℕ) : Prop :=
  s.connections[i]? = some a ∧ s.registered a = some (UInt64.ofNat i)

/-- The thread of a connection is in step with the table: it has found its own connection, and the
entry has that connection until it is marked. A connection that is deleted has no thread. -/
def State.InStep (s : State) (a : UInt64) : Option Sentinel → Prop
  | none => s.allocated a = false
  | some (.starting i) => s.allocated a = true ∧ s.Has a i
  | some (.watching i con) => con = a ∧ s.allocated a = true ∧ s.Has a i
  | some (.leaving con) => con = a ∧ s.allocated a = true

/-- The connection is open: its sentinel watches the entry `i`, or is about to. -/
def State.Watches (s : State) (a : UInt64) (i : ℕ) : Prop :=
  s.sentinel a = some (.starting i) ∨ s.sentinel a = some (.watching i a)

instance (s : State) (a : UInt64) (i : ℕ) : Decidable (s.Watches a i) :=
  inferInstanceAs (Decidable (_ ∨ _))

/-- The table, the sentinels and the events belong together. -/
structure Coherent (listening : UInt64) (n : ℕ) (s : State) : Prop where
  /-- The table keeps its length. -/
  length : s.connections.length = n
  /-- An active entry is a connection whose sentinel watches this entry. -/
  active : ∀ (i : ℕ) (a : UInt64), s.connections[i]? = some a → ¬ Inactive a → s.Watches a i
  /-- The sentinels are in step. -/
  inStep : ∀ a, s.InStep a (s.sentinel a)
  /-- The connections are addresses. -/
  address : ∀ a, s.allocated a = true → IsAddress a
  /-- What `epoll` has for a connection is an index of the table, -/
  inside : ∀ a data, s.registered a = some data → data.toNat < n
  /-- and so is what the events have that are still to be handled. -/
  events : ∀ e ∈ s.events, e.fd = listening.toUInt32 ∨ e.data.toNat < n

section Step

variable {listening : UInt64} {n : ℕ} {s s' : State}

theorem inactive_invalid : Inactive invalid := by decide

theorem coherent_fresh (listening : UInt64) (n : ℕ) : Coherent listening n (.fresh n) where
  length := List.length_replicate
  active i a hi ha := by
    have hmem := List.mem_of_getElem? hi
    rw [State.fresh, List.mem_replicate] at hmem
    exact absurd (hmem.2 ▸ inactive_invalid) ha
  inStep a := rfl
  address _ h := by cases h
  inside _ _ h := by cases h
  events _ h := by cases h

/-- What others do to the table does not matter to a sentinel, as long as the entry of its
connection stays. -/
theorem State.InStep.congr {a : UInt64} {x : Option Sentinel} (h : s.InStep a x)
    (hallocated : s'.allocated a = s.allocated a) (hregistered : s'.registered a = s.registered a)
    (hconnections : ∀ i : ℕ, s.allocated a = true → s.connections[i]? = some a →
      s'.connections[i]? = some a) : s'.InStep a x := by
  match x with
  | none => exact hallocated.trans h
  | some (.starting i) =>
    exact ⟨hallocated.trans h.1, hconnections i h.1 h.2.1, hregistered.trans h.2.2⟩
  | some (.watching i con) =>
    exact ⟨h.1, hallocated.trans h.2.1, hconnections i h.2.1 h.2.2.1, hregistered.trans h.2.2.2⟩
  | some (.leaving con) => exact ⟨h.1, hallocated.trans h.2⟩

namespace Coherent

theorem of_watches (hs : Coherent listening n s) {a : UInt64} {i : ℕ} (h : s.Watches a i) :
    s.allocated a = true ∧ s.Has a i := by
  have hstep := hs.inStep a
  rcases h with h | h
  · rwa [h] at hstep
  · rw [h] at hstep
    exact hstep.2

/-- A connection is in one entry alone. -/
theorem watches_unique (_ : Coherent listening n s) {a : UInt64} {i j : ℕ} (hi : s.Watches a i)
    (hj : s.Watches a j) : i = j := by
  rcases hi with hi | hi <;> rcases hj with hj | hj <;> simp_all

/-- An entry is that of one connection alone. -/
theorem eq_of_watches (hs : Coherent listening n s) {a b : UInt64} {i : ℕ} (ha : s.Watches a i)
    (hb : s.Watches b i) : a = b :=
  Option.some_inj.mp ((hs.of_watches ha).2.1.symm.trans (hs.of_watches hb).2.1)

theorem lt_of_watches (hs : Coherent listening n s) {a : UInt64} {i : ℕ} (h : s.Watches a i) :
    i < n :=
  hs.length ▸ (List.getElem?_eq_some_iff.mp (hs.of_watches h).2.1).1

theorem isAddress (hs : Coherent listening n s) {a : UInt64} {i : ℕ} (h : s.Watches a i) :
    IsAddress a := hs.address a (hs.of_watches h).1

/-- A connection that is not there has no thread. -/
theorem sentinel_eq_none (hs : Coherent listening n s) {a : UInt64} (h : s.allocated a = false) :
    s.sentinel a = none := by
  have hstep := hs.inStep a
  match hx : s.sentinel a with
  | none => rfl
  | some (.starting i) => simp [hx, State.InStep, h] at hstep
  | some (.watching i con) => simp [hx, State.InStep, h] at hstep
  | some (.leaving con) => simp [hx, State.InStep, h] at hstep

/-- A connection is stored in an entry that no other one has. -/
theorem store (hs : Coherent listening n s) {con : UInt64} (hcon : s.allocated con = false)
    (haddress : IsAddress con) : Coherent listening n (s.store con) := by
  unfold State.store
  cases hidx : s.connections.findIdx? (Inactive ·) with
  | none => exact hs
  | some idx =>
    obtain ⟨hlt, hinactive, -⟩ := List.findIdx?_eq_some_iff_getElem.mp hidx
    have hentry : s.connections[idx]? = some s.connections[idx] := List.getElem?_eq_getElem hlt
    have hnone := hs.sentinel_eq_none hcon
    -- the others are not in that entry
    have hne : ∀ (b : UInt64) (i : ℕ), s.allocated b = true → s.connections[i]? = some b →
        (s.connections.set idx con)[i]? = some b := by
      intro b i hb hi
      rw [List.getElem?_set, if_neg, hi]
      rintro rfl
      have heq := Option.some_inj.mp (hentry.symm.trans hi)
      exact (hs.address b hb).not_inactive (heq ▸ of_decide_eq_true hinactive)
    constructor <;> dsimp only
    · rw [List.length_set, hs.length]
    · intro i b hb hactive
      rw [List.getElem?_set] at hb
      split_ifs at hb with hi
      · subst hi
        obtain rfl := Option.some_inj.mp hb
        exact .inl (Function.update_self ..)
      · have hold := hs.active i b hb hactive
        have hbc : b ≠ con := by
          rintro rfl
          rcases hold with h | h <;> simp [hnone] at h
        simpa [State.Watches, hbc] using hold
    · intro b
      by_cases hbc : b = con
      · subst hbc
        simp [State.InStep, State.Has, hlt]
      · rw [Function.update_of_ne hbc]
        exact (hs.inStep b).congr (Function.update_of_ne hbc ..) (Function.update_of_ne hbc ..)
          (hne b)
    · intro b hb
      by_cases hbc : b = con
      · exact hbc ▸ haddress
      · exact hs.address b (by simpa [hbc] using hb)
    · -- the index that is registered is that of the entry
      intro b data hb
      by_cases hbc : b = con
      · obtain rfl : UInt64.ofNat idx = data := by simpa [hbc] using hb
        rw [UInt64.toNat_ofNat']
        exact (Nat.mod_le _ _).trans_lt (hs.length ▸ hlt)
      · exact hs.inside b data (by simpa [hbc] using hb)
    · exact hs.events

/-- A sentinel finds its own connection. -/
theorem start (hs : Coherent listening n s) {a : UInt64} {idx : ℕ}
    (ha : s.sentinel a = some (.starting idx)) :
    Coherent listening n
      { s with sentinel := Function.update s.sentinel a (some (.watching idx a)) } := by
  constructor <;> dsimp only
  · exact hs.length
  · -- its entry is watched now
    intro i b hb hactive
    have hold := hs.active i b hb hactive
    by_cases hba : b = a
    · subst hba
      obtain rfl : idx = i := by simpa [State.Watches, ha] using hold
      exact .inr (Function.update_self ..)
    · simpa [State.Watches, hba] using hold
  · intro b
    have hstep := hs.inStep b
    by_cases hba : b = a
    · subst hba
      rw [ha] at hstep
      rw [Function.update_self]
      exact ⟨rfl, hstep⟩
    · rw [Function.update_of_ne hba]
      exact hstep.congr rfl rfl fun i _ hi => hi
  · exact hs.address
  · exact hs.inside
  · exact hs.events

/-- A sentinel marks the entry of its own connection. -/
theorem mark (hs : Coherent listening n s) {a : UInt64} {idx : ℕ}
    (ha : s.sentinel a = some (.watching idx a)) :
    Coherent listening n { s with
      connections := s.connections.set idx (a ||| inactiveBit)
      sentinel := Function.update s.sentinel a (some (.leaving a)) } := by
  have hwatch : s.Watches a idx := .inr ha
  constructor <;> dsimp only
  · rw [List.length_set, hs.length]
  · -- no other entry is watched by this sentinel
    intro i b hb hactive
    rw [List.getElem?_set] at hb
    split_ifs at hb with hi
    · obtain rfl := Option.some_inj.mp hb
      exact absurd (inactive_or a) hactive
    · have hold := hs.active i b hb hactive
      have hba : b ≠ a := by
        rintro rfl
        exact hi (hs.watches_unique hwatch hold)
      simpa [State.Watches, hba] using hold
  · intro b
    by_cases hba : b = a
    · subst hba
      rw [Function.update_self]
      exact ⟨rfl, (hs.of_watches hwatch).1⟩
    · rw [Function.update_of_ne hba]
      refine (hs.inStep b).congr rfl rfl fun i _ hi => ?_
      rw [List.getElem?_set, if_neg, hi]
      rintro rfl
      exact hba (Option.some_inj.mp (hi.symm.trans (hs.of_watches hwatch).2.1))
  · exact hs.address
  · exact hs.inside
  · exact hs.events

/-- A sentinel deletes its own connection. -/
theorem delete (hs : Coherent listening n s) {a : UInt64}
    (ha : s.sentinel a = some (.leaving a)) :
    Coherent listening n { s with
      allocated := Function.update s.allocated a false
      sentinel := Function.update s.sentinel a none
      registered := Function.update s.registered a none } := by
  constructor <;> dsimp only
  · exact hs.length
  · -- the connection is in no entry any more
    intro i b hb hactive
    have hold := hs.active i b hb hactive
    have hba : b ≠ a := by
      rintro rfl
      rcases hold with h | h <;> simp [ha] at h
    simpa [State.Watches, hba] using hold
  · intro b
    by_cases hba : b = a
    · subst hba
      rw [Function.update_self]
      exact Function.update_self ..
    · rw [Function.update_of_ne hba]
      exact (hs.inStep b).congr (Function.update_of_ne hba ..) (Function.update_of_ne hba ..)
        fun i _ hi => hi
  · intro b hb
    by_cases hba : b = a
    · simp [hba] at hb
    · exact hs.address b (by simpa [hba] using hb)
  · intro b data hb
    by_cases hba : b = a
    · simp [hba] at hb
    · exact hs.inside b data (by simpa [hba] using hb)
  · exact hs.events

/-- The events that are reported lead into the table. -/
theorem wait (hs : Coherent listening n s) (ready : List (Option UInt64 × Bool)) :
    Coherent listening n { s with events := ready.filterMap (s.report listening) } := by
  refine ⟨hs.length, hs.active, fun a => ?_, hs.address, hs.inside, fun e he => ?_⟩
  · exact (hs.inStep a).congr rfl rfl fun i _ hi => hi
  · obtain ⟨⟨source, epollin⟩, -, hreport⟩ := List.mem_filterMap.mp he
    obtain ⟨data, hdata, rfl⟩ := Option.map_eq_some_iff.mp hreport
    cases source with
    | none =>
      obtain rfl : listening = data := by simpa using hdata
      exact .inl rfl
    | some a => exact .inr (hs.inside a data hdata)

end Coherent

/-- Everything that a step can do. -/
theorem step_cases {action : Action} (h : step listening s action = some s') :
    (∃ ready, action = .wait ready ∧ s.client = none ∧
      s' = { s with events := ready.filterMap (s.report listening) }) ∨
    (∃ accepted e events, action = .handle accepted ∧ s.client = none ∧
      s.events = e :: events ∧
      ((e.fd = listening.toUInt32 ∧ (s' = { s with events } ∨
          ∃ con, accepted = some con ∧ s.allocated con = false ∧ IsAddress con ∧
            s' = { s with events }.store con)) ∨
        (e.fd ≠ listening.toUInt32 ∧ { s with events }.look e = some s'))) ∨
    (∃ con, action = .take ∧ s.client = some con ∧ s' = { s with client := none }) ∨
    (∃ a idx entry, action = .start a ∧ s.sentinel a = some (.starting idx) ∧
      s.connections[idx]? = some entry ∧ s' = { s with
        sentinel := Function.update s.sentinel a (some (.watching idx (pointer entry))) }) ∨
    (∃ a idx con, action = .mark a ∧ s.sentinel a = some (.watching idx con) ∧ s' = { s with
      connections := s.connections.set idx (con ||| inactiveBit)
      sentinel := Function.update s.sentinel a (some (.leaving con)) }) ∨
    ∃ a con, action = .delete a ∧ s.sentinel a = some (.leaving con) ∧ s' = { s with
      allocated := Function.update s.allocated con false
      sentinel := Function.update s.sentinel a none
      registered := Function.update s.registered con none } := by
  cases action with
  | wait ready =>
    simp only [step] at h
    split_ifs at h with hwait
    exact .inl ⟨ready, rfl, hwait.2, (Option.some_inj.mp h).symm⟩
  | handle accepted =>
    refine .inr (.inl ⟨accepted, ?_⟩)
    simp only [step] at h
    split at h
    next e events hclient hevents =>
      refine ⟨e, events, rfl, hclient, hevents, ?_⟩
      split_ifs at h with hfd
      · refine .inl ⟨hfd, ?_⟩
        cases accepted with
        | none => exact .inl (Option.some_inj.mp h).symm
        | some con =>
          dsimp only at h
          split_ifs at h with hcon
          exact .inr ⟨con, rfl, hcon.1, hcon.2, (Option.some_inj.mp h).symm⟩
      · exact .inr ⟨hfd, h⟩
    next => cases h
  | take =>
    obtain ⟨con, hcon, h⟩ := Option.map_eq_some_iff.mp h
    exact .inr (.inr (.inl ⟨con, rfl, hcon, h.symm⟩))
  | start a =>
    simp only [step] at h
    split at h
    next idx ha =>
      obtain ⟨entry, hentry, h⟩ := Option.map_eq_some_iff.mp h
      exact .inr (.inr (.inr (.inl ⟨a, idx, entry, rfl, ha, hentry, h.symm⟩)))
    next => cases h
  | mark a =>
    simp only [step] at h
    split at h
    next idx con ha =>
      exact .inr (.inr (.inr (.inr (.inl ⟨a, idx, con, rfl, ha, (Option.some_inj.mp h).symm⟩))))
    next => cases h
  | delete a =>
    simp only [step] at h
    split at h
    next con ha =>
      exact .inr (.inr (.inr (.inr (.inr ⟨a, con, rfl, ha, (Option.some_inj.mp h).symm⟩))))
    next => cases h

/-- What the look at an entry comes to. -/
theorem look_cases {e : Event} (h : s.look e = some s') :
    (e.epollin = false ∧ s' = s) ∨ e.epollin = true ∧
      ∃ entry, s.connections[e.data.toNat]? = some entry ∧
        (Inactive entry ∧ s' = s ∨
          ¬ Inactive entry ∧ s' = { s with client := some (pointer entry) }) := by
  unfold State.look at h
  split_ifs at h with hepollin
  · split at h
    next => cases h
    next entry hentry =>
      obtain rfl := Option.some_inj.mp h
      refine .inr ⟨hepollin, entry, hentry, ?_⟩
      split_ifs with hinactive
      · exact .inl ⟨hinactive, rfl⟩
      · exact .inr ⟨hinactive, rfl⟩
  · exact .inl ⟨by simpa using hepollin, (Option.some_inj.mp h).symm⟩

namespace Coherent

/-- Neither the events that are left nor the connection that the loop holds matter. -/
theorem of_eq (hs : Coherent listening n s) (hconnections : s'.connections = s.connections)
    (hallocated : s'.allocated = s.allocated) (hsentinel : s'.sentinel = s.sentinel)
    (hregistered : s'.registered = s.registered) (hevents : s'.events ⊆ s.events) :
    Coherent listening n s' where
  length := hconnections ▸ hs.length
  active i a ha hactive := by
    rw [hconnections] at ha
    simpa [State.Watches, hsentinel] using hs.active i a ha hactive
  inStep a := by
    rw [hsentinel]
    exact (hs.inStep a).congr (by rw [hallocated]) (by rw [hregistered]) fun i _ hi => by
      rwa [hconnections]
  address a ha := hs.address a (hallocated ▸ ha)
  inside a data ha := hs.inside a data (hregistered ▸ ha)
  events e he := hs.events e (hevents he)

/-- A step keeps the table, the sentinels and the events together. -/
theorem step {action : Action} (hs : Coherent listening n s)
    (h : EventLoop.step listening s action = some s') : Coherent listening n s' := by
  rcases step_cases h with ⟨ready, -, -, rfl⟩ | ⟨accepted, e, events, -, -, hevents, hend⟩ |
    ⟨con, -, -, rfl⟩ | ⟨a, idx, entry, -, ha, hentry, rfl⟩ | ⟨a, idx, con, -, ha, rfl⟩ |
    ⟨a, con, -, ha, rfl⟩
  · exact hs.wait ready
  · have htail : Coherent listening n { s with events } :=
      hs.of_eq rfl rfl rfl rfl (by simp [hevents])
    rcases hend with ⟨-, rfl | ⟨con, -, hcon, haddress, rfl⟩⟩ | ⟨-, hlook⟩
    · exact htail
    · exact htail.store hcon haddress
    · rcases look_cases hlook with ⟨-, rfl⟩ | ⟨-, entry, -, ⟨-, rfl⟩ | ⟨-, rfl⟩⟩
      · exact htail
      · exact htail
      · exact htail.of_eq rfl rfl rfl rfl (List.Subset.refl _)
  · exact hs.of_eq rfl rfl rfl rfl (List.Subset.refl _)
  · -- the entry is the connection of this thread
    have hwatch : s.Watches a idx := .inl ha
    obtain rfl := Option.some_inj.mp (hentry.symm.trans (hs.of_watches hwatch).2.1)
    rw [(hs.isAddress hwatch).pointer_eq]
    exact hs.start ha
  · have hstep := hs.inStep a
    rw [ha] at hstep
    obtain rfl := hstep.1
    exact hs.mark ha
  · have hstep := hs.inStep a
    rw [ha] at hstep
    obtain rfl := hstep.1
    exact hs.delete ha

end Coherent

end Step

/-! ## Runs -/

section Run

variable {listening : UInt64} {n : ℕ} {ks : List (Transition (EventLoop.step listening))}

/-- There are not more open connections than entries. -/
theorem Coherent.length_le {s : State} (hs : Coherent listening n s) {cons : List UInt64}
    (hnodup : cons.Nodup) (hopen : ∀ a ∈ cons, ∃ i, s.Watches a i) : cons.length ≤ n := by
  choose! idx hidx using hopen
  -- different connections are in different entries
  have hinj : ∀ a ∈ cons, ∀ b ∈ cons, idx a = idx b → a = b := fun a ha b hb h =>
    hs.eq_of_watches (hidx a ha) (h ▸ hidx b hb)
  have hmap : (cons.map idx).Nodup := List.Nodup.map_on hinj hnodup
  have hlt : cons.map idx ⊆ List.range n := fun i hi => by
    obtain ⟨a, ha, rfl⟩ := List.mem_map.mp hi
    exact List.mem_range.mpr (hs.lt_of_watches (hidx a ha))
  simpa using (hmap.subperm hlt).length_le

theorem Coherent.of_runs (hrun : Transition.Runs (.fresh n) ks) :
    ∀ k ∈ ks, Coherent listening n k.after :=
  hrun.forall_dst (coherent_fresh listening n) (fun _ _ => trivial) fun k hs _ => hs.step k.valid

/-- The table, the sentinels and the events belong together in every state of a run: an active
entry is the address of one connection that is there, which is in no other entry, and whose
sentinel watches this one; a sentinel marks the entry of its own connection, and deletes that; and
no event leads out of the table. So there are never more open connections than entries. -/
theorem coherent_of_run (hrun : Transition.Runs (.fresh n) ks) :
    ∀ k ∈ ks, Coherent listening n k.after ∧ ∀ cons : List UInt64, cons.Nodup →
      (∀ a ∈ cons, ∃ i, k.after.Watches a i) → cons.length ≤ n := by
  intro k hk
  have hs := Coherent.of_runs hrun k hk
  exact ⟨hs, fun _ => hs.length_le⟩

/-- Where an event of an index leads. -/
theorem fd_eq_iff {e : Event} {i : ℕ} (he : e.data = UInt64.ofNat i) :
    e.fd = listening.toUInt32 ↔ i % 2 ^ 32 = listening.toNat % 2 ^ 32 := by
  rw [Event.fd, he, ← UInt32.toNat_inj, UInt64.toNat_toUInt32, UInt64.toNat_toUInt32,
    UInt64.toNat_ofNat']
  omega

/-- An event of an open connection is dispatched to it, and to no other one, unless the index of its
entry is the descriptor of the listening socket: then it is taken for a new client, and nothing is
ever dispatched to the connection. -/
theorem dispatched_iff (hn : n < 2 ^ 64) (hrun : Transition.Runs (.fresh n) ks)
    {k : Transition (EventLoop.step listening)} (hk : k ∈ ks) {accepted : Option UInt64}
    (haction : k.action = .handle accepted) {e : Event} {events : List Event}
    (hevents : k.before.events = e :: events) {a : UInt64} {i : ℕ} (hopen : k.before.Watches a i) :
    k.after.client = some a ↔
      e.epollin = true ∧ e.data = UInt64.ofNat i ∧ i % 2 ^ 32 ≠ listening.toNat % 2 ^ 32 := by
  have hs : Coherent listening n k.before :=
    hrun.forall_mem (coherent_fresh listening n) (fun k hs => hs.step k.valid) k hk
  have hi : (UInt64.ofNat i).toNat = i :=
    UInt64.toNat_ofNat_of_lt ((hs.lt_of_watches hopen).trans hn)
  rcases step_cases k.valid with ⟨_, heq, -⟩ |
    ⟨accepted', e', events', -, hclient, hevents', hend⟩ | ⟨_, heq, -⟩ | ⟨_, _, _, heq, -⟩ |
    ⟨_, _, _, heq, -⟩ | ⟨_, _, heq, -⟩
  · simp [haction] at heq
  · obtain ⟨rfl, rfl⟩ := List.cons.inj (hevents.symm.trans hevents')
    rcases hend with ⟨hfd, hafter⟩ | ⟨hfd, hlook⟩
    · -- `accept` has been called
      have hnone : k.after.client = none := by
        rcases hafter with h | ⟨con, -, -, -, h⟩
        · rw [h]
          exact hclient
        · rw [h, State.store]
          split <;> exact hclient
      simp only [hnone, reduceCtorEq, false_iff, not_and, not_not]
      exact fun _ he => (fd_eq_iff he).mp hfd
    · have hne : e.data = UInt64.ofNat i → i % 2 ^ 32 ≠ listening.toNat % 2 ^ 32 := fun he =>
        (fd_eq_iff he).not.mp hfd
      rcases look_cases hlook with ⟨hepollin, h⟩ | ⟨hepollin, entry, hentry, ⟨hinactive, h⟩ |
        ⟨hactive, h⟩⟩
      · simp [h, hclient, hepollin]
      · -- the entry is that of a connection that is over
        have hne : e.data ≠ UInt64.ofNat i := by
          intro he
          rw [he, hi] at hentry
          obtain rfl := Option.some_inj.mp (hentry.symm.trans (hs.of_watches hopen).2.1)
          exact (hs.isAddress hopen).not_inactive hinactive
        simp [h, hclient, hne]
      · have hwatch := hs.active _ _ hentry hactive
        rw [h]
        simp only [(hs.isAddress hwatch).pointer_eq, Option.some_inj, hepollin, true_and]
        refine ⟨?_, fun he => ?_⟩
        · rintro rfl
          have heq := hs.watches_unique hwatch hopen
          have he : e.data = UInt64.ofNat i := by rw [← heq, UInt64.ofNat_toNat]
          exact ⟨he, hne he⟩
        · rw [he.1, hi] at hwatch
          exact hs.eq_of_watches hwatch hopen
  · simp [haction] at heq
  · simp [haction] at heq
  · simp [haction] at heq
  · simp [haction] at heq

/-- The connection that the loop holds has not been deleted. -/
def State.Alive (s : State) : Prop := ∀ a ∈ s.client, s.allocated a = true

/-- The step does not delete the connection that the loop holds. -/
def Spares (s : State) : Action → Prop
  | .delete a => s.client ≠ some a
  | _ => True

instance (s : State) : (action : Action) → Decidable (Spares s action)
  | .delete _ => inferInstanceAs (Decidable (_ ≠ _))
  | .wait _ | .handle _ | .take | .start _ | .mark _ => isTrue trivial

/-- Only the deletion of a connection ends its life. -/
theorem alive_step {s s' : State} {action : Action} (hs : Coherent listening n s)
    (halive : s.Alive) (h : EventLoop.step listening s action = some s') :
    s'.Alive ↔ Spares s action := by
  have hnone : ∀ s' : State, s'.client = none → s'.Alive := fun s' h a ha => by simp [h] at ha
  rcases step_cases h with ⟨ready, rfl, hclient, rfl⟩ |
    ⟨accepted, e, events, rfl, hclient, -, hend⟩ | ⟨con, rfl, -, rfl⟩ |
    ⟨a, idx, entry, rfl, -, -, rfl⟩ | ⟨a, idx, con, rfl, -, rfl⟩ | ⟨a, con, rfl, ha, rfl⟩
  · exact iff_of_true (hnone _ hclient) trivial
  · refine iff_of_true ?_ trivial
    rcases hend with ⟨-, rfl | ⟨con, -, -, -, rfl⟩⟩ | ⟨-, hlook⟩
    · exact hnone _ hclient
    · refine hnone _ ?_
      rw [State.store]
      split <;> exact hclient
    · rcases look_cases hlook with ⟨-, rfl⟩ | ⟨-, entry, hentry, ⟨-, rfl⟩ | ⟨hactive, rfl⟩⟩
      · exact hnone _ hclient
      · exact hnone _ hclient
      · -- an active entry is a connection that is there
        have hwatch := hs.active _ _ hentry hactive
        intro a ha
        obtain rfl : entry = a := by simpa [(hs.isAddress hwatch).pointer_eq] using ha
        exact (hs.of_watches hwatch).1
  · exact iff_of_true (hnone _ rfl) trivial
  · exact iff_of_true halive trivial
  · exact iff_of_true halive trivial
  · have hstep := hs.inStep a
    rw [ha] at hstep
    obtain rfl := hstep.1
    refine ⟨fun h hclient => ?_, fun h b hb => ?_⟩
    · simpa using h con hclient
    · have hne : b ≠ con := fun hbc => h (hbc ▸ hb)
      simpa [hne] using halive b hb

end Run

/-- The descriptor of the listening socket is 1. Two clients come and write; then the first one is
closed, and its entry is used again. -/
def sampleActions : List Action :=
  [.wait [(none, true)], .handle (some 0x1000), .start 0x1000,
    .wait [(some 0x1000, true), (none, true)], .handle none, .take, .handle (some 0x2000),
    .wait [(some 0x2000, true)], .handle none, .mark 0x1000, .delete 0x1000,
    .wait [(none, true)], .handle (some 0x3000), .start 0x3000, .start 0x2000]

/-- The transitions that these lead to, with a table of two entries. -/
def sampleRun : List (Transition (step 1)) := Transition.trace _ (.fresh 2) sampleActions

/-- The table at each step of the sample. -/
theorem coherent_sample : sampleRun.Forall fun k => Coherent 1 2 k.after :=
  List.forall_iff_forall_mem.mpr fun k hk => (coherent_of_run (Transition.run_trace ..) k hk).1

/-- The event of the second client does not reach it. -/
theorem dispatched_sample :
    ∃ k ∈ sampleRun, k.before.events = [⟨1, true⟩] ∧ k.before.Watches 0x2000 1 ∧
      k.after.client ≠ some 0x2000 := by
  obtain ⟨k, hk, haction, hevents, hopen⟩ : ∃ k ∈ sampleRun, k.action = .handle none ∧
      k.before.events = [⟨1, true⟩] ∧ k.before.Watches 0x2000 1 := by decide +kernel
  have hiff := dispatched_iff (by decide) (Transition.run_trace ..) hk haction hevents hopen
  exact ⟨k, hk, hevents, hopen, hiff.not.mpr (by decide)⟩

end EventLoop

end Rite
