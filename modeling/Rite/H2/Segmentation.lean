import Rite.H2.Progress

/-!
# Packets cut in different ways

TLS may cut the octets of the peer anywhere. `read_frame` keeps a frame whose payload is cut, but
neither the preface nor a frame header is kept.

## Main results

* `receive_append`: a packet can be cut where neither is cut in two, and nowhere else;
* `Server.calls_of_receiveAll`: `receiveAll` is what `on_read` does;
* `segmentation_iff`: a stream that is processed as one packet is processed in pieces, with the
  same requests and the same frames written, exactly if no cut is inside the preface or a frame
  header;
* `not_segmentation`: a preface in two packets is no preface.
-/

namespace Rite

namespace H2

/-! ## Positions in a stream -/

/-- The position `n` of what a client sends is inside the preface or a frame header. -/
def Inside (stream : Octets) (n : ℕ) : Prop :=
  0 < n ∧ n < clientPreface.length ∨
    ∃ m, n = clientPreface.length + m ∧ InHeader (stream.drop clientPreface.length) m

/-- Behind the preface there are frames. -/
theorem inside_add_iff {stream : Octets} {m : ℕ} : Inside stream (clientPreface.length + m) ↔
    InHeader (stream.drop clientPreface.length) m := by
  constructor
  · rintro (⟨-, hlt⟩ | ⟨m', hm', hin⟩)
    · omega
    · rwa [Nat.add_left_cancel hm']
  · exact fun hin => .inr ⟨m, rfl, hin⟩

/-! ## A call of `process` on two packets -/

namespace Connection

/-- The position `n` of what the connection still gets is inside the preface or a frame header. -/
def CutInside (c : Connection) (l : Octets) (n : ℕ) : Prop :=
  if c.state = .clientPreface then Inside l n else InHeaderFrom c.unfinishedFrame l n

/-- Before the preface there is no unfinished frame. -/
def Orderly (c : Connection) : Prop := c.state = .clientPreface → c.unfinishedFrame = none

/-- What `process` does with the first of two packets `p` and `q`, if it accepts what comes first
in both together. -/
inductive AppendEnd (c : Connection) (p q : Octets) :
    EStateM.Result Fault Connection (Result × Octets) → Prop
  /-- It takes the same octets, and leaves the same connection. -/
  | complete {r : Result} {taken rest : Octets} {c' : Connection} : p = taken ++ rest →
    taken ≠ [] → (process (p ++ q)).run c = .ok (r, rest ++ q) c' → c'.Orderly →
    (∀ m, c.CutInside (p ++ q) (taken.length + m) ↔ c'.CutInside (rest ++ q) m) →
    AppendEnd c p q (.ok (r, rest) c')
  /-- It keeps the packet, and goes on with the other one. -/
  | incomplete {c' : Connection} :
    (q ≠ [] → (process (p ++ q)).run c = (process q).run c') → c'.Orderly →
    (∀ m, c.CutInside (p ++ q) (p.length + m) ↔ c'.CutInside q m) →
    AppendEnd c p q (.ok (.more, []) c')
  /-- It fails, as the cut is inside the preface or a header. -/
  | failed {e : Fault} {c' : Connection} : c.CutInside (p ++ q) p.length →
    AppendEnd c p q (.error e c')

private theorem appendEnd_of_preface {c : Connection} (hstate : c.state = .clientPreface)
    (hc : c.Orderly) {p q : Octets} (hp : p ≠ []) {v : Result × Octets} {c' : Connection}
    (hok : (process (p ++ q)).run c = .ok v c') : AppendEnd c p q ((process p).run c) := by
  have hpq : p ++ q ≠ [] := by simp [hp]
  rw [process_preface hstate hpq] at hok
  split_ifs at hok with hpre
  rw [process_preface hstate hp]
  by_cases hlen : clientPreface.length ≤ p.length
  · -- the preface is in the first packet
    rw [List.take_append_of_le_length hlen] at hpre
    rw [if_pos hpre]
    refine .complete (List.take_append_drop ..).symm ?_ ?_ (fun h => by cases h) fun m => ?_
    · rw [hpre]
      decide
    · rw [process_preface hstate hpq, List.take_append_of_le_length hlen, if_pos hpre,
        List.drop_append_of_le_length hlen]
    · rw [hpre]
      simp only [CutInside, hstate, if_true, hc hstate, InHeaderFrom, reduceCtorEq, if_false,
        inside_add_iff, List.drop_append_of_le_length hlen]
  · -- the first packet is too short for the preface, and is not kept
    have hshort : p.take clientPreface.length ≠ clientPreface := by
      intro h
      have := congrArg List.length h
      rw [List.length_take] at this
      omega
    rw [if_neg hshort]
    refine .failed ?_
    rw [CutInside, if_pos hstate]
    exact .inl ⟨List.length_pos_iff.mpr hp, not_le.mp hlen⟩

/-- A frame that has been handled leaves the connection between two frames. -/
private theorem handled_end {c c' : Connection} {frame : Frame} {r : Result}
    (hstate : c.state = .waitClientSettings ∨ c.state = .idle)
    (h : (if c.state = .idle then handle frame else handleClientSettings frame).run c.ready =
      .ok r c') :
    c'.state ≠ .clientPreface ∧ c'.unfinishedFrame = none := by
  by_cases hidle : c.state = .idle
  · rw [if_pos hidle] at h
    have heffect := (handle_cases frame c.ready).effect
    rw [h] at heffect
    refine ⟨?_, heffect.unfinishedFrame⟩
    rw [show c'.state = .idle from heffect.state.trans hidle]
    decide
  · have hwait : c.state = .waitClientSettings := hstate.resolve_right hidle
    rw [if_neg hidle, handleClientSettings_run] at h
    split_ifs at h
    · cases h
      exact ⟨by simp [ready, hwait], rfl⟩
    · cases h
      exact ⟨by simp, rfl⟩

private theorem appendEnd_of_reading {c : Connection}
    (hstate : c.state = .waitClientSettings ∨ c.state = .idle) {p q : Octets} (hp : p ≠ [])
    {v : Result × Octets} {c' : Connection} (hok : (process (p ++ q)).run c = .ok v c') :
    AppendEnd c p q ((process p).run c) := by
  have hpq : p ++ q ≠ [] := by simp [hp]
  have hpreface : c.state ≠ .clientPreface := by rcases hstate with h | h <;> simp [h]
  have hcut : ∀ l n, c.CutInside l n = InHeaderFrom c.unfinishedFrame l n := fun l n => by
    rw [CutInside, if_neg hpreface]
  have hrun := process_reading hstate hpq
  rw [hrun] at hok
  rw [process_reading hstate hp]
  cases hread : Reading.ofOctets c.unfinishedFrame p with
  | complete frame rest =>
    obtain ⟨taken, rfl, htaken, happend, hin⟩ := Reading.ofOctets_append_of_complete hread
    rw [happend] at hok hrun
    simp only [readingEnd] at hok hrun ⊢
    cases hhandle : (if c.state = .idle then handle frame else handleClientSettings frame).run
        c.ready with
    | error e c₁ =>
      rw [hhandle] at hok
      cases hok
    | ok r c₁ =>
      obtain ⟨hne, hnone⟩ := handled_end hstate hhandle
      rw [hhandle] at hrun
      refine .complete rfl htaken hrun (fun h => absurd h hne) fun m => ?_
      rw [hcut, hin, CutInside, if_neg hne, hnone, InHeaderFrom]
  | incomplete u =>
    -- the second packet goes on with the frame
    obtain ⟨happend, hin⟩ := Reading.ofOctets_append_of_incomplete hread
    refine .incomplete (fun hq => ?_) (fun h => absurd h hpreface) fun m => ?_
    · rw [hrun, happend, process_reading (c := { c with unfinishedFrame := some u }) hstate hq]
      show c.readingEnd (.ofOctets (some u) q) = readingEnd _ (.ofOctets (some u) q)
      cases hnext : Reading.ofOctets (some u) q with
      | complete => rfl
      | incomplete => rfl
      | failed e he => exact absurd hnext (Reading.absorb_ne_failed _ _ _ _ _)
    · rw [hcut, hin, CutInside, if_neg hpreface]
  | failed e he =>
    -- both packets together have a header, so it is cut
    have hnot : ∀ e he, Reading.ofOctets c.unfinishedFrame (p ++ q) ≠ .failed e he := by
      intro e he hfailed
      rw [hfailed] at hok
      unfold readingEnd at hok
      split_ifs at hok
    have hin := Reading.inHeader_of_failed hp hread hnot
    unfold readingEnd
    split_ifs
    · exact .failed ((hcut _ _).symm ▸ hin)
    · exact .failed ((hcut _ _).symm ▸ hin)

/-- What `process` does with the first of two packets. -/
theorem process_append {c : Connection} (hc : c.Orderly) {p q : Octets} (hp : p ≠ [])
    {v : Result × Octets} {c' : Connection} (hok : (process (p ++ q)).run c = .ok v c') :
    AppendEnd c p q ((process p).run c) := by
  by_cases hregular : c.Regular
  · rcases hregular with hstate | hstate
    · exact appendEnd_of_preface hstate hc hp hok
    · exact appendEnd_of_reading hstate hp hok
  · rw [process_unexpected hregular (by simp [hp])] at hok
    cases hok

/-! ## Packets -/

/-- A call that returns leaves no unfinished frame in front of the preface. -/
theorem Orderly.process {c c' : Connection} (hc : c.Orderly) {pos rest : Octets} {r : Result}
    (hpos : pos ≠ []) (h : (process pos).run c = .ok (r, rest) c') : c'.Orderly := by
  have happend := process_append (q := []) hc hpos (by rwa [List.append_nil])
  rw [h] at happend
  cases happend with
  | complete _ _ _ hc' => exact hc'
  | incomplete _ hc' => exact hc'

/-- How an iteration of the loop goes on. -/
def drainEnd (next : Octets → ConnectionM (List Request)) :
    EStateM.Result Fault Connection (Result × Octets) →
      EStateM.Result Fault Connection (List Request)
  | .ok (r, rest) c => ((next rest).run c).map (requests r c ++ ·)
  | .error e c => .error e c

private theorem eq_ok_of_map {r : EStateM.Result Fault Connection (List Request)}
    {g : List Request → List Request} {requests : List Request} {c : Connection}
    (h : r.map g = .ok requests c) : ∃ requests', r = .ok requests' c ∧ requests = g requests' := by
  cases r with
  | error e c' => cases h
  | ok requests' c' =>
    cases h
    exact ⟨requests', rfl, rfl⟩

/-- An iteration of a loop that returns, and the rest of the loop. -/
private theorem drainEnd_eq_ok {next : Octets → ConnectionM (List Request)}
    {first : EStateM.Result Fault Connection (Result × Octets)} {requests : List Request}
    {c : Connection} (h : drainEnd next first = .ok requests c) :
    ∃ r rest c₁ requests', first = .ok (r, rest) c₁ ∧ (next rest).run c₁ = .ok requests' c ∧
      requests = Connection.requests r c₁ ++ requests' := by
  cases first with
  | error e c₁ => cases h
  | ok v c₁ =>
    obtain ⟨requests', hrest, rfl⟩ := eq_ok_of_map h
    exact ⟨v.1, v.2, c₁, requests', rfl, hrest, rfl⟩

theorem drain_nil (n : ℕ) (c : Connection) : (drain n []).run c = .ok [] c := by
  cases n <;> rfl

theorem drain_succ {c : Connection} {pos : Octets} (hpos : pos ≠ []) (n : ℕ) :
    (drain (n + 1) pos).run c = drainEnd (drain n) ((process pos).run c) := by
  rw [drain, EStateM.run_bind]
  cases h : (process pos).run c with
  | error e c' => rfl
  | ok v c' =>
    obtain ⟨r, rest⟩ := v
    have hr : r ≠ .eof := fun hr => hpos (eq_nil_of_eof (hr ▸ h))
    simp [hr, drainEnd]

/-- A bound that the loop does not reach is no bound. -/
theorem drain_congr {c : Connection} (hc : c.Orderly) {pos : Octets} {n m : ℕ}
    (hn : pos.length < n) (hm : pos.length < m) : (drain n pos).run c = (drain m pos).run c := by
  induction n generalizing c pos m with
  | zero => omega
  | succ n ih =>
    obtain ⟨m, rfl⟩ := Nat.exists_eq_succ_of_ne_zero (by omega : m ≠ 0)
    by_cases hpos : pos = []
    · rw [hpos, drain_nil, drain_nil]
    · rw [drain_succ hpos, drain_succ hpos]
      cases h : (process pos).run c with
      | error e c' => rfl
      | ok v c' =>
        obtain ⟨r, rest⟩ := v
        have hlt := length_lt_of_process hpos h
        simp only [drainEnd]
        rw [ih (m := m) (hc.process hpos h) (by omega) (by omega)]

@[simp] theorem receive_nil (c : Connection) : (receive []).run c = .ok [] c := drain_nil 1 c

/-- The first call on a packet, and the rest. -/
theorem receive_run {c : Connection} (hc : c.Orderly) {packet : Octets} (h : packet ≠ []) :
    (receive packet).run c = drainEnd receive ((process packet).run c) := by
  rw [receive, drain_succ h]
  cases hrun : (process packet).run c with
  | error e c' => rfl
  | ok v c' =>
    obtain ⟨r, rest⟩ := v
    simp only [drainEnd, receive]
    rw [drain_congr (hc.process h hrun) (length_lt_of_process h hrun) (Nat.lt_succ_self _)]

theorem not_cutInside_zero (c : Connection) (l : Octets) : ¬ c.CutInside l 0 := by
  unfold CutInside
  split_ifs
  · rintro (⟨hpos, -⟩ | ⟨m, hm, -⟩)
    · omega
    · have hlength : clientPreface.length = 24 := by decide
      omega
  · unfold InHeaderFrom
    split
    · exact not_inHeader_zero l
    next p _ =>
      rintro ⟨m, hm, -⟩
      have hshort := p.short
      rw [Partial.missing] at hm
      omega

/-- A packet can be cut where neither the preface nor a frame header is cut in two, and nowhere
else. -/
theorem receive_append {c c₂ : Connection} (hc : c.Orderly) {p q : Octets}
    {requests : List Request} (hok : (receive (p ++ q)).run c = .ok requests c₂) :
    (∃ c₁ r₁ r₂, (receive p).run c = .ok r₁ c₁ ∧ (receive q).run c₁ = .ok r₂ c₂ ∧
        requests = r₁ ++ r₂ ∧ c₁.Orderly ∧
        ∀ m, c.CutInside (p ++ q) (p.length + m) ↔ c₁.CutInside q m) ∨
      (c.CutInside (p ++ q) p.length ∧ ∃ e c₁, (receive p).run c = .error e c₁) := by
  induction hn : p.length using Nat.strong_induction_on generalizing p c requests with
  | _ n ih =>
    subst hn
    by_cases hp : p = []
    · subst hp
      refine .inl ⟨c, [], requests, receive_nil c, hok, rfl, hc, fun m => ?_⟩
      rw [List.nil_append, List.length_nil, Nat.zero_add]
    · have hpq : p ++ q ≠ [] := by simp [hp]
      rw [receive_run hc hpq] at hok
      rw [receive_run hc hp]
      obtain ⟨r', rest', c', requests', hrun, -, -⟩ := drainEnd_eq_ok hok
      -- how `process` treats the first packet decides how the loop goes on
      have happend := process_append hc hp hrun
      generalize hfirst : (process p).run c = first at happend ⊢
      cases happend with
      | @complete r taken rest c₁ htaken hne hrun₁ hc₁ hcut =>
        rw [hrun₁] at hok
        obtain ⟨requests', hrest, rfl⟩ := eq_ok_of_map hok
        -- the induction hypothesis is for what is left of the first packet
        have hlt : rest.length < p.length := by
          have := List.length_pos_iff.mpr hne
          rw [htaken, List.length_append]
          omega
        have hlength : ∀ m, p.length + m = taken.length + (rest.length + m) := fun m => by
          rw [htaken, List.length_append, Nat.add_assoc]
        rcases ih _ hlt hc₁ hrest rfl with ⟨c', r₁, r₂, h₁, h₂, rfl, hc', hcut'⟩ | ⟨hin, e, c', h₁⟩
        · refine .inl ⟨c', Connection.requests r c₁ ++ r₁, r₂, ?_, h₂, ?_, hc', fun m => ?_⟩
          · simp only [drainEnd, h₁]
            rfl
          · rw [List.append_assoc]
          · rw [hlength, hcut, hcut']
        · refine .inr ⟨?_, e, c', ?_⟩
          · have := (hcut rest.length).mpr hin
            rwa [← Nat.add_zero rest.length, ← hlength, Nat.add_zero] at this
          · simp only [drainEnd, h₁]
            rfl
      | @incomplete c₁ hnext hc₁ hcut =>
        have hkeep : drainEnd receive (.ok (.more, []) c₁) = .ok [] c₁ := by
          simp only [drainEnd, receive_nil]
          rfl
        refine .inl ⟨c₁, [], requests, hkeep, ?_, rfl, hc₁, hcut⟩
        by_cases hq : q = []
        · subst hq
          rw [List.append_nil, hfirst, hkeep] at hok
          rw [receive_nil, hok]
        · rw [receive_run hc₁ hq, ← hnext hq]
          exact hok
      | failed hin => exact .inr ⟨hin, _, _, rfl⟩

theorem receiveAll_cons {c c₁ : Connection} {packet : Octets} {r₁ : List Request}
    (h : (receive packet).run c = .ok r₁ c₁) (packets : List Octets) :
    (receiveAll (packet :: packets)).run c = ((receiveAll packets).run c₁).map (r₁ ++ ·) := by
  rw [receiveAll, EStateM.run_bind, h]
  simp only [EStateM.run_bind]
  cases (receiveAll packets).run c₁ <;> rfl

theorem receiveAll_cons_error {c c₁ : Connection} {packet : Octets} {e : Fault}
    (h : (receive packet).run c = .error e c₁) (packets : List Octets) :
    (receiveAll (packet :: packets)).run c = .error e c₁ := by
  rw [receiveAll, EStateM.run_bind, h]

theorem receiveAll_cons_eq_ok {c c' : Connection} {packet : Octets} {packets : List Octets}
    {requests : List Request} (h : (receiveAll (packet :: packets)).run c = .ok requests c') :
    ∃ r₁ c₁ r₂, (receive packet).run c = .ok r₁ c₁ ∧ (receiveAll packets).run c₁ = .ok r₂ c' ∧
      requests = r₁ ++ r₂ := by
  cases h₁ : (receive packet).run c with
  | error e c₁ =>
    rw [receiveAll_cons_error h₁] at h
    cases h
  | ok r₁ c₁ =>
    rw [receiveAll_cons h₁] at h
    obtain ⟨r₂, h₂, rfl⟩ := eq_ok_of_map h
    exact ⟨r₁, c₁, r₂, rfl, h₂, rfl⟩

section Backwards

variable {I : Connection → Prop}

/-- What holds in front of a call of `process` if it holds behind it, holds in front of the loop. -/
theorem of_drain (hstep : ∀ pos v c c', (process pos).run c = .ok v c' → I c' → I c) {n : ℕ}
    {pos : Octets} {c c' : Connection} {requests : List Request}
    (h : (drain n pos).run c = .ok requests c') (hI : I c') : I c := by
  induction n generalizing pos c requests with
  | zero =>
    cases h
    exact hI
  | succ n ih =>
    by_cases hpos : pos = []
    · rw [hpos, drain_nil] at h
      cases h
      exact hI
    · rw [drain_succ hpos] at h
      obtain ⟨r, rest, c₁, requests', hfirst, hrest, -⟩ := drainEnd_eq_ok h
      exact hstep _ _ _ _ hfirst (ih hrest)

/-- And in front of the first packet. -/
theorem of_receiveAll (hstep : ∀ pos v c c', (process pos).run c = .ok v c' → I c' → I c)
    {packets : List Octets} {c c' : Connection} {requests : List Request}
    (h : (receiveAll packets).run c = .ok requests c') (hI : I c') : I c := by
  induction packets generalizing c requests with
  | nil =>
    cases h
    exact hI
  | cons packet packets ih =>
    obtain ⟨r₁, c₁, r₂, h₁, h₂, -⟩ := receiveAll_cons_eq_ok h
    exact of_drain hstep h₁ (ih h₂)

end Backwards

/-- A stream that is processed as one packet is processed in pieces, with the same result, if no
cut is inside the preface or a frame header; else the pieces end in an exception, or an exit. -/
theorem receiveAll_of_receive {c c' : Connection} (hc : c.Orderly) {packets : List Octets}
    {requests : List Request} (hok : (receive packets.flatten).run c = .ok requests c') :
    ((receiveAll packets).run c = .ok requests c' ∧
        ∀ k, ¬ c.CutInside packets.flatten (packets.take k).flatten.length) ∨
      ((∃ e c₁, (receiveAll packets).run c = .error e c₁) ∧
        ∃ k, c.CutInside packets.flatten (packets.take k).flatten.length) := by
  induction packets generalizing c requests with
  | nil =>
    refine .inl ⟨?_, fun k => ?_⟩
    · rw [← hok]
      rfl
    · rw [List.take_nil]
      exact not_cutInside_zero _ _
  | cons packet packets ih =>
    rw [List.flatten_cons] at hok ⊢
    rcases receive_append hc hok with ⟨c₁, r₁, r₂, h₁, h₂, rfl, hc₁, hcut⟩ | ⟨hin, e, c₁, h₁⟩
    · rw [receiveAll_cons h₁]
      rcases ih hc₁ h₂ with ⟨hall, hgood⟩ | ⟨⟨e, c₂, hall⟩, k, hbad⟩
      · refine .inl ⟨by rw [hall]; rfl, fun k => ?_⟩
        cases k with
        | zero => exact not_cutInside_zero _ _
        | succ k =>
          rw [length_flatten_take_succ, hcut]
          exact hgood k
      · refine .inr ⟨⟨e, c₂, by rw [hall]; rfl⟩, k + 1, ?_⟩
        rw [length_flatten_take_succ, hcut]
        exact hbad
    · refine .inr ⟨⟨e, c₁, receiveAll_cons_error h₁ packets⟩, 1, ?_⟩
      rw [length_flatten_take_one]
      exact hin

end Connection

/-! ## The calls of `on_read` -/

namespace Server

variable {s : Server} {r : Result} {rest : Octets} {c' : Connection}

theorem after_of_ok (h : (s.call .returned).result = .ok (r, rest) c') :
    (s.call .returned).after = c' := by
  rw [Call.after, h]
  cases r <;> rfl

theorem delivered_of_ok {b : Behaviour} (h : (s.call b).result = .ok (r, rest) c') :
    (s.call b).delivered.toList = Connection.requests r c' := by
  rw [Call.delivered, h]
  cases r <;> rfl

theorem next_of_eof (h : (s.call .returned).result = .ok (.eof, rest) c') :
    s.next .returned = receive c' s.packets := by
  rw [← after_of_ok h, next, h]

theorem next_of_ok (h : (s.call .returned).result = .ok (r, rest) c') (hr : r ≠ .eof) :
    s.next .returned = some ⟨c', rest, s.packets⟩ := by
  rw [← after_of_ok h, next, h]
  cases r <;> first | rfl | exact absurd rfl hr

/-- With an endpoint that returns, the calls for a packet deliver the requests of `receive`. -/
theorem calls_of_receive {c : Connection} (hc : c.Orderly) {pos : Octets}
    {requests : List Request} (hok : (Connection.receive pos).run c = .ok requests c')
    (packets : List Octets) :
    c'.Orderly ∧ ∃ ks, ks.flatMap (·.delivered.toList) = requests ∧
      ks.getLast?.map Call.after = some c' ∧
      ∀ m, (⟨c, pos, packets⟩ : Server).calls (List.replicate (ks.length + m) .returned) =
        ks ++ match receive c' packets with
          | some s => s.calls (List.replicate m .returned)
          | none => [] := by
  induction hn : pos.length using Nat.strong_induction_on generalizing pos c requests with
  | _ n ih =>
    subst hn
    set s : Server := ⟨c, pos, packets⟩ with hs
    by_cases hpos : pos = []
    · -- the call at the end of the packet
      subst hpos
      rw [Connection.receive_nil] at hok
      cases hok
      have hresult : (s.call .returned).result = .ok (.eof, []) c' := Connection.process_nil c'
      refine ⟨hc, [s.call .returned], ?_, ?_, fun m => ?_⟩
      · rw [List.flatMap_singleton, delivered_of_ok hresult]
        rfl
      · rw [List.getLast?_singleton, Option.map_some, after_of_ok hresult]
      · rw [List.length_singleton, Nat.add_comm, List.replicate_succ, calls_cons,
          next_of_eof hresult]
        rfl
    · rw [Connection.receive_run hc hpos] at hok
      -- a call that takes some of the octets, then the calls for the others
      obtain ⟨r, rest, c₁, requests', hrun, hrest, rfl⟩ := Connection.drainEnd_eq_ok hok
      have hr := (Connection.process_progress hpos hrun).1
      obtain ⟨hc', ks, rfl, hlast, hks⟩ :=
        ih _ (Connection.length_lt_of_process hpos hrun) (hc.process hpos hrun) hrest rfl
      have hresult : (s.call .returned).result = .ok (r, rest) c₁ := hrun
      refine ⟨hc', s.call .returned :: ks, ?_, ?_, fun m => ?_⟩
      · rw [List.flatMap_cons, delivered_of_ok hresult]
      · obtain ⟨k, hk, -⟩ := Option.map_eq_some_iff.mp hlast
        rw [List.getLast?_cons, hk, ← hlast, hk]
        rfl
      · rw [List.length_cons, Nat.add_right_comm, List.replicate_succ, calls_cons,
          next_of_ok hresult hr]
        exact congrArg _ (hks m)

/-- The same for all packets: `receiveAll` is what `on_read` does. -/
theorem calls_of_receiveAll {c : Connection} (hc : c.Orderly) {packet : Octets}
    {packets : List Octets} {requests : List Request}
    (hok : (Connection.receiveAll (packet :: packets)).run c = .ok requests c') :
    ∃ n, ((⟨c, packet, packets⟩ : Server).calls (List.replicate n .returned)).flatMap
          (·.delivered.toList) = requests ∧
      ((⟨c, packet, packets⟩ : Server).calls (List.replicate n .returned)).getLast?.map
          Call.after = some c' := by
  induction packets generalizing c packet requests with
  | nil =>
    obtain ⟨r₁, c₁, r₂, h₁, h₂, rfl⟩ := Connection.receiveAll_cons_eq_ok hok
    cases h₂
    obtain ⟨-, ks, rfl, hlast, hks⟩ := calls_of_receive hc h₁ []
    refine ⟨ks.length, ?_⟩
    rw [← Nat.add_zero ks.length, hks 0, receive, List.append_nil]
    exact ⟨(List.append_nil _).symm, hlast⟩
  | cons next packets ih =>
    obtain ⟨r₁, c₁, r₂, h₁, h₂, rfl⟩ := Connection.receiveAll_cons_eq_ok hok
    obtain ⟨hc₁, ks, rfl, -, hks⟩ := calls_of_receive hc h₁ (next :: packets)
    obtain ⟨n, rfl, hlast⟩ := ih hc₁ h₂
    refine ⟨ks.length + n, ?_⟩
    rw [hks n, receive, List.flatMap_append, List.getLast?_append]
    obtain ⟨k, hk, hafter⟩ := Option.map_eq_some_iff.mp hlast
    exact ⟨rfl, by rw [hk, Option.some_or, Option.map_some, hafter]⟩

end Server

open Connection (receive receiveAll receiveAll_of_receive value)

/-- A stream that is processed as one packet is processed in pieces, with the same requests and the
same frames written, exactly if no cut is inside the preface or a frame header. -/
theorem segmentation_iff {table : Hpack.StaticTable} {ch : Octet} {packets : List Octets}
    {requests : List Request} {c : Connection}
    (hok : (receive packets.flatten).run (.fresh table ch) = .ok requests c) :
    (∃ c', (receiveAll packets).run (.fresh table ch) = .ok requests c' ∧
        c'.written = c.written) ↔
      ∀ k, ¬ Inside packets.flatten (packets.take k).flatten.length := by
  have hc : (Connection.fresh table ch).Orderly := fun _ => rfl
  rcases receiveAll_of_receive hc hok with ⟨hall, hgood⟩ | ⟨⟨e, c₁, hall⟩, k, hbad⟩
  · exact iff_of_true ⟨c, hall, rfl⟩ hgood
  · refine iff_of_false ?_ fun h => h k hbad
    rintro ⟨c', hall', -⟩
    cases hall.symm.trans hall'

/-- A request, cut behind the preface and in the payload of its frame. -/
theorem segmentation_sample :
    let headers := Frame.wire ⟨2, .headers, 0x5, 1, [0x82, 0x84]⟩
    let packets := [clientPreface, handshake.drop 24 ++ headers.take 10, headers.drop 10]
    ∃ requests c c', (receive packets.flatten).run (.fresh Hpack.staticHeaderTable 0) =
        .ok requests c ∧ requests.length = 1 ∧
      (receiveAll packets).run (.fresh Hpack.staticHeaderTable 0) = .ok requests c' ∧
      c'.written = c.written := by
  intro headers packets
  have hwhole : (value ((receive packets.flatten).run (.fresh Hpack.staticHeaderTable 0))).any
      (·.length = 1) := by
    decide +kernel
  obtain ⟨requests, hvalue, hlength⟩ := (Option.any_eq_true ..).mp hwhole
  obtain ⟨c, hok⟩ := Connection.value_eq_some_iff.mp hvalue
  have hsettings : Frame.unpack (packets.flatten.drop clientPreface.length) =
      some ⟨0, .settings, 0, 0, []⟩ := rfl
  have hheaders : Frame.unpack ((packets.flatten.drop clientPreface.length).drop frameSize) =
      some ⟨2, .headers, 0x5, 1, []⟩ := rfl
  have hcuts : ∀ k, ¬ Inside packets.flatten (packets.take k).flatten.length := by
    intro k
    match k with
    | 0 => exact Connection.not_cutInside_zero (.fresh Hpack.staticHeaderTable 0) packets.flatten
    | 1 => exact inside_add_iff.not.mpr (not_inHeader_zero _)
    | 2 =>
      -- in the payload of HEADERS
      refine inside_add_iff.not.mpr ((inHeader_next_iff hsettings (n := 10)).not.mpr ?_)
      exact not_inHeader_payload hheaders (by decide) (by decide)
    | k + 3 =>
      rw [show packets.take (k + 3) = packets from List.take_of_length_le (Nat.le_add_left 3 k)]
      refine inside_add_iff.not.mpr ((inHeader_next_iff hsettings (n := 11)).not.mpr ?_)
      exact (inHeader_next_iff hheaders (n := 0)).not.mpr (not_inHeader_zero _)
  obtain ⟨c', hall, hwritten⟩ := (segmentation_iff hok).mpr hcuts
  exact ⟨requests, c, c', hok, of_decide_eq_true hlength, hall, hwritten⟩

/-- A preface that is cut in two is no preface: `process` throws on both packets, and the settings
behind it are never answered. -/
theorem not_segmentation :
    ∃ c, (receive handshake).run (.fresh Hpack.staticHeaderTable 0) = .ok [] c ∧
      (¬ ∃ c', (receiveAll [handshake.take 3, handshake.drop 3]).run
          (.fresh Hpack.staticHeaderTable 0) = .ok [] c' ∧ c'.written = c.written) ∧
      let calls := (Server.accept Hpack.staticHeaderTable 0 (handshake.take 3)
        [handshake.drop 3]).calls (List.replicate 3 .returned)
      calls.length = 2 ∧ ∀ k ∈ calls, k.after.written ≠ c.written := by
  refine ⟨_, rfl, ?_, ?_⟩
  · rintro ⟨c', h, -⟩
    cases h
  · decide

end H2

end Rite
