import Rite.H2.Reassembly

/-!
# Progress

Every call of `process` on a packet that is not at its end takes octets from it, or does not
return. So the loop of `on_read` comes to the end of the packet, and the `assert` behind it holds.

## Main results

* `Connection.process_progress`: a call of `process` takes an octet;
* `Server.length_calls_le`: the number of calls for a packet;
* `progress`: what holds of all the calls of `on_read`.
-/

namespace Rite

namespace H2

namespace Connection

/-- `process` never returns `eEof` for a frame. -/
theorem ne_eof_of_handle {frame : Frame} {c c' : Connection} {r : Result}
    (h : (handle frame).run c = .ok r c') : r ≠ .eof := by
  have hend := handle_cases frame c
  generalize hr : (handle frame).run c = res at hend
  rw [h] at hr
  cases hend with
  | control _ _ hctl => rcases hctl with rfl | rfl <;> cases hr <;> decide
  | fault => cases hr
  | _ =>
    cases hr
    decide

theorem ne_eof_of_handleClientSettings {frame : Frame} {c c' : Connection} {r : Result}
    (h : (handleClientSettings frame).run c = .ok r c') : r ≠ .eof := by
  rw [handleClientSettings_run] at h
  split_ifs at h
  all_goals
    cases h
    decide

/-- A call of `process` takes an octet, and leaves the octets behind what it takes. -/
theorem process_progress {c c' : Connection} {pos rest : Octets} {r : Result} (hpos : pos ≠ [])
    (h : (process pos).run c = .ok (r, rest) c') :
    r ≠ .eof ∧ ∃ taken, taken ≠ [] ∧ pos = taken ++ rest := by
  by_cases hregular : c.Regular
  · rcases hregular with hstate | hstate
    · -- the preface is taken as a whole
      rw [process_preface hstate hpos] at h
      split_ifs at h with hpreface
      cases h
      refine ⟨by decide, pos.take clientPreface.length, ?_, (List.take_append_drop ..).symm⟩
      rw [hpreface]
      decide
    · rw [process_reading hstate hpos] at h
      cases hread : Reading.ofOctets c.unfinishedFrame pos with
      | complete frame rest' =>
        obtain ⟨taken, htaken, hne, -⟩ := Reading.ofOctets_append_of_complete hread
        rw [hread, readingEnd] at h
        cases hhandle : (if c.state = .idle then handle frame else handleClientSettings frame).run
            c.ready with
        | error e c₁ =>
          rw [hhandle] at h
          cases h
        | ok r₁ c₁ =>
          rw [hhandle] at h
          cases h
          refine ⟨?_, taken, hne, htaken⟩
          -- neither way to handle a frame returns `eEof`
          split_ifs at hhandle
          · exact ne_eof_of_handle hhandle
          · exact ne_eof_of_handleClientSettings hhandle
      | incomplete u =>
        rw [hread] at h
        cases h
        exact ⟨by decide, pos, hpos, (List.append_nil pos).symm⟩
      | failed e he =>
        rw [hread, readingEnd] at h
        split_ifs at h
  · rw [process_unexpected hregular hpos] at h
    cases h

theorem length_lt_of_process {c c' : Connection} {pos rest : Octets} {r : Result} (hpos : pos ≠ [])
    (h : (process pos).run c = .ok (r, rest) c') : rest.length < pos.length := by
  obtain ⟨-, taken, hne, rfl⟩ := process_progress hpos h
  have := List.length_pos_iff.mpr hne
  rw [List.length_append]
  omega

/-- `eEof` is for the end of the packet. -/
theorem eq_nil_of_eof {c c' : Connection} {pos rest : Octets}
    (h : (process pos).run c = .ok (.eof, rest) c') : pos = [] := by
  by_contra hpos
  exact (process_progress hpos h).1 rfl

end Connection

namespace Call

/-- `process` returns something else than `eEof`. -/
def Continues (k : Call) : Prop := ∃ r ∈ k.returned, r ≠ .eof

instance (k : Call) : Decidable k.Continues := inferInstanceAs (Decidable (∃ r ∈ k.returned, _))

variable {k : Call}

theorem returned_of_ok {r : Result} {rest : Octets} {c : Connection}
    (h : k.result = .ok (r, rest) c) : k.returned = some r :=
  returned_eq_some_iff.mpr ⟨rest, c, h⟩

/-- The loop ends at the end of the packet. -/
theorem input_of_eof (h : k.returned = some .eof) : k.input = [] := by
  obtain ⟨rest, c, hresult⟩ := returned_eq_some_iff.mp h
  exact Connection.eq_nil_of_eof hresult

/-- A call that continues is in front of the end of the packet. -/
theorem Continues.input_ne_nil (h : k.Continues) : k.input ≠ [] := by
  obtain ⟨r, hr, hne⟩ := h
  obtain ⟨rest, c, hresult⟩ := returned_eq_some_iff.mp hr
  intro hnil
  rw [result, hnil, Connection.process_nil] at hresult
  cases hresult
  exact hne rfl

/-- A call in front of the end of the packet takes an octet, if it returns. -/
theorem advances (k : Call) (h : k.input ≠ []) :
    (∃ e c, k.result = .error e c) ∨ ∃ r rest c taken, k.result = .ok (r, rest) c ∧
      taken ≠ [] ∧ k.input = taken ++ rest := by
  cases hresult : k.result with
  | error e c => exact .inl ⟨e, c, rfl⟩
  | ok v c =>
    obtain ⟨r, rest⟩ := v
    obtain ⟨-, taken, hne, htaken⟩ := Connection.process_progress h hresult
    exact .inr ⟨r, rest, c, taken, rfl, hne, htaken⟩

end Call

namespace Server

/-- Behind a call that continues, what is left of the packet is shorter. -/
theorem length_lt_of_next {s s' : Server} {b : Behaviour} (hlast : s.packets = [])
    (h : s.next b = some s') :
    (s.call b).Continues ∧ s'.packets = [] ∧ s'.pos.length < s.pos.length := by
  simp only [next] at h
  cases hresult : (s.call b).result with
  | error e c =>
    simp only [hresult, hlast, receive] at h
    cases e <;> cases h
  | ok v c =>
    obtain ⟨r, rest⟩ := v
    have hreturned : (s.call b).returned = some r := Call.returned_of_ok hresult
    by_cases hr : r = .eof
    · -- there is no other packet
      subst hr
      simp only [hresult, hlast, receive] at h
      cases h
    · have hk : (s.call b).Continues := ⟨r, hreturned, hr⟩
      refine ⟨hk, ?_⟩
      have hlt := Connection.length_lt_of_process hk.input_ne_nil hresult
      cases r with
      | eof => exact absurd rfl hr
      | newRequest =>
        simp only [hresult, hlast, receive] at h
        split_ifs at h
        cases h
        exact ⟨rfl, hlt⟩
      | _ =>
        simp only [hresult] at h
        cases h
        exact ⟨hlast, hlt⟩

/-- The calls for a packet: every one but the last takes an octet. -/
theorem length_calls_le (s : Server) (hlast : s.packets = []) (bs : List Behaviour) :
    (s.calls bs).length ≤ s.pos.length + 1 ∧
      ((s.calls bs).filter (·.Continues)).length ≤ s.pos.length := by
  induction bs generalizing s with
  | nil => simp [calls]
  | cons b bs ih =>
    rw [calls_cons]
    cases hnext : s.next b with
    | none =>
      by_cases hk : (s.call b).Continues
      · have hone : 1 ≤ s.pos.length := List.length_pos_iff.mpr hk.input_ne_nil
        simpa [hk] using hone
      · simp [hk]
    | some s' =>
      obtain ⟨hk, hlast', hlt⟩ := length_lt_of_next hlast hnext
      obtain ⟨htotal, hfilter⟩ := ih s' hlast'
      simp only [List.length_cons, List.filter_cons, hk, decide_true, if_true]
      omega

end Server

/-- What keeps `on_read` going at the call. -/
structure Call.Progresses (k : Call) : Prop where
  /-- An unfinished frame is short of its length, which is permitted. -/
  unfinished : ∀ p ∈ k.before.unfinishedFrame,
    p.frame.data.length < p.frame.length.toNat ∧ p.frame.length.toNat ≤ maxFrameSize
  /-- `process` takes an octet, or does not return. -/
  advances : k.input ≠ [] → (∃ e c, k.result = .error e c) ∨ ∃ r rest c taken,
    k.result = .ok (r, rest) c ∧ taken ≠ [] ∧ k.input = taken ++ rest
  /-- The loop over what is left of the packet makes at most as many calls as there are octets that
  do not return `eEof`. -/
  bounded : ∀ bs, (((Server.mk k.before k.input []).calls bs).filter (·.Continues)).length ≤
    k.input.length
  /-- It ends at the end of the packet. -/
  eof : ∀ bs, ∀ k' ∈ (Server.mk k.before k.input []).calls bs,
    k'.returned = some .eof → k'.input = []

/-- Every call of `on_read` on a new connection brings it forward. -/
theorem progress (table : Hpack.StaticTable) (ch : Octet) (packet : Octets)
    (packets : List Octets) (bs : List Behaviour) :
    ∀ k ∈ (Server.accept table ch packet packets).calls bs, k.Progresses := by
  intro k _
  refine ⟨fun p _ => ⟨p.short, p.bounded⟩, k.advances, fun bs' => ?_, fun bs' k' _ => ?_⟩
  · exact ((Server.mk k.before k.input []).length_calls_le rfl bs').2
  · exact Call.input_of_eof

/-- The first call on the octets of the preface and of half a frame header. -/
theorem progress_sample :
    ∃ k ∈ (Server.accept Hpack.staticHeaderTable 0 (clientPreface ++ [0, 0, 0, 4]) []).calls
        [.returned], k.Progresses :=
  ⟨_, List.mem_cons_self, progress _ _ (clientPreface ++ [0, 0, 0, 4]) [] [.returned] _
    List.mem_cons_self⟩

end H2

end Rite
