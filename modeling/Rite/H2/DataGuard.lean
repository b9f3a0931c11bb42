import Rite.H2.Server

/-!
# DATA on streams without headers

The case DATA of `process` asks whether `streams_` has the stream, but by then `streams_` has been
subscripted with the identifier of the frame, whatever its type. The guard never fails, and frames
of every type create streams.

## Main results

* `not_rejects_of_data`: no DATA frame is rejected;
* `guarded_iff`: the guard does what it is there for exactly in the runs in which every frame is
  HEADERS or on a stream that has had HEADERS, so that there is nothing to guard against;
* `not_guarded`: DATA on a new stream is stored.
-/

namespace Rite

namespace H2

namespace Call

/-- The call handles a HEADERS frame of the stream `id`. -/
def HasHeaders (id : UInt32) (k : Call) : Prop :=
  ∃ frame ∈ k.frame, frame.type = .headers ∧ frame.streamIdentifier = id

instance (id : UInt32) (k : Call) : Decidable (k.HasHeaders id) :=
  inferInstanceAs (Decidable (∃ frame ∈ k.frame, _))

/-- `process` terminates the connection and returns `eInvalid`, and leaves the streams as they
are. -/
def Rejects (k : Call) : Prop :=
  k.returned = some .invalid ∧ k.after.closed ∧ k.after.streams = k.before.streams

end Call

/-- DATA on a stream without HEADERS is rejected, and all streams have had HEADERS. `earlier` are
the calls in front of `k`. -/
def Guarded (earlier : List Call) (k : Call) : Prop :=
  (∀ frame ∈ k.frame, frame.type = .data →
    (∀ a ∈ earlier, ¬ a.HasHeaders frame.streamIdentifier) → k.Rejects) ∧
  ∀ id ∈ k.after.streams, ∃ a ∈ earlier ++ [k], a.HasHeaders id

/-- The frame of the call, if there is one, is HEADERS or on a stream that has had HEADERS. -/
def Introduced (earlier : List Call) (k : Call) : Prop :=
  ∀ frame ∈ k.frame, frame.type = .headers ∨
    ∃ a ∈ earlier, a.HasHeaders frame.streamIdentifier

instance (earlier : List Call) (k : Call) : Decidable (Introduced earlier k) :=
  inferInstanceAs (Decidable (∀ frame ∈ k.frame, _))

/-- All streams have had HEADERS. -/
def StreamsIntroduced (earlier : List Call) (c : Connection) : Prop :=
  ∀ id ∈ c.streams, ∃ a ∈ earlier, a.HasHeaders id

/-- The guard is never taken: by then the stream of the frame exists. -/
theorem not_rejects_of_data {k : Call} {frame : Frame} (hframe : k.frame = some frame)
    (htype : frame.type = .data) : ¬ k.Rejects := by
  intro hrejects
  obtain ⟨rest, c, hresult⟩ := Call.returned_eq_some_iff.mp hrejects.1
  obtain ⟨-, rest', r, hend, hr⟩ := Call.result_of_frame hframe
  rw [hresult] at hr
  -- `eInvalid` is returned for a block that cannot be decoded, and DATA has none
  cases hend with
  | control _ hd => exact hd htype
  | rejected hh => simp [Frame.CarriesHeaders, htype] at hh
  | _ => cases hr

/-- A run with a history of its calls. -/
def record (earlier : List Call) (k : Call) : List Call := earlier ++ [k]

variable {earlier : List Call} {k : Call}

/-- A frame that is HEADERS, or on a stream that has had HEADERS, creates no other stream. -/
theorem StreamsIntroduced.step (h : StreamsIntroduced earlier k.before)
    (hk : Introduced earlier k) : StreamsIntroduced (record earlier k) k.after := by
  intro id hid
  rcases (Call.mem_streams_after k id).mp hid with ⟨frame, hframe, rfl⟩ | hid
  · rcases hk frame hframe with htype | ⟨a, ha, hheaders⟩
    · exact ⟨k, by simp [record], frame, hframe, htype, rfl⟩
    · exact ⟨a, List.mem_append_left _ ha, hheaders⟩
  · obtain ⟨a, ha, hheaders⟩ := h id hid
    exact ⟨a, List.mem_append_left _ ha, hheaders⟩

/-- Without frames on new streams there is nothing to reject. -/
theorem guarded_of_introduced (h : StreamsIntroduced earlier k.before)
    (hk : Introduced earlier k) : Guarded earlier k := by
  refine ⟨fun frame hframe htype hno => ?_, h.step hk⟩
  -- the frame is HEADERS, or its stream has had them: neither leaves DATA to reject
  rcases hk frame hframe with hheaders | ⟨a, ha, hheaders⟩
  · rw [htype] at hheaders
    cases hheaders
  · exact absurd hheaders (hno a ha)

/-- A frame on a new stream creates that stream. -/
theorem introduced_of_guarded (h : Guarded earlier k) : Introduced earlier k := by
  intro frame hframe
  have hmem : frame.streamIdentifier ∈ k.after.streams :=
    (Call.mem_streams_after k _).mpr (.inl ⟨frame, hframe, rfl⟩)
  obtain ⟨a, ha, hheaders⟩ := h.2 _ hmem
  rcases List.mem_append.mp ha with ha | ha
  · exact .inr ⟨a, ha, hheaders⟩
  · obtain rfl := List.mem_singleton.mp ha
    obtain ⟨frame', hframe', htype, -⟩ := hheaders
    obtain rfl : frame = frame' := Option.mem_unique hframe hframe'
    exact .inl htype

/-- The guard in front of DATA does what it is there for exactly in the runs in which every frame
is HEADERS or on a stream that has had HEADERS. -/
theorem guarded_iff {table : Hpack.StaticTable} {ch : Octet} {calls : List Call}
    (hrun : Run Call.before Call.after (.fresh table ch) calls) :
    Along record Guarded [] calls ↔ Along record Introduced [] calls := by
  constructor
  · exact fun h => h.mono fun _ _ => introduced_of_guarded
  · intro h
    have hfresh : StreamsIntroduced [] (.fresh table ch) := by
      intro id hid
      cases hid
    have hinv := hrun.along h hfresh fun earlier k hinv hk => hinv.step hk
    exact hinv.mono fun earlier k hk => guarded_of_introduced hk.1 hk.2

/-- Headers first, then DATA. -/
theorem guarded_sample :
    Along record Guarded []
      ((Server.accept Hpack.staticHeaderTable 0
        (handshake ++ Frame.wire ⟨2, .headers, 0x4, 1, [0x82, 0x84]⟩ ++
          Frame.wire ⟨1, .data, 0x1, 1, [0x21]⟩) []).calls (List.replicate 5 .returned)) :=
  (guarded_iff (Server.run_accept ..)).mpr (by decide)

/-- DATA on a new stream is no reason to terminate the connection. -/
theorem not_guarded :
    ¬ ∀ (table : Hpack.StaticTable) (ch : Octet) (calls : List Call),
      Run Call.before Call.after (.fresh table ch) calls → Along record Guarded [] calls := by
  intro h
  have hcalls := h _ _ _ (Server.run_accept Hpack.staticHeaderTable 0
    (handshake ++ Frame.wire ⟨1, .data, 0x0, 1, [0x21]⟩) [] (List.replicate 3 .returned))
  have hintroduced := hcalls.mono fun _ _ => introduced_of_guarded
  exact absurd hintroduced (by decide)

end H2

end Rite
