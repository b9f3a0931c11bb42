import Rite.H2.Reassembly

/-!
# Frames over packets

`connection<h2::protocol>::write` sends the nine octets of `pack` and the payload, and `read_frame`
reads frames from packets. Whole frames come out as they went in, however the packets are cut, as
long as no cut is inside a frame header.

## Main results

* `readPacket_run`: the frames that the loop over a packet returns;
* `readPackets_wire`: reading the octets of frames gives the frames, with `eInsufficientData` at
  the end of every packet that ends in a payload.
-/

namespace Rite

namespace H2

namespace Connection

/-- Calls of `read_frame` until the end of the packet, with a bound on their number. -/
def readPacket : ℕ → Octets → ConnectionM (List (Except FrameState Frame))
  | 0, _ => return []
  | n + 1, pos => do
    if pos = [] then return []
    let (r, rest) ← readFrame pos
    return r :: (← readPacket n rest)

/-- Packets, one after the other: what `read_frame` returns for each. Every call takes an octet
unless it fails, so the number of octets bounds the calls. -/
def readPackets : List Octets → ConnectionM (List (List (Except FrameState Frame)))
  | [] => return []
  | packet :: packets => do
    let results ← readPacket packet.length packet
    return results :: (← readPackets packets)

end Connection

open Connection

/-- The position `n` in the octets of the frames is where one of them ends, or the beginning. -/
def Border (frames : List Frame) (n : ℕ) : Prop :=
  ∃ j, n = ((frames.take j).flatMap Frame.wire).length

/-- What `read_frame` is to return for packets that carry `read`, where `n` octets of `frames` have
come before: the frames, and `eInsufficientData` where a packet ends inside a frame. -/
inductive Results (frames : List Frame) :
    ℕ → List Octets → List (List (Except FrameState Frame)) → List Frame → Prop
  | nil {n : ℕ} : Results frames n [] [] []
  /-- The packet ends with a frame, or is empty. -/
  | whole {n : ℕ} {packet : Octets} {packets : List Octets} {read read' : List Frame}
    {results : List (List (Except FrameState Frame))} :
    packet = [] ∨ Border frames (n + packet.length) →
    Results frames (n + packet.length) packets results read' →
    Results frames n (packet :: packets) (read.map .ok :: results) (read ++ read')
  /-- The packet ends inside a frame. -/
  | cut {n : ℕ} {packet : Octets} {packets : List Octets} {read read' : List Frame}
    {results : List (List (Except FrameState Frame))} :
    packet ≠ [] → ¬ Border frames (n + packet.length) →
    Results frames (n + packet.length) packets results read' →
    Results frames n (packet :: packets)
      ((read.map .ok ++ [.error .insufficientData]) :: results) (read ++ read')

/-! ## Where the reader is -/

/-- The reader has returned the frames `read`, is to return `todo`, and `rest` is still to come. -/
structure Midway (frames : List Frame) (n : ℕ) (unfinished : Option Partial) (rest : Octets)
    (read todo : List Frame) : Prop where
  /-- All the frames fit. -/
  fits : ∀ f ∈ frames, f.Fits
  /-- The frames keep their order. -/
  split : frames = read ++ todo
  /-- `n` octets have come. -/
  position : n + rest.length = (frames.flatMap Frame.wire).length
  /-- Between two frames, the rest are the octets of those to come. -/
  between : unfinished = none → rest = todo.flatMap Frame.wire
  /-- Inside a frame, the rest completes it. -/
  inside : ∀ u, unfinished = some u → ∃ f todo', todo = f :: todo' ∧
    Reading.ofOctets (some u) rest = .complete f (todo'.flatMap Frame.wire) ∧
    rest.length < (todo.flatMap Frame.wire).length

section Midway

variable {frames read todo : List Frame} {n : ℕ} {unfinished : Option Partial} {rest : Octets}

/-- The octets of a frame, and others behind them. -/
theorem Reading.ofOctets_wire_append {f : Frame} (h : f.Fits) (more : Octets) :
    Reading.ofOctets none (f.wire ++ more) = .complete f more := by
  obtain ⟨-, -, -, happend, -⟩ := Reading.ofOctets_append_of_complete (Reading.ofOctets_wire h)
  exact happend more

/-- The next frame is the first of those that are to come. -/
theorem Midway.next (h : Midway frames n unfinished rest read todo) (hrest : rest ≠ []) :
    ∃ f todo', todo = f :: todo' ∧
      Reading.ofOctets unfinished rest = .complete f (todo'.flatMap Frame.wire) := by
  cases unfinished with
  | some u =>
    obtain ⟨f, todo', htodo, hread, -⟩ := h.inside u rfl
    exact ⟨f, todo', htodo, hread⟩
  | none =>
    have hwire := h.between rfl
    cases todo with
    | nil => exact absurd hwire hrest
    | cons f todo =>
      have hf : f.Fits := h.fits f (by simp [h.split])
      refine ⟨f, todo, rfl, ?_⟩
      rw [hwire, List.flatMap_cons]
      exact Reading.ofOctets_wire_append hf _

/-- The octets of fewer frames are fewer. -/
private theorem length_flatMap_drop_le (frames : List Frame) {i j : ℕ} (h : i ≤ j) :
    ((frames.drop j).flatMap Frame.wire).length ≤ ((frames.drop i).flatMap Frame.wire).length :=
  ((List.drop_sublist_drop_left frames h).flatMap Frame.wire).length_le

/-- The reader is at a border exactly if there is no unfinished frame. -/
theorem Midway.border_iff (h : Midway frames n unfinished rest read todo) :
    Border frames n ↔ unfinished = none := by
  have hsum : ∀ j, ((frames.take j).flatMap Frame.wire).length +
      ((frames.drop j).flatMap Frame.wire).length = (frames.flatMap Frame.wire).length := by
    intro j
    rw [← List.length_append, ← List.flatMap_append, List.take_append_drop]
  have hposition := h.position
  constructor
  · rintro ⟨j, hj⟩
    by_contra hsome
    obtain ⟨u, hu⟩ := Option.ne_none_iff_exists'.mp hsome
    obtain ⟨f, todo', rfl, hread, hlt⟩ := h.inside u hu
    obtain ⟨taken, htaken, hne, -⟩ := Reading.ofOctets_append_of_complete hread
    have hpos := List.length_pos_iff.mpr hne
    have hrest : rest.length = taken.length + (todo'.flatMap Frame.wire).length := by
      rw [htaken, List.length_append]
    have hdrop : frames.drop read.length = f :: todo' := by
      rw [h.split, List.drop_left]
    have hdrop' : frames.drop (read.length + 1) = todo' := by
      rw [← List.drop_drop, hdrop, List.drop_one, List.tail_cons]
    -- the border is in front of the unfinished frame or behind it
    rcases Nat.lt_or_ge read.length j with hlt' | hge
    · have hle := length_flatMap_drop_le frames (Nat.succ_le_of_lt hlt')
      rw [Nat.succ_eq_add_one, hdrop'] at hle
      have := hsum j
      omega
    · have hle := length_flatMap_drop_le frames hge
      rw [hdrop] at hle
      have := hsum j
      omega
  · intro hnone
    refine ⟨read.length, ?_⟩
    have hsum' := hsum read.length
    have hdrop : frames.drop read.length = todo := by rw [h.split, List.drop_left]
    rw [hdrop, ← h.between hnone] at hsum'
    omega

/-- A frame has been returned. -/
private theorem Midway.of_complete {p q rest' : Octets} {f : Frame}
    (h : Midway frames n unfinished (p ++ q) read todo) (hp : p ≠ [])
    (hread : Reading.ofOctets unfinished p = .complete f rest') :
    ∃ taken todo', p = taken ++ rest' ∧ taken ≠ [] ∧ todo = f :: todo' ∧
      Midway frames (n + taken.length) none (rest' ++ q) (read ++ [f]) todo' ∧
      ∀ m, InHeaderFrom unfinished (p ++ q) (taken.length + m) ↔ InHeader (rest' ++ q) m := by
  obtain ⟨taken, htaken, hne, happend, hin⟩ := Reading.ofOctets_append_of_complete hread
  obtain ⟨f', todo', rfl, hread'⟩ := h.next (by simp [hp])
  obtain ⟨rfl, hrest⟩ := Reading.complete.inj ((happend q).symm.trans hread')
  refine ⟨taken, todo', htaken, hne, rfl, ⟨h.fits, ?_, ?_, fun _ => hrest, ?_⟩, hin q⟩
  · rw [h.split, List.append_assoc, List.singleton_append]
  · rw [← h.position, htaken]
    simp only [List.length_append]
    omega
  · rintro u ⟨⟩

/-- A packet has ended inside a frame. -/
private theorem Midway.of_incomplete {p q : Octets} {u : Partial}
    (h : Midway frames n unfinished (p ++ q) read todo) (hp : p ≠ [])
    (hread : Reading.ofOctets unfinished p = .incomplete u) :
    Midway frames (n + p.length) (some u) q read todo ∧
      ∀ m, InHeaderFrom unfinished (p ++ q) (p.length + m) ↔ InHeaderFrom (some u) q m := by
  obtain ⟨happend, hin⟩ := Reading.ofOctets_append_of_incomplete hread
  obtain ⟨f, todo', rfl, hread'⟩ := h.next (by simp [hp])
  refine ⟨⟨h.fits, h.split, ?_, (fun hnone => by cases hnone), ?_⟩, hin q⟩
  · rw [← h.position, List.length_append, Nat.add_assoc]
  · rintro _ ⟨⟩
    refine ⟨f, todo', rfl, (happend q).symm.trans hread', ?_⟩
    -- the octets of the packet belong to the frame
    have hpos := List.length_pos_iff.mpr hp
    have hle : (p ++ q).length ≤ ((f :: todo').flatMap Frame.wire).length := by
      cases unfinished with
      | none => rw [h.between rfl]
      | some u' =>
        obtain ⟨-, -, -, -, hlt⟩ := h.inside u' rfl
        exact hlt.le
    rw [List.length_append] at hle
    omega

/-- Where no cut is inside a header, reading does not fail. -/
private theorem Midway.not_failed {p q : Octets}
    (h : Midway frames n unfinished (p ++ q) read todo) (hp : p ≠ [])
    (hcut : ¬ InHeaderFrom unfinished (p ++ q) p.length) (e : FrameState)
    (he : e ≠ .insufficientData) : Reading.ofOctets unfinished p ≠ .failed e he := by
  intro hfailed
  refine hcut (Reading.inHeader_of_failed hp hfailed fun e' he' hfailed' => ?_)
  obtain ⟨f, todo', -, hread⟩ := h.next (by simp [hp])
  cases hfailed'.symm.trans hread

/-- At the end of a packet the loop is over. -/
private theorem readPacket_nil (c : Connection) (fuel : ℕ) :
    (readPacket fuel []).run c = .ok [] c := by
  cases fuel <;> rfl

/-- An iteration of the loop reads a frame or the rest of one. -/
private theorem readPacket_succ {p : Octets} (hp : p ≠ []) (c : Connection) (fuel : ℕ) :
    (readPacket (fuel + 1) p).run c =
      match (Reading.ofOctets c.unfinishedFrame p).outcome c p with
      | .ok (r, rest) c' => ((readPacket fuel rest).run c').map (r :: ·)
      | .error e c' => .error e c' := by
  rw [readPacket, if_neg hp, EStateM.run_bind, readFrame_run]
  cases (Reading.ofOctets c.unfinishedFrame p).outcome c p with
  | error e c' => rfl
  | ok v c' =>
    simp only [EStateM.run_bind]
    cases (readPacket fuel v.2).run c' <;> rfl

/-- The loop over a packet returns the frames that end in it, and `eInsufficientData` if it ends
inside a frame. -/
theorem readPacket_run {c : Connection} {p q : Octets} {fuel : ℕ} (hfuel : p.length ≤ fuel)
    (h : Midway frames n c.unfinishedFrame (p ++ q) read todo)
    (hcut : ¬ InHeaderFrom c.unfinishedFrame (p ++ q) p.length) :
    ∃ returned todo' unfinished', todo = returned ++ todo' ∧
      Midway frames (n + p.length) unfinished' q (read ++ returned) todo' ∧
      (readPacket fuel p).run c = .ok
        (returned.map .ok ++
          if p = [] ∨ unfinished' = none then [] else [.error .insufficientData])
        { c with unfinishedFrame := unfinished' } ∧
      ∀ m, InHeaderFrom c.unfinishedFrame (p ++ q) (p.length + m) ↔
        InHeaderFrom unfinished' q m := by
  -- each iteration takes an octet of the packet, so there is fuel until its end
  induction fuel generalizing c p n read todo with
  | zero =>
    obtain rfl : p = [] := List.length_eq_zero_iff.mp (Nat.le_zero.mp hfuel)
    refine ⟨[], todo, c.unfinishedFrame, rfl, by simpa using h, by simp [readPacket_nil],
      fun m => ?_⟩
    rw [List.nil_append, List.length_nil, Nat.zero_add]
  | succ fuel ih =>
    rcases eq_or_ne p [] with rfl | hp
    · refine ⟨[], todo, c.unfinishedFrame, rfl, by simpa using h, by simp [readPacket_nil],
        fun m => ?_⟩
      rw [List.nil_append, List.length_nil, Nat.zero_add]
    · rw [readPacket_succ hp]
      cases hread : Reading.ofOctets c.unfinishedFrame p with
      | failed e he => exact absurd hread (h.not_failed hp hcut e he)
      | incomplete u =>
        -- the packet is used up
        obtain ⟨hmidway, hin⟩ := h.of_incomplete hp hread
        refine ⟨[], todo, some u, rfl, by simpa using hmidway, ?_, hin⟩
        simp only [Reading.outcome, readPacket_nil]
        simp [hp, EStateM.Result.map]
      | complete f rest =>
        obtain ⟨taken, todo', rfl, hne, rfl, hmidway, hin⟩ := h.of_complete hp hread
        have hpos := List.length_pos_iff.mpr hne
        have hlength : ∀ m, (taken ++ rest).length + m = taken.length + (rest.length + m) :=
          fun m => by rw [List.length_append, Nat.add_assoc]
        rw [← Nat.add_zero (taken ++ rest).length, hlength, hin] at hcut
        rw [List.length_append] at hfuel
        obtain ⟨returned, todo'', unfinished', rfl, hmidway', hrest, hin'⟩ :=
          ih (c := { c with unfinishedFrame := none }) (by omega) hmidway hcut
        refine ⟨f :: returned, todo'', unfinished', rfl, ?_, ?_, fun m => ?_⟩
        · rwa [List.append_assoc, List.singleton_append, Nat.add_assoc, ← List.length_append]
            at hmidway'
        · -- if the frame ends the packet, then the reader is at a border
          have hborder : rest = [] → unfinished' = none := by
            rintro rfl
            exact hmidway'.border_iff.mp (hmidway.border_iff.mpr rfl)
          have hiff : (rest = [] ∨ unfinished' = none) ↔
              (taken ++ rest = [] ∨ unfinished' = none) := by
            simp only [List.append_eq_nil_iff, hne, false_and, false_or]
            exact ⟨fun h => h.elim hborder id, .inr⟩
          simp only [Reading.outcome, hrest, hiff]
          rfl
        · rw [hlength, hin]
          exact hin' m

/-- All the frames are returned in their order, and none is left unfinished. -/
theorem readPackets_run {c : Connection} {packets : List Octets}
    (h : Midway frames n c.unfinishedFrame packets.flatten read todo)
    (hcuts : ∀ k, ¬ InHeaderFrom c.unfinishedFrame packets.flatten
      (packets.take k).flatten.length) :
    ∃ results, (readPackets packets).run c = .ok results { c with unfinishedFrame := none } ∧
      Results frames n packets results todo := by
  induction packets generalizing c n read todo with
  | nil =>
    -- nothing is to come, so the reader is behind the last frame
    have hrest : n = (frames.flatMap Frame.wire).length := h.position
    have hnone : c.unfinishedFrame = none := h.border_iff.mp
      ⟨frames.length, by rw [List.take_length]; exact hrest⟩
    have htodo : todo = [] := by
      cases todo with
      | nil => rfl
      | cons f todo => simpa [Frame.wire_ne_nil] using h.between hnone
    subst htodo
    exact ⟨[], by rw [← hnone]; rfl, .nil⟩
  | cons packet packets ih =>
    rw [List.flatten_cons] at h hcuts
    have hcut := hcuts 1
    rw [length_flatten_take_one] at hcut
    obtain ⟨returned, todo', unfinished', rfl, hmidway, hpacket, hin⟩ :=
      readPacket_run le_rfl h hcut
    obtain ⟨results, hresults, hspec⟩ := ih (c := { c with unfinishedFrame := unfinished' })
      hmidway fun k => by
        have hk := hcuts (k + 1)
        rwa [length_flatten_take_succ, hin] at hk
    have hrun : ∀ r, (readPacket packet.length packet).run c =
        .ok r { c with unfinishedFrame := unfinished' } →
        (readPackets (packet :: packets)).run c =
          .ok (r :: results) { c with unfinishedFrame := none } := fun r hr => by
      rw [readPackets, EStateM.run_bind, hr]
      simp only [EStateM.run_bind, hresults]
      rfl
    refine ⟨_, hrun _ hpacket, ?_⟩
    by_cases hend : packet = [] ∨ unfinished' = none
    · rw [if_pos hend, List.append_nil]
      exact .whole (hend.imp_right hmidway.border_iff.mpr) hspec
    · rw [if_neg hend]
      obtain ⟨hne, hsome⟩ := not_or.mp hend
      exact .cut hne (fun hborder => hsome (hmidway.border_iff.mp hborder)) hspec

end Midway

/-- Frames that are written one after the other, and cut into packets so that every header is in
one packet, are read as they were, and nothing is left over. -/
theorem readPackets_wire {frames : List Frame} (hfits : ∀ f ∈ frames, f.Fits)
    {packets : List Octets} (hwire : packets.flatten = frames.flatMap Frame.wire)
    (hcuts : ∀ k, ¬ InHeader packets.flatten (packets.take k).flatten.length) {c : Connection}
    (hc : c.unfinishedFrame = none) :
    ∃ results, (readPackets packets).run c = .ok results c ∧
      Results frames 0 packets results frames := by
  have hmidway : Midway frames 0 c.unfinishedFrame packets.flatten [] frames := by
    refine ⟨hfits, rfl, ?_, fun _ => hwire, fun u hu => ?_⟩
    · rw [hwire, Nat.zero_add]
    · rw [hc] at hu
      cases hu
  obtain ⟨results, hrun, hspec⟩ := readPackets_run hmidway (by rwa [hc])
  refine ⟨results, ?_, hspec⟩
  rw [hrun, ← hc]

/-- Two frames, cut in the payload of the second. -/
theorem readPackets_sample :
    let frames : List Frame :=
      [⟨0, .settings, 0, 0, []⟩, ⟨2, .unknown ⟨0xFF, by decide⟩, 7, 1, [5, 6]⟩]
    let stream := frames.flatMap Frame.wire
    ∃ results, (readPackets [stream.take 19, stream.drop 19]).run
        (.fresh Hpack.staticHeaderTable 0) = .ok results (.fresh Hpack.staticHeaderTable 0) ∧
      Results frames 0 [stream.take 19, stream.drop 19] results frames := by
  intro frames stream
  have hfits : ∀ f ∈ frames, f.Fits := by decide
  have hfresh : (Connection.fresh Hpack.staticHeaderTable 0).unfinishedFrame = none := rfl
  have hwire : [stream.take 19, stream.drop 19].flatten = frames.flatMap Frame.wire := rfl
  refine readPackets_wire hfits hwire (fun k => ?_) hfresh
  have hsettings : Frame.unpack stream = some ⟨0, .settings, 0, 0, []⟩ := rfl
  have hunknown : Frame.unpack (stream.drop frameSize) =
      some ⟨2, .unknown ⟨0xFF, by decide⟩, 7, 1, []⟩ := rfl
  match k with
  | 0 => exact not_inHeader_zero _
  | 1 =>
    -- in the payload of the second frame
    refine (inHeader_next_iff hsettings (n := 10)).not.mpr ?_
    exact not_inHeader_payload hunknown (by decide) (by decide)
  | k + 2 =>
    rw [show [stream.take 19, stream.drop 19].take (k + 2) = [stream.take 19, stream.drop 19] from
      List.take_of_length_le (Nat.le_add_left 2 k)]
    refine (inHeader_next_iff hsettings (n := 11)).not.mpr ?_
    exact (inHeader_next_iff hunknown (n := 0)).not.mpr (not_inHeader_zero _)

end H2

end Rite
