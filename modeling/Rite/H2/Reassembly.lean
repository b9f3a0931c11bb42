import Rite.H2.Server

/-!
# Frames in several packets

`read_frame` keeps a frame whose payload is cut off by the end of a packet, and goes on with it in
the next packet. What it makes of a packet is compared here with what it makes of the packet and
the one behind it together.

## Main results

* `Reading.ofOctets_append_of_complete`: a frame that is complete in the first packet;
* `Reading.ofOctets_append_of_incomplete`: a frame that goes on in the second;
* `Reading.inHeader_of_failed`: where reading fails, the cut is inside a frame header.
-/

namespace Rite

namespace H2

/-! ## Positions in a sequence of frames -/

/-- The position `n` of a sequence of frames is inside a frame header. -/
inductive InHeader : Octets → ℕ → Prop
  | here {l : Octets} {n : ℕ} : 0 < n → n < frameSize → InHeader l n
  | next {l : Octets} {n : ℕ} {header : Frame} : Frame.unpack l = some header →
    InHeader (l.drop (frameSize + header.length.toNat)) n →
    InHeader l (frameSize + header.length.toNat + n)

/-- The position `n` behind what has been read of an unfinished frame is inside a frame header. -/
def InHeaderFrom (unfinished : Option Partial) (l : Octets) (n : ℕ) : Prop :=
  match unfinished with
  | none => InHeader l n
  | some p => ∃ m, n = p.missing + m ∧ InHeader (l.drop p.missing) m

theorem not_inHeader_zero (l : Octets) : ¬ InHeader l 0 := by
  intro h
  generalize hn : 0 = n at h
  cases h with
  | here hpos => omega
  | next => simp [frameSize] at hn; omega

theorem inHeader_next_iff {l : Octets} {header : Frame} (h : Frame.unpack l = some header) {n : ℕ} :
    InHeader l (frameSize + header.length.toNat + n) ↔
      InHeader (l.drop (frameSize + header.length.toNat)) n := by
  constructor
  · intro hin
    generalize hm : frameSize + header.length.toNat + n = m at hin
    cases hin with
    | here _ hlt => omega
    | @next _ n' header' hunpack hrest =>
      cases h.symm.trans hunpack
      rwa [Nat.add_left_cancel hm]
  · exact .next h

/-- Inside the payload of the first frame is not inside a header. -/
theorem not_inHeader_payload {l : Octets} {header : Frame} (h : Frame.unpack l = some header)
    {n : ℕ} (hn : frameSize ≤ n) (hn' : n < frameSize + header.length.toNat) : ¬ InHeader l n := by
  intro hin
  cases hin with
  | here _ hlt => omega
  | next hunpack =>
    cases h.symm.trans hunpack
    omega

/-- A cut behind the first packet, counted from its beginning. -/
theorem length_flatten_take_succ (packet : Octets) (packets : List Octets) (k : ℕ) :
    ((packet :: packets).take (k + 1)).flatten.length =
      packet.length + (packets.take k).flatten.length := by
  rw [List.take_succ_cons, List.flatten_cons, List.length_append]

/-- The end of the first packet is such a cut. -/
theorem length_flatten_take_one (packet : Octets) (packets : List Octets) :
    ((packet :: packets).take 1).flatten.length = packet.length := by
  rw [List.take_succ_cons, List.take_zero, List.flatten_singleton]

/-- Behind the unfinished frame the positions count from the next header on. -/
theorem inHeaderFrom_some_iff {u : Partial} {l : Octets} {m : ℕ} :
    InHeaderFrom (some u) l (u.missing + m) ↔ InHeader (l.drop u.missing) m := by
  simp only [InHeaderFrom]
  constructor
  · rintro ⟨m', hm', hin⟩
    rwa [Nat.add_left_cancel hm']
  · exact fun hin => ⟨m, rfl, hin⟩

/-! ## Reading from two packets -/

namespace Reading

/-- A frame that is complete in the first packet. -/
private theorem absorb_append_of_complete {frame f : Frame}
    {h : frame.length.toNat ≤ maxFrameSize} {p rest : Octets}
    (hread : absorb frame h p = .complete f rest) (q : Octets) :
    absorb frame h (p ++ q) = .complete f (rest ++ q) ∧
      frame.length.toNat - frame.data.length ≤ p.length ∧
      rest = p.drop (frame.length.toNat - frame.data.length) := by
  unfold absorb at hread ⊢
  split_ifs at hread with hshort
  cases hread
  have hle : frame.length.toNat - frame.data.length ≤ p.length := by omega
  have hlong : ¬ frame.data.length + (p ++ q).length < frame.length.toNat := by
    rw [List.length_append]
    omega
  refine ⟨?_, hle, rfl⟩
  simp only [dif_neg hlong, List.take_append_of_le_length hle, List.drop_append_of_le_length hle]

/-- A frame that is not: it goes on in the second. -/
private theorem absorb_append_of_incomplete {frame : Frame}
    {h : frame.length.toNat ≤ maxFrameSize} {p : Octets} {u : Partial}
    (hread : absorb frame h p = .incomplete u) (q : Octets) :
    absorb frame h (p ++ q) = absorb u.frame u.bounded q ∧
      frame.length.toNat - frame.data.length = p.length + u.missing := by
  unfold absorb at hread
  split_ifs at hread with hshort
  cases hread
  have hmissing : frame.length.toNat - frame.data.length =
      p.length + (frame.length.toNat - (frame.data ++ p).length) := by
    rw [List.length_append]
    omega
  refine ⟨?_, hmissing⟩
  unfold absorb
  by_cases hlong : frame.data.length + (p ++ q).length < frame.length.toNat
  · have hlong' : (frame.data ++ p).length + q.length < frame.length.toNat := by
      rw [List.length_append] at hlong ⊢
      omega
    simp only [dif_pos hlong, dif_pos hlong', List.append_assoc]
  · have hlong' : ¬ (frame.data ++ p).length + q.length < frame.length.toNat := by
      rw [List.length_append] at hlong ⊢
      omega
    simp only [dif_neg hlong, dif_neg hlong']
    rw [hmissing, List.take_length_add_append, List.drop_length_add_append, List.append_assoc]

/-- A frame from its header on that is complete in the first packet: what is taken are its header
and its payload. -/
private theorem ofOctets_none_append_of_complete {p rest : Octets} {f : Frame}
    (hread : ofOctets none p = .complete f rest) :
    ∃ header, Frame.unpack p = some header ∧
      frameSize + header.length.toNat ≤ p.length ∧
      rest = p.drop (frameSize + header.length.toNat) ∧
      ∀ q, ofOctets none (p ++ q) = .complete f (rest ++ q) := by
  obtain ⟨header, hunpack, hlen⟩ := exists_unpack_of_ne_failed (p := p) (by simp [hread])
  rw [ofOctets_of_unpack hunpack hlen] at hread
  have hframe := Frame.frameSize_le_of_unpack hunpack
  have happend := fun q => absorb_append_of_complete hread q
  -- a header comes without payload, so all of its length is missing
  obtain ⟨-, hle, hrest⟩ := happend []
  simp only [Frame.unpack_data hunpack, List.length_nil, Nat.sub_zero, List.length_drop]
    at hle hrest
  refine ⟨header, hunpack, by omega, by rw [hrest, List.drop_drop], fun q => ?_⟩
  rw [ofOctets_of_unpack (Frame.unpack_append hunpack q) hlen,
    List.drop_append_of_le_length hframe]
  exact (happend q).1

/-- A frame that is complete in the first packet is read from it alone, and what is behind it are
the next frames. -/
theorem ofOctets_append_of_complete {unfinished : Option Partial} {p rest : Octets} {f : Frame}
    (hread : ofOctets unfinished p = .complete f rest) :
    ∃ taken, p = taken ++ rest ∧ taken ≠ [] ∧
      (∀ q, ofOctets unfinished (p ++ q) = .complete f (rest ++ q)) ∧
      ∀ q m, InHeaderFrom unfinished (p ++ q) (taken.length + m) ↔ InHeader (rest ++ q) m := by
  cases unfinished with
  | some u =>
    -- what is taken is what the frame still needs
    have happend := fun q => absorb_append_of_complete hread q
    obtain ⟨-, hle, hrest⟩ := happend []
    have htaken : (p.take u.missing).length = u.missing := by
      rw [List.length_take]
      exact min_eq_left hle
    refine ⟨p.take u.missing, ?_, ?_, fun q => (happend q).1, fun q m => ?_⟩
    · rw [hrest]
      exact (List.take_append_drop ..).symm
    · intro hnil
      have hshort := u.short
      rw [hnil, List.length_nil, Partial.missing] at htaken
      omega
    · have hdrop : (p ++ q).drop u.missing = rest ++ q := by
        rw [hrest]
        exact List.drop_append_of_le_length hle
      rw [htaken, inHeaderFrom_some_iff, hdrop]
  | none =>
    obtain ⟨header, hunpack, hle, rfl, happend⟩ := ofOctets_none_append_of_complete hread
    have htaken : (p.take (frameSize + header.length.toNat)).length =
        frameSize + header.length.toNat := by
      rw [List.length_take]
      exact min_eq_left hle
    refine ⟨p.take (frameSize + header.length.toNat), (List.take_append_drop ..).symm, ?_, happend,
      fun q m => ?_⟩
    · intro hnil
      rw [hnil, List.length_nil, frameSize] at htaken
      omega
    · rw [htaken, ← List.drop_append_of_le_length hle]
      exact inHeader_next_iff (Frame.unpack_append hunpack q)

/-- A frame that is not complete in the first packet goes on in the second. -/
theorem ofOctets_append_of_incomplete {unfinished : Option Partial} {p : Octets} {u : Partial}
    (hread : ofOctets unfinished p = .incomplete u) :
    (∀ q, ofOctets unfinished (p ++ q) = ofOctets (some u) q) ∧
      ∀ q m, InHeaderFrom unfinished (p ++ q) (p.length + m) ↔ InHeaderFrom (some u) q m := by
  cases unfinished with
  | some u' =>
    have happend := fun q => absorb_append_of_incomplete hread q
    refine ⟨fun q => (happend q).1, fun q m => ?_⟩
    have hmissing : u'.missing = p.length + u.missing := (happend []).2
    simp only [InHeaderFrom, hmissing, List.drop_length_add_append, Nat.add_assoc,
      Nat.add_left_cancel_iff]
  | none =>
    obtain ⟨header, hunpack, hlen⟩ := exists_unpack_of_ne_failed (p := p) (by simp [hread])
    rw [ofOctets_of_unpack hunpack hlen] at hread
    have hframe := Frame.frameSize_le_of_unpack hunpack
    have happend := fun q => absorb_append_of_incomplete hread q
    have hmissing := (happend []).2
    rw [Frame.unpack_data hunpack, List.length_nil, Nat.sub_zero, List.length_drop] at hmissing
    have htotal : frameSize + header.length.toNat = p.length + u.missing := by omega
    refine ⟨fun q => ?_, fun q m => ?_⟩
    · rw [ofOctets_of_unpack (Frame.unpack_append hunpack q) hlen,
        List.drop_append_of_le_length hframe]
      exact (happend q).1
    · have hunpack' := Frame.unpack_append hunpack q
      have hdrop : (p ++ q).drop (frameSize + header.length.toNat) = q.drop u.missing := by
        rw [htotal, List.drop_length_add_append]
      rcases lt_or_ge m u.missing with hm | hm
      · -- the cut is inside the payload
        refine iff_of_false (not_inHeader_payload hunpack' (by omega) (by omega)) ?_
        rintro ⟨m', hm', -⟩
        omega
      · -- the cut is behind it
        obtain ⟨m', rfl⟩ := Nat.exists_eq_add_of_le hm
        rw [← Nat.add_assoc, ← htotal, inHeaderFrom_some_iff, ← hdrop]
        exact inHeader_next_iff hunpack'

/-- If nothing can be read from the first packet but from both, then the cut is inside the
header. -/
theorem inHeader_of_failed {p q : Octets} (hp : p ≠ []) {e : FrameState}
    {he : e ≠ .insufficientData} {unfinished : Option Partial}
    (hread : ofOctets unfinished p = .failed e he)
    (hok : ∀ e he, ofOctets unfinished (p ++ q) ≠ .failed e he) :
    InHeaderFrom unfinished (p ++ q) p.length := by
  obtain ⟨rfl, hno⟩ := ofOctets_failed_iff.mp ⟨e, he, hread⟩
  obtain ⟨header, hunpack, hlen⟩ := exists_unpack_of_ne_failed hok
  refine .here (List.length_pos_iff.mpr hp) ?_
  by_contra hframe
  obtain ⟨f, hf⟩ := Frame.unpack_isSome (not_lt.mp hframe)
  cases (Frame.unpack_append hf q).symm.trans hunpack
  exact hno ⟨header, hf, hlen⟩

end Reading

end H2

end Rite
