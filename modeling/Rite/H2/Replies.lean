import Rite.H2.Termination

/-!
# Replies to control frames

A server owes its client a SETTINGS frame of its own, an acknowledgement of every SETTINGS frame
and an echo of every PING. The connection answers a SETTINGS frame when it is idle, but not the one
behind the preface; and it answers every PING, even an echo, with eight zeros.

## Main results

* `writtenBy_of_run`: what the connection has written, in terms of the frames it has read;
* `answer_eq_due_iff`: the frames that are answered as they should be;
* `replies_iff`: the runs in which all that is owed is written, and nothing else.
-/

namespace Rite

namespace H2

open Connection (answer final QuietEnd)
open Characteristics

/-! ## Definitions -/

/-- The replies that a frame calls for. -/
def due (frame : Frame) : List Frame :=
  match frame.type with
  | .settings =>
    if frame.flags &&& Settings.ack = 0 then [⟨0, .settings, Settings.ack, 0, []⟩] else []
  | .ping =>
    if frame.flags &&& Ping.ack = 0 then [⟨8, .ping, Ping.ack, frame.streamIdentifier, frame.data⟩]
    else []
  | _ => []

/-- The frames that a server owes for those it has read: its own settings once it has those of the
client, and the replies. -/
def owed : List Frame → List Frame
  | [] => []
  | first :: rest => ⟨0, .settings, 0, 0, []⟩ :: (first :: rest).flatMap due

/-- A PING is no echo, and carries eight zeros. -/
def Plain (frame : Frame) : Prop :=
  frame.type = .ping → frame.flags &&& Ping.ack = 0 ∧ frame.data = List.replicate 8 0

instance (frame : Frame) : Decidable (Plain frame) := inferInstanceAs (Decidable (_ → _))

/-- The frame that the call of `process` completes. -/
def Call.read (k : Call) : Option Frame := k.clientSettings.or k.frame

/-- The frames that calls have completed. -/
def received (ks : List Call) : List Frame := ks.filterMap Call.read

/-- The client begins with settings. -/
def Valid (ks : List Call) : Prop :=
  ∀ k ∈ ks, ∀ frame ∈ k.clientSettings, frame.type = .settings ∧ frame.length % 6 = 0

instance (ks : List Call) : Decidable (Valid ks) :=
  inferInstanceAs (Decidable (∀ k ∈ ks, ∀ frame ∈ k.clientSettings, _))

/-- The frames that `process` has written by the end of the calls. -/
def writtenBy (ks : List Call) : List Frame := (ks.getLast?.map fun k => k.after.written).getD []

/-- What has been written is what is owed, in whatever order. -/
def Replies (ks : List Call) : Prop := (writtenBy ks).Perm (owed (received ks))

instance (ks : List Call) : Decidable (Replies ks) := inferInstanceAs (Decidable (List.Perm _ _))

/-! ## What is written -/

/-- What the connection writes for the frames that it reads. -/
def answers : List Frame → List Frame
  | [] => []
  | _ :: rest => ⟨0, .settings, 0, 0, []⟩ :: rest.flatMap answer

theorem answers_concat {frames : List Frame} (h : frames ≠ []) (frame : Frame) :
    answers (frames ++ [frame]) = answers frames ++ answer frame := by
  obtain ⟨first, rest, rfl⟩ := List.exists_cons_of_ne_nil h
  simp [answers]

/-- Before the first frame nothing is written and the connection is not idle; from then on it is
idle, and the answers have been written. -/
structure Answered (earlier : List Call) (c : Connection) : Prop where
  /-- The answers have been written. -/
  written : c.written = answers (received earlier)
  /-- The first frame makes the connection idle. -/
  idle_iff : c.state = .idle ↔ received earlier ≠ []
  /-- It is the settings of the client. -/
  first : ∀ frame ∈ (received earlier).head?, frame.type = .settings

variable {k : Call} {earlier : List Call}

theorem received_concat (earlier : List Call) (k : Call) :
    received (earlier ++ [k]) = received earlier ++ k.read.toList := by
  cases h : k.read <;> simp [received, h]

theorem read_of_frame {frame : Frame} (h : k.frame = some frame) : k.read = some frame := by
  have hidle := (Call.result_of_frame h).1
  have hnone : k.clientSettings = none := by simp [Call.clientSettings, hidle]
  rw [Call.read, hnone, h]
  rfl

/-- The settings of the client are answered with those of the server, and make it idle. -/
theorem final_of_clientSettings {frame : Frame} (h : k.clientSettings = some frame)
    (htype : frame.type = .settings) (hlen : frame.length % 6 = 0) :
    k.before.state = .waitClientSettings ∧ (final k.result).state = .idle ∧
      (final k.result).written = k.before.written ++ [⟨0, .settings, 0, 0, []⟩] := by
  unfold Call.clientSettings at h
  split_ifs at h with hwait
  split at h
  next frame' rest hreading =>
    cases h
    have hidle : k.before.state ≠ .idle := by simp [hwait.1]
    have hresult : k.result = .ok (.settings, rest) { k.before.ready with
        state := .idle, written := k.before.written ++ [⟨0, .settings, 0, 0, []⟩] } := by
      rw [Call.result, Connection.process_reading (.inl hwait.1) hwait.2, hreading,
        Connection.readingEnd, if_neg hidle, Connection.handleClientSettings_run,
        if_neg (not_not.mpr htype), if_neg (not_not.mpr hlen)]
      rfl
    rw [hresult]
    exact ⟨hwait.1, rfl, rfl⟩
  next => cases h

/-- A call that completes no frame writes nothing, and does not make the connection idle. -/
theorem final_of_read_none (h : k.read = none) :
    (final k.result).written = k.before.written ∧
      ((final k.result).state = .idle ↔ k.before.state = .idle) := by
  obtain ⟨hsettings, hframe⟩ := Option.or_eq_none_iff.mp h
  have hquiet := Call.result_of_no_frame hframe
  generalize k.result = r at hquiet
  cases hquiet with
  | preface hstate => exact ⟨rfl, by simp [final, hstate]⟩
  | settings hwait hinput hreading =>
    -- these are the settings of the client
    simp [Call.clientSettings, hwait, hinput, hreading] at hsettings
  | _ => exact ⟨rfl, Iff.rfl⟩

/-- A call that completes a frame writes the answer to it. -/
theorem Answered.step (h : Answered earlier k.before)
    (hvalid : ∀ frame ∈ k.clientSettings, frame.type = .settings ∧ frame.length % 6 = 0) :
    Answered (earlier ++ [k]) k.after := by
  have hconcat := received_concat earlier k
  cases hframe : k.frame with
  | some frame =>
    -- in the state `IDLE` the first frame has been read
    have hidle := (Call.result_of_frame hframe).1
    have heffect := Call.effect_of_frame hframe
    have hne := h.idle_iff.mp hidle
    rw [read_of_frame hframe] at hconcat
    refine ⟨?_, ?_, ?_⟩
    · rw [Call.written_after, heffect.written, hconcat, Option.toList_some,
        answers_concat hne, ← h.written]
      rfl
    · rw [Call.state_after, heffect.state, hconcat]
      exact iff_of_true hidle (by simp)
    · rw [hconcat, List.head?_append_of_ne_nil _ hne]
      exact h.first
  | none =>
    cases hsettings : k.clientSettings with
    | some frame =>
      obtain ⟨htype, hlen⟩ := hvalid frame hsettings
      obtain ⟨hwait, hidle, hwritten⟩ := final_of_clientSettings hsettings htype hlen
      -- this is the first frame of all
      have hnil : received earlier = [] := by
        by_contra hne
        have hstate := h.idle_iff.mpr hne
        rw [hwait] at hstate
        cases hstate
      rw [Call.read, hsettings, hnil] at hconcat
      refine ⟨?_, ?_, ?_⟩
      · rw [Call.written_after, hwritten, hconcat, h.written, hnil]
        rfl
      · rw [Call.state_after, hconcat]
        exact iff_of_true hidle (by simp)
      · rw [hconcat]
        rintro _ ⟨⟩
        exact htype
    | none =>
      -- the call has read no frame
      have hread : k.read = none := by rw [Call.read, hsettings, hframe]; rfl
      obtain ⟨hwritten, hstate⟩ := final_of_read_none hread
      rw [hread, Option.toList_none, List.append_nil] at hconcat
      refine ⟨?_, ?_, ?_⟩
      · rw [Call.written_after, hwritten, hconcat, h.written]
      · rw [Call.state_after, hstate, hconcat, h.idle_iff]
      · rw [hconcat]
        exact h.first

theorem answered_fresh (table : Hpack.StaticTable) (ch : Octet) :
    Answered [] (.fresh table ch) where
  written := rfl
  idle_iff := by simp [Connection.fresh, received]
  first := by simp [received]

/-- What the connection has written when a run ends, and that the first frame is the settings of the
client. -/
theorem writtenBy_of_run {table : Hpack.StaticTable} {ch : Octet} {ks : List Call}
    (hrun : Run Call.before Call.after (.fresh table ch) ks) (hvalid : Valid ks) :
    writtenBy ks = answers (received ks) ∧
      ∀ frame ∈ (received ks).head?, frame.type = .settings := by
  rcases List.eq_nil_or_concat' ks with rfl | ⟨ks, k, rfl⟩
  · exact ⟨rfl, by simp [received]⟩
  · have hbefore : Answered ks k.before :=
      hrun.of_append (answered_fresh table ch) fun earlier a ha h =>
        h.step (hvalid a (List.mem_append_left _ ha))
    -- the last call is a step like all others
    have hafter := hbefore.step (hvalid k (by simp))
    refine ⟨?_, hafter.first⟩
    rw [writtenBy, List.getLast?_concat, Option.map_some, Option.getD_some, hafter.written]

/-! ## What is owed -/

private theorem and_ack_eq (flags : UInt8) :
    flags &&& Settings.ack ≠ 1 ↔ flags &&& Settings.ack = 0 := by
  have key : ∀ i : Fin 256,
      UInt8.ofNat i &&& Settings.ack ≠ 1 ↔ UInt8.ofNat i &&& Settings.ack = 0 := by decide +kernel
  simpa using key ⟨flags.toNat, flags.toNat_lt⟩

/-- SETTINGS frames in the state `IDLE` are answered as they should be, and so are plain PINGs. -/
theorem answer_eq_due_iff (frame : Frame) : answer frame = due frame ↔ Plain frame := by
  unfold answer due Plain
  cases htype : frame.type with
  | settings => simp [and_ack_eq]
  | ping =>
    by_cases hack : frame.flags &&& Ping.ack = 0
    · simp [hack, eq_comm]
    · simp [hack]
  | _ => simp

/-- Nothing that is owed is left out in the state `IDLE`; but a PING may have the wrong echo. -/
theorem length_due_le (frame : Frame) : (due frame).length ≤ (answer frame).length := by
  unfold answer due
  cases frame.type with
  | settings => simp [and_ack_eq]
  | ping => split_ifs <;> simp
  | _ => simp

/-- The kinds of frames that are written are those that are owed. -/
private theorem countP_settings_answer (frame : Frame) :
    (answer frame).countP (·.type = .settings) = (due frame).countP (·.type = .settings) := by
  unfold answer due
  cases frame.type with
  | settings => simp [and_ack_eq]
  | ping => split_ifs <;> simp
  | _ => rfl

/-- The echoes that are written carry zeros. -/
private theorem data_of_mem_answer {frame reply : Frame} (h : reply ∈ answer frame)
    (htype : reply.type = .ping) : reply.data = List.replicate 8 0 := by
  unfold answer at h
  split at h
  · split_ifs at h
    · obtain rfl := List.mem_singleton.mp h
      cases htype
    · cases h
  · obtain rfl := List.mem_singleton.mp h
    rfl
  · cases h

/-- If what is owed is never more than what is written, and comes to the same in the end, then it is
the same for every frame. -/
private theorem length_eq_of_flatMap {frames : List Frame}
    (h : (frames.flatMap answer).length = (frames.flatMap due).length) :
    ∀ frame ∈ frames, (answer frame).length = (due frame).length := by
  have hle : ∀ frames : List Frame,
      (frames.flatMap due).length ≤ (frames.flatMap answer).length := by
    intro frames
    induction frames with
    | nil => exact le_rfl
    | cons frame frames ih =>
      have := length_due_le frame
      simp only [List.flatMap_cons, List.length_append]
      omega
  induction frames with
  | nil => simp
  | cons frame frames ih =>
    have hframe := length_due_le frame
    have hframes := hle frames
    simp only [List.flatMap_cons, List.length_append] at h
    exact List.forall_mem_cons.mpr ⟨by omega, ih (by omega)⟩

/-- The answers behind the first frame are those that are owed if all PINGs are plain, and only
then. -/
theorem perm_flatMap_iff (frames : List Frame) :
    (frames.flatMap answer).Perm (frames.flatMap due) ↔ ∀ frame ∈ frames, Plain frame := by
  constructor
  · intro hperm frame hmem htype
    have hlen := length_eq_of_flatMap hperm.length_eq frame hmem
    -- a PING is always answered, so that an echo must be owed
    have hack : frame.flags &&& Ping.ack = 0 := by
      by_contra hack
      simp [answer, due, htype, hack] at hlen
    have hdue : (⟨8, .ping, Ping.ack, frame.streamIdentifier, frame.data⟩ : Frame) ∈
        frames.flatMap due := List.mem_flatMap.mpr ⟨frame, hmem, by simp [due, htype, hack]⟩
    obtain ⟨frame', -, hanswer⟩ := List.mem_flatMap.mp (hperm.mem_iff.mpr hdue)
    -- the echo is among the frames that are written, and there all echoes are zeros
    have hdata := data_of_mem_answer hanswer
    exact ⟨hack, hdata rfl⟩
  · intro hplain
    rw [List.flatMap_congr fun frame hmem => (answer_eq_due_iff frame).mpr (hplain frame hmem)]

/-- The settings of the client are owed an acknowledgement that is not written. -/
theorem perm_owed_iff {frames : List Frame}
    (hfirst : ∀ first ∈ frames.head?, first.type = .settings) :
    (answers frames).Perm (owed frames) ↔
      (∀ first ∈ frames.head?, first.flags &&& Settings.ack ≠ 0) ∧
        ∀ frame ∈ frames, Plain frame := by
  cases frames with
  | nil => simp [answers, owed]
  | cons first rest =>
    have htype : first.type = .settings := hfirst first rfl
    have hplain : Plain first := by
      intro hping
      rw [htype] at hping
      cases hping
    rw [answers, owed, List.perm_cons, List.flatMap_cons, List.forall_mem_cons,
      ← perm_flatMap_iff]
    simp only [hplain, true_and, List.head?_cons, Option.mem_some_iff, forall_eq']
    by_cases hack : first.flags &&& Settings.ack = 0
    · -- one acknowledgement is missing
      refine iff_of_false (fun hperm => ?_) fun h => h.1 hack
      have hcount := hperm.countP_eq (·.type = .settings)
      have hrest : (rest.flatMap answer).countP (·.type = .settings) =
          (rest.flatMap due).countP (·.type = .settings) := by
        simp only [List.countP_flatMap, Function.comp_def, countP_settings_answer]
      rw [List.countP_append, hrest] at hcount
      simp [due, htype, hack] at hcount
    · simp [due, htype, hack]

/-! ## Runs -/

/-- A run writes what is owed, and nothing else, if and only if the settings of the client are an
acknowledgement and all PINGs are plain. -/
theorem replies_iff {table : Hpack.StaticTable} {ch : Octet} {ks : List Call}
    (hrun : Run Call.before Call.after (.fresh table ch) ks) (hvalid : Valid ks) :
    Replies ks ↔
      (∀ first ∈ (received ks).head?, first.flags &&& Settings.ack ≠ 0) ∧
        ∀ frame ∈ received ks, Plain frame := by
  obtain ⟨hwritten, hfirst⟩ := writtenBy_of_run hrun hvalid
  rw [Replies, hwritten, perm_owed_iff hfirst]

/-- Settings that are an acknowledgement, a plain PING, and settings that are none. -/
theorem replies_sample :
    Replies ((Server.accept Hpack.staticHeaderTable 0
      (clientPreface ++ Frame.wire ⟨0, .settings, 0x1, 0, []⟩ ++
        Frame.wire ⟨8, .ping, 0x0, 0, List.replicate 8 0⟩ ++ Frame.wire ⟨0, .settings, 0, 0, []⟩)
      []).calls (List.replicate 5 .returned)) :=
  (replies_iff (Server.run_accept ..) (by decide)).mpr (by decide)

/-- The settings behind the preface are not acknowledged; a PING comes back with other octets, and
an echo is answered. -/
theorem not_replies :
    ¬ ∀ (table : Hpack.StaticTable) (ch : Octet) (packet : Octets) (packets : List Octets)
      (bs : List Behaviour),
      Valid ((Server.accept table ch packet packets).calls bs) →
        Replies ((Server.accept table ch packet packets).calls bs) := by
  intro h
  have hcalls := h Hpack.staticHeaderTable 0
    (handshake ++ Frame.wire ⟨8, .ping, 0x0, 0, [1, 2, 3, 4, 5, 6, 7, 8]⟩ ++
      Frame.wire ⟨8, .ping, 0x1, 0, List.replicate 8 0⟩) [] (List.replicate 4 .returned)
    (by decide)
  exact absurd hcalls (by decide)

end H2

end Rite
