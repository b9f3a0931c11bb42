import Rite.Hpack.LoopBounds

/-!
# Which frames are read out of bounds

The constructor of the payload takes the pad length without a look at the length of the payload, and
checks four octets before it takes five. `parse_string` takes the first octet of a string before
`decode` finds that there is none. Nothing else is dereferenced at the end of the payload or of the
header block, and if these are not, then `parse` does what it does on lists of octets.

## Main results

* `payload_of_complete`, `payload_of_not_complete`: the constructor of the payload;
* `parseLoop_cases`: the loop of `parse`;
* `inBounds_iff`: every octet that `parse` dereferences is there exactly if the frame is `Complete`
  and the strings of its header block are there;
* `not_inBounds`: neither need be so.
-/

namespace Rite

namespace Hpack

namespace Cursor

open Characteristics ListReader

variable {counts : Bool} {f : Frame} {block : Octets} {pos : ℕ} {p : Parser}

/-! ## The constructor -/

/-- The octet of the pad length is there, and that of the weight if the four in front of it are. -/
def Complete (f : Frame) : Prop :=
  (f.flags &&& Headers.padded ≠ 0 → f.data ≠ []) ∧
    (f.flags &&& Headers.priority ≠ 0 →
      f.data.length ≠ (if f.flags &&& Headers.padded ≠ 0 then 1 else 0) + 4)

instance (f : Frame) : Decidable (Complete f) := inferInstanceAs (Decidable (_ ∧ _))

/-- The first octet, if there is to be a pad length. -/
theorem padLength_eq (h : f.flags &&& Headers.padded ≠ 0 → f.data ≠ []) :
    optional (f.flags &&& Headers.padded ≠ 0) (deref f.data 0) =
      .ok (HeadersPayload.padding f) := by
  unfold optional HeadersPayload.padding
  split_ifs with hpad
  · rw [deref_of_lt (List.length_pos_iff.mpr (h hpad)), List.headD_eq_head?_getD,
      List.getD_eq_getElem?_getD, List.head?_eq_getElem?]
  · rfl

theorem dependency_of_le (h : pos + 4 ≤ f.data.length) :
    dependency f.data pos = .ok (HeadersPayload.ntohl (Frame.ofBigEndian (f.data.getD (pos + 0) 0)
      (f.data.getD (pos + 1) 0) (f.data.getD (pos + 2) 0) (f.data.getD (pos + 3) 0))) := by
  unfold dependency
  rw [deref_of_lt (by omega), deref_of_lt (by omega), deref_of_lt (by omega),
    deref_of_lt (by omega)]
  rfl

/-- A field is read if its octets are there whenever its flag is set. -/
theorem optional_eq {α : Type} [OfNat α 0] {flag : Prop} [Decidable flag] {field : Except Trap α}
    {a : α} (h : flag → field = .ok a) : optional flag field = .ok (if flag then a else 0) := by
  unfold optional
  split_ifs with hflag
  · exact h hflag
  · rfl

/-- If its octets are there, the constructor does what it does on lists of octets. -/
theorem payload_of_complete (h : Complete f) :
    payload f = (HeadersPayload.ofFrame f).mapError .fault := by
  obtain ⟨hpad, hweight⟩ := h
  unfold payload HeadersPayload.ofFrame
  rw [padLength_eq hpad]
  simp only [bind, Except.bind]
  generalize hpos : (if f.flags &&& Headers.padded ≠ 0 then 1 else 0) = pos at hweight ⊢
  by_cases hshort : f.flags &&& Headers.priority ≠ 0 ∧ f.data.length < pos + 4
  · rw [if_pos hshort, if_pos hshort]
    rfl
  -- at least four octets, but not four, are five
  have hlong (hprio : f.flags &&& Headers.priority ≠ 0) : pos + 5 ≤ f.data.length := by
    have := hweight hprio
    have := not_and.mp hshort hprio
    omega
  rw [if_neg hshort, if_neg hshort,
    optional_eq fun hprio => dependency_of_le (by have := hlong hprio; omega),
    optional_eq fun hprio => deref_of_lt (by have := hlong hprio; omega)]
  simp only
  by_cases hassert : f.data.length ≤ HeadersPayload.offset f + (HeadersPayload.padding f).toNat
  · rw [if_pos hassert, if_pos hassert]
    rfl
  rw [if_neg hassert, if_neg hassert, copy_of_le (by omega), List.drop_take]
  split_ifs <;> rfl

/-- If not, it goes out of bounds. -/
theorem payload_of_not_complete (h : ¬ Complete f) : payload f = .error .outOfBounds := by
  unfold payload
  by_cases hpad : f.flags &&& Headers.padded ≠ 0 → f.data ≠ []
  · -- the octet of the weight is missing
    have hweight := mt (And.intro hpad) h
    rw [Classical.not_imp, not_not] at hweight
    obtain ⟨hprio, hlen⟩ := hweight
    rw [padLength_eq hpad]
    simp only [bind, Except.bind]
    generalize hpos : (if f.flags &&& Headers.padded ≠ 0 then 1 else 0) = pos at hlen ⊢
    rw [if_neg (by omega), optional_eq fun _ => dependency_of_le hlen.ge, deref_of_le hlen.le]
    simp only [optional, if_pos hprio]
  · -- the octet of the pad length is missing
    rw [Classical.not_imp, not_not] at hpad
    rw [optional, if_pos hpad.1, hpad.2, deref_of_le (Nat.zero_le _)]
    rfl

/-! ## The loop -/

/-- No string literal that the parser comes to in the block overruns it: not behind fields that it
has read and applied. -/
def Bounded (counts : Bool) (block : Octets) (p : Parser) : Prop :=
  ∀ fields rest p' s, Many Field.read block fields rest → (applyAll fields).run p = .ok () p' →
    ComesAt p' rest s → ¬ Overruns counts s

/-- There is no literal at the end of the block. -/
theorem not_comesAt_nil (p : Parser) (s : Octets) : ¬ ComesAt p [] s := by
  rintro ⟨N, -, h | ⟨h, -, -⟩⟩
  · cases h
  · cases h

/-- Behind the last field there is nothing to come to. -/
theorem bounded_nil (counts : Bool) (p : Parser) : Bounded counts [] p := by
  intro fields rest p' s hmany _ hcomes
  cases hmany with
  | nil => exact absurd hcomes (not_comesAt_nil p' s)
  | cons hread _ =>
    have hlt := advances_read _ _ _ hread
    simp at hlt

/-- The loop stays in bounds if the first field does, and what follows if it can be applied. -/
theorem bounded_iff {pos : Octets} :
    Bounded counts pos p ↔ (∀ s, ComesAt p pos s → ¬ Overruns counts s) ∧
      ∀ rest p', (Parser.parseField pos).run p = .ok rest p' → Bounded counts rest p' := by
  constructor
  · intro h
    refine ⟨fun s => h [] pos p s (.nil pos) rfl, ?_⟩
    intro rest p' hrun fields rest' p'' s hmany happly
    -- the field goes in front of those behind it
    obtain ⟨f, hread, hf⟩ := read_of_parseField hrun
    refine h (f :: fields) rest' p'' s (.cons hread hmany) ?_
    rw [applyAll_cons, EStateM.run_bind, hf]
    exact happly
  · rintro ⟨hfirst, hnext⟩ fields rest p' s hmany happly
    cases hmany with
    | nil =>
      cases happly
      exact hfirst s
    | @cons _ m _ f fields hread hmany =>
      rw [applyAll_cons, EStateM.run_bind] at happly
      cases hf : f.apply.run p with
      | error e p'' =>
        rw [hf] at happly
        cases happly
      | ok _ p'' =>
        rw [hf] at happly
        refine hnext m p'' ?_ fields rest p' s hmany happly
        rw [parseField_of_read hread, EStateM.run_bind, hf]
        rfl

/-- The loop goes out of bounds at a string literal, or it does what the loop on lists of octets
does. -/
theorem parseLoop_cases (counts : Bool) {n : ℕ} (hpos : pos ≤ block.length)
    (hn : block.length - pos ≤ n) (p : Parser) :
    ¬ Bounded counts (block.drop pos) p ∧
      (∃ p', (parseLoop counts block n pos).run p = .error .outOfBounds p') ∨
    Bounded counts (block.drop pos) p ∧ (parseLoop counts block n pos).run p =
      (ofParserM (Parser.parseLoop n (block.drop pos))).run p := by
  induction n generalizing pos p with
  | zero =>
    obtain rfl : pos = block.length := by omega
    rw [parseLoop, if_pos rfl, List.drop_length]
    exact .inr ⟨bounded_nil counts p, rfl⟩
  | succ n ih =>
    rcases hpos.eq_or_lt with rfl | hlt
    · rw [parseLoop, if_pos rfl, List.drop_length]
      exact .inr ⟨bounded_nil counts p, rfl⟩
    rw [parseLoop, if_neg hlt.ne, EStateM.run_bind, iteration_eq counts hlt, bounded_iff,
      ofParserM_run]
    rcases parseField_cases counts hlt p with ⟨⟨s, hcomes, hover⟩, p', hrun⟩ | ⟨hfirst, hagrees⟩
    · rw [hrun]
      exact .inl ⟨fun h => h.1 s hcomes hover, p', rfl⟩
    -- the field is read as on lists of octets
    rw [Parser.parseLoop, EStateM.run_bind]
    case x_2 => exact mt List.drop_eq_nil_iff.mp (not_le.mpr hlt)
    generalize hfield : (parseField counts block pos).run p = r at hagrees
    generalize hlist : (Parser.parseField (block.drop pos)).run p = r' at hagrees
    cases hagrees with
    | error => exact .inr ⟨⟨hfirst, by simp⟩, rfl⟩
    | @ok next p' hnext =>
      -- the iteration on lists of octets does not find an infinite loop either
      have hadv := (bounds_parseField hlt hfield).1
      have hne : (block.drop next).length ≠ (block.drop pos).length := by
        rw [List.length_drop, List.length_drop]
        omega
      simp only [EStateM.Result.ok.injEq, if_neg hne]
      rcases ih hnext (by omega) p' with ⟨hbounded, htrap⟩ | ⟨hbounded, heq⟩
      · exact .inl ⟨fun h => hbounded (h.2 _ p' ⟨rfl, rfl⟩), htrap⟩
      · refine .inr ⟨⟨hfirst, ?_⟩, heq⟩
        rintro rest q ⟨rfl, rfl⟩
        exact hbounded

/-! ## The decoder -/

/-- What the `try` block and its handler make of the end of the loop. -/
def caught (flags : UInt8) : EStateM.Result Trap Parser Unit → EStateM.Result Trap Parser Error
  | .ok () p => .ok (Parser.completion flags) p
  | .error (.fault (.hpack e)) p => .ok e p
  | .error e p => .error e p

theorem caught_ofResult (flags : UInt8) (r : EStateM.Result Fault Parser Unit) :
    caught flags (ofResult r) = ofResult (Parser.caught flags r) := by
  cases r with
  | ok a p => rfl
  | error e p => cases e <;> rfl

private theorem parse_run {headers : HeadersPayload} (h : payload f = .ok headers) (p : Parser) :
    (parse counts f).run p =
      caught f.flags ((parseLoop counts headers.data headers.data.length 0).run p) := by
  simp only [parse, h, ofExcept_ok, pure_bind, parseBlock]
  simp only [EStateM.run_tryCatch, EStateM.run_bind]
  cases hrun : (parseLoop counts headers.data headers.data.length 0).run p with
  | ok a p' => rfl
  | error e p' =>
    cases e with
    | outOfBounds => rfl
    | fault e => cases e <;> rfl

/-- Every octet that `parse` dereferences is there. -/
def InBounds (counts : Bool) (f : Frame) (p : Parser) : Prop :=
  ∀ p', (parse counts f).run p ≠ .error .outOfBounds p'

/-- `parse` goes out of bounds, or it does what `parse` on lists of octets does. -/
theorem parse_cases (counts : Bool) (f : Frame) (p : Parser) :
    ¬ (Complete f ∧ (HeadersPayload.Readable f →
        Bounded counts (HeadersPayload.fragment f) p)) ∧
      (∃ p', (parse counts f).run p = .error .outOfBounds p') ∨
    (Complete f ∧ (HeadersPayload.Readable f →
        Bounded counts (HeadersPayload.fragment f) p)) ∧
      (parse counts f).run p = (ofParserM (Parser.parse f)).run p := by
  by_cases hcomplete : Complete f
  · have hpayload := payload_of_complete hcomplete
    cases hlist : HeadersPayload.ofFrame f with
    | error e =>
      -- there is no header block
      have hreadable : ¬ HeadersPayload.Readable f := by
        intro h
        obtain ⟨headers, hok, -⟩ := HeadersPayload.ofFrame_eq_ok_iff.mpr h
        rw [hlist] at hok
        cases hok
      rw [hlist] at hpayload
      refine .inr ⟨⟨hcomplete, fun h => absurd h hreadable⟩, ?_⟩
      rw [ofParserM_run, Hpack.parse_of_ofFrame_error hlist, parse, hpayload]
      rfl
    | ok headers =>
      have hreadable := HeadersPayload.readable_of_ofFrame hlist
      -- the header block is the fragment
      obtain ⟨headers', hok, hdata⟩ := HeadersPayload.ofFrame_eq_ok_iff.mpr hreadable
      rw [hlist, Except.ok.injEq] at hok
      subst hok
      rw [hlist] at hpayload
      rw [parse_run hpayload, ofParserM_run, Hpack.parse_of_ofFrame hlist, ← hdata]
      rcases parseLoop_cases counts (Nat.zero_le headers.data.length)
        (Nat.sub_le headers.data.length 0) p with ⟨hbounded, p', hrun⟩ | ⟨hbounded, hrun⟩
      · rw [hrun]
        exact .inl ⟨fun h => hbounded (h.2 hreadable), p', rfl⟩
      · rw [hrun, List.drop_zero, ofParserM_run, caught_ofResult]
        exact .inr ⟨⟨hcomplete, fun _ => hbounded⟩, rfl⟩
  · refine .inl ⟨fun h => hcomplete h.1, p, ?_⟩
    rw [parse, payload_of_not_complete hcomplete]
    rfl

/-- `parse` stays in bounds exactly if the octets of the pad length and of the weight are there, and
the string literals that it comes to in the header block do not overrun it. -/
theorem inBounds_iff (counts : Bool) (f : Frame) (p : Parser) :
    InBounds counts f p ↔ Complete f ∧ (HeadersPayload.Readable f →
      Bounded counts (HeadersPayload.fragment f) p) := by
  rcases parse_cases counts f p with ⟨hbounded, p', hrun⟩ | ⟨hbounded, hrun⟩
  · exact iff_of_false (fun h => h p' hrun) hbounded
  · refine iff_of_true ?_ hbounded
    intro p' htrap
    rw [hrun, ofParserM_run] at htrap
    cases hlist : (Parser.parse f).run p with
    | ok a p'' =>
      rw [hlist] at htrap
      cases htrap
    | error e p'' =>
      rw [hlist] at htrap
      cases htrap

/-- A frame without its pad length, one without its weight, and a literal without its name. -/
theorem not_inBounds :
    ¬ InBounds false ⟨0, .headers, Headers.padded, 1, []⟩ {} ∧
      ¬ InBounds false ⟨4, .headers, Headers.priority, 1, [0, 0, 0, 0]⟩ {} ∧
      ¬ InBounds false ⟨1, .headers, Headers.endHeaders, 1, [0x40]⟩ {} :=
  ⟨fun h => h {} rfl, fun h => h {} rfl, fun h => h {} rfl⟩

end Cursor

end Hpack

end Rite
