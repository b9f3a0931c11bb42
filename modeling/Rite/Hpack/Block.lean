import Rite.Hpack.Field

/-!
# The loop of `parse` over a header block

The loop applies the fields of its payload one after the other, until a field fails or cannot be
read. From this follow the ways a call of `parse` can end.

## Main results

* `parseLoop_of_many`: the loop applies the fields it reads and goes on behind them;
* `keeps_parseLoop`: what the loop does to the parser, whether or not it fails, is a sequence of
  look-ups, insertions and size updates;
* `parse_cases`: the ways `parse` can end.
-/

namespace Rite

namespace Hpack

open ListReader

/-- The loop applies the fields that it reads, and goes on behind them. -/
theorem parseLoop_of_many {pos rest : Octets} {fields : List Field}
    (h : Many Field.read pos fields rest) {n : ℕ} (hn : pos.length ≤ n) :
    ∃ n', rest.length ≤ n' ∧
      Parser.parseLoop n pos = applyAll fields >>= fun _ => Parser.parseLoop n' rest := by
  induction h generalizing n with
  | nil pos => exact ⟨n, hn, by simp⟩
  | @cons pos m rest f fields hread htail ih =>
    -- the fuel is enough because every field takes an octet
    have hlt := advances_read _ _ _ hread
    obtain ⟨b, bs, rfl⟩ : ∃ b bs, pos = b :: bs :=
      List.exists_cons_of_length_pos (by omega)
    cases n with
    | zero => simp at hn
    | succ n =>
      obtain ⟨n', hn', hloop⟩ := ih (n := n) (by omega)
      refine ⟨n', hn', ?_⟩
      simp only [Parser.parseLoop, parseField_of_read hread, bind_assoc, pure_bind, hlt.ne,
        if_false, hloop, applyAll_cons]

/-- On a payload that is a list of fields, the loop applies them. -/
theorem parseLoop_eq_applyAll {pos : Octets} {fields : List Field}
    (h : Many Field.read pos fields []) {n : ℕ} (hn : pos.length ≤ n) :
    Parser.parseLoop n pos = applyAll fields := by
  obtain ⟨n', -, hloop⟩ := parseLoop_of_many h hn
  rw [hloop]
  cases n' <;> simp [Parser.parseLoop]

/-- Where no field can be read, the loop raises the error. -/
theorem parseLoop_stuck {pos rest : Octets} {fields : List Field}
    (h : Many Field.read pos fields rest) (hne : rest ≠ []) {e : Fault}
    (hread : Field.read rest = .error e) {n : ℕ} (hn : pos.length ≤ n) :
    ∃ name, name ≠ some (.indexed 0) ∧ Parser.parseLoop n pos =
      applyAll fields >>= fun _ => visit name >>= fun _ => throw e := by
  obtain ⟨n', hn', hloop⟩ := parseLoop_of_many h hn
  obtain ⟨name, hname, hfield⟩ := parseField_of_read_error hread
  obtain ⟨b, bs, rfl⟩ := List.exists_cons_of_ne_nil hne
  cases n' with
  | zero => simp at hn'
  | succ n' =>
    refine ⟨name, hname, ?_⟩
    rw [hloop]
    simp only [Parser.parseLoop, hfield, bind_assoc, throw_bind]

/-! ## What a call can do -/

/-- A relation that holds along everything the decoder does to a parser. -/
structure Parser.Closed (R : Parser → Parser → Prop) : Prop where
  /-- It holds if nothing is done. -/
  refl : ∀ p, R p p
  /-- It holds along two steps if it holds along each. -/
  trans : ∀ {p p' p''}, R p p' → R p' p'' → R p p''
  /-- It holds along a look-up in the static table. -/
  subscript : ∀ p k, k < p.table.size → R p { p with table := (p.table.subscript k).2 }
  /-- It holds along each change to the vectors. -/
  push : ∀ p h, R p (Parser.push h p)
  /-- The same for an insertion. -/
  insert : ∀ p h, R p (Parser.insert h p)
  /-- The same for a size update. -/
  resize : ∀ p n, R p (Parser.resize n p)

/-- A call moves the parser along `R`, and if it fails, then with an error that satisfies `E`. -/
def Keeps {α : Type} (R : Parser → Parser → Prop) (E : Fault → Prop) (x : ParserM α) : Prop :=
  ∀ p, match x.run p with
    | .ok _ p' => R p p'
    | .error e p' => R p p' ∧ E e

section Keeps

variable {R : Parser → Parser → Prop} {E : Fault → Prop} {α β : Type}

theorem keeps_pure (hR : Parser.Closed R) (a : α) : Keeps R E (pure a) := hR.refl

theorem keeps_throw (hR : Parser.Closed R) {e : Fault} (he : E e) :
    Keeps R E (throw e : ParserM α) := fun p => ⟨hR.refl p, he⟩

theorem keeps_modify {u : Parser → Parser} (hu : ∀ p, R p (u p)) : Keeps R E (modify u) := hu

theorem Keeps.bind (hR : Parser.Closed R) {x : ParserM α} {k : α → ParserM β} (hx : Keeps R E x)
    (hk : ∀ a, Keeps R E (k a)) : Keeps R E (x >>= k) := by
  intro p
  have hxp := hx p
  rw [EStateM.run_bind]
  cases hrun : x.run p with
  | error e p' =>
    rw [hrun] at hxp
    exact hxp
  | ok a p' =>
    rw [hrun] at hxp
    have hkp := hk a p'
    simp only at hxp ⊢
    cases hrun' : (k a).run p' with
    | error e p'' =>
      rw [hrun'] at hkp
      exact ⟨hR.trans hxp hkp.1, hkp.2⟩
    | ok b p'' =>
      rw [hrun'] at hkp
      exact hR.trans hxp hkp

/-- A look-up at most enters a header in the static table. -/
theorem keeps_headerByIndex (hR : Parser.Closed R) (index : UInt32) :
    Keeps R (· = .hpack .unknownHeader) (Parser.headerByIndex index) := by
  intro p
  -- the static table may be changed, the dynamic one is only read
  rcases lt_or_ge index.toNat p.table.size with h | h
  · rw [headerByIndex_of_lt h]
    exact hR.subscript p _ h
  · rw [headerByIndex_of_le h]
    split
    next header _ hrun =>
      split at hrun
      · cases hrun
        exact hR.refl p
      · cases hrun
    next e p' hrun =>
      split at hrun
      · cases hrun
      · cases hrun
        exact ⟨hR.refl p, rfl⟩

theorem Keeps.mono {E' : Fault → Prop} {x : ParserM α} (hx : Keeps R E x) (hE : ∀ e, E e → E' e) :
    Keeps R E' x := by
  intro p
  have hxp := hx p
  cases hrun : x.run p with
  | error e p' =>
    rw [hrun] at hxp
    exact ⟨hxp.1, hE e hxp.2⟩
  | ok a p' =>
    rw [hrun] at hxp
    exact hxp

theorem keeps_fieldName (hR : Parser.Closed R) (name : FieldName) :
    Keeps R (· = .hpack .unknownHeader) name.apply := by
  cases name with
  | indexed index => exact (keeps_headerByIndex hR index).bind hR fun _ => keeps_pure hR _
  | literal name => exact keeps_pure hR name

/-- Applying a field fails only if an index is not in the tables. -/
theorem keeps_field (hR : Parser.Closed R) (f : Field) :
    Keeps R (· = .hpack .unknownHeader) f.apply := by
  cases f with
  | indexed index =>
    exact (keeps_headerByIndex hR index).bind hR fun h => keeps_modify fun p => hR.push p h
  | literal name value incremental =>
    refine (keeps_fieldName hR name).bind hR fun key => ?_
    refine (keeps_modify fun p => hR.push p _).bind hR fun _ => ?_
    split_ifs
    · exact keeps_modify fun p => hR.insert p _
    · exact keeps_pure hR _
  | sizeUpdate size => exact keeps_modify fun p => hR.resize p size

theorem keeps_applyAll (hR : Parser.Closed R) (fields : List Field) :
    Keeps R (· = .hpack .unknownHeader) (applyAll fields) := by
  induction fields with
  | nil => exact keeps_pure hR ()
  | cons f fields ih => exact (keeps_field hR f).bind hR fun _ => ih

private theorem decoding_of_eq {e : Fault} (h : e = .hpack .unknownHeader) : e.Decoding := .inl h

/-- An iteration of the loop fails only with an exception of the decoder. -/
theorem keeps_parseField (hR : Parser.Closed R) (pos : Octets) :
    Keeps R Fault.Decoding (Parser.parseField pos) := by
  cases hread : Field.read pos with
  | ok fr =>
    obtain ⟨f, rest⟩ := fr
    rw [parseField_of_read hread]
    exact ((keeps_field hR f).mono fun _ => decoding_of_eq).bind hR fun _ => keeps_pure hR rest
  | error e =>
    obtain ⟨name, -, heq⟩ := parseField_of_read_error hread
    rw [heq]
    refine Keeps.bind hR ?_ fun _ => keeps_throw hR (failsWith_read _ _ hread)
    cases name with
    | none => exact keeps_pure hR ()
    | some name =>
      exact ((keeps_fieldName hR name).mono fun _ => decoding_of_eq).bind hR fun _ =>
        keeps_pure hR ()

/-- So does the loop. -/
theorem keeps_parseLoop (hR : Parser.Closed R) (n : ℕ) (pos : Octets) :
    Keeps R Fault.Decoding (Parser.parseLoop n pos) := by
  induction n generalizing pos with
  | zero =>
    cases pos with
    | nil => exact keeps_pure hR ()
    | cons b pos => exact keeps_throw hR (.inr (.inl rfl))
  | succ n ih =>
    cases pos with
    | nil => exact keeps_pure hR ()
    | cons b pos =>
      -- an iteration, and then a loop with less fuel or the error of a stuck one
      refine (keeps_parseField hR _).bind hR fun next => ?_
      split_ifs
      · exact keeps_throw hR (.inr (.inl rfl))
      · exact ih next

end Keeps

/-! ## How `parse` ends -/

/-- What `parse` returns at the end of the payload. -/
def Parser.completion (flags : UInt8) : Error :=
  if flags &&& (Characteristics.Headers.endHeaders ||| Characteristics.Headers.endStream) ≠ 0 then
    .done
  else .more

/-- What the `try` block and its handler make of the end of the loop. -/
def Parser.caught (flags : UInt8) :
    EStateM.Result Fault Parser Unit → EStateM.Result Fault Parser Error
  | .ok () p => .ok (Parser.completion flags) p
  | .error (.hpack e) p => .ok e p
  | .error e p => .error e p

theorem parseBlock_eq (flags : UInt8) (payload : Octets) :
    Parser.parseBlock flags payload = do
      Parser.parseLoop payload.length payload
      return Parser.completion flags := by
  unfold Parser.parseBlock Parser.completion
  split_ifs <;> rfl

/-- If the payload of the frame cannot be had, `parse` fails and does nothing. -/
theorem parse_of_ofFrame_error {f : Frame} {e : Fault} (h : HeadersPayload.ofFrame f = .error e)
    (p : Parser) : (Parser.parse f).run p = .error e p := by
  simp [Parser.parse, h]

/-- What `parse` makes of the end of its loop. -/
theorem parse_of_ofFrame {f : Frame} {payload : HeadersPayload}
    (h : HeadersPayload.ofFrame f = .ok payload) (p : Parser) :
    (Parser.parse f).run p =
      Parser.caught f.flags ((Parser.parseLoop payload.data.length payload.data).run p) := by
  simp only [Parser.parse, h, ofExcept_ok, pure_bind, parseBlock_eq]
  show (tryCatch _ _ : ParserM Error).run p = _
  simp only [EStateM.run_tryCatch, EStateM.run_bind]
  -- the handler of the `try` block is for exceptions of the decoder
  cases hrun : (Parser.parseLoop payload.data.length payload.data).run p with
  | ok a p' => rfl
  | error e p' => cases e <;> rfl

/-- The ways `parse` can end, and that the parser moves along `R`. -/
inductive ParseEnd (R : Parser → Parser → Prop) (f : Frame) (p : Parser) :
    EStateM.Result Fault Parser Error → Prop
  /-- The payload cannot be had. -/
  | payload {e : Fault} : HeadersPayload.ofFrame f = .error e → ParseEnd R f p (.error e p)
  /-- The whole payload has been decoded. -/
  | completed {p' : Parser} : R p p' → ParseEnd R f p (.ok (Parser.completion f.flags) p')
  /-- The payload has not been decoded. -/
  | failed {e : Error} {p' : Parser} : e = .unknownHeader ∨ e = .invalid → R p p' →
    ParseEnd R f p (.ok e p')
  /-- The same, but `parse` does not catch the exception. -/
  | raised {e : StdException} {p' : Parser} : R p p' → ParseEnd R f p (.error (.std e) p')

theorem parse_cases {R : Parser → Parser → Prop} (hR : Parser.Closed R) (f : Frame) (p : Parser) :
    ParseEnd R f p ((Parser.parse f).run p) := by
  cases h : HeadersPayload.ofFrame f with
  | error e =>
    rw [parse_of_ofFrame_error h]
    exact .payload h
  | ok payload =>
    rw [parse_of_ofFrame h]
    have hloop := keeps_parseLoop hR payload.data.length payload.data p
    cases hrun : (Parser.parseLoop payload.data.length payload.data).run p with
    | ok a p' =>
      rw [hrun] at hloop
      exact .completed hloop
    | error e p' =>
      rw [hrun] at hloop
      obtain ⟨hp', rfl | rfl | rfl⟩ := hloop
      · exact .failed (.inl rfl) hp'
      · exact .failed (.inr rfl) hp'
      · exact .raised hp'

/-- Every look-up, insertion and size update is allowed. -/
theorem closed_true : Parser.Closed fun _ _ => True where
  refl _ := trivial
  trans _ _ := trivial
  subscript _ _ _ := trivial
  push _ _ := trivial
  insert _ _ := trivial
  resize _ _ := trivial

/-- An exception that leaves `parse` is a `std::exception`, or that of the payload. -/
theorem parse_error {f : Frame} {p p' : Parser} {e : Fault}
    (h : (Parser.parse f).run p = .error e p') :
    HeadersPayload.ofFrame f = .error e ∨ ∃ e', e = .std e' := by
  have hparse := parse_cases closed_true f p
  rw [h] at hparse
  cases hparse with
  | payload hf => exact .inl hf
  | raised => exact .inr ⟨_, rfl⟩

/-- Whatever `parse` returns, the parser has moved along `R`. -/
theorem rel_of_parse_ok {R : Parser → Parser → Prop} (hR : Parser.Closed R) {f : Frame}
    {p p' : Parser} {e : Error} (h : (Parser.parse f).run p = .ok e p') : R p p' := by
  have hparse := parse_cases hR f p
  rw [h] at hparse
  cases hparse with
  | completed hp' => exact hp'
  | failed _ hp' => exact hp'

/-- The decoded headers only become more until `result` moves them away. -/
theorem closed_decoded : Parser.Closed fun p p' => p.decoded <+: p'.decoded where
  refl _ := List.prefix_rfl
  trans := List.IsPrefix.trans
  subscript _ _ _ := List.prefix_rfl
  push p h := List.prefix_append p.decoded [h]
  insert _ _ := List.prefix_rfl
  resize _ _ := List.prefix_rfl

/-- On a payload that is a list of fields, `parse` applies them. -/
theorem parse_of_many {f : Frame} {payload : HeadersPayload}
    (h : HeadersPayload.ofFrame f = .ok payload) {fields : List Field}
    (hmany : Many Field.read payload.data fields []) (p : Parser) :
    (Parser.parse f).run p = Parser.caught f.flags ((applyAll fields).run p) := by
  rw [parse_of_ofFrame h, parseLoop_eq_applyAll hmany le_rfl]

/-- If no index is missing, then `parse` applies the fields and tells whether more is to come. -/
theorem parse_of_applyAll {f : Frame} (h : HeadersPayload.Readable f) {fields : List Field}
    (hmany : Many Field.read (HeadersPayload.fragment f) fields []) {p p' : Parser}
    (happly : (applyAll fields).run p = .ok () p') :
    (Parser.parse f).run p = .ok (Parser.completion f.flags) p' := by
  obtain ⟨payload, hpayload, hdata⟩ := HeadersPayload.ofFrame_eq_ok_iff.mpr h
  rw [parse_of_many hpayload (hdata.symm ▸ hmany), happly]
  rfl

end Hpack

end Rite
