import Rite.Hpack.Parser
import Rite.ToMathlib.ListReader

/-!
# Header blocks as lists of fields

An iteration of the loop of `parse` reads a field representation and acts on it. The two are taken
apart here: `Field.read` reads the representation, which depends on the octets alone, and
`Field.apply` does what it says to the parser. A header block is then a list of fields, and the
loop applies them one after the other.

## Main results

* `parseField_of_read`, `parseField_of_read_error`: an iteration is a read and an application;
* `local_read`, `advances_read`: a field is read from its own octets, of which there is at least
  one.
-/

namespace Rite

namespace Hpack

open ListReader

/-- The name of a literal field: an index into the tables or a string. -/
inductive FieldName
  | indexed (index : UInt32)
  | literal (name : Octets)
  deriving DecidableEq

/-- A header field representation, or a dynamic table size update. -/
inductive Field
  | indexed (index : UInt32)
  | literal (name : FieldName) (value : Octets) (incremental : Bool)
  | sizeUpdate (size : UInt32)
  deriving DecidableEq

/-! ## Reading -/

/-- A prefix integer. -/
def readInteger (N : ℕ) : ListReader Fault Octet UInt32 := fun pos =>
  (VariableInteger.decode N pos).map fun r => (r.1, pos.drop r.2)

/-- The name of a literal whose index is `index`. -/
def FieldName.read (index : UInt32) : ListReader Fault Octet FieldName :=
  if index = 0 then ListReader.bind Parser.parseString fun name => ListReader.pure (.literal name)
  else ListReader.pure (.indexed index)

/-- A literal whose index has an `N`-bit prefix. -/
def Field.readLiteral (N : ℕ) (incremental : Bool) : ListReader Fault Octet Field :=
  ListReader.bind (readInteger N) fun index =>
    ListReader.bind (FieldName.read index) fun name =>
      ListReader.bind Parser.parseString fun value =>
        ListReader.pure (.literal name value incremental)

/-- A field whose first octet is `start`. -/
def Field.readAt (start : Octet) : ListReader Fault Octet Field :=
  if start &&& 0x80 ≠ 0 then
    ListReader.bind (readInteger 7) fun index => ListReader.pure (.indexed index)
  else if start &&& 0x40 ≠ 0 then readLiteral 6 true
  else if start &&& 0x20 ≠ 0 then
    ListReader.bind (readInteger 5) fun size => ListReader.pure (.sizeUpdate size)
  -- literals without indexing, and those that are never to be indexed
  else readLiteral 4 false

/-- A field. -/
def Field.read : ListReader Fault Octet Field := byHead 0 readAt

/-! ## Applying -/

/-- Look the name up. -/
def FieldName.apply : FieldName → ParserM Octets
  | indexed index => return (← Parser.headerByIndex index).key
  | literal name => return name

/-- Do what a field says. -/
def Field.apply : Field → ParserM Unit
  | indexed index => do
    let header ← Parser.headerByIndex index
    modify (Parser.push header)
  | literal name value incremental => do
    let key ← name.apply
    modify (Parser.push ⟨key, value⟩)
    -- without incremental indexing the header goes into `decoded_` alone
    if incremental then modify (Parser.insert ⟨key, value⟩)
  | sizeUpdate size => modify (Parser.resize size)

/-- Apply fields one after the other, up to the first exception. -/
def applyAll (fields : List Field) : ParserM Unit := fields.forM Field.apply

@[simp] theorem applyAll_nil : applyAll [] = pure () := rfl

@[simp] theorem applyAll_cons (f : Field) (fields : List Field) :
    applyAll (f :: fields) = f.apply >>= fun _ => applyAll fields := rfl

/-- To apply a list of fields is to apply its beginning, and then the rest. -/
theorem applyAll_append_eq_ok {fields fields' : List Field} {p p'' : Parser}
    (h : (applyAll (fields ++ fields')).run p = .ok () p'') :
    ∃ p', (applyAll fields).run p = .ok () p' ∧ (applyAll fields').run p' = .ok () p'' := by
  induction fields generalizing p with
  | nil => exact ⟨p, rfl, h⟩
  | cons f fields ih =>
    rw [List.cons_append, applyAll_cons, EStateM.run_bind] at h
    cases hf : f.apply.run p with
    | error e p' =>
      rw [hf] at h
      cases h
    | ok u p' =>
      rw [hf] at h
      obtain ⟨p₂, hfields, hrest⟩ := ih h
      refine ⟨p₂, ?_, hrest⟩
      rw [applyAll_cons, EStateM.run_bind, hf]
      exact hfields

/-! ## Fields are read locally -/

theorem readInteger_eq_ok {N : ℕ} {pos rest : Octets} {v : UInt32} :
    readInteger N pos = .ok (v, rest) ↔
      ∃ len, VariableInteger.decode N pos = .ok (v, len) ∧ rest = pos.drop len := by
  unfold readInteger
  cases VariableInteger.decode N pos with
  | error e => simp [Except.map]
  | ok r =>
    obtain ⟨v', len⟩ := r
    simp only [Except.map, Except.ok.injEq, Prod.mk.injEq]
    constructor
    · rintro ⟨rfl, rfl⟩
      exact ⟨len, ⟨rfl, rfl⟩, rfl⟩
    · rintro ⟨len', ⟨rfl, rfl⟩, rfl⟩
      exact ⟨rfl, rfl⟩

theorem advances_readInteger (N : ℕ) : Advances (readInteger N) := by
  intro pos rest v h
  obtain ⟨len, hdec, rfl⟩ := readInteger_eq_ok.mp h
  have := VariableInteger.decode_bytes hdec
  rw [List.length_drop]
  omega

theorem local_readInteger (N : ℕ) : Local (readInteger N) where
  suffix {pos rest v} h := by
    obtain ⟨len, -, rfl⟩ := readInteger_eq_ok.mp h
    exact List.drop_suffix len pos
  of_append {p p' q v} hq h := by
    obtain ⟨len, hdec, hrest⟩ := readInteger_eq_ok.mp h
    have hbytes := VariableInteger.decode_bytes hdec
    have hlen := congrArg List.length hrest
    simp only [List.length_append, List.length_drop] at hbytes hlen
    have hle : len ≤ p.length := by omega
    -- the integer takes none of the octets that are added
    rw [List.drop_append_of_le_length hle, List.append_left_inj] at hrest
    exact readInteger_eq_ok.mpr ⟨len, VariableInteger.decode_of_append hq hdec hle, hrest⟩

/-- `parse_string` reads a length and then that many octets. -/
theorem parseString_eq : Parser.parseString = byHead 0 fun b =>
    ListReader.bind (readInteger 7) fun length =>
      ListReader.bind (chunk (.hpack .invalid) length.toNat) fun raw =>
        ListReader.pure (if b &&& 0x80 ≠ 0 then decoder.decode raw else raw) := by
  funext pos
  unfold Parser.parseString byHead ListReader.bind readInteger chunk ListReader.pure
  beta_reduce
  cases VariableInteger.decode 7 pos with
  | error e => rfl
  | ok r =>
    obtain ⟨length, len⟩ := r
    show (if (pos.drop len).length < length.toNat then _ else _) = _
    simp only [Except.map]
    split_ifs <;> rfl

theorem local_parseString : Local Parser.parseString := by
  rw [parseString_eq]
  exact local_byHead
    (fun _ => (local_readInteger 7).bind fun _ => (local_chunk _ _).bind fun _ => local_pure _)
    (fun _ => (advances_readInteger 7).bind fun _ => (local_chunk _ _).bind fun _ => local_pure _)

theorem local_fieldName_read (index : UInt32) : Local (FieldName.read index) := by
  unfold FieldName.read
  split_ifs
  · exact local_parseString.bind fun _ => local_pure _
  · exact local_pure _

private theorem local_literalRest (incremental : Bool) (index : UInt32) :
    Local (ListReader.bind (FieldName.read index) fun name =>
      ListReader.bind Parser.parseString fun value =>
        ListReader.pure (Field.literal name value incremental)) :=
  (local_fieldName_read index).bind fun _ => local_parseString.bind fun _ => local_pure _

private theorem local_readAt (start : Octet) : Local (Field.readAt start) := by
  unfold Field.readAt Field.readLiteral
  split_ifs
  · exact (local_readInteger 7).bind fun _ => local_pure _
  · exact (local_readInteger 6).bind (local_literalRest true)
  · exact (local_readInteger 5).bind fun _ => local_pure _
  · exact (local_readInteger 4).bind (local_literalRest false)

private theorem advances_readAt (start : Octet) : Advances (Field.readAt start) := by
  unfold Field.readAt Field.readLiteral
  split_ifs
  · exact (advances_readInteger 7).bind fun _ => local_pure _
  · exact (advances_readInteger 6).bind (local_literalRest true)
  · exact (advances_readInteger 5).bind fun _ => local_pure _
  · exact (advances_readInteger 4).bind (local_literalRest false)

/-- A field takes at least one octet. -/
theorem advances_read : Advances Field.read := advances_byHead advances_readAt

/-- A field is read from its own octets. -/
theorem local_read : Local Field.read := local_byHead local_readAt advances_readAt

/-! ## An iteration of the loop -/

@[simp] theorem ofExcept_ok {α : Type} (a : α) : ofExcept (.ok a) = pure a := rfl

@[simp] theorem ofExcept_error {α : Type} (e : Fault) :
    ofExcept (.error e : Except Fault α) = throw e := rfl

@[simp] theorem run_throw {ε σ α : Type} (e : ε) (s : σ) :
    (throw e : EStateM ε σ α).run s = .error e s := rfl

@[simp] theorem throw_bind {ε σ α β : Type} (e : ε) (k : α → EStateM ε σ β) :
    (throw e : EStateM ε σ α) >>= k = throw e := rfl

theorem readInteger_eq_error {N : ℕ} {pos : Octets} {e : Fault} :
    readInteger N pos = .error e ↔ VariableInteger.decode N pos = .error e := by
  unfold readInteger
  cases VariableInteger.decode N pos <;> simp [Except.map]

/-- Reading a name and looking it up is what `parseName` does. -/
theorem parseName_of_read {index : UInt32} {pos rest : Octets} {name : FieldName}
    (h : FieldName.read index pos = .ok (name, rest)) :
    Parser.parseName index pos = do
      let key ← name.apply
      return (key, rest) := by
  unfold FieldName.read at h
  unfold Parser.parseName
  split_ifs at h ⊢ with h0
  · obtain ⟨s, m, hs, hm⟩ := bind_eq_ok.mp h
    cases hm
    rw [hs]
    rfl
  · cases h
    simp [FieldName.apply]

/-- An index that is read for a name is not zero. -/
theorem name_ne_of_read {index : UInt32} {pos rest : Octets} {name : FieldName}
    (h : FieldName.read index pos = .ok (name, rest)) : name ≠ .indexed 0 := by
  unfold FieldName.read at h
  split_ifs at h with h0
  · obtain ⟨s, m, -, hm⟩ := bind_eq_ok.mp h
    cases hm
    exact FieldName.noConfusion
  · cases h
    intro heq
    exact h0 (FieldName.indexed.inj heq)

/-- The look-up that precedes an error in the value of a literal, if there is one. -/
def visit : Option FieldName → ParserM Unit
  | none => pure ()
  | some name => name.apply >>= fun _ => pure ()

/-- What both literal branches of the loop begin with; `k` is what they do then. -/
def withLiteral (N : ℕ) (pos : Octets) (k : Header → Octets → ParserM Octets) :
    ParserM Octets := do
  let (index, len) ← ofExcept (VariableInteger.decode N pos)
  let (key, pos) ← Parser.parseName index (pos.drop len)
  let (value, pos) ← ofExcept (Parser.parseString pos)
  k ⟨key, value⟩ pos

private theorem withLiteral_of_read {N : ℕ} {incremental : Bool} {pos rest : Octets} {f : Field}
    (h : Field.readLiteral N incremental pos = .ok (f, rest))
    (k : Header → Octets → ParserM Octets) :
    ∃ name value, f = .literal name value incremental ∧
      withLiteral N pos k = name.apply >>= fun key => k ⟨key, value⟩ rest := by
  obtain ⟨index, m, hindex, hrest⟩ := bind_eq_ok.mp h
  obtain ⟨len, hdec, rfl⟩ := readInteger_eq_ok.mp hindex
  obtain ⟨name, m', hname, hrest⟩ := bind_eq_ok.mp hrest
  obtain ⟨value, m'', hvalue, hrest⟩ := bind_eq_ok.mp hrest
  simp only [ListReader.pure, Except.ok.injEq, Prod.mk.injEq] at hrest
  obtain ⟨rfl, rfl⟩ := hrest
  refine ⟨name, value, rfl, ?_⟩
  simp [withLiteral, hdec, parseName_of_read hname, hvalue]

private theorem withLiteral_of_read_error {N : ℕ} {incremental : Bool} {pos : Octets} {e : Fault}
    (h : Field.readLiteral N incremental pos = .error e) (k : Header → Octets → ParserM Octets) :
    ∃ name, name ≠ some (.indexed 0) ∧ withLiteral N pos k = visit name >>= fun _ => throw e := by
  -- the index, the name or the value cannot be read
  rcases bind_eq_error.mp h with hindex | ⟨index, m, hindex, h⟩
  · rw [readInteger_eq_error] at hindex
    exact ⟨none, by simp, by simp [withLiteral, hindex, visit]⟩
  obtain ⟨len, hdec, rfl⟩ := readInteger_eq_ok.mp hindex
  rcases bind_eq_error.mp h with hname | ⟨name, m', hname, h⟩
  · unfold FieldName.read at hname
    split_ifs at hname with h0
    · rcases bind_eq_error.mp hname with hstring | ⟨_, _, _, hpure⟩
      · exact ⟨none, by simp, by simp [withLiteral, hdec, Parser.parseName, h0, hstring, visit]⟩
      · cases hpure
    · cases hname
  rcases bind_eq_error.mp h with hvalue | ⟨value, m'', hvalue, h⟩
  · refine ⟨some name, fun h0 => name_ne_of_read hname (Option.some.inj h0), ?_⟩
    simp [withLiteral, hdec, parseName_of_read hname, hvalue, visit]
  · cases h

/-- A field that can be read is applied. -/
theorem parseField_of_read {pos rest : Octets} {f : Field} (h : Field.read pos = .ok (f, rest)) :
    Parser.parseField pos = do
      f.apply
      return rest := by
  -- `Field.readAt` branches as `parse` does
  unfold Field.read byHead Field.readAt at h
  unfold Parser.parseField
  extract_lets start
  split_ifs at h ⊢ with h80 h40 h20
  · obtain ⟨index, m, hindex, h⟩ := bind_eq_ok.mp h
    obtain ⟨len, hdec, rfl⟩ := readInteger_eq_ok.mp hindex
    cases h
    simp [hdec, Field.apply]
  · obtain ⟨name, value, rfl, heq⟩ := withLiteral_of_read h fun header pos => do
      modify (Parser.push header)
      modify (Parser.insert header)
      return pos
    refine heq.trans ?_
    simp only [Field.apply, if_true, bind_assoc]
  · obtain ⟨size, m, hsize, h⟩ := bind_eq_ok.mp h
    obtain ⟨len, hdec, rfl⟩ := readInteger_eq_ok.mp hsize
    cases h
    simp [hdec, Field.apply]
  · obtain ⟨name, value, rfl, heq⟩ := withLiteral_of_read h fun header pos => do
      modify (Parser.push header)
      return pos
    refine heq.trans ?_
    simp [Field.apply]

/-- A field that cannot be read raises the error, after at most a look-up. -/
theorem parseField_of_read_error {pos : Octets} {e : Fault} (h : Field.read pos = .error e) :
    ∃ name, name ≠ some (.indexed 0) ∧
      Parser.parseField pos = visit name >>= fun _ => throw e := by
  unfold Field.read byHead Field.readAt at h
  unfold Parser.parseField
  extract_lets start
  split_ifs at h ⊢ with h80 h40 h20
  · rcases bind_eq_error.mp h with hindex | ⟨_, _, _, hpure⟩
    · exact ⟨none, by simp, by simp [readInteger_eq_error.mp hindex, visit]⟩
    · cases hpure
  · exact withLiteral_of_read_error h fun header pos => do
      modify (Parser.push header)
      modify (Parser.insert header)
      return pos
  · rcases bind_eq_error.mp h with hsize | ⟨_, _, _, hpure⟩
    · exact ⟨none, by simp, by simp [readInteger_eq_error.mp hsize, visit]⟩
    · cases hpure
  · exact withLiteral_of_read_error h fun header pos => do
      modify (Parser.push header)
      return pos

/-- A field that is read does not name its header by the index zero. -/
theorem ne_literal_zero_of_read {pos rest : Octets} {f : Field}
    (h : Field.read pos = .ok (f, rest)) (value : Octets) (incremental : Bool) :
    f ≠ .literal (.indexed 0) value incremental := by
  have hliteral : ∀ {N inc}, Field.readLiteral N inc pos = .ok (f, rest) →
      f ≠ .literal (.indexed 0) value incremental := by
    intro N inc h heq
    obtain ⟨index, m, -, h⟩ := bind_eq_ok.mp h
    obtain ⟨name, m', hname, h⟩ := bind_eq_ok.mp h
    obtain ⟨_, _, -, h⟩ := bind_eq_ok.mp h
    cases h
    exact name_ne_of_read hname (Field.literal.inj heq).1
  unfold Field.read byHead Field.readAt at h
  split_ifs at h
  · obtain ⟨_, _, -, h⟩ := bind_eq_ok.mp h
    cases h
    exact Field.noConfusion
  · exact hliteral h
  · obtain ⟨_, _, -, h⟩ := bind_eq_ok.mp h
    cases h
    exact Field.noConfusion
  · exact hliteral h

/-! ## Errors -/

private theorem failsWith_readInteger (N : ℕ) : FailsWith (readInteger N) Fault.Decoding := by
  intro pos e h
  rw [readInteger_eq_error] at h
  cases pos with
  | nil =>
    cases h
    exact .inr (.inr rfl)
  | cons b pos =>
    simp only [VariableInteger.decode] at h
    split at h <;> cases h

theorem failsWith_parseString : FailsWith Parser.parseString Fault.Decoding := by
  rw [parseString_eq]
  intro pos
  exact ((failsWith_readInteger 7).bind fun _ =>
    (failsWith_chunk (.inr (.inl rfl)) _).bind fun _ => failsWith_pure _ _) pos

private theorem failsWith_readLiteral (N : ℕ) (incremental : Bool) :
    FailsWith (Field.readLiteral N incremental) Fault.Decoding := by
  refine (failsWith_readInteger N).bind fun index => FailsWith.bind ?_ fun name =>
    failsWith_parseString.bind fun _ => failsWith_pure _ _
  unfold FieldName.read
  split_ifs
  · exact failsWith_parseString.bind fun _ => failsWith_pure _ _
  · exact failsWith_pure _ _

/-- A field that cannot be read raises an exception of the decoder. -/
theorem failsWith_read : FailsWith Field.read Fault.Decoding := by
  intro pos
  show ∀ e, Field.readAt (pos.headD 0) pos = .error e → Fault.Decoding e
  unfold Field.readAt
  split_ifs
  · exact ((failsWith_readInteger 7).bind fun _ => failsWith_pure _ _) pos
  · exact failsWith_readLiteral 6 true pos
  · exact ((failsWith_readInteger 5).bind fun _ => failsWith_pure _ _) pos
  · exact failsWith_readLiteral 4 false pos

/-! ## Look-ups -/

theorem headerByIndex_of_lt {index : UInt32} {p : Parser} (h : index.toNat < p.table.size) :
    (Parser.headerByIndex index).run p = .ok (p.table.subscript index.toNat).1
      { p with table := (p.table.subscript index.toNat).2 } := by
  simp [Parser.headerByIndex, h]

theorem headerByIndex_of_le {index : UInt32} {p : Parser} (h : p.table.size ≤ index.toNat) :
    (Parser.headerByIndex index).run p =
      match p.headerMap[(index - UInt32.ofNat p.table.size - 1).toNat]? with
      | some header => .ok header p
      | none => .error (.hpack .unknownHeader) p := by
  simp only [Parser.headerByIndex, EStateM.run_bind, EStateM.run_get, not_lt.mpr h, if_false]
  split <;> simp_all

end Hpack

end Rite
