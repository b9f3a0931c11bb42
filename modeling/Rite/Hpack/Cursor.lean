import Rite.Hpack.Block

/-!
# Positions in the header block

The decoder once more, with its iterators: a position is an offset into a vector of octets, it can
be moved past the end, and the loop of `parse` goes on until it *is* the end. Every octet is
dereferenced at a position, and a call that does so at the end or behind it goes no further.

`parse_string` also takes the address `&(*pos)` of the octets that it copies, even if there are none
to copy. Whether this is to count as a dereference is left open by an argument.

## Main results

* `decode_cases`: an integer is decoded as on the list of octets from its position on;
* `parseString_of_overruns`, `parseString_of_not_overruns`: a string literal that begins at the end
  is read out of bounds, and any other as on lists of octets;
* `parseField_cases`: so is a field.
-/

namespace Rite

namespace Hpack

open Characteristics

/-- How a call ends when it does not return. -/
inductive Trap
  /-- An exception, or what else the functions on lists of octets end in. -/
  | fault (e : Fault)
  /-- There is no octet at a position that is dereferenced. -/
  | outOfBounds
  deriving DecidableEq

/-- A call that works on a parser and dereferences positions. -/
abbrev CursorM := EStateM Trap Parser

namespace Cursor

/-- `*pos`. -/
def deref (data : Octets) (pos : ℕ) : Except Trap Octet :=
  if h : pos < data.length then .ok data[pos] else .error .outOfBounds

/-- The octets from a position on, of which a container is made. -/
def copy (data : Octets) (pos count : ℕ) : Except Trap Octets :=
  if pos + count ≤ data.length then .ok ((data.drop pos).take count) else .error .outOfBounds

/-- `&(*pos)`, which may count as a dereference. -/
def address (counts : Bool) (data : Octets) (pos : ℕ) : Except Trap Unit :=
  if counts then (deref data pos).map fun _ => () else .ok ()

/-- A call that leaves the parser alone. -/
def ofExcept {α : Type} : Except Trap α → CursorM α
  | .ok a => pure a
  | .error e => throw e

/-- The end of a call that dereferences nothing. -/
def ofResult {α : Type} : EStateM.Result Fault Parser α → EStateM.Result Trap Parser α
  | .ok a p => .ok a p
  | .error e p => .error (.fault e) p

/-- A call that dereferences nothing. -/
def ofParserM {α : Type} (x : ParserM α) : CursorM α := fun p => ofResult (x.run p)

/-! ## The payload -/

/-- The four octets of the stream dependency. -/
def dependency (data : Octets) (pos : ℕ) : Except Trap UInt32 := do
  let b0 ← deref data pos
  let b1 ← deref data (pos + 1)
  let b2 ← deref data (pos + 2)
  let b3 ← deref data (pos + 3)
  return HeadersPayload.ntohl (Frame.ofBigEndian b0 b1 b2 b3)

/-- A field that is zero unless its flag is set. -/
def optional {α : Type} [OfNat α 0] (flag : Prop) [Decidable flag] (field : Except Trap α) :
    Except Trap α :=
  if flag then field else .ok 0

/-- `h2::payload<h2::frame::HEADERS>::payload`. -/
def payload (f : Frame) : Except Trap HeadersPayload := do
  let padLength ← optional (f.flags &&& Headers.padded ≠ 0) (deref f.data 0)
  let pos := if f.flags &&& Headers.padded ≠ 0 then 1 else 0
  -- `end - pos < 4`
  if f.flags &&& Headers.priority ≠ 0 ∧ f.data.length < pos + 4 then
    throw (.fault (.frameState .invalid))
  else
    let streamDependency ← optional (f.flags &&& Headers.priority ≠ 0) (dependency f.data pos)
    let weight ← optional (f.flags &&& Headers.priority ≠ 0) (deref f.data (pos + 4))
    let pos := HeadersPayload.offset f
    -- `assert(end - pos > pad_length)`
    if f.data.length ≤ pos + padLength.toNat then throw (.fault .assertion)
    else if pos < padLength.toNat then throw (.fault (.std (.lengthError "vector::reserve")))
    else
      let data ← copy f.data pos (f.data.length - padLength.toNat - pos)
      return { padLength, streamDependency, weight, data }

/-! ## Integers and strings -/

/-- The loop of `variable_integer<N>::decode`, from the octet `i` of its span on. -/
def decodeRest (data : Octets) (value shift : UInt32) (bytes i : ℕ) : Except Trap (UInt32 × ℕ) :=
  if i < data.length then do
    let byte ← deref data i
    let value := value + ((byte &&& 0x7F).toUInt32 <<< shift)
    if byte &&& 0x80 = 0 then return (value, bytes + 1)
    else decodeRest data value (shift + 7) (bytes + 1) (i + 1)
  else return (value, bytes)
termination_by data.length - i

/-- `variable_integer<N>::decode`. -/
def decode (N : ℕ) (data : Octets) : Except Trap (UInt32 × ℕ) := do
  if data = [] then throw (.fault (.std (.invalidArgument "Data cannot be empty")))
  let first ← deref data 0
  let pfx := first &&& (0xFF >>> UInt8.ofNat (8 - N))
  if pfx.toUInt32 < VariableInteger.prefixMax N then return (pfx.toUInt32, 1)
  else decodeRest data (VariableInteger.prefixMax N) 0 1 1

variable (counts : Bool) (block : Octets)

/-- `parse_string`. -/
def parseString (pos : ℕ) : Except Trap (Octets × ℕ) := do
  let first ← deref block pos
  let (length, len) ← decode 7 (block.drop pos)
  let pos := pos + len
  if block.length < pos + length.toNat then throw (.fault (.hpack .invalid))
  let _ ← address counts block pos
  let raw ← copy block pos length.toNat
  return (if first &&& 0x80 ≠ 0 then decoder.decode raw else raw, pos + length.toNat)

/-- The name of a literal. -/
def parseName (index : UInt32) (pos : ℕ) : CursorM (Octets × ℕ) := do
  if index = 0 then ofExcept (parseString counts block pos)
  else
    let header ← ofParserM (Parser.headerByIndex index)
    return (header.key, pos)

/-! ## The loop -/

/-- An iteration of the loop of `parse`, up to the label `next`. -/
def parseField (pos : ℕ) : CursorM ℕ := do
  let start ← ofExcept (deref block pos)
  -- indexed
  if start &&& 0x80 ≠ 0 then
    let (index, len) ← ofExcept (decode 7 (block.drop pos))
    let header ← ofParserM (Parser.headerByIndex index)
    modify (Parser.push header)
    return pos + len
  -- literal, with indexing
  if start &&& 0x40 ≠ 0 then
    let (index, len) ← ofExcept (decode 6 (block.drop pos))
    let (key, pos) ← parseName counts block index (pos + len)
    let (value, pos) ← ofExcept (parseString counts block pos)
    modify (Parser.push ⟨key, value⟩)
    modify (Parser.insert ⟨key, value⟩)
    return pos
  -- dynamic table size update
  if start &&& 0x20 ≠ 0 then
    let (size, len) ← ofExcept (decode 5 (block.drop pos))
    modify (Parser.resize size)
    return pos + len
  -- literal, not indexed
  let (index, len) ← ofExcept (decode 4 (block.drop pos))
  let (key, pos) ← parseName counts block index (pos + len)
  let (value, pos) ← ofExcept (parseString counts block pos)
  modify (Parser.push ⟨key, value⟩)
  return pos

/-- An iteration, with the detection of infinite loops. -/
def iteration (pos : ℕ) : CursorM ℕ := do
  let next ← parseField counts block pos
  if next = pos then throw (.fault (.hpack .invalid))
  return next

/-- The loop of `parse`, with a bound on its iterations. -/
def parseLoop : ℕ → ℕ → CursorM Unit
  | n, pos =>
    if pos = block.length then pure ()
    else match n with
      | 0 => throw (.fault (.hpack .invalid))
      | n + 1 => do
        let next ← iteration counts block pos
        parseLoop n next

/-- The `try` block of `parse`. -/
def parseBlock (flags : UInt8) : CursorM Error := do
  parseLoop counts block block.length 0
  return Parser.completion flags

/-- `parse`. -/
def parse (f : Frame) : CursorM Error := do
  let headers ← ofExcept (payload f)
  tryCatch (parseBlock counts headers.data f.flags) fun
    | .fault (.hpack e) => return e
    | e => throw e

/-! ## Dereferences -/

section Deref

variable {data : Octets} {pos count : ℕ}

theorem deref_of_lt (h : pos < data.length) : deref data pos = .ok (data.getD pos 0) := by
  rw [deref, dif_pos h, List.getD_eq_getElem _ _ h]

theorem deref_of_le (h : data.length ≤ pos) : deref data pos = .error .outOfBounds :=
  dif_neg (not_lt.mpr h)

theorem copy_of_le (h : pos + count ≤ data.length) :
    copy data pos count = .ok ((data.drop pos).take count) := if_pos h

end Deref

theorem decodeRest_eq (data : Octets) (value shift : UInt32) (bytes i : ℕ) :
    decodeRest data value shift bytes i =
      .ok (VariableInteger.decodeRest value shift bytes (data.drop i)) := by
  fun_induction decodeRest data value shift bytes i with
  | case1 value shift bytes i hi ih =>
    -- the octet at the position is the first of the remaining ones
    rw [List.drop_eq_getElem_cons hi, VariableInteger.decodeRest, deref, dif_pos hi]
    simp only [bind, Except.bind]
    split_ifs with hlast
    · rfl
    · exact ih _
  | case2 value shift bytes i hi =>
    rw [List.drop_eq_nil_of_le (not_lt.mp hi)]
    rfl

/-- `decode` only dereferences octets of its span. -/
theorem decode_eq (N : ℕ) (data : Octets) :
    decode N data = (VariableInteger.decode N data).mapError .fault := by
  cases data with
  | nil => rfl
  | cons first data =>
    rw [decode, VariableInteger.decode, deref_of_lt (by simp), List.getD_cons_zero,
      if_neg (List.cons_ne_nil first data)]
    simp only [bind, Except.bind, pure, Except.pure, decodeRest_eq, List.drop_succ_cons,
      List.drop_zero]
    split_ifs
    · rfl
    · rfl

/-! ## Strings -/

variable {counts block} {pos : ℕ}

/-- An integer of the block is decoded as on the list of octets from its position on. -/
theorem decode_cases (N : ℕ) (hpos : pos ≤ block.length) :
    (∃ e, VariableInteger.decode N (block.drop pos) = .error e ∧
      decode N (block.drop pos) = .error (.fault e)) ∨
    ∃ value len, VariableInteger.decode N (block.drop pos) = .ok (value, len) ∧
      decode N (block.drop pos) = .ok (value, len) ∧ pos + len ≤ block.length := by
  rw [decode_eq]
  cases hdec : VariableInteger.decode N (block.drop pos) with
  | error e => exact .inl ⟨e, rfl, rfl⟩
  | ok r =>
    obtain ⟨value, len⟩ := r
    have hle := (VariableInteger.decode_bytes hdec).2
    rw [List.length_drop] at hle
    exact .inr ⟨value, len, rfl, rfl, by omega⟩

/-- At a string literal that begins here, `parse_string` dereferences the end: there is no octet, or
there are none of the string, whose address it takes. -/
def Overruns (counts : Bool) (rest : Octets) : Prop :=
  rest = [] ∨ counts = true ∧ readInteger 7 rest = .ok (0, [])

theorem parseString_of_overruns (h : Overruns counts (block.drop pos)) :
    parseString counts block pos = .error .outOfBounds := by
  rcases h with hend | ⟨rfl, hread⟩
  · rw [List.drop_eq_nil_iff] at hend
    rw [parseString, deref_of_le hend]
    rfl
  · obtain ⟨len, hdec, hrest⟩ := readInteger_eq_ok.mp hread
    have hlt : pos < block.length := by
      by_contra hge
      rw [List.drop_eq_nil_of_le (not_lt.mp hge)] at hdec
      cases hdec
    -- nothing follows the length, so that the address is that of the end
    have hend : pos + len = block.length := by
      have hle := (VariableInteger.decode_bytes hdec).2
      rw [List.drop_drop, eq_comm, List.drop_eq_nil_iff] at hrest
      rw [List.length_drop] at hle
      omega
    rw [parseString, deref_of_lt hlt, decode_eq, hdec]
    simp only [bind, Except.bind, Except.mapError, hend, UInt32.toNat_zero, Nat.add_zero,
      lt_irrefl, if_false, address, if_true, deref_of_le le_rfl]
    rfl

/-- Elsewhere it does what `parse_string` on lists of octets does. -/
theorem parseString_of_not_overruns (hpos : pos ≤ block.length)
    (h : ¬ Overruns counts (block.drop pos)) :
    (∃ e, Parser.parseString (block.drop pos) = .error e ∧
      parseString counts block pos = .error (.fault e)) ∨
    ∃ s next, Parser.parseString (block.drop pos) = .ok (s, block.drop next) ∧
      parseString counts block pos = .ok (s, next) ∧ next ≤ block.length := by
  rw [Overruns, not_or, List.drop_eq_nil_iff, not_le] at h
  obtain ⟨hlt, hempty⟩ := h
  have hfirst : (block.drop pos).headD 0 = block.getD pos 0 := by
    rw [List.drop_eq_getElem_cons hlt, List.headD_cons, List.getD_eq_getElem _ _ hlt]
  rw [parseString, Parser.parseString, deref_of_lt hlt, hfirst]
  rcases decode_cases 7 hpos with ⟨e, hlist, hdec⟩ | ⟨length, len, hlist, hdec, hle⟩
  · rw [hlist, hdec]
    exact .inl ⟨e, rfl, rfl⟩
  · rw [hlist, hdec]
    simp only [bind, Except.bind, List.drop_drop, List.length_drop]
    -- the check of the length is the same on positions and on lists
    by_cases hshort : block.length < pos + len + length.toNat
    · refine .inl ⟨.hpack .invalid, ?_, ?_⟩
      · rw [if_pos (by omega)]
        rfl
      · rw [if_pos hshort]
        rfl
    · -- the address is that of an octet of the string, or of what follows
      have haddress : address counts block (pos + len) = .ok () := by
        unfold address
        split_ifs with hcounts
        · rw [deref_of_lt, Except.map]
          by_contra hend
          have hzero : length = 0 := UInt32.toNat_inj.mp (by rw [UInt32.toNat_zero]; omega)
          refine hempty ⟨hcounts, readInteger_eq_ok.mpr ⟨len, hzero ▸ hlist, ?_⟩⟩
          rw [List.drop_drop, List.drop_eq_nil_of_le (by omega)]
        · rfl
      set raw := (block.drop (pos + len)).take length.toNat
      refine .inr ⟨if block.getD pos 0 &&& 0x80 ≠ 0 then decoder.decode raw else raw,
        pos + len + length.toNat, ?_, ?_, by omega⟩
      · rw [if_neg (by omega)]
        rfl
      · rw [if_neg hshort, haddress, copy_of_le (by omega)]
        rfl

/-! ## An iteration -/

/-- The parser `p` comes to a string literal at `s` in the literal field at `rest`, whose index has
an `N`-bit prefix. -/
inductive Comes (p : Parser) (N : ℕ) (rest : Octets) : Octets → Prop
  /-- The name is a string. -/
  | name {s : Octets} : readInteger N rest = .ok (0, s) → Comes p N rest s
  /-- The name can be read, and it is in the tables if it is an index. -/
  | value {index : UInt32} {m s : Octets} {name : FieldName} {key : Octets} {p' : Parser} :
    readInteger N rest = .ok (index, m) → FieldName.read index m = .ok (name, s) →
    name.apply.run p = .ok key p' → Comes p N rest s

/-- The bits of the prefix in a literal field that begins with the octet. -/
def literalPrefix (start : Octet) : Option ℕ :=
  if start &&& 0x80 ≠ 0 then none
  else if start &&& 0x40 ≠ 0 then some 6
  else if start &&& 0x20 ≠ 0 then none
  else some 4

/-- The parser comes to a string literal at `s` in the field at `rest`. -/
def ComesAt (p : Parser) (rest s : Octets) : Prop :=
  ∃ N ∈ literalPrefix (rest.headD 0), Comes p N rest s

/-- Once the index is read, the rest tells where the strings are. -/
theorem comes_iff {p : Parser} {N : ℕ} {rest m s : Octets} {index : UInt32}
    (hread : readInteger N rest = .ok (index, m)) :
    Comes p N rest s ↔ index = 0 ∧ s = m ∨ ∃ name key p',
      FieldName.read index m = .ok (name, s) ∧ name.apply.run p = .ok key p' := by
  constructor
  · rintro (hname | ⟨hname, hvalue, happly⟩)
    · rw [hread, Except.ok.injEq, Prod.mk.injEq] at hname
      exact .inl ⟨hname.1, hname.2.symm⟩
    · rw [hread, Except.ok.injEq, Prod.mk.injEq] at hname
      obtain ⟨rfl, rfl⟩ := hname
      exact .inr ⟨_, _, _, hvalue, happly⟩
  · rintro (⟨rfl, rfl⟩ | ⟨name, key, p', hvalue, happly⟩)
    · exact .name hread
    · exact .value hread hvalue happly

/-- A call with positions ends as the call on lists of octets does. -/
inductive Agrees (block : Octets) :
    EStateM.Result Trap Parser ℕ → EStateM.Result Fault Parser Octets → Prop
  | ok {next : ℕ} {p : Parser} : next ≤ block.length →
    Agrees block (.ok next p) (.ok (block.drop next) p)
  | error {e : Fault} {p : Parser} : Agrees block (.error (.fault e) p) (.error e p)

@[simp] theorem ofExcept_ok {α : Type} (a : α) : ofExcept (.ok a) = pure a := rfl

@[simp] theorem ofExcept_error {α : Type} (e : Trap) :
    ofExcept (.error e : Except Trap α) = throw e := rfl

theorem ofParserM_run {α : Type} (x : ParserM α) (p : Parser) :
    (ofParserM x).run p = ofResult (x.run p) := rfl

@[simp] theorem ofResult_ok {α : Type} (a : α) (p : Parser) :
    ofResult (.ok a p) = .ok a p := rfl

@[simp] theorem ofResult_error {α : Type} (e : Fault) (p : Parser) :
    ofResult (.error e p : EStateM.Result Fault Parser α) = .error (.fault e) p := rfl

theorem ofParserM_bind {α β : Type} (x : ParserM α) (k : α → ParserM β) :
    ofParserM (x >>= k) = ofParserM x >>= fun a => ofParserM (k a) := by
  funext p
  change EStateM.run (ofParserM (x >>= k)) p =
    EStateM.run (ofParserM x >>= fun a => ofParserM (k a)) p
  simp only [EStateM.run_bind, ofParserM_run]
  cases x.run p <;> rfl

/-- What both literal branches of the loop begin with; `k` is what they do then. -/
private def withLiteral (counts : Bool) (block : Octets) (N pos : ℕ)
    (k : Header → ℕ → CursorM ℕ) : CursorM ℕ := do
  let (index, len) ← ofExcept (decode N (block.drop pos))
  let (key, pos) ← parseName counts block index (pos + len)
  let (value, pos) ← ofExcept (parseString counts block pos)
  k ⟨key, value⟩ pos

section Literal

variable {N : ℕ} {k : Header → ℕ → CursorM ℕ} {k' : Header → Octets → ParserM Octets}
  (hk : ∀ h next p, next ≤ block.length →
    Agrees block ((k h next).run p) ((k' h (block.drop next)).run p))

include hk

/-- The value of a literal is read out of bounds, or as on lists of octets. -/
private theorem value_cases (hpos : pos ≤ block.length) (key : Octets) (p : Parser) :
    Overruns counts (block.drop pos) ∧
      (∃ p', (do
        let (value, pos) ← ofExcept (parseString counts block pos)
        k ⟨key, value⟩ pos).run p = .error .outOfBounds p') ∨
    ¬ Overruns counts (block.drop pos) ∧ Agrees block
      ((do
        let (value, pos) ← ofExcept (parseString counts block pos)
        k ⟨key, value⟩ pos).run p)
      ((do
        let (value, pos) ← Hpack.ofExcept (Parser.parseString (block.drop pos))
        k' ⟨key, value⟩ pos).run p) := by
  by_cases hover : Overruns counts (block.drop pos)
  · rw [parseString_of_overruns hover]
    exact .inl ⟨hover, p, rfl⟩
  · refine .inr ⟨hover, ?_⟩
    rcases parseString_of_not_overruns hpos hover with
      ⟨e, hlist, hparse⟩ | ⟨s, next, hlist, hparse, hnext⟩
    · rw [hlist, hparse]
      exact .error
    · rw [hlist, hparse]
      exact hk _ _ _ hnext

/-- So are the strings of a literal. -/
private theorem withLiteral_cases (hpos : pos ≤ block.length) (p : Parser) :
    (∃ s, Comes p N (block.drop pos) s ∧ Overruns counts s) ∧
      (∃ p', (withLiteral counts block N pos k).run p = .error .outOfBounds p') ∨
    (∀ s, Comes p N (block.drop pos) s → ¬ Overruns counts s) ∧
      Agrees block ((withLiteral counts block N pos k).run p)
        ((Hpack.withLiteral N (block.drop pos) k').run p) := by
  unfold withLiteral Hpack.withLiteral
  rcases decode_cases N hpos with ⟨e, hlist, hdec⟩ | ⟨index, len, hlist, hdec, hle⟩
  · -- there is no index
    have hread := readInteger_eq_error.mpr hlist
    rw [hlist, hdec]
    refine .inr ⟨?_, .error⟩
    rintro s (hname | ⟨hname, -, -⟩) <;> simp [hread] at hname
  have hread : readInteger N (block.drop pos) = .ok (index, block.drop (pos + len)) :=
    readInteger_eq_ok.mpr ⟨len, hlist, by rw [List.drop_drop]⟩
  rw [hlist, hdec]
  simp only [ofExcept_ok, Hpack.ofExcept_ok, pure_bind, List.drop_drop, comes_iff hread]
  rw [parseName, Parser.parseName, FieldName.read]
  by_cases h0 : index = 0
  · -- the name is a string
    subst h0
    simp only [↓reduceIte, true_and]
    by_cases hover : Overruns counts (block.drop (pos + len))
    · rw [parseString_of_overruns hover]
      exact .inl ⟨⟨_, .inl rfl, hover⟩, p, rfl⟩
    rcases parseString_of_not_overruns hle hover with
      ⟨e, hstring, hparse⟩ | ⟨key, next, hstring, hparse, hnext⟩
    · rw [hstring, hparse]
      refine .inr ⟨?_, .error⟩
      rintro s (rfl | ⟨_, _, _, hname, -⟩)
      · exact hover
      · simp [ListReader.bind, hstring] at hname
    · have hcomes (s : Octets) : (∃ name key' p', (ListReader.bind Parser.parseString fun name =>
          ListReader.pure (FieldName.literal name)) (block.drop (pos + len)) = .ok (name, s) ∧
            name.apply.run p = .ok key' p') ↔ block.drop next = s := by
        simp [ListReader.bind, ListReader.pure, hstring, FieldName.apply]
      rw [hstring, hparse]
      simp only [ofExcept_ok, Hpack.ofExcept_ok, pure_bind, hcomes]
      rcases value_cases hk hnext key p with ⟨hvalue, htrap⟩ | ⟨hvalue, hagrees⟩
      · exact .inl ⟨⟨_, .inr rfl, hvalue⟩, htrap⟩
      · refine .inr ⟨?_, hagrees⟩
        rintro s (rfl | rfl)
        · exact hover
        · exact hvalue
  · -- the name is that of a header in the tables
    simp only [h0, ↓reduceIte, false_and, false_or]
    cases hlook : (Parser.headerByIndex index).run p with
    | error e p' =>
      refine .inr ⟨?_, ?_⟩
      · rintro s ⟨_, _, _, hname, happly⟩
        cases hname
        simp [FieldName.apply, hlook] at happly
      · simp only [EStateM.run_bind, hlook, ofParserM_run, ofResult_error]
        exact .error
    | ok header p' =>
      have hcomes (s : Octets) : (∃ name key p'',
          (ListReader.pure (FieldName.indexed index) : ListReader Fault Octet FieldName)
            (block.drop (pos + len)) = .ok (name, s) ∧ name.apply.run p = .ok key p'') ↔
          block.drop (pos + len) = s := by
        simp [ListReader.pure, FieldName.apply, hlook]
      simp only [EStateM.run_bind, hlook, ofParserM_run, ofResult_ok, hcomes]
      rcases value_cases hk hle header.key p' with ⟨hvalue, htrap⟩ | ⟨hvalue, hagrees⟩
      · exact .inl ⟨⟨_, rfl, hvalue⟩, htrap⟩
      · refine .inr ⟨?_, hagrees⟩
        rintro s rfl
        exact hvalue

end Literal

/-- A field that begins with an integer alone is read within the block. -/
private theorem integer_agrees {N : ℕ} {u : UInt32 → CursorM Unit} {u' : UInt32 → ParserM Unit}
    (hu : ∀ v, u v = ofParserM (u' v)) (hpos : pos ≤ block.length) (p : Parser) :
    Agrees block
      ((do
        let (v, len) ← ofExcept (decode N (block.drop pos))
        u v
        return pos + len).run p)
      ((do
        let (v, len) ← Hpack.ofExcept (VariableInteger.decode N (block.drop pos))
        u' v
        return (block.drop pos).drop len).run p) := by
  rcases decode_cases N hpos with ⟨e, hlist, hdec⟩ | ⟨v, len, hlist, hdec, hle⟩
  · rw [hlist, hdec]
    exact .error
  · rw [hlist, hdec]
    simp only [ofExcept_ok, Hpack.ofExcept_ok, pure_bind, EStateM.run_bind, hu, ofParserM_run,
      List.drop_drop]
    cases (u' v).run p with
    | ok _ p' => exact .ok hle
    | error e p' => exact .error

/-- An iteration stops at a string literal that overruns the block, or it does what the iteration
on lists of octets does. -/
theorem parseField_cases (counts : Bool) (hpos : pos < block.length) (p : Parser) :
    (∃ s, ComesAt p (block.drop pos) s ∧ Overruns counts s) ∧
      (∃ p', (parseField counts block pos).run p = .error .outOfBounds p') ∨
    (∀ s, ComesAt p (block.drop pos) s → ¬ Overruns counts s) ∧
      Agrees block ((parseField counts block pos).run p)
        ((Parser.parseField (block.drop pos)).run p) := by
  have hfirst : (block.drop pos).headD 0 = block.getD pos 0 := by
    rw [List.drop_eq_getElem_cons hpos, List.headD_cons, List.getD_eq_getElem _ _ hpos]
  unfold parseField Parser.parseField ComesAt literalPrefix
  rw [deref_of_lt hpos, hfirst, ofExcept_ok, pure_bind]
  extract_lets start
  split_ifs with h80 h40 h20
  · -- indexed: no string literal
    refine .inr ⟨by rintro _ ⟨_, ⟨⟩, -⟩, ?_⟩
    have hagrees := integer_agrees (N := 7) (fun index => (ofParserM_bind
      (Parser.headerByIndex index) fun header => modify (Parser.push header)).symm) hpos.le p
    simp only [bind_assoc] at hagrees
    exact hagrees
  · -- literal, with indexing
    simp only [Option.mem_some_iff, exists_eq_left']
    have hcases := @withLiteral_cases counts block pos 6
      (fun header pos => do
        modify (Parser.push header)
        modify (Parser.insert header)
        return pos)
      (fun header pos => do
        modify (Parser.push header)
        modify (Parser.insert header)
        return pos) (fun h next p hnext => .ok hnext) hpos.le p
    exact hcases
  · -- dynamic table size update: no string literal either
    refine .inr ⟨by rintro _ ⟨_, ⟨⟩, -⟩, ?_⟩
    have hagrees := @integer_agrees block pos 5 (fun size => modify (Parser.resize size))
      (fun size => modify (Parser.resize size)) (fun size => rfl) hpos.le p
    exact hagrees
  · -- literal, not indexed
    simp only [Option.mem_some_iff, exists_eq_left']
    have hcases := @withLiteral_cases counts block pos 4
      (fun header pos => do
        modify (Parser.push header)
        return pos)
      (fun header pos => do
        modify (Parser.push header)
        return pos) (fun h next p hnext => .ok hnext) hpos.le p
    exact hcases

end Cursor

end Hpack

end Rite
