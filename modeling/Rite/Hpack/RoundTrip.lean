import Rite.Hpack.Block
import Rite.Hpack.HuffmanCorrect
import Rite.Hpack.Serializer

/-!
# From the serializer to the parser

One serializer writes a header block for each list, and one parser reads the blocks in order.

## Main results

* `read_field`: the parser reads back the field that the serializer wrote;
* `exchange_eq_iff`: every list arrives as it was if and only if no header is named
  `www-authenticate`. That name has the last index of the static table, which `header_by_index`
  does not look up there.
-/

namespace Rite

namespace Hpack

open ListReader VariableInteger

/-- Serialize each list for its stream, and parse the frames in order: the headers that `result`
returns for a frame, if `parse` returned `eDone`. -/
def exchange (order : List (ℕ × Header)) (tx : Serializer) (rx : Parser) :
    List (UInt32 × List Header) → List (Option (List Header))
  | [] => []
  | (streamId, list) :: lists =>
    let (frame, tx) := (tx.serialize order list).finish streamId
    match (Parser.parse frame).run rx with
    | .ok .done rx => some rx.result.1 :: exchange order tx rx.result.2 lists
    | .ok _ rx => none :: exchange order tx rx lists
    | .error _ rx => none :: exchange order tx rx lists

theorem exchange_cons (order : List (ℕ × Header)) (tx : Serializer) (rx : Parser)
    (streamId : UInt32) (list : List Header) (lists : List (UInt32 × List Header)) :
    exchange order tx rx ((streamId, list) :: lists) =
      match (Parser.parse ((tx.serialize order list).finish streamId).1).run rx with
      | .ok .done rx => some rx.decoded :: exchange order {} rx.result.2 lists
      | .ok _ rx => none :: exchange order {} rx lists
      | .error _ rx => none :: exchange order {} rx lists := rfl

/-! ## Reading a field back -/

/-- A flagged integer is read back. -/
private theorem flag_encode {N M : ℕ} (h1 : 1 ≤ N) (h8 : N ≤ 8) (hM : N ≤ M) (mask flags : Octet)
    (hmask : mask.toNat = 2 ^ M - 1) (hflags : flags.toNat % 2 ^ N = 0) (value : UInt32) :
    ∃ b bs, b.toNat < 2 ^ N ∧
      Serializer.flag mask flags (encode N value) = (flags ||| b) :: bs ∧
      ∀ rest, readInteger N ((flags ||| b) :: (bs ++ rest)) = .ok (value, rest) := by
  obtain ⟨b, bs, henc, hb, hflag⟩ := Serializer.flag_encode h8 hM mask flags hmask value
  refine ⟨b, bs, hb, hflag, fun rest => ?_⟩
  refine readInteger_eq_ok.mpr ⟨_, decode_encode h1 h8 value hflags henc rest, ?_⟩
  rw [Nat.add_comm, List.drop_succ_cons, List.drop_left]

private theorem or_0x80_and (b : Octet) : (0x80 ||| b) &&& 0x80 ≠ 0 := by
  have key : ∀ i : Fin 256, (0x80 ||| UInt8.ofNat i) &&& 0x80 ≠ 0 := by decide +kernel
  simpa using key ⟨b.toNat, b.toNat_lt⟩

private theorem or_0x40_and {b : Octet} (hb : b.toNat < 64) :
    (0x40 ||| b) &&& 0x80 = 0 ∧ (0x40 ||| b) &&& 0x40 ≠ 0 := by
  have key : ∀ i : Fin 64, (0x40 ||| UInt8.ofNat i) &&& 0x80 = 0 ∧
      (0x40 ||| UInt8.ofNat i) &&& 0x40 ≠ 0 := by decide
  simpa using key ⟨b.toNat, hb⟩

/-- A string literal is read back. -/
theorem parseString_string {s : Octets} (hs : (decoder.encode s).length < 2 ^ 32)
    (rest : Octets) : Parser.parseString (Serializer.string s ++ rest) = .ok (s, rest) := by
  obtain ⟨b, bs, -, hflag, hread⟩ := flag_encode (N := 7) (M := 8) (by norm_num) (by norm_num)
    (by norm_num) 0xFF 0b10000000 rfl rfl (UInt32.ofNat (decoder.encode s).length)
  have hlen : (UInt32.ofNat (decoder.encode s).length).toNat = (decoder.encode s).length :=
    UInt32.toNat_ofNat_of_lt hs
  rw [Serializer.string, hflag, parseString_eq, List.cons_append, List.cons_append,
    List.append_assoc]
  refine bind_eq_ok.mpr ⟨_, _, hread (decoder.encode s ++ rest), ?_⟩
  refine bind_eq_ok.mpr ⟨decoder.encode s, rest, ?_, ?_⟩
  · simp [chunk, hlen]
  · rw [List.headD_cons, if_pos (or_0x80_and b), Huffman.decode_encode]
    rfl

/-- The field that the serializer writes for a header. -/
def represent (order : List (ℕ × Header)) (h : Header) : Field :=
  match Serializer.searchIndex order h with
  | .fullyIndexed index => .indexed (UInt32.ofNat index)
  | .keyIndexed index => .literal (.indexed (UInt32.ofNat index)) h.value true
  | .literal => .literal (.literal h.key) h.value false

private theorem ofNat_ne_zero {e : ℕ × Header} (he : e ∈ staticHeaderTable.items) :
    UInt32.ofNat e.1 ≠ 0 := by
  intro h0
  have hbounds := key_eq_iff_of_mem_items e he
  have hnat := toNat_ofNat_of_mem_items he
  rw [h0, UInt32.toNat_zero] at hnat
  omega

/-- The parser reads back the field that the serializer wrote. -/
theorem read_field {order : List (ℕ × Header)} (horder : order.Perm staticHeaderTable.items)
    {h : Header} (hfits : h.Fits) (rest : Octets) :
    Field.read (Serializer.field order h ++ rest) = .ok (represent order h, rest) := by
  have hspec := Serializer.searchIndex_spec order h
  unfold Serializer.field represent
  cases hsearch : Serializer.searchIndex order h with
  | fullyIndexed index =>
    -- the index, with the flag in front of its seven bits
    obtain ⟨b, bs, -, hflag, hread⟩ := flag_encode (N := 7) (M := 8) (by norm_num) (by norm_num)
      (by norm_num) 0xFF 0b10000000 rfl rfl (UInt32.ofNat index)
    simp only [hflag, List.cons_append]
    unfold Field.read byHead Field.readAt
    rw [List.headD_cons, if_pos (or_0x80_and b)]
    exact bind_eq_ok.mpr ⟨_, _, hread rest, rfl⟩
  | keyIndexed index =>
    -- the index with the flag in front of its six bits, and the value behind it
    obtain ⟨b, bs, hb, hflag, hread⟩ := flag_encode (N := 6) (M := 6) (by norm_num) (by norm_num)
      (by norm_num) 0b00111111 0b01000000 rfl rfl (UInt32.ofNat index)
    rw [hsearch] at hspec
    obtain ⟨value', hmem⟩ := hspec
    have hne := ofNat_ne_zero (horder.mem_iff.mp hmem)
    simp only [hflag, List.cons_append, List.append_assoc]
    unfold Field.read byHead Field.readAt
    rw [List.headD_cons, if_neg (not_not.mpr (or_0x40_and hb).1), if_pos (or_0x40_and hb).2]
    refine bind_eq_ok.mpr ⟨_, _, hread _, ?_⟩
    refine bind_eq_ok.mpr ⟨.indexed (UInt32.ofNat index), Serializer.string h.value ++ rest, ?_, ?_⟩
    · rw [FieldName.read, if_neg hne]
      rfl
    exact bind_eq_ok.mpr ⟨_, _, parseString_string hfits.2 rest, rfl⟩
  | literal =>
    simp only [List.cons_append, List.append_assoc]
    unfold Field.read byHead Field.readAt
    rw [List.headD_cons, if_neg (by decide), if_neg (by decide), if_neg (by decide)]
    -- the index 0 stands for a name that follows
    refine bind_eq_ok.mpr
      ⟨0, Serializer.string h.key ++ (Serializer.string h.value ++ rest), ?_, ?_⟩
    · exact readInteger_eq_ok.mpr
        ⟨1, decode_cons_of_lt (by norm_num) (by norm_num) (by decide) _, rfl⟩
    refine bind_eq_ok.mpr ⟨.literal h.key, Serializer.string h.value ++ rest, ?_, ?_⟩
    · rw [FieldName.read, if_pos rfl]
      exact bind_eq_ok.mpr ⟨_, _, parseString_string hfits.1 _, rfl⟩
    exact bind_eq_ok.mpr ⟨_, _, parseString_string hfits.2 rest, rfl⟩

/-! ## Applying the fields -/

/-- The name whose index the parser does not look up in the static table. -/
def wwwAuthenticate : Octets := octets "www-authenticate"

/-- A parser that has only been fed with frames of the serializer. -/
structure Parser.InStep (p : Parser) : Prop where
  /-- The static table has its 61 entries. -/
  table_eq : p.table = staticHeaderTable
  /-- No entry of the dynamic table has the last static name. -/
  headerMap_key : ∀ h ∈ p.headerMap, h.key ≠ wwwAuthenticate
  /-- Nor has a decoded header. -/
  decoded_key : ∀ h ∈ p.decoded, h.key ≠ wwwAuthenticate

theorem Parser.InStep.initial : Parser.InStep {} := ⟨rfl, by simp, by simp⟩

theorem Parser.InStep.push {p : Parser} (hp : p.InStep) {h : Header}
    (hkey : h.key ≠ wwwAuthenticate) : (Parser.push h p).InStep where
  table_eq := hp.table_eq
  headerMap_key := hp.headerMap_key
  decoded_key := by
    simp only [Parser.push, List.mem_append, List.mem_singleton]
    rintro h' (hmem | rfl)
    · exact hp.decoded_key h' hmem
    · exact hkey

theorem Parser.InStep.insert {p : Parser} (hp : p.InStep) {h : Header}
    (hkey : h.key ≠ wwwAuthenticate) : (Parser.insert h p).InStep where
  table_eq := hp.table_eq
  headerMap_key := List.forall_mem_cons.mpr ⟨hkey, hp.headerMap_key⟩
  decoded_key := hp.decoded_key

/-- Indexes below the last one are looked up in the static table. -/
private theorem headerByIndex_static {p : Parser} (hp : p.InStep) {e : ℕ × Header}
    (he : e ∈ staticHeaderTable.items) (hkey : e.2.key ≠ wwwAuthenticate) :
    (Parser.headerByIndex (UInt32.ofNat e.1)).run p = .ok e.2 p := by
  have hnat := toNat_ofNat_of_mem_items he
  obtain ⟨-, h61, hlast⟩ := key_eq_iff_of_mem_items e he
  have hlt : (UInt32.ofNat e.1).toNat < p.table.size := by
    rw [hnat, hp.table_eq, size_staticHeaderTable]
    exact lt_of_le_of_ne h61 fun h => hkey (hlast.mpr h)
  rw [headerByIndex_of_lt hlt, hnat, hp.table_eq,
    StaticTable.subscript_of_lookup (StaticTable.lookup_of_mem_items he), ← hp.table_eq]

/-- The last index is looked up in the dynamic table, at its very end. -/
private theorem headerByIndex_last {p : Parser} (hp : p.InStep) :
    (∃ h ∈ p.headerMap, (Parser.headerByIndex 61).run p = .ok h p) ∨
      (Parser.headerByIndex 61).run p = .error (.hpack .unknownHeader) p := by
  have hle : p.table.size ≤ (61 : UInt32).toNat := by
    rw [hp.table_eq, size_staticHeaderTable]
    rfl
  rw [headerByIndex_of_le hle]
  split
  next h hget => exact .inl ⟨h, List.mem_of_getElem? hget, rfl⟩
  next => exact .inr rfl

/-- The field of a header is applied without loss, unless it has the last static name. -/
private theorem apply_represent {order : List (ℕ × Header)}
    (horder : order.Perm staticHeaderTable.items) {h : Header} (hlower : toLower h.key = h.key)
    {p : Parser} (hp : p.InStep) (hkey : h.key ≠ wwwAuthenticate) :
    ∃ p', (represent order h).apply.run p = .ok () p' ∧ p'.InStep ∧
      p'.decoded = p.decoded ++ [h] := by
  have hspec := Serializer.searchIndex_spec order h
  rw [hlower] at hspec
  unfold represent
  cases hsearch : Serializer.searchIndex order h with
  | fullyIndexed index =>
    rw [hsearch] at hspec
    have hlook := headerByIndex_static hp (horder.mem_iff.mp hspec) hkey
    refine ⟨Parser.push h p, ?_, hp.push hkey, rfl⟩
    simp [Field.apply, hlook]
  | keyIndexed index =>
    rw [hsearch] at hspec
    obtain ⟨value', hmem⟩ := hspec
    have hlook := headerByIndex_static hp (horder.mem_iff.mp hmem) hkey
    refine ⟨Parser.insert h (Parser.push h p), ?_, (hp.push hkey).insert hkey, rfl⟩
    simp [Field.apply, FieldName.apply, hlook]
  | literal =>
    refine ⟨Parser.push h p, ?_, hp.push hkey, rfl⟩
    simp [Field.apply, FieldName.apply]

/-- Whatever the field of a header does, no header with the last static name comes of it. -/
private theorem apply_represent_inStep {order : List (ℕ × Header)}
    (horder : order.Perm staticHeaderTable.items) {h : Header} (hlower : toLower h.key = h.key)
    {p : Parser} (hp : p.InStep) :
    (∃ p', (represent order h).apply.run p = .ok () p' ∧ p'.InStep) ∨
      (represent order h).apply.run p = .error (.hpack .unknownHeader) p := by
  by_cases hkey : h.key = wwwAuthenticate
  · -- the serializer writes the last static index, which is looked up in the dynamic table
    have hspec := Serializer.searchIndex_spec order h
    rw [hlower] at hspec
    have hindex : ∀ {index value}, (index, Header.mk h.key value) ∈ order →
        UInt32.ofNat index = 61 := by
      intro index value hmem
      have h61 : index = 61 := (key_eq_iff_of_mem_items _ (horder.mem_iff.mp hmem)).2.2.mp hkey
      rw [h61]
      rfl
    unfold represent
    cases hsearch : Serializer.searchIndex order h with
    | fullyIndexed index =>
      rw [hsearch] at hspec
      simp only [hindex hspec]
      rcases headerByIndex_last hp with ⟨h', hmem, hlook⟩ | hlook
      · exact .inl ⟨Parser.push h' p, by simp [Field.apply, hlook],
          hp.push (hp.headerMap_key h' hmem)⟩
      · exact .inr (by simp [Field.apply, hlook])
    | keyIndexed index =>
      rw [hsearch] at hspec
      obtain ⟨value', hmem⟩ := hspec
      simp only [hindex hmem]
      rcases headerByIndex_last hp with ⟨h', hmem, hlook⟩ | hlook
      · have hkey' : (Header.mk h'.key h.value).key ≠ wwwAuthenticate := hp.headerMap_key h' hmem
        refine .inl ⟨Parser.insert ⟨h'.key, h.value⟩ (Parser.push ⟨h'.key, h.value⟩ p), ?_,
          (hp.push hkey').insert hkey'⟩
        simp [Field.apply, FieldName.apply, hlook]
      · exact .inr (by simp [Field.apply, FieldName.apply, hlook])
    | literal =>
      -- the last static name is in the table
      rw [hsearch] at hspec
      have hmem : (61, Header.mk wwwAuthenticate []) ∈ staticHeaderTable.items := by
        decide
      exact absurd hkey.symm (hspec _ (horder.mem_iff.mpr hmem))
  · obtain ⟨p', hrun, hp', -⟩ := apply_represent horder hlower hp hkey
    exact .inl ⟨p', hrun, hp'⟩

/-! ## Blocks -/

/-- A list that the serializer can be given: not empty, in lower case, with short literals. -/
structure Sendable (list : List Header) : Prop where
  /-- It is not empty. -/
  ne_nil : list ≠ []
  /-- Its names are in lower case. -/
  lower : ∀ h ∈ list, toLower h.key = h.key
  /-- Its string literals can be written. -/
  fits : ∀ h ∈ list, h.Fits

/-- The block of a list is the list of its fields. -/
theorem many_serialize {order : List (ℕ × Header)} (horder : order.Perm staticHeaderTable.items)
    {list : List Header} (hfits : ∀ h ∈ list, h.Fits) :
    Many Field.read (list.flatMap (Serializer.field order)) (list.map (represent order)) [] :=
  many_flatMap fun h hmem => read_field horder (hfits h hmem)

/-- The frame of a list is parsed by applying the fields of its headers. -/
theorem parse_serialize {order : List (ℕ × Header)} (horder : order.Perm staticHeaderTable.items)
    {list : List Header} (hlist : Sendable list) (streamId : UInt32) (p : Parser) :
    (Parser.parse ((Serializer.serialize order list {}).finish streamId).1).run p =
      Parser.caught Characteristics.Headers.endHeaders
        ((applyAll (list.map (represent order))).run p) := by
  have hdata : ((Serializer.serialize order list {}).finish streamId).1.data =
      list.flatMap (Serializer.field order) := by
    show (Serializer.serialize order list {}).payload = _
    rw [Serializer.serialize_payload, List.nil_append]
  have hne : ((Serializer.serialize order list {}).finish streamId).1.data ≠ [] := by
    obtain ⟨h, list, rfl⟩ := List.exists_cons_of_ne_nil hlist.ne_nil
    rw [hdata, List.flatMap_cons]
    exact List.append_ne_nil_of_left_ne_nil (Serializer.field_ne_nil order h) _
  have hpad : Characteristics.Headers.endHeaders &&& Characteristics.Headers.padded = 0 := by decide
  have hprio : Characteristics.Headers.endHeaders &&& Characteristics.Headers.priority = 0 := by
    decide
  have hpayload := (HeadersPayload.ofFrame_eq_data (f := ((Serializer.serialize order list
    {}).finish streamId).1) hpad hprio).trans (if_neg hne)
  rw [hdata] at hpayload
  exact parse_of_many hpayload (many_serialize horder hlist.fits) p

private theorem caught_ok (p : Parser) :
    Parser.caught Characteristics.Headers.endHeaders (.ok () p) = .ok .done p := by
  have hflag : Characteristics.Headers.endHeaders &&&
      (Characteristics.Headers.endHeaders ||| Characteristics.Headers.endStream) ≠ 0 := by decide
  rw [Parser.caught, Parser.completion, if_pos hflag]

private theorem caught_error (flags : UInt8) (e : Error) (p : Parser) :
    Parser.caught flags (.error (.hpack e) p) = .ok e p := rfl

private theorem applyAll_represent {order : List (ℕ × Header)}
    (horder : order.Perm staticHeaderTable.items) {list : List Header}
    (hlower : ∀ h ∈ list, toLower h.key = h.key) {p : Parser} (hp : p.InStep)
    (hkey : ∀ h ∈ list, h.key ≠ wwwAuthenticate) :
    ∃ p', (applyAll (list.map (represent order))).run p = .ok () p' ∧ p'.InStep ∧
      p'.decoded = p.decoded ++ list := by
  induction list generalizing p with
  | nil => exact ⟨p, rfl, hp, by simp⟩
  | cons h list ih =>
    obtain ⟨p₁, hrun, hp₁, hdec⟩ := apply_represent horder (hlower h List.mem_cons_self) hp
      (hkey h List.mem_cons_self)
    obtain ⟨p', hrun', hp', hdec'⟩ := ih (fun h' hmem => hlower h' (List.mem_cons_of_mem _ hmem))
      hp₁ (fun h' hmem => hkey h' (List.mem_cons_of_mem _ hmem))
    refine ⟨p', by simp [hrun, hrun'], hp', ?_⟩
    rw [hdec', hdec, List.append_assoc, List.singleton_append]

private theorem applyAll_represent_inStep {order : List (ℕ × Header)}
    (horder : order.Perm staticHeaderTable.items) {list : List Header}
    (hlower : ∀ h ∈ list, toLower h.key = h.key) {p : Parser} (hp : p.InStep) :
    (∃ p', (applyAll (list.map (represent order))).run p = .ok () p' ∧ p'.InStep) ∨
      ∃ p', (applyAll (list.map (represent order))).run p = .error (.hpack .unknownHeader) p' := by
  induction list generalizing p with
  | nil => exact .inl ⟨p, rfl, hp⟩
  | cons h list ih =>
    rcases apply_represent_inStep horder (hlower h List.mem_cons_self) hp with
      ⟨p₁, hrun, hp₁⟩ | hrun
    · rcases ih (fun h' hmem => hlower h' (List.mem_cons_of_mem _ hmem)) hp₁ with
        ⟨p', hrun', hp'⟩ | ⟨p', hrun'⟩
      · exact .inl ⟨p', by simp [hrun, hrun'], hp'⟩
      · exact .inr ⟨p', by simp [hrun, hrun']⟩
    · exact .inr ⟨p, by simp [hrun]⟩

/-! ## The round trip -/

theorem Parser.InStep.result {p : Parser} (hp : p.InStep) : p.result.2.InStep :=
  ⟨hp.table_eq, hp.headerMap_key, by simp [Parser.result]⟩

private theorem exchange_eq_iff_of_inStep {order : List (ℕ × Header)}
    (horder : order.Perm staticHeaderTable.items) {lists : List (UInt32 × List Header)}
    (hlists : ∀ l ∈ lists, Sendable l.2) {rx : Parser} (hrx : rx.InStep) (hdec : rx.decoded = []) :
    exchange order {} rx lists = lists.map (fun l => some l.2) ↔
      ∀ l ∈ lists, ∀ h ∈ l.2, h.key ≠ wwwAuthenticate := by
  induction lists generalizing rx with
  | nil => simp [exchange]
  | cons l lists ih =>
    obtain ⟨streamId, list⟩ := l
    have hlist : Sendable list := hlists _ List.mem_cons_self
    have hparse := parse_serialize horder hlist streamId rx
    rw [List.forall_mem_cons, List.map_cons, exchange_cons, hparse]
    rcases applyAll_represent_inStep horder hlist.lower hrx with ⟨p', hrun, hp'⟩ | ⟨p', hrun⟩
    · -- the block is decoded, and it is decoded as sent unless it has the last static name
      have ih' := ih (fun l hl => hlists l (List.mem_cons_of_mem _ hl)) hp'.result rfl
      rw [hrun, caught_ok]
      simp only [List.cons.injEq, Option.some.injEq, ih']
      refine and_congr_left fun _ => ⟨?_, fun hkey => ?_⟩
      · rintro rfl
        exact hp'.decoded_key
      · obtain ⟨p'', hrun', -, hdec'⟩ := applyAll_represent horder hlist.lower hrx hkey
        rw [hrun] at hrun'
        cases hrun'
        rw [hdec', hdec, List.nil_append]
    · -- the block is not decoded, which only that name can do
      rw [hrun, caught_error]
      simp only [List.cons.injEq, reduceCtorEq, false_and, false_iff, not_and]
      intro hkey
      obtain ⟨p'', hrun', -⟩ := applyAll_represent horder hlist.lower hrx hkey
      rw [hrun] at hrun'
      cases hrun'

/-- Every list arrives as it was sent if and only if none of the headers is named
`www-authenticate`. -/
theorem exchange_eq_iff {order : List (ℕ × Header)} (horder : order.Perm staticHeaderTable.items)
    {lists : List (UInt32 × List Header)} (hlists : ∀ l ∈ lists, Sendable l.2) :
    exchange order {} {} lists = lists.map (fun l => some l.2) ↔
      ∀ l ∈ lists, ∀ h ∈ l.2, h.key ≠ octets "www-authenticate" :=
  exchange_eq_iff_of_inStep horder hlists .initial rfl

/-- A `:method`, a header with a static name, and one with a new name arrive. -/
theorem exchange_sample :
    exchange staticHeaderTable.items {} {}
        [(1, [⟨octets ":method", octets "GET"⟩, ⟨octets "accept", octets "*/*"⟩]),
          (3, [⟨octets "x", octets "y"⟩])] =
      [some [⟨octets ":method", octets "GET"⟩, ⟨octets "accept", octets "*/*"⟩],
        some [⟨octets "x", octets "y"⟩]] := by
  refine (exchange_eq_iff (List.Perm.refl _) ?_).mpr (by decide)
  intro l hl
  have hlower : ∀ h ∈ l.2, toLower h.key = h.key ∧ h.key.length < 2 ^ 30 ∧
      h.value.length < 2 ^ 30 := by
    revert l
    decide
  refine ⟨?_, fun h hh => (hlower h hh).1, fun h hh => ?_⟩
  · revert l
    decide
  · exact Header.fits_of_length (hlower h hh).2.1 (hlower h hh).2.2

/-- A block that holds `www-authenticate` and nothing else is not decoded. -/
theorem exchange_wwwAuthenticate :
    ¬ ∀ (order : List (ℕ × Header)) (lists : List (UInt32 × List Header)),
      order.Perm staticHeaderTable.items → lists ≠ [] → (∀ l ∈ lists, Sendable l.2) →
        exchange order {} {} lists = lists.map fun l => some l.2 := by
  intro h
  have hsend : Sendable [⟨octets "www-authenticate", []⟩] := by
    refine ⟨by simp, by decide, ?_⟩
    rintro h hmem
    obtain rfl := List.mem_singleton.mp hmem
    exact Header.fits_of_length (by decide) (by decide)
  have heq := h staticHeaderTable.items [(1, [⟨octets "www-authenticate", []⟩])]
    (List.Perm.refl _) (by simp) (by simpa using hsend)
  have hne : exchange staticHeaderTable.items {} {} [(1, [⟨octets "www-authenticate", []⟩])] ≠
      [some [⟨octets "www-authenticate", []⟩]] := by
    decide
  exact hne heq

end Hpack

end Rite
