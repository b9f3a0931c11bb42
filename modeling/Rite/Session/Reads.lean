import Rite.Session.Conversions
import Rite.Session.Persistence

/-!
# Reading a session

The values of a session that has been loaded are texts. `get` gives a text as it is to a caller that
asks for a `std::string`. To one that asks for another type it gives what the text converts to, and
stores that in place of the text, so that `save` writes the conversion.

## Main results

* `getElem?_performAll`: only the first conversion of a text is stored;
* `content_performAll_iff`: the calls leave the content alone exactly if the conversions that are
  stored are written as the texts;
* `unchanged_iff`: for integers, if the texts are canonical;
* `not_unchanged`: a word that is read as an integer is lost.
-/

namespace Rite

namespace SessionHandle

section Calls

variable {ι : Type} [DecidableEq ι] {El : ι → Type}

/-- `get<T>` for another type than `std::string`, where `convert` is
`pluggable<T>::deserialize`. -/
def get (i : ι) (convert : Octets → El i) (h : SessionHandle El) (key : Octets) :
    Except SessionError (El i) × SessionHandle El :=
  match h.values[key]? with
  | none => (.error .notFound, h)
  | some (.other j v) => if hij : j = i then (.ok (hij ▸ v), h) else (.error .cast, h)
  | some (.string s) => (.ok (convert s), h.set key (.other i (convert s)))

/-- A call of `get<T>`. -/
inductive Call (El : ι → Type)
  /-- For `std::string`. -/
  | string (key : Octets)
  /-- For another type. -/
  | other (key : Octets) (i : ι) (convert : Octets → El i)

/-- The handle behind a call. `getString` leaves it as it is. -/
def perform (h : SessionHandle El) : Call El → SessionHandle El
  | .string _ => h
  | .other key i convert => (h.get i convert key).2

/-- The handle behind calls. -/
def performAll (h : SessionHandle El) (calls : List (Call El)) : SessionHandle El :=
  calls.foldl perform h

/-- The conversion that a call has for a key. -/
def Call.conversion (key : Octets) : Call El → Option (Σ i, Octets → El i)
  | .string _ => none
  | .other k i convert => if k = key then some ⟨i, convert⟩ else none

/-- The value that is stored in place of one. -/
def converted (conversion : Option (Σ i, Octets → El i)) : Value El → Value El
  | .string s => conversion.elim (.string s) fun c => .other c.1 (c.2 s)
  | .other i v => .other i v

variable {h : SessionHandle El} {key : Octets}

theorem getElem?_perform (call : Call El) :
    (h.perform call).values[key]? = h.values[key]?.map (converted (call.conversion key)) := by
  have hid : h.values[key]? = h.values[key]?.map (converted none) := by
    cases hv : h.values[key]? with
    | none => rfl
    | some v => cases v <;> rfl
  cases call with
  | string k => exact hid
  | other k i convert =>
    by_cases hk : k = key
    · subst hk
      simp only [perform, get, Call.conversion, if_true]
      cases hv : h.values[k]? with
      | none => simp [hv]
      | some v =>
        cases v with
        | string s => simp [set, converted]
        | other j v =>
          dsimp only
          split_ifs <;> simp [hv, converted]
    · simp only [perform, get, Call.conversion, hk, if_false]
      rw [← hid]
      -- the value of another key is stored
      split
      · rfl
      · split_ifs <;> rfl
      · simp [set, Std.TreeMap.getElem?_insert, hk]

/-- What the calls have stored: the first conversion of a text is there, and later ones are not. -/
theorem getElem?_performAll (calls : List (Call El)) :
    (h.performAll calls).values[key]? =
      h.values[key]?.map (converted (calls.findSome? (Call.conversion key))) := by
  induction calls generalizing h with
  | nil =>
    simp only [performAll, List.foldl_nil, List.findSome?_nil]
    cases hv : h.values[key]? with
    | none => rfl
    | some v => cases v <;> rfl
  | cons call calls ih =>
    rw [performAll, List.foldl_cons, ← performAll, ih, getElem?_perform, Option.map_map]
    congr 1
    funext v
    rw [List.findSome?_cons, Function.comp_apply]
    cases hc : call.conversion key with
    | none => cases v <;> rfl
    | some c => cases v <;> rfl

/-- No call adds a key, or removes one. -/
theorem keys_performAll (calls : List (Call El)) :
    (h.performAll calls).values.keys = h.values.keys := by
  have hirrefl : Std.Irrefl fun a b : Octets => compare a b = .lt :=
    ⟨fun a hlt => by simp [Std.ReflCmp.compare_self] at hlt⟩
  have hantisymm : Std.Antisymm fun a b : Octets => compare a b = .lt :=
    ⟨fun a b hlt hgt => by simp [Std.OrientedCmp.gt_of_lt hlt] at hgt⟩
  refine List.Pairwise.eq_of_mem_iff Std.TreeMap.ordered_keys Std.TreeMap.ordered_keys fun k => ?_
  rw [Std.TreeMap.mem_keys, Std.TreeMap.mem_keys, Std.TreeMap.mem_iff_isSome_getElem?,
    Std.TreeMap.mem_iff_isSome_getElem?, getElem?_performAll, Option.isSome_map]

end Calls

/-! ## The content -/

section Content

variable {ι : Type} {El : ι → Type} [∀ i, Pluggable (El i)]

/-- The text that is written for a key. -/
def written (h : SessionHandle El) (key : Octets) : Octets := h.values[key]?.elim [] Value.serialize

/-- The content, key by key. -/
theorem content_eq (h : SessionHandle El) :
    h.content = h.values.keys.flatMap fun k => k ++ 0x3D :: (h.written k ++ [0x0A]) := by
  rw [← Std.TreeMap.map_fst_toList_eq_keys, List.flatMap_map, content]
  refine List.flatMap_congr fun e he => ?_
  rw [written, Std.TreeMap.mem_toList_iff_getElem?_eq_some.mp he]
  rfl

/-- A line has one line feed if there is none in its key and its value. -/
theorem count_flatMap_line {keys : List Octets} {f : Octets → Octets}
    (hkeys : ∀ k ∈ keys, 0x0A ∉ k ∧ 0x0A ∉ f k) :
    (keys.flatMap fun k => k ++ 0x3D :: (f k ++ [0x0A])).count 0x0A = keys.length := by
  have hone : ∀ k ∈ keys, (k ++ 0x3D :: (f k ++ [0x0A])).count 0x0A = 1 := by
    intro k hk
    have hkey := List.count_eq_zero.mpr (hkeys k hk).1
    have hvalue := List.count_eq_zero.mpr (hkeys k hk).2
    simp [hkey, hvalue]
  calc
    _ = (keys.map fun k => (k ++ 0x3D :: (f k ++ [0x0A])).count 0x0A).sum := List.count_flatMap
    _ = (keys.map fun _ => 1).sum := by rw [List.map_congr_left hone]
    _ = keys.length := by simp

theorem length_le_count_flatMap_line (keys : List Octets) (g : Octets → Octets) :
    keys.length ≤ (keys.flatMap fun k => k ++ 0x3D :: (g k ++ [0x0A])).count 0x0A := by
  rw [List.count_flatMap]
  refine (List.length_le_sum_of_one_le _ fun n hn => ?_).trans_eq' (by simp)
  obtain ⟨k, -, rfl⟩ := List.mem_map.mp hn
  exact List.count_pos_iff.mpr (by simp)

/-- Lines with the same keys, and with values that have no line feed on one side, are the same text
only if they have the same values. -/
theorem flatMap_line_eq_iff {keys : List Octets} {f g : Octets → Octets}
    (hkeys : ∀ k ∈ keys, 0x0A ∉ k ∧ 0x0A ∉ f k) :
    (keys.flatMap fun k => k ++ 0x3D :: (g k ++ [0x0A])) =
        (keys.flatMap fun k => k ++ 0x3D :: (f k ++ [0x0A])) ↔ ∀ k ∈ keys, g k = f k := by
  constructor
  · intro h
    induction keys with
    | nil => simp
    | cons k keys ih =>
      rw [List.forall_mem_cons] at hkeys ⊢
      simp only [List.flatMap_cons, List.append_assoc, List.append_cancel_left_eq, List.cons_append,
        List.cons.injEq, true_and, List.nil_append] at h
      by_cases hg : 0x0A ∈ g k
      · -- then there are more line feeds on the left
        exfalso
        have hright := count_flatMap_line hkeys.2
        have hleft := length_le_count_flatMap_line keys g
        have hcount := congrArg (List.count 0x0A) h
        have hpos := List.count_pos_iff.mpr hg
        simp only [List.count_append, List.count_cons_self, hright,
          List.count_eq_zero.mpr hkeys.1.2] at hcount
        omega
      · have hvalue : g k = f k := by
          rw [← Http.takeWhile_ne_append hg, h, Http.takeWhile_ne_append hkeys.1.2]
        rw [hvalue, List.append_cancel_left_eq, List.cons_eq_cons] at h
        exact ⟨hvalue, ih hkeys.2 h.2⟩
  · intro h
    exact List.flatMap_congr fun k hk => by rw [h k hk]

/-- The keys and the values are texts that fit into a line. -/
structure Texts (h : SessionHandle El) : Prop where
  /-- The keys. -/
  key : ∀ k ∈ h.values.keys, 0x0A ∉ k
  /-- The values. -/
  value : ∀ (k : Octets) (v : Value El), h.values[k]? = some v → ∃ s, v = .string s ∧ 0x0A ∉ s

omit [∀ i, Pluggable (El i)] in
/-- A handle that has been loaded is one of texts. -/
theorem texts_construct (dir id : Octets) (d : Disk) :
    (((construct dir id).runOn d).1 : SessionHandle El).Texts := by
  rw [construct_fst]
  have hclean : (load ((d.file (PosixPath.join dir id)).getD []) : Loading El).AllClean :=
    allClean_load _
  refine ⟨fun k hk => ?_, fun k v hv => ?_⟩
  · rw [Std.TreeMap.mem_keys, Std.TreeMap.mem_iff_isSome_getElem?] at hk
    obtain ⟨v, hv⟩ := Option.isSome_iff_exists.mp hk
    exact (hclean.values k v hv).1.2
  · obtain ⟨-, s, hs, htext⟩ := hclean.values k v hv
    exact ⟨s, hs, htext.2⟩

variable [DecidableEq ι]

/-- Calls leave the content alone if and only if the conversions that are stored are written as the
texts that they are conversions of. -/
theorem content_performAll_iff {h : SessionHandle El} (htexts : h.Texts) (calls : List (Call El)) :
    (h.performAll calls).content = h.content ↔
      ∀ key text, h.getString key = .ok text → ∀ i convert,
        calls.findSome? (Call.conversion key) = some ⟨i, convert⟩ →
        Pluggable.serialize (convert text) = text := by
  have hvalue : ∀ k ∈ h.values.keys, ∃ s, h.values[k]? = some (.string s) ∧ 0x0A ∉ s := by
    intro k hk
    rw [Std.TreeMap.mem_keys, Std.TreeMap.mem_iff_isSome_getElem?] at hk
    obtain ⟨v, hv⟩ := Option.isSome_iff_exists.mp hk
    obtain ⟨s, rfl, hs⟩ := htexts.value k v hv
    exact ⟨s, hv, hs⟩
  have hlines : ∀ k ∈ h.values.keys, 0x0A ∉ k ∧ 0x0A ∉ h.written k := by
    intro k hk
    obtain ⟨s, hv, hs⟩ := hvalue k hk
    refine ⟨htexts.key k hk, ?_⟩
    rw [written, hv]
    exact hs
  rw [content_eq, content_eq h, keys_performAll, flatMap_line_eq_iff hlines]
  constructor
  · intro heq key text htext i convert hcall
    rw [getString_eq_ok_iff] at htext
    have hmem : key ∈ h.values.keys := by
      rw [Std.TreeMap.mem_keys, Std.TreeMap.mem_iff_isSome_getElem?, htext]
      rfl
    simpa [written, getElem?_performAll, htext, hcall, converted, Value.serialize,
      Pluggable.serialize] using heq key hmem
  · intro hstored k hk
    obtain ⟨s, hv, -⟩ := hvalue k hk
    simp only [written, getElem?_performAll, hv, Option.map_some, Option.elim_some]
    cases hcall : calls.findSome? (Call.conversion k) with
    | none => rfl
    | some c => exact hstored k s (getString_eq_ok_iff.mpr hv) c.1 c.2 hcall

/-! ## What is saved -/

/-- The file system behind a session that is loaded, read by calls, and saved. -/
def savedFiles (dir id : Octets) (d : Disk) (calls : List (Call El)) : Octets → Option Octets :=
  ((do
    let h : SessionHandle El ← construct dir id
    save dir (h.performAll calls)).runOn d).2.file

omit [DecidableEq ι] in
/-- The file of a session has its content, and a session without values has no file. -/
theorem file_save_eq (dir : Octets) (h : SessionHandle El) (d : Disk) :
    ((h.save dir).runOn d).2.file = Function.update d.file (PosixPath.join dir h.id)
      (if h.values.isEmpty then none else some h.content) := by
  unfold save
  by_cases hempty : h.values.isEmpty
  · cases hfile : d.file (PosixPath.join dir h.id) with
    | none =>
      have hsame : Function.update d.file (PosixPath.join dir h.id) none = d.file := by
        rw [← hfile, Function.update_eq_self]
      simp [hempty, hfile, hsame]
    | some file => simp [hempty, hfile]
  · simp [hempty]

omit [∀ i, Pluggable (El i)] in
theorem id_performAll (h : SessionHandle El) (calls : List (Call El)) :
    (h.performAll calls).id = h.id := by
  induction calls generalizing h with
  | nil => rfl
  | cons call calls ih =>
    rw [performAll, List.foldl_cons, ← performAll, ih]
    cases call with
    | string key => rfl
    | other key i convert =>
      simp only [perform, get]
      split
      · rfl
      · split_ifs <;> rfl
      · rfl

/-- The files are the same exactly if the content is. -/
theorem savedFiles_eq_iff (dir id : Octets) (d : Disk) (calls : List (Call El)) :
    savedFiles dir id d calls = savedFiles dir id d ([] : List (Call El)) ↔
      (performAll ((construct dir id).runOn d).1 calls).content =
        (((construct dir id).runOn d).1 : SessionHandle El).content := by
  simp only [savedFiles, runOn_bind]
  generalize (((construct dir id).runOn d).1 : SessionHandle El) = h
  have hempty : (h.performAll calls).values.isEmpty = h.values.isEmpty := by
    rw [← Std.TreeMap.isEmpty_keys, keys_performAll, Std.TreeMap.isEmpty_keys]
  have hnil : h.performAll [] = h := rfl
  rw [hnil, file_save_eq, file_save_eq, id_performAll, hempty]
  by_cases hvalues : h.values.isEmpty
  · -- there is nothing to be written
    rw [content_of_isEmpty (hempty.trans hvalues), content_of_isEmpty hvalues]
    simp [hvalues]
  · simp only [hvalues, Bool.false_eq_true, if_false]
    constructor
    · intro heq
      simpa using congrFun heq (PosixPath.join dir h.id)
    · intro heq
      rw [heq]

end Content

/-! ## Integers -/

/-- A call of `get<T>` for `std::string`, or for an integer type. -/
inductive Read
  | string (key : Octets)
  /-- The variable `t` of `deserialize` holds `held`. -/
  | integer (key : Octets) (T : IntegerType) (held : T.Carrier)

namespace Read

/-- The call. -/
def call : Read → Call IntegerType.Carrier
  | string key => .string key
  | integer key T held => .other key T (T.deserialize held)

/-- The integer type that a key is read as, with what the variable holds. -/
def integer? (key : Octets) : Read → Option (Σ T : IntegerType, T.Carrier)
  | string _ => none
  | integer k T held => if k = key then some ⟨T, held⟩ else none

theorem findSome?_conversion (key : Octets) (reads : List Read) :
    (reads.map call).findSome? (Call.conversion key) =
      (reads.findSome? (integer? key)).map fun c => ⟨c.1, c.1.deserialize c.2⟩ := by
  rw [List.findSome?_map, List.map_findSome?]
  congr 1
  funext read
  cases read with
  | string k => rfl
  | integer k T held =>
    simp only [Function.comp_apply, call, Call.conversion, integer?]
    split_ifs <;> rfl

end Read

/-- The handle that is loaded. -/
def loaded (dir id : Octets) (d : Disk) : SessionHandle IntegerType.Carrier :=
  ((construct dir id).runOn d).1

/-- Reading the session before it is saved does not change what is saved. -/
def Unchanged (dir id : Octets) (d : Disk) (reads : List Read) : Prop :=
  savedFiles dir id d (reads.map Read.call) =
    savedFiles dir id d ([] : List (Call IntegerType.Carrier))

theorem unchanged_iff_serialize (dir id : Octets) (d : Disk) (reads : List Read) :
    Unchanged dir id d reads ↔ ∀ key text, (loaded dir id d).getString key = .ok text →
      ∀ T held, reads.findSome? (Read.integer? key) = some ⟨T, held⟩ →
        T.serialize (T.deserialize held text) = text := by
  rw [Unchanged, savedFiles_eq_iff, content_performAll_iff (texts_construct dir id d)]
  simp only [Read.findSome?_conversion]
  constructor
  · intro h key text htext T held hfirst
    exact h key text htext T (T.deserialize held) (by rw [hfirst, Option.map_some])
  · intro h key text htext T convert hconvert
    obtain ⟨⟨T', held⟩, hfirst, heq⟩ := Option.map_eq_some_iff.mp hconvert
    obtain ⟨rfl, hheq⟩ := Sigma.mk.inj heq
    obtain rfl := eq_of_heq hheq
    exact h key text htext T' held hfirst

/-- What is saved stays the same if and only if each text that is read as an integer is canonical
for the first type that it is read as. -/
theorem unchanged_iff (dir id : Octets) (d : Disk) (reads : List Read) :
    Unchanged dir id d reads ↔ ∀ key text, (loaded dir id d).getString key = .ok text →
      ∀ T held, reads.findSome? (Read.integer? key) = some ⟨T, held⟩ →
        T.Canonical held text := by
  rw [unchanged_iff_serialize]
  simp only [IntegerType.serialize_deserialize_iff]

/-- A word that is read as an integer is lost. -/
theorem not_unchanged : ¬ ∀ dir id d reads, Unchanged dir id d reads := by
  intro h
  have hunchanged := (unchanged_iff_serialize _ _ _ _).mp
    (h (octets "/tmp/_rite/") (octets "id") ⟨fun _ => some (octets "k=a\n"), []⟩
      [.integer (octets "k") .int IntegerType.int.zero])
  have htext : (loaded (octets "/tmp/_rite/") (octets "id")
      ⟨fun _ => some (octets "k=a\n"), []⟩).getString (octets "k") = .ok (octets "a") := by
    rw [loaded, construct_fst, getString_eq_ok_iff]
    have hline : Http.getlines 0x0A (octets "k=a\n") = [octets "k" ++ 0x3D :: octets "a"] := by
      decide
    simp [load, hline, Loading.line_entry _ (show 0x3D ∉ octets "k" by decide)
      (show 0x3D ∉ octets "a" by decide)]
  have hwritten := hunchanged _ _ htext .int IntegerType.int.zero (by simp [Read.integer?])
  -- what is written is a numeral
  have hformat : IntegerType.int.format ≠ .character := by simp [IntegerType.format]
  exact IntegerFormat.not_canonical hformat (c := 0x61) (by decide) (by decide) (by decide)
    (IntegerType.serialize_deserialize_iff.mp hwritten)

end SessionHandle

end Rite
