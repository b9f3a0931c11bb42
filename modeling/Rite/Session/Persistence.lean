import Rite.Http.Getlines
import Rite.Session.Handle

/-!
# Sessions that are saved and loaded

The format of the file has no escapes: neither a key nor a value that is loaded has `=` or a line
feed in it. So these are what a session must not have in it, if it is to come back as it was.

## Main results

* `load_content`: what is written is read again, if no key and no value has `=` or a line feed;
* `clean_load`: what is read has neither;
* `persists_iff`: a session comes back as it was if and only if this is so;
* `not_persists`: a value with `=` is cut off.
-/

namespace Rite

/-- The format has room for the text. -/
def Clean (s : Octets) : Prop := 0x3D ∉ s ∧ 0x0A ∉ s

instance (s : Octets) : Decidable (Clean s) := inferInstanceAs (Decidable (_ ∧ _))

/-- The entries of a map make up the map again. -/
private theorem getElem?_insertMany_toList {α β γ : Type} [Ord α] [BEq α] [Std.LawfulBEqOrd α]
    [Std.TransOrd α] [Std.LawfulEqOrd α] (m : Std.TreeMap α β) (f : β → γ) (k : α) :
    ((∅ : Std.TreeMap α γ).insertMany (m.toList.map fun e => (e.1, f e.2)))[k]? =
      m[k]?.map f := by
  cases hk : m[k]? with
  | none =>
    rw [Std.TreeMap.getElem?_insertMany_list_of_contains_eq_false]
    · simp
    · -- the key is that of no entry
      have hnot : ∀ e ∈ m.toList, e.1 ≠ k := by
        rintro ⟨k', v⟩ he rfl
        simp [Std.TreeMap.mem_toList_iff_getElem?_eq_some.mp he] at hk
      simpa using fun v he => hnot (k, v) he rfl
  | some v =>
    have hmem : (k, f v) ∈ m.toList.map fun e => (e.1, f e.2) :=
      List.mem_map.mpr ⟨(k, v), Std.TreeMap.mem_toList_iff_getElem?_eq_some.mpr hk, rfl⟩
    have hdistinct : (m.toList.map fun e => (e.1, f e.2)).Pairwise
        fun a b => ¬ compare a.1 b.1 = .eq :=
      List.pairwise_map.mpr m.distinct_keys_toList
    exact Std.TreeMap.getElem?_insertMany_list_of_mem Std.ReflCmp.compare_self hdistinct hmem

namespace SessionHandle

variable {ι : Type} {El : ι → Type}

theorem getString_eq_ok_iff {h : SessionHandle El} {key v : Octets} :
    h.getString key = .ok v ↔ h.values[key]? = some (.string v) := by
  unfold getString
  split <;> simp_all

theorem getString_congr {h h' : SessionHandle El} {key : Octets}
    (hvalues : h.values[key]? = h'.values[key]?) : h.getString key = h'.getString key := by
  simp only [getString, hvalues]

/-! ## Loading -/

/-- A line with a key and a value that the format has room for. -/
theorem Loading.line_entry (l : Loading El) {key value : Octets} (hkey : 0x3D ∉ key)
    (hvalue : 0x3D ∉ value) : l.line (key ++ 0x3D :: value) =
      ⟨key, value, l.values.insert key (.string value)⟩ := by
  simp only [Loading.line, Istream.getline_append _ hkey, Istream.getline_last hvalue]

/-- Lines of this kind are inserted one after the other. -/
theorem foldl_line {entries : List (Octets × Octets)} (l : Loading El)
    (h : ∀ e ∈ entries, 0x3D ∉ e.1 ∧ 0x3D ∉ e.2) :
    ((entries.map fun e => e.1 ++ 0x3D :: e.2).foldl Loading.line l).values =
      l.values.insertMany (entries.map fun e => (e.1, .string e.2)) := by
  induction entries generalizing l with
  | nil => rfl
  | cons e entries ih =>
    obtain ⟨hkey, hvalue⟩ := h e List.mem_cons_self
    rw [List.map_cons, List.foldl_cons, Loading.line_entry l hkey hvalue,
      ih _ fun e' he' => h e' (List.mem_cons_of_mem e he'), List.map_cons,
      Std.TreeMap.insertMany_cons]

/-- The variables of the loop and all that has been inserted. -/
structure Loading.AllClean (l : Loading El) : Prop where
  /-- The key. -/
  key : Clean l.key
  /-- The value. -/
  value : Clean l.value
  /-- The entries, which are strings. -/
  values : ∀ k v, l.values[k]? = some v → Clean k ∧ ∃ s, v = .string s ∧ Clean s

/-- So is what `std::getline` leaves in a variable, if the line has no line feed. -/
private theorem clean_getline {str : Octets} {s : Istream} (hstr : Clean str)
    (hrest : 0x0A ∉ s.rest) :
    Clean (s.getline 0x3D str).2.1 ∧ 0x0A ∉ (s.getline 0x3D str).2.2.rest := by
  unfold Istream.getline
  split_ifs with hgood hmem
  · have htake := List.takeWhile_subset (l := s.rest) (· != 0x3D)
    have hdrop := (List.tail_sublist _).trans (s.rest.dropWhile_sublist (· != 0x3D))
    refine ⟨⟨fun h => ?_, fun h => hrest (htake h)⟩, fun h => hrest (hdrop.subset h)⟩
    simpa using List.mem_takeWhile_imp h
  · exact ⟨⟨hmem, hrest⟩, List.not_mem_nil⟩
  · -- the call has failed
    exact ⟨hstr, hrest⟩

theorem Loading.AllClean.line {l : Loading El} (hl : l.AllClean) {line : Octets}
    (hline : 0x0A ∉ line) : (l.line line).AllClean := by
  obtain ⟨hkey, hrest⟩ := clean_getline (s := ⟨line, true⟩) hl.key hline
  obtain ⟨hvalue, -⟩ := clean_getline hl.value hrest
  refine ⟨hkey, hvalue, fun k v hv => ?_⟩
  rw [Loading.line, Std.TreeMap.getElem?_insert] at hv
  split_ifs at hv with hk
  · -- the entry of this line
    obtain rfl := Std.LawfulEqCmp.eq_of_compare hk
    exact ⟨hkey, _, (Option.some_inj.mp hv).symm, hvalue⟩
  · exact hl.values k v hv

/-- No key and no value that is loaded has `=` or a line feed. -/
theorem allClean_load (file : Octets) : (load file : Loading El).AllClean := by
  have hlines : ∀ line ∈ Http.getlines 0x0A file, 0x0A ∉ line := fun line hline =>
    Http.notMem_of_mem_getlines hline
  have hempty : ({} : Loading El).AllClean := ⟨⟨by simp, by simp⟩, ⟨by simp, by simp⟩, by simp⟩
  unfold load
  generalize Http.getlines 0x0A file = lines at hlines
  generalize ({} : Loading El) = l at hempty
  induction lines generalizing l with
  | nil => exact hempty
  | cons line lines ih =>
    exact ih (fun line' h => hlines line' (List.mem_cons_of_mem line h)) _
      (hempty.line (hlines line List.mem_cons_self))

/-! ## Saving and loading -/

/-- What the constructor makes of the disk. -/
theorem construct_fst (dir id : Octets) (d : Disk) :
    (((construct dir id).runOn d).1 : SessionHandle El) =
      { id, values := (load ((d.file (PosixPath.join dir id)).getD [])).values } := by
  cases hfile : d.file (PosixPath.join dir id) with
  | none =>
    simp [construct, hfile]
    rfl
  | some file => simp [construct, hfile]

/-- The handle of a new session in which strings have been stored. -/
def ofSets (id : Octets) (sets : List (Octets × Octets)) : SessionHandle El :=
  sets.foldl (fun h e => h.set e.1 (.string e.2)) { id }

/-- All values that have been stored are strings. -/
theorem exists_string_of_ofSets {id : Octets} {sets : List (Octets × Octets)} {key : Octets}
    {v : Value El} (h : (ofSets id sets).values[key]? = some v) : ∃ s, v = .string s := by
  unfold ofSets at h
  induction sets using List.reverseRecOn with
  | nil => simp at h
  | append_singleton sets e ih =>
    rw [List.foldl_append, List.foldl_cons, List.foldl_nil, set, Std.TreeMap.getElem?_insert] at h
    split_ifs at h with hkey
    · exact ⟨e.2, (Option.some_inj.mp h).symm⟩
    · exact ih h

variable [∀ i, Pluggable (El i)]

/-- What is written is read again. -/
theorem load_content {h : SessionHandle El}
    (hclean : ∀ key v, h.values[key]? = some v → Clean key ∧ Clean v.serialize) (key : Octets) :
    (load h.content : Loading El).values[key]? =
      h.values[key]?.map fun v => .string v.serialize := by
  set entries := h.values.toList.map fun e => (e.1, e.2.serialize) with hentries
  have hall : ∀ e ∈ entries, Clean e.1 ∧ Clean e.2 := by
    intro e he
    obtain ⟨⟨k, v⟩, hmem, rfl⟩ := List.mem_map.mp he
    exact hclean k v (Std.TreeMap.mem_toList_iff_getElem?_eq_some.mp hmem)
  -- the file is a list of lines, and these are what is read
  have hcontent : h.content =
      (entries.map fun e => e.1 ++ 0x3D :: e.2).flatMap fun l => l ++ [0x0A] := by
    simp [content, hentries, List.flatMap_map]
  have hlines : ∀ l ∈ entries.map fun e => e.1 ++ 0x3D :: e.2, 0x0A ∉ l := by
    intro l hl
    obtain ⟨e, he, rfl⟩ := List.mem_map.mp hl
    simp [(hall e he).1.2, (hall e he).2.2]
  rw [load, hcontent, Http.getlines_flatMap hlines,
    foldl_line _ fun e he => ⟨(hall e he).1.1, (hall e he).2.1⟩, hentries, List.map_map]
  exact getElem?_insertMany_toList h.values (fun v => Value.string v.serialize) key

/-- A session that is empty has no content. -/
theorem content_of_isEmpty {h : SessionHandle El} (hempty : h.values.isEmpty) : h.content = [] := by
  rw [← Std.TreeMap.isEmpty_toList, List.isEmpty_iff] at hempty
  rw [content, hempty, List.flatMap_nil]

/-- What `save` leaves on the disk. -/
theorem file_save (dir : Octets) (h : SessionHandle El) (d : Disk) :
    (((h.save dir).runOn d).2.file (PosixPath.join dir h.id)).getD [] = h.content := by
  unfold save
  -- without values there is no file, and this counts as an empty one
  by_cases hempty : h.values.isEmpty
  · -- an old file is removed
    cases hfile : d.file (PosixPath.join dir h.id)
    all_goals simp [hempty, hfile, content_of_isEmpty hempty]
  · simp [hempty]

/-- The handle that is constructed with the identifier of a handle that has been destroyed. -/
def reopened (dir : Octets) (h : SessionHandle El) (d : Disk) : SessionHandle El :=
  ((do h.save dir; construct dir h.id : DiskM (SessionHandle El)).runOn d).1

/-- It has the values of the file, and an empty session has no file. -/
theorem reopened_eq (dir : Octets) (h : SessionHandle El) (d : Disk) :
    reopened dir h d = { id := h.id, values := (load h.content).values } := by
  rw [← file_save dir h d]
  exact construct_fst dir h.id ((h.save dir).runOn d).2

/-- Destroying the handle and constructing another one gives back what has been stored. -/
def Persists (dir : Octets) (h : SessionHandle El) (d : Disk) : Prop :=
  ∀ key, (reopened dir h d).getString key = h.getString key

/-- What has come back has been loaded. -/
theorem clean_of_persists {dir : Octets} {h : SessionHandle El} {d : Disk}
    (hpersists : Persists dir h d) {key value : Octets} (hvalue : h.getString key = .ok value) :
    Clean key ∧ Clean value := by
  have hloaded := (hpersists key).trans hvalue
  rw [reopened_eq, getString_eq_ok_iff] at hloaded
  obtain ⟨hkey, s, hs, hclean⟩ := (allClean_load h.content).values key _ hloaded
  cases hs
  exact ⟨hkey, hclean⟩

/-- A session comes back as it was exactly if the format has room for all its keys and values. -/
theorem persists_iff (dir id : Octets) (sets : List (Octets × Octets)) (d : Disk) :
    Persists dir (ofSets id sets : SessionHandle El) d ↔
      ∀ key value, (ofSets id sets : SessionHandle El).getString key = .ok value →
        Clean key ∧ Clean value := by
  refine ⟨fun hpersists key value hvalue => clean_of_persists hpersists hvalue,
    fun hclean key => ?_⟩
  have hvalues : ∀ key v, (ofSets id sets : SessionHandle El).values[key]? = some v →
      Clean key ∧ Clean v.serialize := by
    intro key v hv
    obtain ⟨s, rfl⟩ := exists_string_of_ofSets hv
    exact hclean key s (getString_eq_ok_iff.mpr hv)
  -- all values are strings, which are their own serialization
  rw [reopened_eq]
  refine getString_congr ((load_content hvalues key).trans ?_)
  -- a string is its own text
  cases hv : (ofSets id sets : SessionHandle El).values[key]? with
  | none => rfl
  | some v =>
    obtain ⟨s, rfl⟩ := exists_string_of_ofSets hv
    rfl

/-- A value is cut off in front of its `=`. -/
theorem not_persists :
    ¬ ∀ (ι : Type) (El : ι → Type) [∀ i, Pluggable (El i)] (dir id : Octets)
      (sets : List (Octets × Octets)) (d : Disk), (∀ e ∈ sets, e.1 ≠ []) →
      Persists dir (ofSets id sets : SessionHandle El) d := by
  intro h
  have hpersists := h Unit (fun _ => Octets) (octets "/tmp/_rite/") (octets "id")
    [(octets "k", octets "a=b")] ⟨fun _ => none, []⟩ (by decide)
  have hvalue : (ofSets (octets "id") [(octets "k", octets "a=b")] :
      SessionHandle fun _ : Unit => Octets).getString (octets "k") = .ok (octets "a=b") :=
    getString_eq_ok_iff.mpr (by simp [ofSets, set])
  -- what comes back has no `=`
  exact absurd (clean_of_persists hpersists hvalue).2 (by decide)

end SessionHandle

end Rite
