import Rite.Odin.RequestLog
import Rite.ToMathlib.Decimal
import Rite.ToMathlib.Template

/-!
# Rendering the admin panel

`render` replaces one placeholder after the other, in the order in which an `unordered_map` has
them. A value that has been put in is scanned for the placeholders that come later.

## Main results

* `replaceLoop_eq`: the loop replaces all occurrences of a placeholder that are behind its position;
* `render_eq_fill`: as long as the values make no new placeholders, `render` fills holes;
* `simultaneous_iff`: when rendering is a simultaneous substitution;
* `serializeOdinRequest_eq`: it is one for a request without `%`;
* `not_simultaneous`: a path with a placeholder in it.
-/

namespace Rite.Odin

open Template

/-- `std::string::find`. -/
def find (s p : Octets) (pos : ℕ) : Option ℕ :=
  (List.range' pos (s.length + 1 - pos)).find? fun i => p <+: s.drop i

theorem find_eq_none_iff {s p : Octets} {pos : ℕ} :
    find s p pos = none ↔ ∀ i, pos ≤ i → i ≤ s.length → ¬ p <+: s.drop i := by
  simp only [find, List.find?_eq_none, List.mem_range'_1, decide_eq_true_eq]
  exact forall_congr' fun i =>
    ⟨fun h hpos hle => h ⟨hpos, by omega⟩, fun h hi => h hi.1 (by omega)⟩

/-- What is found is a first occurrence. -/
theorem find_eq_some {s p : Octets} {pos i : ℕ} (h : find s p pos = some i) :
    pos ≤ i ∧ p <+: s.drop i ∧ ∀ j, pos ≤ j → j < i → ¬ p <+: s.drop j := by
  obtain ⟨hbegins, k, hk, heq, hbefore⟩ := List.find?_eq_some_iff_getElem.mp h
  rw [List.length_range'] at hk
  rw [List.getElem_range'_1] at heq
  refine ⟨by omega, of_decide_eq_true hbegins, fun j hpos hlt => ?_⟩
  have hj := hbefore (j - pos) (by omega)
  rw [List.getElem_range'_1, Nat.add_sub_cancel' hpos] at hj
  simpa using hj

/-- The text in front of the position, up to the occurrence, and behind it. -/
theorem exists_eq_append_of_find {s p : Octets} {pos i : ℕ} (hp : p ≠ [])
    (h : find s p pos = some i) :
    ∃ w u t, s = w ++ u ++ (p ++ t) ∧ pos = w.length ∧ i = (w ++ u).length ∧
      starts p u (p ++ t) = 0 := by
  obtain ⟨hpos, ⟨t, ht⟩, hbefore⟩ := find_eq_some h
  have hi : i ≤ s.length := by
    by_contra hlt
    rw [List.drop_eq_nil_of_le (by omega), List.append_eq_nil_iff] at ht
    exact hp ht.1
  have hu : (s.drop pos).take (i - pos) ++ (p ++ t) = s.drop pos := by
    rw [ht, ← Nat.add_sub_cancel' hpos, ← List.drop_drop, Nat.add_sub_cancel_left,
      List.take_append_drop]
  refine ⟨s.take pos, (s.drop pos).take (i - pos), t, ?_, ?_, ?_, starts_eq_zero fun j hj => ?_⟩
  · rw [List.append_assoc, hu, List.take_append_drop]
  · rw [List.length_take, Nat.min_eq_left (hpos.trans hi)]
  · rw [List.length_append, List.length_take, List.length_take, List.length_drop]
    omega
  · rw [List.length_take] at hj
    rw [hu, List.drop_drop]
    exact hbefore (pos + j) (by omega) (by omega)

/-- The loop over the occurrences of the placeholder of a name. -/
def replaceLoop (name value result : Octets) (pos : ℕ) : Octets :=
  match _h : find result (0x25 :: name) pos with
  | none => result
  | some i =>
    replaceLoop name value
      (result.take i ++ value ++ result.drop (i + (0x25 :: name).length)) (i + value.length)
termination_by result.length - pos
decreasing_by
  obtain ⟨hpos, hbegins, -⟩ := find_eq_some _h
  have hlength := hbegins.length_le
  simp only [List.length_cons, List.length_append, List.length_take, List.length_drop] at hlength ⊢
  omega

/-- `render`, with the entries of the map in the order in which they are iterated over. -/
def render (templateStr : Octets) (values : List (Octets × Octets)) : Octets :=
  values.foldl (fun result pair => replaceLoop pair.1 pair.2 result 0) templateStr

/-- The loop replaces all occurrences from the position on. -/
theorem replaceLoop_eq (name value result : Octets) (pos : ℕ) :
    replaceLoop name value result pos =
      result.take pos ++ replaceAll (0x25 :: name) value (result.drop pos) := by
  fun_induction replaceLoop name value result pos with
  | case1 result pos hfind =>
    have hstarts : starts (0x25 :: name) (result.drop pos) [] = 0 := by
      refine starts_eq_zero fun i hi => ?_
      rw [List.length_drop] at hi
      rw [List.append_nil, List.drop_drop]
      exact find_eq_none_iff.mp hfind (pos + i) (by omega) (by omega)
    have hsame := replaceAll_append value hstarts
    rw [List.append_nil, replaceAll, List.append_nil] at hsame
    rw [hsame, List.take_append_drop]
  | case2 result pos i hfind ih =>
    obtain ⟨w, u, t, rfl, rfl, rfl, hstarts⟩ :=
      exists_eq_append_of_find (List.cons_ne_nil 0x25 name) hfind
    have htake : (w ++ u ++ (0x25 :: name ++ t)).take (w ++ u).length = w ++ u := List.take_left
    have hbehind : (w ++ u ++ (0x25 :: name ++ t)).drop ((w ++ u).length + (0x25 :: name).length) =
        t := by
      rw [← List.drop_drop, List.drop_left, List.drop_left]
    rw [ih, htake, hbehind, ← List.length_append, List.take_left, List.drop_left]
    calc
      w ++ u ++ value ++ replaceAll (0x25 :: name) value t
          = w ++ (u ++ replaceAll (0x25 :: name) value (0x25 :: name ++ t)) := by
        rw [replaceAll_occurrence (List.cons_ne_nil 0x25 name)]
        simp only [List.append_assoc]
      _ = w ++ replaceAll (0x25 :: name) value (u ++ (0x25 :: name ++ t)) := by
        rw [replaceAll_append value hstarts]
      _ = _ := by rw [List.append_assoc w u, List.take_left, List.drop_left]

/-! ## Maps of values -/

/-- A map from names to values. -/
structure Bindings where
  /-- Its entries. -/
  entries : List (Octets × Octets)
  /-- There is one entry for a name. -/
  nodup : (entries.map Prod.fst).Nodup
  /-- No name is empty. -/
  ne_nil : ∀ e ∈ entries, e.1 ≠ []
  /-- There is no `%` in a name. -/
  notMem : ∀ e ∈ entries, 0x25 ∉ e.1
  /-- No name begins with another one. -/
  eq_of_prefix : ∀ e ∈ entries, ∀ e' ∈ entries, e.1 <+: e'.1 → e.1 = e'.1

/-- Rendering puts all values in at once. -/
structure Simultaneous (templateStr : Octets) (values : Bindings) : Prop where
  /-- The values are where their placeholders have been, for each order of the entries. -/
  result : ∀ order, order.Perm values.entries →
    render templateStr order = substitute 0x25 values.entries templateStr
  /-- The placeholders that are replaced are those of the template. -/
  once : ∀ before e after, (before ++ e :: after).Perm values.entries →
    occurrences (0x25 :: e.1) (render templateStr before) = occurrences (0x25 :: e.1) templateStr

/-- With all other values put in at once, there are no more placeholders of a name. -/
def NoneArises (templateStr : Octets) (values : Bindings) : Prop :=
  ∀ e ∈ values.entries,
    occurrences (0x25 :: e.1)
        (substitute 0x25 (values.entries.filter fun e' => e'.1 ≠ e.1) templateStr) =
      occurrences (0x25 :: e.1) templateStr

/-- The name has an entry among those that have been put in. -/
def filled (before : List (Octets × Octets)) (name : Octets) : Bool :=
  before.any fun e => name = e.1

theorem filled_iff {before : List (Octets × Octets)} {name : Octets} :
    filled before name ↔ name ∈ before.map Prod.fst := by
  rw [filled, List.any_eq_true, List.mem_map]
  exact exists_congr fun e => and_congr_right fun _ => decide_eq_true_iff.trans eq_comm

section Order

variable {templateStr : Octets} {values : Bindings} {before after : List (Octets × Octets)}
  {e : Octets × Octets}

theorem Bindings.names (values : Bindings) : Names 0x25 values.entries :=
  ⟨values.notMem, fun e he e' he' hbegins =>
    List.inj_on_of_nodup_map values.nodup he he' (values.eq_of_prefix e he e' he' hbegins)⟩

theorem mem_entries (h : (before ++ e :: after).Perm values.entries) : e ∈ values.entries :=
  h.subset (List.mem_append_right before List.mem_cons_self)

theorem filled_eq_false (h : (before ++ e :: after).Perm values.entries) :
    filled before e.1 = false := by
  have hnodup := (h.map Prod.fst).nodup_iff.mpr values.nodup
  rw [List.map_append, List.map_cons, List.nodup_append'] at hnodup
  exact Bool.eq_false_iff.mpr fun hmem => hnodup.2.2 (filled_iff.mp hmem) List.mem_cons_self

/-- No placeholder of the next name has come up exactly if nothing strays. -/
theorem occurrences_render_eq_iff (h : (before ++ e :: after).Perm values.entries)
    (hrender : render templateStr before =
      fill 0x25 (filled before) (tokenize 0x25 values.entries templateStr)) :
    occurrences (0x25 :: e.1) (render templateStr before) = occurrences (0x25 :: e.1) templateStr ↔
      strays 0x25 (filled before) e.1 (tokenize 0x25 values.entries templateStr) = 0 := by
  rw [hrender, occurrences_fill values.names (mem_entries h) (filled_eq_false h)
    (from_tokenize 0x25 values.entries templateStr),
    occurrences_eq_countP values.names (mem_entries h)]
  omega

/-- If nothing strays, the holes for the next name are filled. -/
theorem render_concat (h : (before ++ e :: after).Perm values.entries)
    (hrender : render templateStr before =
      fill 0x25 (filled before) (tokenize 0x25 values.entries templateStr))
    (hstrays : strays 0x25 (filled before) e.1 (tokenize 0x25 values.entries templateStr) = 0) :
    render templateStr (before ++ [e]) =
      fill 0x25 (filled (before ++ [e])) (tokenize 0x25 values.entries templateStr) := by
  have hfilled : filled (before ++ [e]) = fun name => filled before name || name = e.1 := by
    funext name
    rw [filled, List.any_append, List.any_cons, List.any_nil, Bool.or_false]
    rfl
  rw [hfilled, ← replaceAll_fill values.names (mem_entries h) (filled_eq_false h)
    (from_tokenize 0x25 values.entries templateStr) hstrays, ← hrender]
  rw [render, List.foldl_append]
  exact replaceLoop_eq e.1 e.2 (render templateStr before) 0

/-- As long as nothing strays, rendering fills holes. -/
theorem render_eq_fill (templateStr : Octets)
    (hstrays : ∀ before e after, (before ++ e :: after).Perm values.entries →
      render templateStr before =
        fill 0x25 (filled before) (tokenize 0x25 values.entries templateStr) →
      strays 0x25 (filled before) e.1 (tokenize 0x25 values.entries templateStr) = 0)
    (h : (before ++ after).Perm values.entries) :
    render templateStr before =
      fill 0x25 (filled before) (tokenize 0x25 values.entries templateStr) := by
  induction before using List.reverseRecOn generalizing after with
  | nil => exact (fill_tokenize 0x25 values.entries templateStr).symm
  | append_singleton before e ih =>
    rw [List.append_assoc] at h
    exact render_concat h (ih h) (hstrays before e after h (ih h))

/-- What has been filled is a substitution. -/
theorem fill_filled (templateStr : Octets) (values : Bindings)
    (before : List (Octets × Octets)) :
    fill 0x25 (filled before) (tokenize 0x25 values.entries templateStr) =
      substitute 0x25 (values.entries.filter fun e => filled before e.1) templateStr :=
  (substitute_filter values.names (filled before) templateStr).symm

/-- In the last place a name sees what all other values make. -/
theorem strays_eq_zero_of_noneArises (hnone : NoneArises templateStr values)
    (h : (before ++ e :: after).Perm values.entries) :
    strays 0x25 (filled before) e.1 (tokenize 0x25 values.entries templateStr) = 0 := by
  have he := mem_entries h
  have hothers := hnone e he
  rw [substitute_filter values.names (fun name => name ≠ e.1),
    occurrences_fill values.names he (by simp) (from_tokenize 0x25 values.entries templateStr),
    occurrences_eq_countP values.names he] at hothers
  have hle : ∀ name, filled before name → decide (name ≠ e.1) := by
    intro name hname
    refine decide_eq_true fun heq => ?_
    rw [heq, filled_eq_false h] at hname
    exact Bool.false_ne_true hname
  have hmono := strays_mono values.names he hle (from_tokenize 0x25 values.entries templateStr)
  omega

/-- An entry may come last. -/
theorem others_perm (he : e ∈ values.entries) :
    ((values.entries.filter fun e' => e'.1 ≠ e.1) ++ [e]).Perm values.entries := by
  obtain ⟨l, r, heq⟩ := List.append_of_mem he
  have hnodup := values.nodup
  rw [heq, List.map_append, List.map_cons, List.nodup_middle, List.nodup_cons, List.mem_append,
    not_or] at hnodup
  have hl : (l.filter fun e' => e'.1 ≠ e.1) = l := List.filter_eq_self.mpr fun e' he' =>
    decide_eq_true fun hname => hnodup.1.1 (hname ▸ List.mem_map_of_mem he')
  have hr : (r.filter fun e' => e'.1 ≠ e.1) = r := List.filter_eq_self.mpr fun e' he' =>
    decide_eq_true fun hname => hnodup.1.2 (hname ▸ List.mem_map_of_mem he')
  rw [heq, List.filter_append, List.filter_cons_of_neg (by simp), hl, hr]
  exact (List.perm_append_singleton e (l ++ r)).trans List.perm_middle.symm

/-- The other names are those that are different. -/
theorem filter_filled_others (values : Bindings) (n : Octets) :
    (values.entries.filter fun e => filled (values.entries.filter fun e => e.1 ≠ n) e.1) =
      values.entries.filter fun e => e.1 ≠ n := by
  refine List.filter_congr fun e he => ?_
  have hiff : filled (values.entries.filter fun e => e.1 ≠ n) e.1 ↔ e.1 ≠ n := by
    rw [filled_iff, List.mem_map]
    constructor
    · rintro ⟨e', he', hname⟩
      rw [← hname]
      exact of_decide_eq_true (List.mem_filter.mp he').2
    · exact fun hne => ⟨e, List.mem_filter.mpr ⟨he, decide_eq_true hne⟩, rfl⟩
  exact Bool.eq_iff_iff.mpr (hiff.trans decide_eq_true_iff.symm)

/-- All entries of an order are put in. -/
theorem filter_filled (h : before.Perm values.entries) :
    (values.entries.filter fun e => filled before e.1) = values.entries := by
  rw [List.filter_eq_self]
  exact fun e he => filled_iff.mpr (List.mem_map_of_mem (h.symm.subset he))

end Order

/-- When an entry comes last, the text that its loop goes through has all other values in it. -/
theorem noneArises_of_simultaneous {templateStr : Octets} {values : Bindings}
    (h : Simultaneous templateStr values) : NoneArises templateStr values := by
  intro e he
  have hperm := others_perm he
  have hrender := render_eq_fill templateStr
    (fun before e after hperm hrender =>
      (occurrences_render_eq_iff hperm hrender).mp (h.once before e after hperm)) hperm
  rw [fill_filled, filter_filled_others] at hrender
  rw [← hrender]
  exact h.once _ e [] hperm

theorem simultaneous_of_noneArises {templateStr : Octets} {values : Bindings}
    (h : NoneArises templateStr values) : Simultaneous templateStr values := by
  have hrender {before after : List (Octets × Octets)}
      (hperm : (before ++ after).Perm values.entries) :=
    render_eq_fill templateStr
      (fun before e after hperm _ => strays_eq_zero_of_noneArises h hperm) hperm
  constructor
  · intro order hperm
    have hall : (order ++ []).Perm values.entries := by rwa [List.append_nil]
    rw [hrender hall, fill_filled, filter_filled hperm]
  · intro before e after hperm
    exact (occurrences_render_eq_iff hperm (hrender hperm)).mpr
      (strays_eq_zero_of_noneArises h hperm)

/-- Rendering is a simultaneous substitution exactly if no placeholder comes up when all other
values are put in. -/
theorem simultaneous_iff (templateStr : Octets) (values : Bindings) :
    Simultaneous templateStr values ↔ NoneArises templateStr values :=
  ⟨noneArises_of_simultaneous, simultaneous_of_noneArises⟩

/-- A value with the placeholder of another name in it. -/
theorem not_noneArises {templateStr : Octets} {values : Bindings} {e e' : Octets × Octets}
    (he : e ∈ values.entries) (he' : e' ∈ values.entries) (hne : e.1 ≠ e'.1)
    (hshown : 0 < occurrences (0x25 :: e.1) templateStr)
    (hvalue : 0 < occurrences (0x25 :: e'.1) e.2) : ¬ NoneArises templateStr values := by
  intro hnone
  have hstrays := strays_eq_zero_of_noneArises hnone (others_perm he')
  have hfilled : filled (values.entries.filter fun e => e.1 ≠ e'.1) e.1 :=
    filled_iff.mpr (List.mem_map_of_mem (List.mem_filter.mpr ⟨he, decide_eq_true hne⟩))
  have hle : occurrences (0x25 :: e'.1) e.2 ≤ strays 0x25 _ e'.1 _ :=
    occurrences_le_strays (exists_hole values.names he hshown) hfilled hne
  omega

/-- Values without `%` make no placeholders in a template that has no other `%`. -/
theorem noneArises_of_notMem {templateStr : Octets} {values : Bindings}
    (hmarked : Marked 0x25 values.entries templateStr)
    (hvalues : ∀ e ∈ values.entries, 0x25 ∉ e.2) : NoneArises templateStr values := by
  intro e he
  have htokens := from_tokenize 0x25 values.entries templateStr
  rw [substitute_filter values.names (fun name => name ≠ e.1),
    occurrences_fill values.names he (by simp) htokens, occurrences_eq_countP values.names he,
    strays_eq_zero values.names he htokens (fun d hd => ne_of_letter_mem hmarked hd)
      (fun e he _ => hvalues e he), Nat.add_zero]

/-! ## The list of requests -/

/-- The number of a method. -/
def methodNumber : Option HttpMethod → ℕ
  | none => 0
  | some .get => 1
  | some .head => 2
  | some .post => 4
  | some .put => 8
  | some .delete => 16
  | some .connect => 32
  | some .options => 64
  | some .trace => 128
  | some .patch => 256

/-- `template_` of `serialize_odin_request`. -/
def requestTemplate : Octets := octets "
<div class=\"flex row gap justify-between -request\">
<span class=\"-method\" x-http-method=\"%method\">%method</span>
<div class=\"flex column items-center\">
<span class=\"-path\">%path</span>
<span class=\"muted -ip\">%ip</span>
</div>
<span>%size KiB</span>
<span>%request_time</span>
<span>%processing_time us</span>
</div>
"

/-- The names of the values of a request. -/
def requestNames : List Octets :=
  [octets "method", octets "path", octets "ip", octets "size", octets "request_time",
    octets "processing_time"]

/-- The values of a request. `getnameinfo` gives the address and the port. -/
def requestValues (getnameinfo : Octets → Octets × Octets) (r : OdinHttpRequest) : Bindings where
  entries :=
    [(octets "method", Decimal.natDigits (methodNumber r.method)),
      (octets "path", r.path),
      (octets "ip", (getnameinfo r.ip).1 ++ octets ":" ++ (getnameinfo r.ip).2),
      (octets "size", Decimal.natDigits (r.requestBodyLen / 1024)),
      (octets "request_time", []),
      (octets "processing_time", Decimal.numeral r.processingTime)]
  nodup := show requestNames.Nodup by decide
  ne_nil e he := (show ∀ n ∈ requestNames, n ≠ [] by decide) e.1 (List.mem_map_of_mem he)
  notMem e he := (show ∀ n ∈ requestNames, 0x25 ∉ n by decide) e.1 (List.mem_map_of_mem he)
  eq_of_prefix e he e' he' :=
    (show ∀ n ∈ requestNames, ∀ n' ∈ requestNames, n <+: n' → n = n' by decide)
      e.1 (List.mem_map_of_mem he) e'.1 (List.mem_map_of_mem he')

/-- `serialize_odin_request`, for a map that is iterated over in some order. -/
def serializeOdinRequest (iterate : List (Octets × Octets) → List (Octets × Octets))
    (getnameinfo : Octets → Octets × Octets) (r : OdinHttpRequest) : Octets :=
  render requestTemplate (iterate (requestValues getnameinfo r).entries)

theorem percent_notMem_numeral (x : ℤ) : 0x25 ∉ Decimal.numeral x := by
  intro h
  rcases Decimal.isNumeral_of_mem h with h | h
  · exact absurd h (by decide)
  · exact absurd h (by decide)

theorem percent_notMem_natDigits (n : ℕ) : 0x25 ∉ Decimal.natDigits n := fun h =>
  absurd (Decimal.isDigit_of_mem h) (by decide)

/-- A request without `%` in its path and its address is shown as it is. -/
theorem serializeOdinRequest_eq {iterate : List (Octets × Octets) → List (Octets × Octets)}
    {getnameinfo : Octets → Octets × Octets} {r : OdinHttpRequest}
    (hiterate : ∀ entries, (iterate entries).Perm entries) (hpath : 0x25 ∉ r.path)
    (hhost : 0x25 ∉ (getnameinfo r.ip).1) (hport : 0x25 ∉ (getnameinfo r.ip).2) :
    serializeOdinRequest iterate getnameinfo r =
      substitute 0x25 (requestValues getnameinfo r).entries requestTemplate := by
  have hnames : ∀ t ∈ requestTemplate.tails, t.head? = some 0x25 →
      ∃ n ∈ requestNames, 0x25 :: n <+: t := by decide +kernel
  have hmarked : Marked 0x25 (requestValues getnameinfo r).entries requestTemplate := by
    intro t ht hhead
    obtain ⟨n, hn, hbegins⟩ := hnames t ht hhead
    obtain ⟨e, he, rfl⟩ := List.mem_map.mp
      (show n ∈ (requestValues getnameinfo r).entries.map Prod.fst from hn)
    exact ⟨e, he, hbegins⟩
  have hcolon : 0x25 ∉ octets ":" := by decide
  have hvalues : ∀ e ∈ (requestValues getnameinfo r).entries, 0x25 ∉ e.2 := by
    simp only [requestValues, List.forall_mem_cons, List.mem_append, not_or]
    exact ⟨percent_notMem_natDigits _, hpath, ⟨⟨hhost, hcolon⟩, hport⟩, percent_notMem_natDigits _,
      List.not_mem_nil, percent_notMem_numeral _, List.forall_mem_nil _⟩
  exact (simultaneous_of_noneArises (noneArises_of_notMem hmarked hvalues)).result _ (hiterate _)

/-- A request for the path `/%method`. -/
def methodRequest : OdinHttpRequest where
  path := octets "/%method"
  query := []
  ip := []
  method := some .get
  requestBodyLen := 0
  version := .http11
  time := 0
  processingTime := 0

/-- The address of a client on this host. -/
def loopback (_ : Octets) : Octets × Octets := (octets "::1", octets "4000")

/-- The number of the method is put into the path. -/
theorem not_simultaneous :
    ¬ Simultaneous requestTemplate (requestValues loopback methodRequest) := by
  intro h
  have hpath : (octets "path", octets "/%method") ∈
      (requestValues loopback methodRequest).entries := List.mem_cons_of_mem _ List.mem_cons_self
  have hmethod : (octets "method", Decimal.natDigits 1) ∈
      (requestValues loopback methodRequest).entries := List.mem_cons_self
  have hshown : 0 < occurrences (0x25 :: octets "path") requestTemplate := by decide +kernel
  exact not_noneArises hpath hmethod (by decide) hshown (by decide) (noneArises_of_simultaneous h)

end Rite.Odin
