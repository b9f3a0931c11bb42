import Mathlib

/-!
# Templates

A template is a text with placeholders: a marker and a name. The names have no marker, and none of
them begins with another one, so that a template can be taken apart into letters and holes in one
way. Filling some of the holes may make placeholders that are not holes: they come out of the
values, or of what stands around them.

## Main results

* `fill_tokenize`, `substitute_filter`: filling no hole gives the template, and filling some of them
  is a substitution of their values;
* `occurrences_fill`: the placeholders of a name are its holes, and those that are not;
* `strays_mono`: the latter only get more when more holes are filled;
* `strays_eq_zero`: there are none if the values have no markers;
* `replaceAll_fill`: without such placeholders, replacing a name fills its holes.
-/

namespace Template

variable {α : Type*} [DecidableEq α]

/-! ## Occurrences -/

/-- The number of places where a text begins with a pattern. -/
def occurrences (p : List α) : List α → ℕ
  | [] => 0
  | c :: s => (if p <+: c :: s then 1 else 0) + occurrences p s

/-- The number of these places that are in the first part of a text. -/
def starts (p : List α) : List α → List α → ℕ
  | [], _ => 0
  | c :: u, t => (if p <+: c :: u ++ t then 1 else 0) + starts p u t

theorem occurrences_append (p u t : List α) :
    occurrences p (u ++ t) = starts p u t + occurrences p t := by
  induction u with
  | nil => simp [starts]
  | cons c u ih =>
    rw [List.cons_append, occurrences, ih, starts, List.cons_append]
    omega

theorem occurrences_le_starts (p u t : List α) : occurrences p u ≤ starts p u t := by
  induction u with
  | nil => exact le_rfl
  | cons c u ih =>
    rw [occurrences, starts]
    split_ifs with hu ht
    · omega
    · exact absurd (hu.trans (List.prefix_append (c :: u) t)) ht
    · omega
    · omega

theorem starts_eq_zero {p u t : List α} (h : ∀ i < u.length, ¬ p <+: (u ++ t).drop i) :
    starts p u t = 0 := by
  induction u with
  | nil => rfl
  | cons c u ih =>
    have hnot : ¬ p <+: c :: u ++ t := h 0 (Nat.succ_pos _)
    rw [starts, if_neg hnot, Nat.zero_add]
    exact ih fun i hi => h (i + 1) (Nat.succ_lt_succ hi)

/-- Replace a pattern from left to right. -/
def replaceAll (p v : List α) : List α → List α
  | [] => []
  | c :: s =>
    if p <+: c :: s then v ++ replaceAll p v (s.drop (p.length - 1)) else c :: replaceAll p v s
termination_by s => s.length
decreasing_by all_goals simp

theorem replaceAll_occurrence {p v t : List α} (hp : p ≠ []) :
    replaceAll p v (p ++ t) = v ++ replaceAll p v t := by
  obtain ⟨c, p, rfl⟩ := List.exists_cons_of_ne_nil hp
  have hbegins : c :: p <+: c :: (p ++ t) := List.prefix_append (c :: p) t
  rw [List.cons_append, replaceAll, if_pos hbegins, List.length_cons, Nat.add_sub_cancel,
    List.drop_left]

/-- What a pattern does not begin in is passed over. -/
theorem replaceAll_append {p u t : List α} (v : List α) (h : starts p u t = 0) :
    replaceAll p v (u ++ t) = u ++ replaceAll p v t := by
  induction u with
  | nil => rfl
  | cons c u ih =>
    rw [starts, Nat.add_eq_zero_iff] at h
    have hnot : ¬ p <+: c :: (u ++ t) := by simpa using h.1
    rw [List.cons_append, replaceAll, if_neg hnot, ih h.2, List.cons_append]

/-! ## Tokens -/

/-- What a template is made of. -/
inductive Token (α : Type*)
  /-- A letter. -/
  | letter (c : α)
  /-- A placeholder, with its value. -/
  | hole (name value : List α)

/-- The tokens of a template, for the given names and values. -/
def tokenize (m : α) (entries : List (List α × List α)) : List α → List (Token α)
  | [] => []
  | c :: s =>
    match entries.find? fun e => m :: e.1 <+: c :: s with
    | some e => .hole e.1 e.2 :: tokenize m entries (s.drop e.1.length)
    | none => .letter c :: tokenize m entries s
termination_by s => s.length
decreasing_by all_goals simp

/-- Substitute the values for the placeholders of a template, all at once. -/
def substitute (m : α) (entries : List (List α × List α)) : List α → List α
  | [] => []
  | c :: s =>
    match entries.find? fun e => m :: e.1 <+: c :: s with
    | some e => e.2 ++ substitute m entries (s.drop e.1.length)
    | none => c :: substitute m entries s
termination_by s => s.length
decreasing_by all_goals simp

/-- A token with its value, if it is a hole that is filled, and as it stands in the template
otherwise. -/
def Token.text (m : α) (filled : List α → Bool) : Token α → List α
  | letter c => [c]
  | hole name value => if filled name then value else m :: name

/-- A template with some of its holes filled. -/
def fill (m : α) (filled : List α → Bool) (tokens : List (Token α)) : List α :=
  tokens.flatMap (Token.text m filled)

omit [DecidableEq α] in
@[simp] theorem fill_cons (m : α) (filled : List α → Bool) (t : Token α) (tokens : List (Token α)) :
    fill m filled (t :: tokens) = t.text m filled ++ fill m filled tokens := rfl

/-- Names that make the holes of a template unique. -/
structure Names (m : α) (entries : List (List α × List α)) : Prop where
  /-- There is no marker in a name. -/
  marker : ∀ e ∈ entries, m ∉ e.1
  /-- No name begins with another one. -/
  eq_of_prefix : ∀ e ∈ entries, ∀ e' ∈ entries, e.1 <+: e'.1 → e = e'

variable {m : α} {entries : List (List α × List α)}

omit [DecidableEq α] in
theorem Names.filter (h : Names m entries) (q : List α × List α → Bool) :
    Names m (entries.filter q) :=
  ⟨fun e he => h.marker e (List.mem_of_mem_filter he), fun e he e' he' =>
    h.eq_of_prefix e (List.mem_of_mem_filter he) e' (List.mem_of_mem_filter he')⟩

omit [DecidableEq α] in
/-- At most one name is that of a placeholder. -/
theorem Names.eq_of_prefix_of_prefix (h : Names m entries) {e e' : List α × List α}
    (he : e ∈ entries) (he' : e' ∈ entries) {s : List α} (hs : m :: e.1 <+: s)
    (hs' : m :: e'.1 <+: s) : e = e' := by
  rcases List.prefix_or_prefix_of_prefix hs hs' with hp | hp
  · exact h.eq_of_prefix e he e' he' ((List.prefix_cons_inj m).mp hp)
  · exact (h.eq_of_prefix e' he' e he ((List.prefix_cons_inj m).mp hp)).symm

/-- Without holes that are filled the template is there. -/
theorem fill_tokenize (m : α) (entries : List (List α × List α)) (s : List α) :
    fill m (fun _ => false) (tokenize m entries s) = s := by
  fun_induction tokenize m entries s with
  | case1 => rfl
  | case2 c s e hfind ih =>
    obtain ⟨t, ht⟩ : m :: e.1 <+: c :: s := by simpa using List.find?_some hfind
    rw [List.cons_append, List.cons.injEq] at ht
    obtain ⟨rfl, rfl⟩ := ht
    rw [fill_cons, ih, List.drop_left]
    rfl
  | case3 c s hfind ih =>
    rw [fill_cons, ih]
    rfl

/-- A part of a template without a marker is not changed. -/
theorem substitute_append {u : List α} (hu : m ∉ u) (entries : List (List α × List α))
    (t : List α) : substitute m entries (u ++ t) = u ++ substitute m entries t := by
  induction u with
  | nil => rfl
  | cons c u ih =>
    rw [List.mem_cons, not_or] at hu
    have hfind : (entries.find? fun e => m :: e.1 <+: c :: (u ++ t)) = none := by
      rw [List.find?_eq_none]
      intro e _ hp
      exact hu.1 (List.cons_prefix_cons.mp (of_decide_eq_true hp)).1
    rw [List.cons_append, substitute, hfind, ih hu.2, List.cons_append]

/-- The placeholder of an entry is found, unless the entry is left out. -/
theorem find?_filter (h : Names m entries) (q : List α × List α → Bool) {e : List α × List α}
    (he : e ∈ entries) {s : List α} (hs : m :: e.1 <+: s) :
    ((entries.filter q).find? fun e => m :: e.1 <+: s) = if q e then some e else none := by
  split_ifs with hq
  · have hsome : ((entries.filter q).find? fun e => m :: e.1 <+: s).isSome := by
      rw [List.find?_isSome]
      exact ⟨e, List.mem_filter.mpr ⟨he, hq⟩, decide_eq_true hs⟩
    obtain ⟨e', hfind⟩ := Option.isSome_iff_exists.mp hsome
    have hs' : m :: e'.1 <+: s := by simpa using List.find?_some hfind
    have he' := List.mem_of_mem_filter (List.mem_of_find?_eq_some hfind)
    rw [hfind, h.eq_of_prefix_of_prefix he' he hs' hs]
  · rw [List.find?_eq_none]
    intro e' he' hs'
    obtain ⟨he', hq'⟩ := List.mem_filter.mp he'
    rw [h.eq_of_prefix_of_prefix he' he (of_decide_eq_true hs') hs] at hq'
    exact hq hq'

/-- Filling some of the holes substitutes the values for these. -/
theorem substitute_filter (h : Names m entries) (filled : List α → Bool) (s : List α) :
    substitute m (entries.filter fun e => filled e.1) s =
      fill m filled (tokenize m entries s) := by
  fun_induction tokenize m entries s with
  | case1 =>
    rw [substitute]
    rfl
  | case2 c s e hfind ih =>
    have he := List.mem_of_find?_eq_some hfind
    have hs : m :: e.1 <+: c :: s := by simpa using List.find?_some hfind
    have hfind' := find?_filter h (fun e => filled e.1) he hs
    obtain ⟨t, ht⟩ := hs
    rw [List.cons_append, List.cons.injEq] at ht
    obtain ⟨rfl, rfl⟩ := ht
    rw [List.drop_left] at ih
    rw [List.drop_left, fill_cons, ← ih, Token.text, substitute, hfind']
    split_ifs with hfilled
    · show e.2 ++ substitute m _ ((e.1 ++ t).drop e.1.length) = _
      rw [List.drop_left]
    · -- the name is left where it is
      show m :: substitute m _ (e.1 ++ t) = _
      rw [substitute_append (h.marker e he), List.cons_append]
  | case3 c s hfind ih =>
    have hfind' : ((entries.filter fun e => filled e.1).find? fun e => m :: e.1 <+: c :: s) =
        none := by
      rw [List.find?_eq_none] at hfind ⊢
      exact fun e he => hfind e (List.mem_of_mem_filter he)
    rw [substitute, hfind', ih]
    rfl

/-! ## Placeholders that are not holes -/

/-- The token is a hole for the name. -/
def Token.isHole (n : List α) : Token α → Bool
  | letter _ => false
  | hole name _ => name = n

theorem Token.isHole_iff {n : List α} {t : Token α} : t.isHole n ↔ ∃ value, t = hole n value := by
  cases t with
  | letter c => simp [isHole]
  | hole name value => simp [isHole]

/-- The placeholders of a name that begin anywhere but with a hole for it. -/
def strays (m : α) (filled : List α → Bool) (n : List α) : List (Token α) → ℕ
  | [] => 0
  | t :: tokens =>
    (if t.isHole n then 0 else starts (m :: n) (t.text m filled) (fill m filled tokens)) +
      strays m filled n tokens

/-- A part without a marker begins no placeholder. -/
theorem starts_of_notMem {u : List α} (hu : m ∉ u) (n t : List α) : starts (m :: n) u t = 0 := by
  induction u with
  | nil => rfl
  | cons c u ih =>
    rw [List.mem_cons, not_or] at hu
    have hnot : ¬ m :: n <+: c :: u ++ t := fun hp => hu.1 (List.cons_prefix_cons.mp hp).1
    rw [starts, if_neg hnot, ih hu.2]

/-- In a hole that is not filled there is its own placeholder. -/
theorem starts_hole {n name : List α} (hname : m ∉ name)
    (hn : ∀ s, m :: n <+: s → m :: name <+: s → n = name) (t : List α) :
    starts (m :: n) (m :: name) t = if n = name then 1 else 0 := by
  have hself : m :: name <+: m :: name ++ t := List.prefix_append (m :: name) t
  rw [starts, starts_of_notMem hname, Nat.add_zero]
  refine if_congr ⟨fun hp => hn _ hp hself, fun heq => ?_⟩ rfl rfl
  rw [heq]
  exact hself

omit [DecidableEq α] in
/-- A prefix of two parts is one of the first, or the first with one of the second. -/
theorem prefix_or_eq_append {p w t : List α} (h : p <+: w ++ t) :
    p <+: w ∨ ∃ q, p = w ++ q ∧ q <+: t :=
  (List.prefix_or_prefix_of_prefix h (List.prefix_append w t)).imp_right
    fun ⟨q, hq⟩ => ⟨q, hq.symm, (List.prefix_append_right_inj w).mp (hq ▸ h)⟩

section Fill

variable {filled filled' : List α → Bool} {n v : List α} {tokens : List (Token α)}

/-- The holes are those of the entries. -/
def From (entries : List (List α × List α)) (tokens : List (Token α)) : Prop :=
  ∀ name value, .hole name value ∈ tokens → (name, value) ∈ entries

omit [DecidableEq α] in
theorem From.tail {t : Token α} (h : From entries (t :: tokens)) : From entries tokens :=
  fun name value hmem => h name value (List.mem_cons_of_mem t hmem)

theorem from_tokenize (m : α) (entries : List (List α × List α)) (s : List α) :
    From entries (tokenize m entries s) := by
  fun_induction tokenize m entries s with
  | case1 => exact fun name value hmem => absurd hmem List.not_mem_nil
  | case2 c s e hfind ih =>
    intro name value hmem
    rcases List.mem_cons.mp hmem with heq | hmem
    · obtain ⟨rfl, rfl⟩ := Token.hole.inj heq
      exact List.mem_of_find?_eq_some hfind
    · exact ih name value hmem
  | case3 c s hfind ih =>
    intro name value hmem
    rcases List.mem_cons.mp hmem with heq | hmem
    · cases heq
    · exact ih name value hmem

/-- The placeholder of an entry in a hole that is not filled. -/
theorem Names.starts_hole (h : Names m entries) (hn : (n, v) ∈ entries) {name value : List α}
    (hmem : (name, value) ∈ entries) (t : List α) :
    starts (m :: n) (m :: name) t = if n = name then 1 else 0 :=
  Template.starts_hole (h.marker _ hmem)
    (fun _ hp hp' => congrArg Prod.fst (h.eq_of_prefix_of_prefix hn hmem hp hp')) t

/-- The placeholders of a name that has not been filled are its holes and the strays. -/
theorem occurrences_fill (h : Names m entries) (hn : (n, v) ∈ entries) (hfilled : filled n = false)
    (htokens : From entries tokens) :
    occurrences (m :: n) (fill m filled tokens) =
      tokens.countP (Token.isHole n) + strays m filled n tokens := by
  induction tokens with
  | nil => rfl
  | cons t tokens ih =>
    rw [fill_cons, occurrences_append, ih htokens.tail, strays, List.countP_cons]
    by_cases hhole : t.isHole n
    · obtain ⟨value, rfl⟩ := Token.isHole_iff.mp hhole
      rw [Token.text, hfilled, if_neg Bool.false_ne_true,
        h.starts_hole hn (htokens _ _ List.mem_cons_self), if_pos rfl, if_pos hhole, if_pos hhole]
      omega
    · rw [if_neg hhole, if_neg hhole]
      omega

/-- Nothing strays in a template. -/
theorem strays_tokenize (h : Names m entries) (hn : (n, v) ∈ entries) (s : List α) :
    strays m (fun _ => false) n (tokenize m entries s) = 0 := by
  fun_induction tokenize m entries s with
  | case1 => rfl
  | case2 c s e hfind ih =>
    have hstarts := h.starts_hole hn (List.mem_of_find?_eq_some hfind)
      (fill m (fun _ => false) (tokenize m entries (s.drop e.1.length)))
    rw [strays, ih, Nat.add_zero, Token.text, if_neg Bool.false_ne_true, hstarts]
    -- a hole is a stray only for another name
    by_cases hname : n = e.1
    · simp [Token.isHole, hname]
    · simp [hname]
  | case3 c s hfind ih =>
    have hnot : ¬ m :: n <+: c :: s := by
      rw [List.find?_eq_none] at hfind
      simpa using hfind (n, v) hn
    rw [strays, ih, fill_tokenize]
    simp [Token.text, Token.isHole, starts, hnot]

/-- The placeholders of a template are its holes. -/
theorem occurrences_eq_countP (h : Names m entries) (hn : (n, v) ∈ entries) (s : List α) :
    occurrences (m :: n) s = (tokenize m entries s).countP (Token.isHole n) := by
  have hfill : occurrences (m :: n) (fill m (fun _ => false) (tokenize m entries s)) = _ :=
    occurrences_fill h hn rfl (from_tokenize m entries s)
  rwa [fill_tokenize, strays_tokenize h hn, Nat.add_zero] at hfill

omit [DecidableEq α] in
/-- The text of a token with more holes filled is the same, or it begins with a marker. -/
theorem text_cases (hle : ∀ name, filled name → filled' name) (t : Token α) :
    t.text m filled = t.text m filled' ∨
      ∃ name value, t = .hole name value ∧ t.text m filled = m :: name := by
  cases t with
  | letter c => exact .inl rfl
  | hole name value =>
    by_cases hfilled : filled name
    · exact .inl (by simp [Token.text, hfilled, hle name hfilled])
    · exact .inr ⟨name, value, rfl, by simp [Token.text, hfilled]⟩

omit [DecidableEq α] in
/-- A text without a marker that a template begins with stays there when more holes are filled. -/
theorem prefix_fill (hle : ∀ name, filled name → filled' name) {q : List α} (hq : m ∉ q)
    (h : q <+: fill m filled tokens) : q <+: fill m filled' tokens := by
  induction tokens generalizing q with
  | nil => exact h
  | cons t tokens ih =>
    rw [fill_cons] at h ⊢
    rcases text_cases (m := m) hle t with htext | ⟨name, value, -, htext⟩
    · rw [← htext]
      rcases prefix_or_eq_append h with hp | ⟨r, rfl, hr⟩
      · exact hp.trans (List.prefix_append _ _)
      · rw [List.mem_append, not_or] at hq
        exact (List.prefix_append_right_inj _).mpr (ih hq.2 hr)
    · -- a text without a marker does not begin with one
      rw [htext, List.cons_append] at h
      cases q with
      | nil => exact List.nil_prefix
      | cons c q =>
        rw [(List.cons_prefix_cons.mp h).1] at hq
        exact absurd List.mem_cons_self hq

/-- A placeholder that begins in a part is still there if what follows the part keeps what it
begins with. -/
theorem starts_mono {t t' : List α} (hn : m ∉ n) (h : ∀ q, m ∉ q → q <+: t → q <+: t')
    (u : List α) : starts (m :: n) u t ≤ starts (m :: n) u t' := by
  induction u with
  | nil => exact le_rfl
  | cons c u ih =>
    have hstart : m :: n <+: c :: u ++ t → m :: n <+: c :: u ++ t' := by
      intro hp
      rcases prefix_or_eq_append hp with hp | ⟨q, heq, hq⟩
      · exact hp.trans (List.prefix_append _ _)
      · rw [List.cons_append, List.cons.injEq] at heq
        have hmarker : m ∉ q := fun hmem => hn (heq.2 ▸ List.mem_append_right u hmem)
        rw [heq.1, heq.2, ← List.cons_append]
        exact (List.prefix_append_right_inj _).mpr (h q hmarker hq)
    rw [starts, starts]
    split_ifs with hp hp'
    · omega
    · exact absurd (hstart hp) hp'
    · omega
    · omega

/-- There are no fewer strays when more holes are filled. -/
theorem strays_mono (h : Names m entries) (hn : (n, v) ∈ entries)
    (hle : ∀ name, filled name → filled' name) (htokens : From entries tokens) :
    strays m filled n tokens ≤ strays m filled' n tokens := by
  induction tokens with
  | nil => exact le_rfl
  | cons t tokens ih =>
    refine Nat.add_le_add ?_ (ih htokens.tail)
    split_ifs with hhole
    · exact le_rfl
    · rcases text_cases (m := m) hle t with htext | ⟨name, value, rfl, htext⟩
      · rw [← htext]
        exact starts_mono (h.marker _ hn) (fun q hq => prefix_fill hle hq) _
      · -- only its own placeholder begins in a hole that is not filled
        have hname : ¬ n = name := fun heq => hhole (decide_eq_true heq.symm)
        rw [htext, h.starts_hole hn (htokens _ _ List.mem_cons_self), if_neg hname]
        exact Nat.zero_le _

/-- The value of another name brings its placeholders along. -/
theorem occurrences_le_strays {name value : List α} (hmem : Token.hole name value ∈ tokens)
    (hfilled : filled name) (hne : name ≠ n) :
    occurrences (m :: n) value ≤ strays m filled n tokens := by
  induction tokens with
  | nil => exact absurd hmem List.not_mem_nil
  | cons t tokens ih =>
    rw [strays]
    rcases List.mem_cons.mp hmem with rfl | hmem
    · have hhole : ¬ (Token.hole name value).isHole n := by simpa [Token.isHole] using hne
      rw [if_neg hhole, Token.text, if_pos hfilled]
      exact (occurrences_le_starts _ _ _).trans (Nat.le_add_right _ _)
    · exact (ih hmem).trans (Nat.le_add_left _ _)

/-- What a template shows is the value of one of its holes. -/
theorem exists_hole (h : Names m entries) (hn : (n, v) ∈ entries) {s : List α}
    (hs : 0 < occurrences (m :: n) s) : Token.hole n v ∈ tokenize m entries s := by
  rw [occurrences_eq_countP h hn, List.countP_pos_iff] at hs
  obtain ⟨t, hmem, hhole⟩ := hs
  obtain ⟨value, rfl⟩ := Token.isHole_iff.mp hhole
  have hvalue := h.eq_of_prefix _ hn _ (from_tokenize m entries s _ _ hmem) List.prefix_rfl
  rwa [show v = value from congrArg Prod.snd hvalue]

/-- Every marker of the text begins a placeholder. -/
def Marked (m : α) (entries : List (List α × List α)) (s : List α) : Prop :=
  ∀ t ∈ s.tails, t.head? = some m → ∃ e ∈ entries, m :: e.1 <+: t

omit [DecidableEq α] in
theorem Marked.of_suffix {s t : List α} (h : Marked m entries s) (ht : t <:+ s) :
    Marked m entries t :=
  fun u hu => h u ((List.mem_tails u s).mpr (((List.mem_tails u t).mp hu).trans ht))

/-- Then no letter is a marker. -/
theorem ne_of_letter_mem {s : List α} (h : Marked m entries s) {d : α}
    (hmem : Token.letter d ∈ tokenize m entries s) : d ≠ m := by
  fun_induction tokenize m entries s with
  | case1 => exact absurd hmem List.not_mem_nil
  | case2 c s e hfind ih =>
    rcases List.mem_cons.mp hmem with heq | hmem
    · cases heq
    · exact ih (h.of_suffix ((List.drop_suffix _ s).trans (List.suffix_cons c s))) hmem
  | case3 c s hfind ih =>
    rcases List.mem_cons.mp hmem with heq | hmem
    · obtain rfl := Token.letter.inj heq
      rintro rfl
      obtain ⟨e, he, hbegins⟩ := h (d :: s) ((List.mem_tails _ _).mpr List.suffix_rfl) rfl
      rw [List.find?_eq_none] at hfind
      exact hfind e he (decide_eq_true hbegins)
    · exact ih (h.of_suffix (List.suffix_cons c s)) hmem

/-- Values without markers make no placeholders, unless the template has markers of its own. -/
theorem strays_eq_zero (h : Names m entries) (hn : (n, v) ∈ entries)
    (htokens : From entries tokens) (hletters : ∀ d, Token.letter d ∈ tokens → d ≠ m)
    (hvalues : ∀ e ∈ entries, filled e.1 → m ∉ e.2) : strays m filled n tokens = 0 := by
  induction tokens with
  | nil => rfl
  | cons t tokens ih =>
    rw [strays, ih htokens.tail fun d hd => hletters d (List.mem_cons_of_mem t hd), Nat.add_zero]
    split_ifs with hhole
    · rfl
    · obtain ⟨c⟩ | ⟨name, value⟩ := t
      · have hc : c ≠ m := hletters c List.mem_cons_self
        exact starts_of_notMem (by simpa [Token.text] using hc.symm) n _
      · have hmem := htokens name value List.mem_cons_self
        rw [Token.text]
        split_ifs with hfilled
        · exact starts_of_notMem (hvalues _ hmem hfilled) n _
        · have hname : ¬ n = name := fun heq => hhole (decide_eq_true heq.symm)
          rw [h.starts_hole hn hmem, if_neg hname]

/-- If nothing strays, replacing a name fills its holes. -/
theorem replaceAll_fill (h : Names m entries) (hn : (n, v) ∈ entries) (hfilled : filled n = false)
    (htokens : From entries tokens) (hstrays : strays m filled n tokens = 0) :
    replaceAll (m :: n) v (fill m filled tokens) =
      fill m (fun name => filled name || name = n) tokens := by
  induction tokens with
  | nil =>
    rw [fill, List.flatMap_nil, replaceAll]
    rfl
  | cons t tokens ih =>
    rw [strays, Nat.add_eq_zero_iff] at hstrays
    have hrest := ih htokens.tail hstrays.2
    rw [fill_cons, fill_cons, ← hrest]
    by_cases hhole : t.isHole n
    · obtain ⟨value, rfl⟩ := Token.isHole_iff.mp hhole
      have hvalue := h.eq_of_prefix _ hn _ (htokens _ _ List.mem_cons_self) List.prefix_rfl
      obtain rfl : v = value := congrArg Prod.snd hvalue
      simp only [Token.text, hfilled, Bool.false_or, decide_true, if_true, Bool.false_eq_true,
        if_false]
      exact replaceAll_occurrence (List.cons_ne_nil m n)
    · rw [if_neg hhole] at hstrays
      rw [replaceAll_append v hstrays.1]
      congr 1
      cases t with
      | letter c => rfl
      | hole name value =>
        have hname : ¬ name = n := by simpa [Token.isHole] using hhole
        simp [Token.text, hname]

end Fill

end Template
