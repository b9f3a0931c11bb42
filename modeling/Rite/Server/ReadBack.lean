import Rite.Http.Rfc7230
import Rite.Server.Delivery
import Rite.Server.ResponseHead

/-!
# Responses that are read back

What the callback of HTTP/1.1 writes for responses one after the other is read by a client that has
nothing but the length in a header to find the end of each.

## Main results

* `fields_iff`: the lines of the headers are read back exactly if there is no line end in a value;
* `message_iff`: a response is read back, and what follows it is left, exactly if moreover the
  client finds the length of the body;
* `readBack_iff`: responses are read back exactly if this is so for each of them.
-/

namespace Rite

namespace Rfc7230

open Http (Token headerLine headerSection isOws isTchar statusLine)

/-! ## Numerals -/

/-- A numeral that is written to a stream. -/
theorem octets_toString (n : ℕ) : octets (toString n) = Decimal.natDigits n := by
  have hdigit : ∀ d : Fin 10, String.utf8EncodeChar (Nat.digitChar d) = [Decimal.digit d] := by
    decide
  rw [Http.octets_eq_flatMap, Nat.toString_eq_repr, Nat.toList_repr]
  induction n using Nat.strong_induction_on with
  | _ n ih =>
    rcases lt_or_ge n 10 with hn | hn
    · rw [Nat.toDigits_of_lt_base hn, Decimal.natDigits_of_lt hn]
      simpa using hdigit ⟨n, hn⟩
    · have hlast := hdigit ⟨n % 10, Nat.mod_lt n (by omega)⟩
      rw [Nat.toDigits_of_base_le (by omega) hn, Decimal.natDigits_of_le hn, List.flatMap_append,
        ih (n / 10) (by omega)]
      simpa using hlast

/-- The code is read back. -/
theorem statusCode_statusLine (r : Response) : statusCode (statusLine r) = some r.statusCode := by
  have hall : ∀ c ∈ Decimal.natDigits r.statusCode, Decimal.isDigit c := fun c hc =>
    Decimal.isDigit_of_mem hc
  have htake := List.takeWhile_eq_self_iff.mpr hall
  have hdrop := List.dropWhile_eq_nil_iff.mpr hall
  have hne := Decimal.natDigits_ne_nil r.statusCode
  rw [statusCode, statusLine, octets_toString, List.drop_left]
  simp [htake, hdrop, hne, Decimal.value_natDigits]

/-! ## Header fields -/

/-- The name of a header, and its value without the blanks around it. -/
def trimmed (e : Octets × Octets) : Octets × Octets := (e.1, trim e.2)

/-- The names of the headers are tokens. -/
def Named (headers : List (Octets × Octets)) : Prop := ∀ e ∈ headers, ∃ t : Token, t.text = e.1

/-- The line of a header is read as the field that it is for. -/
theorem field_headerLine (t : Token) (value : Octets) :
    field (headerLine (t.text, value)) = some (trimmed (t.text, value)) := by
  have hcolon : ∀ c ∈ t.text, (decide (c ≠ 0x3A)) = true := fun c hc => by
    have hne : c ≠ 0x3A := fun heq => t.notMem (by decide) (heq ▸ hc)
    simp [hne]
  have hline : headerLine (t.text, value) = t.text ++ 0x3A :: 0x20 :: value := by
    have hseparator : octets ": " = [0x3A, 0x20] := by decide
    rw [headerLine, hseparator, List.append_assoc]
    rfl
  have htake : (t.text ++ 0x3A :: 0x20 :: value).takeWhile (· ≠ 0x3A) = t.text := by
    rw [List.takeWhile_append_of_pos hcolon]
    simp
  have hdrop : (t.text ++ 0x3A :: 0x20 :: value).dropWhile (· ≠ 0x3A) = 0x3A :: 0x20 :: value := by
    rw [List.dropWhile_append_of_pos hcolon]
    simp
  rw [field, hline, htake, hdrop, if_pos ⟨by simp, t.ne_nil, t.tchar⟩]
  rfl

/-- A line end in a value stays when it is trimmed. -/
theorem infix_trim (u w : Octets) : [0x0D, 0x0A] <:+: trim (u ++ 0x0D :: 0x0A :: w) := by
  have hdrop : ∀ (c : Octet) (s t : Octets), ¬ isOws c →
      (s ++ c :: t).dropWhile isOws = s.dropWhile isOws ++ c :: t := by
    intro c s t hc
    induction s with
    | nil => simp [hc]
    | cons d s ih => by_cases hd : isOws d <;> simp [hd, ih]
  have hrdrop : (u.dropWhile isOws ++ 0x0D :: 0x0A :: w).rdropWhile isOws =
      u.dropWhile isOws ++ 0x0D :: 0x0A :: w.rdropWhile isOws := by
    rw [List.rdropWhile, List.rdropWhile]
    have hreverse : (u.dropWhile isOws ++ 0x0D :: 0x0A :: w).reverse =
        w.reverse ++ 0x0A :: 0x0D :: (u.dropWhile isOws).reverse := by simp
    rw [hreverse, hdrop 0x0A _ _ (by decide)]
    simp
  rw [trim, hdrop 0x0D _ _ (by decide), hrdrop]
  exact ⟨u.dropWhile isOws, w.rdropWhile isOws, by simp⟩

/-- None appears. -/
theorem trim_isInfix (s : Octets) : trim s <:+: s :=
  (List.rdropWhile_prefix isOws _).isInfix.trans (List.dropWhile_suffix isOws).isInfix

/-- A text without blanks stays as it is. -/
theorem trim_of_forall {s : Octets} (h : ∀ c ∈ s, ¬ isOws c) : trim s = s := by
  have hdrop : s.dropWhile isOws = s :=
    List.dropWhile_eq_self_iff.mpr fun hlt => h _ (List.getElem_mem hlt)
  rw [trim, hdrop]
  exact List.rdropWhile_eq_self_iff.mpr fun hne => h _ (List.getLast_mem hne)

/-- The lines of the headers, with an empty one behind them. -/
def headerLines (headers : List (Octets × Octets)) : Octets :=
  headers.flatMap (fun e => headerLine e ++ [0x0D, 0x0A]) ++ [0x0D, 0x0A]

theorem line_append {l : Octets} (h : ¬ [0x0D, 0x0A] <:+: l) (rest : Octets) :
    line (l ++ 0x0D :: 0x0A :: rest) = .ok (l, rest) :=
  ListReader.upToPair_append (by decide) h rest

theorem headerLine_ne_nil (e : Octets × Octets) : headerLine e ≠ [] := by
  have hseparator : octets ": " = [0x3A, 0x20] := by decide
  simp [headerLine, hseparator]

/-- The headers are read back if and only if there is no line end in their values. -/
theorem fields_iff {headers : List (Octets × Octets)} (hnames : Named headers) {rest m : Octets} :
    fields (headerLines headers ++ rest) = .ok (headers.map trimmed, m) ↔
      (∀ e ∈ headers, ¬ [0x0D, 0x0A] <:+: e.2) ∧ m = rest := by
  induction headers with
  | nil =>
    have hno : ¬ [0x0D, 0x0A] <:+: ([] : Octets) := by simp
    have hline : line (0x0D :: 0x0A :: rest) = .ok ([], rest) := line_append hno rest
    have hread : fields (headerLines [] ++ rest) = .ok ([], rest) := fields_nil hline
    rw [hread]
    simp [eq_comm]
  | cons e headers ih =>
    obtain ⟨⟨t, ht⟩, hnames⟩ := List.forall_mem_cons.mp hnames
    have hlines : headerLines (e :: headers) ++ rest =
        headerLine e ++ 0x0D :: 0x0A :: (headerLines headers ++ rest) := by
      simp [headerLines]
    rw [hlines, List.forall_mem_cons]
    by_cases hpair : [0x0D, 0x0A] <:+: e.2
    · -- the first line ends inside the value
      obtain ⟨u, w, hvalue, hu⟩ := List.exists_first_pair hpair
      have hsplit : headerLine e ++ 0x0D :: 0x0A :: (headerLines headers ++ rest) =
          headerLine (t.text, u) ++ 0x0D :: 0x0A ::
            (w ++ 0x0D :: 0x0A :: (headerLines headers ++ rest)) := by
        simp [headerLine, ht, hvalue]
      rw [hsplit, fields_cons (line_append ((Http.infix_headerLine_iff t u).not.mpr hu) _)
        (headerLine_ne_nil _), field_headerLine]
      refine iff_of_false (fun h => ?_) fun h => h.1.1 hpair
      dsimp only at h
      cases hread : fields (w ++ 0x0D :: 0x0A :: (headerLines headers ++ rest)) with
      | error _ =>
        rw [hread] at h
        cases h
      | ok found =>
        rw [hread] at h
        have hfirst : trimmed (t.text, u) = trimmed e :=
          (List.cons.inj (Prod.mk.inj (Except.ok.inj h)).1).1
        -- but that part has no line end, and the whole value has
        have hends := infix_trim u w
        rw [← hvalue, ← (Prod.mk.inj hfirst).2] at hends
        exact hu (hends.trans (trim_isInfix u))
    · have he : e = (t.text, e.2) := by rw [ht]
      have hno : ¬ [0x0D, 0x0A] <:+: headerLine e := by
        rw [he, Http.infix_headerLine_iff]
        exact hpair
      rw [fields_cons (line_append hno _) (headerLine_ne_nil e)]
      have hfield : field (headerLine e) = some (trimmed e) := by
        rw [he, field_headerLine]
      rw [hfield, and_iff_right hpair, ← ih hnames]
      dsimp only
      cases hread : fields (headerLines headers ++ rest) with
      | error _ => simp [Except.map]
      | ok found =>
        obtain ⟨fs, m'⟩ := found
        simp [Except.map]

/-! ## Responses -/

/-- What a client is to read for a response. -/
def messageOf (r : Response) : Message := ⟨r.statusCode, r.headers.map trimmed, body r.channel⟩

/-- The octets of a response. -/
def text (r : Response) : Octets := headerSection r ++ body r.channel

/-- A client finds the headers, and the length of the body. -/
structure Framed (r : Response) : Prop where
  /-- There is no line end in a value. -/
  values : ∀ e ∈ r.headers, ¬ [0x0D, 0x0A] <:+: e.2
  /-- The length that is found is that of the body. -/
  length : bodyLength r.statusCode (r.headers.map trimmed) = some (body r.channel).length

instance (r : Response) : Decidable (Framed r) :=
  decidable_of_iff ((∀ e ∈ r.headers, ¬ [0x0D, 0x0A] <:+: e.2) ∧
    bodyLength r.statusCode (r.headers.map trimmed) = some (body r.channel).length)
    ⟨fun h => ⟨h.1, h.2⟩, fun h => ⟨h.values, h.length⟩⟩

theorem text_eq (r : Response) (rest : Octets) :
    text r ++ rest =
      statusLine r ++ 0x0D :: 0x0A :: (headerLines r.headers ++ (body r.channel ++ rest)) := by
  rw [text, Http.headerSection_eq, headerLines]
  simp [List.flatMap_map]

/-- As many octets as the body has are the body only if they are taken from it. -/
theorem chunk_append_iff {n : ℕ} {s rest m : Octets} :
    ListReader.chunk () n (s ++ rest) = .ok (s, m) ↔ n = s.length ∧ m = rest := by
  unfold ListReader.chunk
  constructor
  · intro h
    split at h
    · cases h
    next hle =>
      obtain ⟨htake, hdrop⟩ := Prod.mk.inj (Except.ok.inj h)
      have hlength := congrArg List.length htake
      rw [List.length_take, min_eq_left (not_lt.mp hle)] at hlength
      rw [hlength, List.drop_left] at hdrop
      exact ⟨hlength, hdrop.symm⟩
  · rintro ⟨rfl, rfl⟩
    rw [if_neg (by simp), List.take_left, List.drop_left]

theorem ofOption_eq_ok {α : Type} {o : Option α} {s m : Octets} {a : α} :
    (ListReader.ofOption () o : ListReader Unit Octet α) s = .ok (a, m) ↔
      o = some a ∧ m = s := by
  cases o with
  | none => simp [ListReader.ofOption]
  | some b => simp [ListReader.ofOption, eq_comm]

/-- A response is read back, and nothing of what follows it is taken, exactly if it is framed. -/
theorem message_iff {r : Response} (hnames : Named r.headers) {rest m : Octets} :
    message (text r ++ rest) = .ok (messageOf r, m) ↔ Framed r ∧ m = rest := by
  have hline : line (text r ++ rest) =
      .ok (statusLine r, headerLines r.headers ++ (body r.channel ++ rest)) := by
    rw [text_eq]
    exact line_append (Http.not_infix_statusLine r) _
  constructor
  · -- one reader after the other has read its part of the text
    intro h
    obtain ⟨l, s₁, hl, h₁⟩ := ListReader.bind_eq_ok.mp h
    obtain ⟨rfl, rfl⟩ := Prod.mk.inj (Except.ok.inj (hline.symm.trans hl))
    obtain ⟨code, s₂, hread₂, h₂⟩ := ListReader.bind_eq_ok.mp h₁
    obtain ⟨-, rfl⟩ := ofOption_eq_ok.mp hread₂
    obtain ⟨fs, s₃, hfields, h₃⟩ := ListReader.bind_eq_ok.mp h₂
    obtain ⟨n, s₄, hread₄, h₄⟩ := ListReader.bind_eq_ok.mp h₃
    obtain ⟨hn, rfl⟩ := ofOption_eq_ok.mp hread₄
    obtain ⟨b, s₅, hchunk, h₅⟩ := ListReader.bind_eq_ok.mp h₄
    obtain ⟨hmessage, rfl⟩ := Prod.mk.inj (Except.ok.inj h₅)
    obtain ⟨rfl, rfl, rfl⟩ := Message.mk.inj hmessage
    obtain ⟨hvalues, rfl⟩ := (fields_iff hnames).mp hfields
    obtain ⟨rfl, rfl⟩ := chunk_append_iff.mp hchunk
    exact ⟨⟨hvalues, hn⟩, rfl⟩
  · rintro ⟨hr, rfl⟩
    refine ListReader.bind_eq_ok.mpr ⟨_, _, hline, ?_⟩
    refine ListReader.bind_eq_ok.mpr
      ⟨_, _, ofOption_eq_ok.mpr ⟨statusCode_statusLine r, rfl⟩, ?_⟩
    refine ListReader.bind_eq_ok.mpr ⟨_, _, (fields_iff hnames).mpr ⟨hr.values, rfl⟩, ?_⟩
    refine ListReader.bind_eq_ok.mpr ⟨_, _, ofOption_eq_ok.mpr ⟨hr.length, rfl⟩, ?_⟩
    exact ListReader.bind_eq_ok.mpr ⟨_, _, chunk_append_iff.mpr ⟨rfl, rfl⟩, rfl⟩

/-- So are responses one after the other. -/
theorem many_iff {responses : List Response} (hnames : ∀ r ∈ responses, Named r.headers)
    {rest : Octets} :
    ListReader.Many message (responses.flatMap text ++ rest) (responses.map messageOf) rest ↔
      ∀ r ∈ responses, Framed r := by
  induction responses with
  | nil => simpa using ListReader.Many.nil rest
  | cons r responses ih =>
    rw [List.forall_mem_cons] at hnames
    rw [List.forall_mem_cons, ← ih hnames.2, List.flatMap_cons, List.map_cons, List.append_assoc]
    constructor
    · intro h
      cases h with
      | cons hread htail =>
        obtain ⟨hr, rfl⟩ := (message_iff hnames.1).mp hread
        exact ⟨hr, htail⟩
    · rintro ⟨hr, htail⟩
      exact .cons ((message_iff hnames.1).mpr ⟨hr, rfl⟩) htail

/-! ## The callback -/

/-- The callback of HTTP/1.1 comes to its end, and has written these octets. -/
def Written (r : Response) (written : Octets) : Prop :=
  ∃ results later chunks, (Http.respond results r).run [] = .ok later chunks ∧
    chunks.flatten = written

theorem flatten_of_sendBody {results : ℕ → ℤ} {channel later : List Buffer}
    {written chunks : List Octets} (h : (Http.sendBody results channel).run written =
      .ok later chunks) : chunks.flatten = written.flatten ++ body channel := by
  induction channel generalizing written with
  | nil => cases h
  | cons slice channel ih =>
    simp only [Http.sendBody, EStateM.run_bind, CallbackM.write_run] at h
    by_cases hlast : slice.last
    · simp only [hlast, if_true, EStateM.run_pure, EStateM.Result.ok.injEq] at h
      simp [body, hlast, ← h.2]
    · simp only [hlast, Bool.false_eq_true, if_false] at h
      simp [ih h, body, hlast]

theorem Written.eq_text {r : Response} {written : Octets} (h : Written r written) :
    written = text r := by
  obtain ⟨results, later, chunks, hrun, rfl⟩ := h
  simp only [Http.respond, EStateM.run_bind, CallbackM.write_run] at hrun
  rw [flatten_of_sendBody hrun, text]
  simp

/-- The callback comes to its end if it comes to a last buffer. -/
theorem written_text {r : Response} (h : ∃ slice ∈ r.channel, slice.last) : Written r (text r) := by
  have hbody : ∀ channel : List Buffer, (∃ slice ∈ channel, slice.last) → ∀ written,
      ∃ later chunks, (Http.sendBody (fun _ => 0) channel).run written = .ok later chunks := by
    intro channel
    induction channel with
    | nil => simp
    | cons slice channel ih =>
      intro h written
      simp only [Http.sendBody, EStateM.run_bind, CallbackM.write_run]
      by_cases hlast : slice.last
      · simp only [hlast, if_true, EStateM.run_pure]
        exact ⟨_, _, rfl⟩
      · simp only [hlast, Bool.false_eq_true, if_false]
        refine ih ?_ _
        simpa [hlast] using h
  obtain ⟨later, chunks, hrun⟩ := hbody r.channel h ([] ++ [headerSection r])
  have hwritten : Written r chunks.flatten :=
    ⟨fun _ => 0, later, chunks, by
      simpa only [Http.respond, EStateM.run_bind, CallbackM.write_run] using hrun, rfl⟩
  rwa [← hwritten.eq_text]

theorem named_response {r : ResponseHead} (h : r.TokenNames) : Named r.response.headers :=
  fun e he => (ResponseHead.exists_token h he).imp fun t ht => by rw [ht]

open ResponseHead (build)

/-- Responses that are written one after the other are read back if and only if each of them is
framed. -/
theorem readBack_iff {responses : List (Constructor × List Setting)} {texts : List Octets}
    (hwritten : List.Forall₂ (fun r written => Written (build r.1 r.2).response written)
      responses texts) :
    ListReader.Many message texts.flatten
        (responses.map fun r => messageOf (build r.1 r.2).response) [] ↔
      ∀ r ∈ responses, Framed (build r.1 r.2).response := by
  have htexts : texts.flatten =
      (responses.map fun r => (build r.1 r.2).response).flatMap text ++ [] := by
    induction hwritten with
    | nil => rfl
    | cons hr _ ih =>
      rw [List.flatten_cons, hr.eq_text, ih]
      simp
  have hnames : ∀ r ∈ responses.map (fun r => (build r.1 r.2).response), Named r.headers := by
    rintro _ hr
    obtain ⟨r, -, rfl⟩ := List.mem_map.mp hr
    exact named_response (ResponseHead.tokenNames_build r.1 r.2)
  have hmany : ListReader.Many message (_ ++ []) _ [] ↔ _ := many_iff hnames
  rw [← htexts, List.map_map, List.forall_mem_map] at hmany
  exact hmany

/-- The constructor with a content type and a body frames a response. -/
theorem framed_typed {statusCode : ℕ} (hstatus : 200 ≤ statusCode ∧ statusCode ≠ 204 ∧
    statusCode ≠ 304) {contentType : Octets} (htype : ¬ [0x0D, 0x0A] <:+: contentType)
    (content : Octets) : Framed (build (.typed statusCode contentType content) []).response := by
  have hresponse : (build (.typed statusCode contentType content) []).response =
      ⟨statusCode, [(octets "Content-Length", Decimal.natDigits content.length),
        (octets "content-type", contentType)], [⟨content, true⟩]⟩ := by
    rw [← octets_toString]
    rfl
  have hdigits : ∀ c ∈ Decimal.natDigits content.length, Decimal.isDigit c := fun c hc =>
    Decimal.isDigit_of_mem hc
  rw [hresponse]
  constructor
  · simp only [List.forall_mem_cons]
    rw [← octets_toString]
    exact ⟨Http.not_infix_of_notMem (Http.notMem_toString _), htype, by simp⟩
  · have hblank : ∀ c ∈ Decimal.natDigits content.length, ¬ isOws c := fun c hc h => by
      have hdigit := hdigits c hc
      simp only [isOws, Bool.or_eq_true, decide_eq_true_eq] at h
      rcases h with rfl | rfl <;> cases hdigit
    have hlower : Hpack.toLower (octets "Content-Length") = octets "content-length" := by
      decide +kernel
    have hlower' : Hpack.toLower (octets "content-type") = octets "content-type" := by
      decide +kernel
    have hnames : octets "content-length" ≠ octets "transfer-encoding" ∧
        octets "content-type" ≠ octets "transfer-encoding" ∧
        octets "content-type" ≠ octets "content-length" := by decide
    rw [bodyLength, if_neg (by dsimp only; omega)]
    simpa [trimmed, hlower, hlower', hnames, trim_of_forall hblank,
      Decimal.natDigits_ne_nil, Decimal.value_natDigits, body] using hdigits

/-- Two pages. -/
def samplePages : List (Constructor × List Setting) :=
  [(.typed 200 (octets "text/html") (octets "a"), []),
    (.typed 404 (octets "text/html") (octets "b\r\n"), [])]

/-- They are read one after the other. -/
theorem readBack_sample :
    ListReader.Many message
      ((samplePages.map fun r => text (build r.1 r.2).response).flatten)
      (samplePages.map fun r => messageOf (build r.1 r.2).response) [] := by
  have hwritten : List.Forall₂ (fun r written => Written (build r.1 r.2).response written)
      samplePages (samplePages.map fun r => text (build r.1 r.2).response) :=
    .cons (written_text ⟨_, List.mem_cons_self, rfl⟩)
      (.cons (written_text ⟨_, List.mem_cons_self, rfl⟩) .nil)
  refine (readBack_iff hwritten).mpr ?_
  simp only [samplePages, List.forall_mem_cons]
  exact ⟨framed_typed (by decide) (by decide) _, framed_typed (by decide) (by decide) _, by simp⟩

end Rfc7230

end Rite
