import Rite.Http.MessageBody
import Rite.Http.Token
import Rite.ToMathlib.InsertMany

/-!
# Header fields of an HTTP/1 request

The head of a request is a request line, a line for each header field, and an empty line; every line
ends in a carriage return and a line feed. The parser cuts the lines at the line feeds, and trims
keys at their end and values at their beginning.

## Main results

* `insertHeader_line`: what is stored for a field: its value with the blanks and the carriage
  return that follow it, or nothing if the value is empty;
* `headersRead_iff`: the headers are those of the head exactly if all values are empty;
* `not_headersRead`: a value keeps the carriage return of its line.
-/

namespace Rite

namespace Http

/-- The blanks around the value of a field. -/
def isOws (c : Octet) : Bool := c = 0x20 || c = 0x09

/-- A header field as it is written: its name, a colon, and its value between blanks. -/
structure HeaderField where
  /-- The name. -/
  name : Token
  /-- The blanks in front of the value. -/
  before : Octets
  /-- The value. -/
  value : Octets
  /-- The blanks behind it. -/
  behind : Octets
  /-- They are blanks, -/
  isOws_before : before.all isOws = true
  /-- on both sides. -/
  isOws_behind : behind.all isOws = true
  /-- The value has no line end, -/
  value_line : 0x0D ∉ value ∧ 0x0A ∉ value
  /-- and neither begins -/
  value_head : ∀ c ∈ value.head?, ¬ isOws c
  /-- nor ends with a blank. -/
  value_getLast : ∀ c ∈ value.getLast?, ¬ isOws c

/-- The line of a field, without its end. -/
def HeaderField.line (f : HeaderField) : Octets :=
  f.name.text ++ 0x3A :: (f.before ++ f.value ++ f.behind)

/-- The head of a request. -/
structure RequestHead where
  /-- The name of the method. -/
  methodStr : Octets
  /-- The target. -/
  target : Octets
  /-- The name of the version. -/
  version : Octets
  /-- The fields. -/
  fields : List HeaderField
  /-- The method is known. -/
  isSome_method : (method methodStr).isSome
  /-- The target is a word. -/
  target_word : target ≠ [] ∧ target.all (! isspace ·) = true
  /-- The version is known. -/
  isSome_version : (httpVersion version).isSome
  /-- The fields have different names. -/
  nodup_names : (fields.map HeaderField.name).Nodup

namespace RequestHead

/-- The request line, without its end. -/
def requestLine (h : RequestHead) : Octets :=
  h.methodStr ++ 0x20 :: (h.target ++ 0x20 :: h.version)

/-- A head as it is written. -/
def render (h : RequestHead) : Octets :=
  h.requestLine ++ octets "\r\n" ++ h.fields.flatMap (fun f => f.line ++ octets "\r\n") ++
    octets "\r\n"

end RequestHead

/-- The request is accepted, and its headers are the fields of the head, and nothing else. -/
structure HeadersRead (ch : Octet) (head : RequestHead) (body : Octets) : Prop where
  /-- `parse` returns true. -/
  accepted : (parse ch (head.render ++ body) {}).1 = true
  /-- Each field has its value. -/
  value : ∀ f ∈ head.fields,
    (parse ch (head.render ++ body) {}).2.headers.lookup f.name.text = some f.value
  /-- There are no others. -/
  only : ∀ name ∈ (parse ch (head.render ++ body) {}).2.headers,
    ∃ f ∈ head.fields, f.name.text = name

/-! ## What is stored for a field -/

namespace HeaderField

/-- The value that is stored. -/
def stored (f : HeaderField) : Octets :=
  if f.value = [] then [] else f.value ++ f.behind ++ [0x0D]

theorem isblank_of_isOws {c : Octet} (h : isOws c) : isblank c := by
  simp only [isOws, isblank, Bool.or_eq_true, decide_eq_true_eq] at h ⊢
  tauto

theorem isblank_before (f : HeaderField) : ∀ c ∈ f.before, isblank c := fun c hc =>
  isblank_of_isOws (List.all_eq_true.mp f.isOws_before c hc)

theorem isblank_behind (f : HeaderField) : ∀ c ∈ f.behind, isblank c := fun c hc =>
  isblank_of_isOws (List.all_eq_true.mp f.isOws_behind c hc)

/-- A value begins with no blank, and with no line end. -/
theorem not_isblank_head (f : HeaderField) : ∀ c ∈ f.value.head?, ¬ isblank c := by
  intro c hc h
  have hmem : c ∈ f.value := List.mem_of_mem_head? hc
  have hcr : c ≠ 0x0D := fun heq => f.value_line.1 (heq ▸ hmem)
  have hlf : c ≠ 0x0A := fun heq => f.value_line.2 (heq ▸ hmem)
  have hows := f.value_head c hc
  simp only [isOws, isblank, Bool.or_eq_true, decide_eq_true_eq] at h hows
  tauto

/-- The blanks in front of the value are trimmed, and those behind an empty one as well. -/
theorem dropWhile_value (f : HeaderField) :
    (f.before ++ f.value ++ f.behind ++ [0x0D]).dropWhile isblank = f.stored := by
  rw [List.append_assoc, List.append_assoc, List.dropWhile_append_of_pos f.isblank_before, stored]
  split_ifs with hempty
  · rw [hempty, List.nil_append, List.dropWhile_append_of_pos f.isblank_behind]
    rfl
  · obtain ⟨c, value, hvalue⟩ := List.exists_cons_of_ne_nil hempty
    have hc := f.not_isblank_head c (by rw [hvalue]; rfl)
    rw [hvalue, List.cons_append, List.dropWhile_cons_of_neg hc]
    simp

/-- A name is not trimmed. -/
theorem rdropWhile_name (f : HeaderField) : f.name.text.rdropWhile isblank = f.name.text := by
  refine List.rdropWhile_eq_self_iff.mpr fun hne h => ?_
  have hmem := List.getLast_mem hne
  simp only [isblank, Bool.or_eq_true, decide_eq_true_eq] at h
  rcases h with ((h | h) | h) | h
  all_goals
    rw [h] at hmem
    exact f.name.notMem (by decide) hmem

theorem stored_eq_value_iff (f : HeaderField) : f.stored = f.value ↔ f.value = [] := by
  rw [stored]
  split_ifs with hempty
  · simp [hempty]
  · simp [hempty]

end HeaderField

/-- The header of a line that ends in a carriage return. -/
theorem insertHeader_line (headers : AList fun _ : Octets => Octets) (f : HeaderField) :
    insertHeader headers (f.line ++ [0x0D]) = headers.insert f.name.text f.stored := by
  have hcolon : 0x3A ∉ f.name.text := f.name.notMem (by decide)
  have hne : ∀ c ∈ f.name.text, (c != 0x3A) = true := fun c hc =>
    bne_iff_ne.mpr fun heq => hcolon (heq ▸ hc)
  have hline : f.line ++ [0x0D] =
      f.name.text ++ 0x3A :: (f.before ++ f.value ++ f.behind ++ [0x0D]) := by
    simp [HeaderField.line]
  rw [insertHeader, hline, if_pos (by simp)]
  -- the first colon is the one behind the name
  simp only [List.takeWhile_append_of_pos hne, List.dropWhile_append_of_pos hne]
  simp [f.rdropWhile_name, ← f.dropWhile_value]

/-! ## The request line -/

namespace RequestHead

/-- Names of versions are words. -/
theorem word_of_httpVersion {v : Octets} (h : (httpVersion v).isSome) :
    v ≠ [] ∧ ∀ c ∈ v, ¬ isspace c := by
  have hall : (["HTTP/1.1", "HTTP/2.0", "HTTP/3.0", "HTTP/1.0"].map octets).all
      (fun v => ! v.isEmpty && v.all (! isspace ·)) = true := rfl
  have hmem : v ∈ ["HTTP/1.1", "HTTP/2.0", "HTTP/3.0", "HTTP/1.0"].map octets := by
    by_contra hnot
    simp only [List.map_cons, List.map_nil, List.mem_cons, List.not_mem_nil, or_false,
      not_or] at hnot
    simp [httpVersion, hnot] at h
  simpa using List.all_eq_true.mp hall v hmem

theorem word_target (h : RequestHead) : ∀ c ∈ h.target, ¬ isspace c := by
  simpa using h.target_word.2

theorem word_methodStr (h : RequestHead) :
    h.methodStr ≠ [] ∧ ∀ c ∈ h.methodStr, ¬ isspace c := by
  obtain ⟨x, hx⟩ := Option.isSome_iff_exists.mp h.isSome_method
  exact word_of_method hx

/-- The words of a request line are read back. -/
theorem requestWords_requestLine (h : RequestHead) :
    requestWords (h.requestLine ++ [0x0D]) = some (h.methodStr, h.target, h.version) := by
  obtain ⟨hmne, hm⟩ := h.word_methodStr
  obtain ⟨hvne, hv⟩ := word_of_httpVersion h.isSome_version
  have hblank : ∀ c ∈ [(0x20 : Octet)], isspace c := by simp [isspace]
  have hline : h.requestLine ++ [0x0D] =
      h.methodStr ++ 0x20 :: (h.target ++ 0x20 :: (h.version ++ [0x0D])) := by
    simp [requestLine]
  have hfirst : Istream.extract []
      ⟨h.methodStr ++ 0x20 :: (h.target ++ 0x20 :: (h.version ++ [0x0D])), true⟩ =
      (true, h.methodStr, ⟨0x20 :: (h.target ++ 0x20 :: (h.version ++ [0x0D])), true⟩) :=
    Istream.extract_append [] (by simp) hmne hm (by decide)
  have hsecond : Istream.extract [] ⟨0x20 :: (h.target ++ 0x20 :: (h.version ++ [0x0D])), true⟩ =
      (true, h.target, ⟨0x20 :: (h.version ++ [0x0D]), true⟩) :=
    Istream.extract_append [0x20] hblank h.target_word.1 h.word_target (by decide)
  -- the carriage return is white space behind the version
  have hthird : Istream.extract [] ⟨0x20 :: (h.version ++ [0x0D]), true⟩ =
      (true, h.version, ⟨[0x0D], true⟩) :=
    Istream.extract_append [0x20] hblank hvne hv (by decide)
  rw [hline]
  simp only [requestWords, hfirst, hsecond, hthird, if_true]

/-- There is no line feed in a request line. -/
theorem notMem_requestLine (h : RequestHead) : 0x0A ∉ h.requestLine ++ [0x0D] := by
  have hm : 0x0A ∉ h.methodStr := fun hmem => h.word_methodStr.2 _ hmem (by decide)
  have ht : 0x0A ∉ h.target := fun hmem => h.word_target _ hmem (by decide)
  have hv : 0x0A ∉ h.version := fun hmem =>
    (word_of_httpVersion h.isSome_version).2 _ hmem (by decide)
  simp [requestLine, hm, ht, hv]

/-- The lines of a head, with what follows it. -/
theorem render_append (h : RequestHead) (body : Octets) :
    h.render ++ body = (h.requestLine ++ [0x0D]) ++
      0x0A :: ((h.fields.map fun f => f.line ++ [0x0D]).flatMap (· ++ [0x0A]) ++ [0x0D] ++
        0x0A :: body) := by
  have hcrlf : octets "\r\n" = [0x0D, 0x0A] := by decide
  simp [render, hcrlf, List.flatMap_map]

end RequestHead

/-! ## The headers of a head -/

namespace HeaderField

/-- The line of a field is one line, and not one that ends the headers. -/
theorem line_not_end (f : HeaderField) :
    0x0A ∉ f.line ++ [0x0D] ∧ ¬ endsHeaders (f.line ++ [0x0D]) := by
  have hows : isOws 0x0A = false := by decide
  have hbefore : 0x0A ∉ f.before := fun h => by
    simpa [hows] using List.all_eq_true.mp f.isOws_before _ h
  have hbehind : 0x0A ∉ f.behind := fun h => by
    simpa [hows] using List.all_eq_true.mp f.isOws_behind _ h
  have hname : 0x0A ∉ f.name.text := f.name.notMem (by decide)
  constructor
  · simp [line, hname, hbefore, hbehind, f.value_line.2]
  · -- there is a colon in it
    obtain ⟨c, text, htext⟩ := List.exists_cons_of_ne_nil f.name.ne_nil
    simp [endsHeaders, line, htext]

end HeaderField

/-- What a request with this head is read as. -/
theorem parse_render (ch : Octet) (head : RequestHead) (body : Octets) :
    (parse ch (head.render ++ body) {}).1 = true ∧
      (parse ch (head.render ++ body) {}).2.headers =
        (∅ : AList fun _ : Octets => Octets).insertMany
          (head.fields.map fun f => (f.name.text, f.stored)) := by
  obtain ⟨x, hx⟩ := Option.isSome_iff_exists.mp head.isSome_method
  obtain ⟨version, hversion⟩ := Option.isSome_iff_exists.mp head.isSome_version
  have hline := head.notMem_requestLine
  obtain ⟨rest, hrest⟩ : ∃ rest, head.render ++ body = head.requestLine ++ [0x0D] ++ 0x0A :: rest :=
    ⟨_, head.render_append body⟩
  have hget : Istream.getline 0x0A [] ⟨head.render ++ body, true⟩ =
      (true, head.requestLine ++ [0x0D], ⟨rest, true⟩) := by
    rw [hrest]
    exact Istream.getline_append [] hline
  -- the lines of the fields are the header lines
  have hlines : headerLines (head.render ++ body) = head.fields.map fun f => f.line ++ [0x0D] := by
    rw [head.render_append]
    refine headerLines_append hline (fun l hl => ?_) (by decide) (by decide) body
    obtain ⟨f, -, rfl⟩ := List.mem_map.mp hl
    exact f.line_not_end
  have hheaders := (parseHeaders_requestLine hget ∅).1
  rw [hlines, List.foldl_map] at hheaders
  simp only [parse, hget, head.requestWords_requestLine, hversion, hx, not_true_eq_false, if_false,
    true_and]
  rw [hheaders, AList.insertMany, List.foldl_map]
  exact List.foldl_ext _ _ _ fun headers f _ => insertHeader_line headers f

/-- The headers of a head are read if and only if all their values are empty. -/
theorem headersRead_iff (ch : Octet) (head : RequestHead) (body : Octets) :
    HeadersRead ch head body ↔ ∀ f ∈ head.fields, f.value = [] := by
  obtain ⟨hok, hheaders⟩ := parse_render ch head body
  have hnodup : ((head.fields.map fun f => (f.name.text, f.stored)).map Prod.fst).Nodup := by
    have := head.nodup_names.map Token.text_injective
    simpa [Function.comp_def] using this
  have hlookup : ∀ f ∈ head.fields,
      (parse ch (head.render ++ body) {}).2.headers.lookup f.name.text = some f.stored := by
    intro f hf
    rw [hheaders]
    exact AList.lookup_insertMany_of_mem hnodup (List.mem_map.mpr ⟨f, hf, rfl⟩)
  constructor
  · intro h f hf
    have hvalue := h.value f hf
    rw [hlookup f hf, Option.some_inj] at hvalue
    exact f.stored_eq_value_iff.mp hvalue
  · intro h
    refine ⟨hok, fun f hf => ?_, fun name hname => ?_⟩
    · rw [hlookup f hf, f.stored_eq_value_iff.mpr (h f hf)]
    · -- what is found comes from a field
      rw [hheaders] at hname
      obtain ⟨v, hv⟩ := Option.isSome_iff_exists.mp (AList.lookup_isSome.mpr hname)
      rcases AList.lookup_insertMany_eq_some hv with hmem | hempty
      · obtain ⟨f, hf, heq⟩ := List.mem_map.mp hmem
        exact ⟨f, hf, (Prod.mk.inj heq).1⟩
      · cases hempty

/-- A GET with one header. -/
def hostHead : RequestHead where
  methodStr := octets "GET"
  target := octets "/"
  version := octets "HTTP/1.1"
  fields := [{
    name := ⟨octets "host", by decide, by rfl⟩
    before := octets " "
    value := [0x61]
    behind := []
    isOws_before := by rfl
    isOws_behind := by rfl
    value_line := by decide
    value_head := by simp [isOws]
    value_getLast := by simp [isOws] }]
  isSome_method := by decide
  target_word := by decide
  isSome_version := by decide
  nodup_names := by simp

/-- The value of a header keeps the carriage return of its line. -/
theorem not_headersRead : ¬ ∀ ch head body, HeadersRead ch head body := by
  intro h
  have hvalue := (h 0 hostHead []).value _ List.mem_cons_self
  obtain ⟨-, hheaders⟩ := parse_render 0 hostHead []
  rw [hheaders] at hvalue
  revert hvalue
  decide

end Http

end Rite
