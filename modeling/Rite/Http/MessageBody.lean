import Rite.Http.Getlines
import Rite.Http.Parser

/-!
# The sections of an HTTP/1 request

The lines behind the request line are headers up to the first one that is empty or a lone carriage
return. What follows that line is the body, whatever octets it has. A last line that no line feed
ends is a line as well.

## Main results

* `parseHeaders_eq`: the loop over the lines reads the header lines, and leaves what follows them;
* `parse_sections`: the body of a request is what follows the header lines, and the headers are
  those in the header lines;
* `headerLines_append`, `messageBody_append`: what the sections are if there is a line that ends
  the headers.
-/

namespace Rite

namespace Http

/-- A line that ends the headers. -/
def endsHeaders (line : Octets) : Bool := line = [] || line = [0x0D]

/-- The lines behind the request line, without their line feeds. -/
def followingLines (data : Octets) : List Octets := (data.splitOn 0x0A).tail

/-- The header lines: those before the first one that is empty or a lone carriage return. -/
def headerLines (data : Octets) : List Octets :=
  (followingLines data).takeWhile (! endsHeaders ·)

/-- The octets behind that line. There are none without such a line. -/
def messageBody (data : Octets) : Octets :=
  [0x0A].intercalate ((followingLines data).dropWhile (! endsHeaders ·)).tail

/-! ## What the loop reads -/

theorem parseHeaders_cons {headers : AList fun _ : Octets => Octets} {line : Octets}
    {s s' : Istream} (h : s.getline 0x0A [] = (true, line, s')) :
    parseHeaders headers s =
      if endsHeaders line then (headers, s') else parseHeaders (insertHeader headers line) s' := by
  rw [parseHeaders]
  split
  next line' s'' heq =>
    rw [h] at heq
    obtain ⟨rfl, rfl⟩ := Prod.mk.inj (Prod.mk.inj heq).2
    simp [endsHeaders]
  next heq =>
    rw [h] at heq
    cases heq

theorem parseHeaders_fail {headers : AList fun _ : Octets => Octets} {line : Octets}
    {s s' : Istream} (h : s.getline 0x0A [] = (false, line, s')) :
    parseHeaders headers s = (headers, s') := by
  rw [parseHeaders]
  split
  next heq =>
    rw [h] at heq
    cases heq
  next heq =>
    rw [h] at heq
    rw [(Prod.mk.inj (Prod.mk.inj heq).2).2]

/-- A stream that has met its end has no lines. -/
theorem parseHeaders_not_good (headers : AList fun _ : Octets => Octets) (rest : Octets) :
    parseHeaders headers ⟨rest, false⟩ = (headers, ⟨rest, false⟩) :=
  have hline : Istream.getline 0x0A [] ⟨rest, false⟩ = (false, [], ⟨rest, false⟩) := rfl
  parseHeaders_fail hline

/-- The loop reads the lines before the first one that ends the headers, and what it leaves are the
lines behind that one. -/
theorem parseHeaders_eq (headers : AList fun _ : Octets => Octets) (rest : Octets) :
    (parseHeaders headers ⟨rest, true⟩).1 =
        ((rest.splitOn 0x0A).takeWhile (! endsHeaders ·)).foldl insertHeader headers ∧
      (parseHeaders headers ⟨rest, true⟩).2.rest =
        [0x0A].intercalate ((rest.splitOn 0x0A).dropWhile (! endsHeaders ·)).tail := by
  -- by induction on the lines of the stream
  induction rest using separated_induction 0x0A generalizing headers with
  | single x hx =>
    have hline : Istream.getline 0x0A [] ⟨x, true⟩ = (! x.isEmpty, x, ⟨[], false⟩) :=
      Istream.getline_last hx
    rw [List.splitOn_eq_singleton hx]
    by_cases hempty : x = []
    · -- there is no line behind the last line feed
      subst hempty
      rw [parseHeaders_fail hline]
      exact ⟨rfl, rfl⟩
    · have hok : Istream.getline 0x0A [] ⟨x, true⟩ = (true, x, ⟨[], false⟩) := by
        rw [hline]
        simp [hempty]
      rw [parseHeaders_cons hok, parseHeaders_not_good]
      by_cases hend : endsHeaders x
      · simp [hend]
      · simp [hend]
  | append x y hx ih =>
    rw [List.splitOn_append_cons_self_of_not_mem hx,
      parseHeaders_cons (Istream.getline_append [] hx)]
    by_cases hend : endsHeaders x
    · simp [hend, List.intercalate_splitOn]
    · simpa [hend] using ih (insertHeader headers x)

/-! ## What the parser reads -/

/-- The request line and the lines that follow it. -/
theorem getline_requestLine {data line : Octets} {s : Istream}
    (h : Istream.getline 0x0A [] ⟨data, true⟩ = (true, line, s)) :
    s = ⟨[], false⟩ ∧ followingLines data = [] ∨
      ∃ rest, s = ⟨rest, true⟩ ∧ followingLines data = rest.splitOn 0x0A := by
  rcases first_cases 0x0A data with ⟨hmem, -, -⟩ | ⟨u, v, rfl, hu, -, -⟩
  · rw [Istream.getline_last hmem] at h
    refine .inl ⟨(Prod.mk.inj (Prod.mk.inj h).2).2.symm, ?_⟩
    rw [followingLines, List.splitOn_eq_singleton hmem, List.tail_cons]
  · rw [Istream.getline_append [] hu] at h
    refine .inr ⟨v, (Prod.mk.inj (Prod.mk.inj h).2).2.symm, ?_⟩
    rw [followingLines, List.splitOn_append_cons_self_of_not_mem hu, List.tail_cons]

/-- The loop over the header lines begins behind the request line. -/
theorem parseHeaders_requestLine {data line : Octets} {s : Istream}
    (h : Istream.getline 0x0A [] ⟨data, true⟩ = (true, line, s))
    (headers : AList fun _ : Octets => Octets) :
    (parseHeaders headers s).1 = (headerLines data).foldl insertHeader headers ∧
      (parseHeaders headers s).2.rest = messageBody data := by
  rw [headerLines, messageBody]
  rcases getline_requestLine h with ⟨rfl, hlines⟩ | ⟨rest, rfl, hlines⟩
  · rw [hlines, parseHeaders_not_good]
    exact ⟨rfl, rfl⟩
  · rw [hlines]
    exact parseHeaders_eq headers rest

/-- What a request that is accepted has been read from. -/
theorem parse_eq_true {ch : Octet} {data : Octets} {req req' : Request}
    (h : parse ch data req = (true, req')) :
    ∃ line s, Istream.getline 0x0A [] ⟨data, true⟩ = (true, line, s) ∧
      req'.headers = (parseHeaders req.headers s).1 ∧
      req'.body = if req'.method = some .post ∨ req'.method = some .put then
          (parseHeaders req.headers s).2.rest
        else req.body := by
  simp only [parse] at h
  split_ifs at h with hok
  · refine ⟨(Istream.getline 0x0A [] ⟨data, true⟩).2.1,
      (Istream.getline 0x0A [] ⟨data, true⟩).2.2, Prod.ext hok rfl, ?_⟩
    -- the words, the version and the method have to be there
    split at h
    · cases h
    · split at h
      · cases h
      · split at h
        · cases h
        · rw [Prod.mk.injEq] at h
          obtain ⟨-, rfl⟩ := h
          simp
  · cases h

/-- A request that is accepted has the headers in the header lines, and with POST and PUT the
body that follows them. -/
theorem parse_sections {ch : Octet} {data : Octets} {req req' : Request}
    (h : parse ch data req = (true, req'))
    (hmethod : req'.method = some .post ∨ req'.method = some .put) :
    req'.body = messageBody data ∧
      req'.headers = (headerLines data).foldl insertHeader req.headers := by
  obtain ⟨line, s, hline, hheaders, hbody⟩ := parse_eq_true h
  have hsections := parseHeaders_requestLine hline req.headers
  rw [if_pos hmethod] at hbody
  exact ⟨hbody.trans hsections.2, hheaders.trans hsections.1⟩

/-- A body with a NUL and line ends, behind a blank line. -/
theorem parse_sections_sample :
    ∃ req' : Request, req'.body = messageBody (requestHead (octets "POST") (octets "/")
          (octets "a: b\r\n\r\n\x00\r\n\r\nc: d")) ∧
      req'.headers = (headerLines (requestHead (octets "POST") (octets "/")
          (octets "a: b\r\n\r\n\x00\r\n\r\nc: d"))).foldl insertHeader ∅ :=
  have hmethod : method (octets "POST") = some .post := by decide
  ⟨_, parse_sections (parse_requestHead 0 {} _ hmethod (by decide) (by decide +kernel)) (.inl rfl)⟩

/-! ## Requests with a line that ends the headers -/

section Sections

variable {line blank : Octets} {lines : List Octets}

theorem followingLines_append (hline : 0x0A ∉ line) (hlines : ∀ l ∈ lines, 0x0A ∉ l)
    (hblank : 0x0A ∉ blank) (body : Octets) :
    followingLines (line ++ 0x0A :: (lines.flatMap (· ++ [0x0A]) ++ blank ++ 0x0A :: body)) =
      lines ++ blank :: body.splitOn 0x0A := by
  rw [followingLines, List.splitOn_append_cons_self_of_not_mem hline, List.tail_cons]
  induction lines with
  | nil => simp [List.splitOn_append_cons_self_of_not_mem hblank]
  | cons l lines ih =>
    have hl := hlines l List.mem_cons_self
    rw [List.flatMap_cons, List.append_assoc, List.append_assoc, List.append_assoc,
      List.singleton_append, List.splitOn_append_cons_self_of_not_mem hl, List.cons_append]
    rw [← ih fun l' hl' => hlines l' (List.mem_cons_of_mem l hl'), List.append_assoc]

/-- The lines in front of the first one that ends the headers are the header lines, -/
theorem headerLines_append (hline : 0x0A ∉ line)
    (hlines : ∀ l ∈ lines, 0x0A ∉ l ∧ ¬ endsHeaders l) (hblank : 0x0A ∉ blank)
    (hend : endsHeaders blank) (body : Octets) :
    headerLines (line ++ 0x0A :: (lines.flatMap (· ++ [0x0A]) ++ blank ++ 0x0A :: body)) =
      lines := by
  have hall : ∀ l ∈ lines, (! endsHeaders l) = true := fun l hl => by simpa using (hlines l hl).2
  rw [headerLines, followingLines_append hline (fun l hl => (hlines l hl).1) hblank,
    List.takeWhile_append_of_pos hall]
  simp [hend]

/-- and what is behind it is the body. -/
theorem messageBody_append (hline : 0x0A ∉ line)
    (hlines : ∀ l ∈ lines, 0x0A ∉ l ∧ ¬ endsHeaders l) (hblank : 0x0A ∉ blank)
    (hend : endsHeaders blank) (body : Octets) :
    messageBody (line ++ 0x0A :: (lines.flatMap (· ++ [0x0A]) ++ blank ++ 0x0A :: body)) =
      body := by
  have hall : ∀ l ∈ lines, (! endsHeaders l) = true := fun l hl => by simpa using (hlines l hl).2
  rw [messageBody, followingLines_append hline (fun l hl => (hlines l hl).1) hblank,
    List.dropWhile_append_of_pos hall]
  simp [hend, List.intercalate_splitOn]

end Sections

end Http

end Rite
