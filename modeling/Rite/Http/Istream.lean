import Rite.Http.Request

/-!
# Input streams (`std::istringstream`, `std::ifstream`)

The two ways in which the code reads a stream: `std::getline`, and `>>` into a string. Both leave
their string alone when the stream is not good to begin with, which is what a variable that is
used again keeps from one call to the next.

## Main results

* `getline_append`, `getline_last`: a string without the separator is read back, with the
  separator behind it or at the end of the stream;
* `extract_append`: so is a word with white space behind it.
-/

namespace Rite

/-- An input stream. -/
structure Istream where
  /-- The characters that have not been read. -/
  rest : Octets
  /-- `good()`: neither the end of the stream has been met, nor has a call failed. -/
  good : Bool := true
  deriving DecidableEq

namespace Istream

/-- `std::getline(s, str, separator)`: whether the stream has not failed, `str`, and the stream. -/
def getline (separator : Octet) (str : Octets) (s : Istream) : Bool × Octets × Istream :=
  -- a stream that is not good fails before `str` is cleared
  if ¬ s.good then (false, str, s)
  else if separator ∈ s.rest then
    (true, s.rest.takeWhile (· != separator), ⟨(s.rest.dropWhile (· != separator)).tail, true⟩)
  else (! s.rest.isEmpty, s.rest, ⟨[], false⟩)

/-- `s >> str`, with the same results. -/
def extract (str : Octets) (s : Istream) : Bool × Octets × Istream :=
  let word := s.rest.dropWhile Http.isspace
  if ¬ s.good then (false, str, s)
  else if word = [] then (false, str, ⟨[], false⟩)
  else
    (true, word.takeWhile (! Http.isspace ·),
      -- a word that nothing follows is only known to be over at the end of the stream
      ⟨word.dropWhile (! Http.isspace ·), word.any Http.isspace⟩)

variable {separator : Octet} {str str' w rest : Octets} {s s' : Istream}

/-- A call that succeeds takes at least one character. -/
theorem length_lt_of_getline (h : s.getline separator str = (true, str', s')) :
    s'.rest.length < s.rest.length := by
  unfold getline at h
  split_ifs at h with hgood hmem
  · rw [Prod.mk.injEq, Prod.mk.injEq] at h
    obtain ⟨-, -, rfl⟩ := h
    -- the separator is what stops the line, and goes as well
    have hne : s.rest.dropWhile (· != separator) ≠ [] := by
      simpa [List.dropWhile_eq_nil_iff] using hmem
    have hle := (s.rest.dropWhile_suffix (· != separator)).length_le
    have hpos := List.length_pos_iff.mpr hne
    rw [List.length_tail]
    omega
  · rw [Prod.mk.injEq, Prod.mk.injEq] at h
    obtain ⟨hne, -, rfl⟩ := h
    exact List.length_pos_iff.mpr (by simpa using hne)
  · simp at h

/-- A string that the separator follows is read up to the separator. -/
theorem getline_append (str : Octets) (hw : separator ∉ w) :
    getline separator str ⟨w ++ separator :: rest, true⟩ = (true, w, ⟨rest, true⟩) := by
  have hne : ∀ c ∈ w, (c != separator) = true := fun c hc =>
    bne_iff_ne.mpr fun hceq => hw (hceq ▸ hc)
  simp [getline, List.takeWhile_append_of_pos hne, List.dropWhile_append_of_pos hne]

/-- Without a separator the whole stream is read, and its end is met. -/
theorem getline_last (hw : separator ∉ w) :
    getline separator str ⟨w, true⟩ = (! w.isEmpty, w, ⟨[], false⟩) := by
  simp [getline, hw]

/-- A word is read with the white space in front of it, up to the white space behind it. -/
theorem extract_append (spaces : Octets) {c : Octet} (hspaces : ∀ c ∈ spaces, Http.isspace c)
    (hne : w ≠ []) (hw : ∀ c ∈ w, ¬ Http.isspace c) (hc : Http.isspace c) :
    extract str ⟨spaces ++ w ++ c :: rest, true⟩ = (true, w, ⟨c :: rest, true⟩) := by
  obtain ⟨a, w, rfl⟩ := List.exists_cons_of_ne_nil hne
  have hword : (spaces ++ (a :: w) ++ c :: rest).dropWhile Http.isspace =
      (a :: w) ++ c :: rest := by
    rw [List.append_assoc, List.dropWhile_append_of_pos hspaces, List.cons_append,
      List.dropWhile_cons_of_neg (hw a List.mem_cons_self)]
  have hall : ∀ b ∈ a :: w, (! Http.isspace b) = true := fun b hb => by simpa using hw b hb
  rw [extract, hword]
  simp only [List.takeWhile_append_of_pos hall, List.dropWhile_append_of_pos hall]
  simp [hc]

end Istream

end Rite
