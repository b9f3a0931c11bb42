import Rite.Hpack.Serializer
import Rite.Http.HeaderFields
import Rite.ToMathlib.Decimal
import Rite.ToMathlib.ListReader

/-!
# A client of HTTP/1.1

A client of RFC 7230 that keeps its connection reads messages one after the other: a status line,
header fields up to an empty line, and a body. The length of the body is in the field
`Content-Length`, unless the status says that there is no body. A client cannot go on behind a
message that has neither, or more than one length. Codings of the body are not read here. The client
does not ask for the reason behind the status, nor for the blank in front of it.

## Main results

* `extends_message`: what the client reads does not depend on what follows it.
-/

namespace Rite

namespace Rfc7230

open Http (Token isOws isTchar)
open ListReader (Extends)

/-- A message to a client. -/
structure Message where
  /-- The code of the status. -/
  statusCode : ℕ
  /-- The names of the header fields, and their values. -/
  headers : List (Octets × Octets)
  /-- The body. -/
  body : Octets
  deriving DecidableEq

/-- The text without the blanks around it. -/
def trim (s : Octets) : Octets := (s.dropWhile isOws).rdropWhile isOws

/-- The code in a status line. -/
def statusCode (line : Octets) : Option ℕ :=
  let status := line.drop (octets "HTTP/1.1 ").length
  let digits := status.takeWhile Decimal.isDigit
  if octets "HTTP/1.1 " <+: line ∧ digits ≠ [] ∧
      ∀ c ∈ (status.dropWhile Decimal.isDigit).head?, c = 0x20 then
    some (Decimal.value digits)
  else none

/-- The header field in a line. -/
def field (line : Octets) : Option (Octets × Octets) :=
  let name := line.takeWhile (· ≠ 0x3A)
  if 0x3A ∈ line ∧ name ≠ [] ∧ name.all isTchar then
    some (name, trim (line.dropWhile (· ≠ 0x3A)).tail)
  else none

/-- The length of a body, if it can be had. -/
def bodyLength (statusCode : ℕ) (headers : List (Octets × Octets)) : Option ℕ :=
  let values (name : Octets) := (headers.filter (Hpack.toLower ·.1 = name)).map Prod.snd
  if statusCode < 200 ∨ statusCode = 204 ∨ statusCode = 304 then some 0
  else if values (octets "transfer-encoding") ≠ [] then none
  else
    match values (octets "content-length") with
    | [value] =>
      if value ≠ [] ∧ value.all Decimal.isDigit then some (Decimal.value value) else none
    | _ => none

/-- Read a line. -/
def line : ListReader Unit Octet Octets := ListReader.upToPair () 0x0D 0x0A

theorem length_lt_of_line {s l rest : Octets} (h : line s = .ok (l, rest)) :
    rest.length < s.length := by
  rw [ListReader.eq_append_of_upToPair h, List.length_append, List.length_cons, List.length_cons]
  omega

/-- Read header fields up to an empty line. -/
def fields (s : Octets) : Except Unit (List (Octets × Octets) × Octets) :=
  match _h : line s with
  | .error e => .error e
  | .ok (l, rest) =>
    if l = [] then .ok ([], rest)
    else
      match field l with
      | none => .error ()
      | some f => (fields rest).map (Prod.map (f :: ·) id)
termination_by s.length
decreasing_by exact length_lt_of_line ‹_›

/-- Read a message. -/
def message : ListReader Unit Octet Message :=
  ListReader.bind line fun l =>
    ListReader.bind (.ofOption () (statusCode l)) fun code =>
      ListReader.bind fields fun headers =>
        ListReader.bind (.ofOption () (bodyLength code headers)) fun n =>
          ListReader.bind (.chunk () n) fun body => .pure ⟨code, headers, body⟩

/-! ## What follows a message -/

theorem fields_nil {s rest : Octets} (h : line s = .ok ([], rest)) :
    fields s = .ok ([], rest) := by
  rw [fields]
  split
  next e he =>
    rw [h] at he
    cases he
  next l rest' hl =>
    rw [h] at hl
    cases hl
    rfl

theorem fields_cons {s rest l : Octets} (h : line s = .ok (l, rest)) (hl : l ≠ []) :
    fields s =
      match field l with
      | none => .error ()
      | some f => (fields rest).map (Prod.map (f :: ·) id) := by
  rw [fields]
  split
  next e he =>
    rw [h] at he
    cases he
  next l' rest' hl' =>
    rw [h] at hl'
    cases hl'
    rw [if_neg hl]

theorem extends_fields : Extends (fields : ListReader Unit Octet (List (Octets × Octets))) := by
  intro s rest fs q h
  induction hn : s.length using Nat.strong_induction_on generalizing s rest fs with
  | _ n ih =>
    subst hn
    cases hline : line s with
    | error e =>
      rw [fields] at h
      split at h
      · cases h
      next hl =>
        rw [hline] at hl
        cases hl
    | ok found =>
      obtain ⟨l, m⟩ := found
      have hmore : line (s ++ q) = .ok (l, m ++ q) :=
        ListReader.extends_upToPair () 0x0D 0x0A _ _ _ q hline
      by_cases hl : l = []
      · -- the empty line ends the fields
        subst hl
        rw [fields_nil hline] at h
        cases h
        exact fields_nil hmore
      · rw [fields_cons hline hl] at h
        rw [fields_cons hmore hl]
        cases hfield : field l with
        | none =>
          rw [hfield] at h
          cases h
        | some f =>
          rw [hfield] at h
          dsimp only at h ⊢
          cases hfields : fields m with
          | error e =>
            rw [hfields] at h
            cases h
          | ok found =>
            rw [hfields] at h
            cases h
            rw [ih _ (length_lt_of_line hline) m found.2 found.1 hfields rfl]
            rfl

/-- What follows a message does not matter. -/
theorem extends_message : Extends message := by
  refine (ListReader.extends_upToPair () 0x0D 0x0A).bind fun l => ?_
  refine (ListReader.extends_ofOption () _).bind fun code => ?_
  refine extends_fields.bind fun headers => ?_
  refine (ListReader.extends_ofOption () _).bind fun n => ?_
  exact (ListReader.extends_chunk () n).bind fun body => ListReader.extends_pure _

end Rfc7230

end Rite
