import Rite.Http.Istream

/-!
# Cookies of a request (`http_request::cookie_jar`)

The jar is made of the header `cookie`, whose value is split at each `;`. The text in front of the
first `=` of a piece is a key, and the text up to the next `=` is its value; blanks are not trimmed.
-/

namespace Rite

namespace Http

/-- The key and the value that two calls of `std::getline` take from a piece. -/
def cookie (piece : Octets) : Octets × Octets :=
  let (_, key, inner) := Istream.getline 0x3D [] ⟨piece, true⟩
  -- behind a key without `=` there is nothing to read, and the value stays empty
  let (_, value, _) := Istream.getline 0x3D [] inner
  (key, value)

end Http

/-- `cookie_jar`, by its `cookies_`. Of cookies with one key the last one stays. -/
def Request.cookies (request : Request) : AList fun _ : Octets => Octets :=
  match request.headers.lookup (octets "cookie") with
  | some header =>
    ((Http.getlines 0x3B header).map Http.cookie).foldl (fun jar c => jar.insert c.1 c.2) ∅
  | none => ∅

end Rite
