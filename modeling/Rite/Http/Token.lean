import Rite.Http.Request

/-!
# Tokens

The names of headers and cookies are tokens: they have no white space, and none of the characters
that delimit fields.

## Main results

* `Token.notMem`: a character that tokens do not have is not in a token.
-/

namespace Rite

namespace Http

/-- The characters of tokens. -/
def isTchar (c : Octet) : Bool :=
  0x30 ≤ c && c ≤ 0x39 || 0x41 ≤ c && c ≤ 0x5A || 0x61 ≤ c && c ≤ 0x7A ||
    c ∈ octets "!#$%&'*+-.^_`|~"

/-- A token. -/
structure Token where
  /-- Its characters. -/
  text : Octets
  /-- There is one at least. -/
  ne_nil : text ≠ []
  /-- They are those of tokens. -/
  tchar : text.all isTchar = true
  deriving DecidableEq

namespace Token

/-- What is no character of tokens is in no token. -/
theorem notMem (t : Token) {c : Octet} (hc : isTchar c = false) : c ∉ t.text := by
  intro h
  rw [List.all_eq_true.mp t.tchar c h] at hc
  cases hc

theorem text_injective : Function.Injective text := by
  rintro ⟨s, _, _⟩ ⟨t, _, _⟩ rfl
  rfl

end Token

end Http

end Rite
