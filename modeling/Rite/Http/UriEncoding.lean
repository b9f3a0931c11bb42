import Rite.Http.UriDecode

/-!
# Percent encoding, and `uri_decode` as it goes over the characters

Each octet of a text may be written as an escape, with hexadecimal digits in either case, and all
but `%` and `+` as they are. `uri_decode` reads the characters one at a time; an escape is taken for
one if its digits are within the string.

## Main results

* `uriDecodeLoop_eq`: no character is read past the end, and the loop makes of the rest of the
  string what `uriDecode` does;
* `uriDecode_text`: it undoes any encoding;
* `uriDecodeLoop_spec`: both, and the bound of the length.
-/

namespace Rite

namespace Http

/-! ## The loop -/

/-- The condition for an escape at a `%`. There is no result if a character past the end is read. -/
def isEscape (encoded : Octets) (i : ℕ) : Option Bool :=
  if i + 2 < encoded.length then
    match encoded[i + 1]? with
    | none => none
    | some a => if isxdigit a then encoded[i + 2]?.map isxdigit else some false
  else some false

/-- `std::stoi(hex, nullptr, 16)`, cut off to a character. -/
def stoi (hex : Octets) : Octet := hex.foldl (fun v c => 16 * v + hexDigit c) 0

theorem stoi_eq (a b : Octet) : stoi [a, b] = 16 * hexDigit a + hexDigit b := by
  simp [stoi]

/-- The loop of `uri_decode`. -/
def uriDecodeLoop (encoded : Octets) (i : ℕ) (decoded : Octets) : Option Octets :=
  if i < encoded.length then
    match encoded[i]? with
    | none => none
    | some c =>
      if c = 0x25 then
        match isEscape encoded i with
        | none => none
        | some true =>
          uriDecodeLoop encoded (i + 3) (decoded ++ [stoi ((encoded.drop (i + 1)).take 2)])
        | some false => uriDecodeLoop encoded (i + 1) (decoded ++ [c])
      else if c = 0x2B then uriDecodeLoop encoded (i + 1) (decoded ++ [0x20])
      else uriDecodeLoop encoded (i + 1) (decoded ++ [c])
  else some decoded
termination_by encoded.length - i

section Loop

variable {encoded : Octets} {i : ℕ} {c : Octet}

theorem drop_eq_cons (hread : encoded[i]? = some c) :
    encoded.drop i = c :: encoded.drop (i + 1) := by
  obtain ⟨hlt, rfl⟩ := List.getElem?_eq_some_iff.mp hread
  exact List.drop_eq_getElem_cons hlt

/-- The two characters behind a `%` are read if they are there. -/
theorem isEscape_eq (encoded : Octets) (i : ℕ) :
    isEscape encoded i =
      some (match encoded.drop (i + 1) with
        | a :: b :: _ => isxdigit a && isxdigit b
        | _ => false) := by
  have hlength : (encoded.drop (i + 1)).length = encoded.length - (i + 1) := List.length_drop
  have ha : encoded[i + 1]? = (encoded.drop (i + 1))[0]? := by rw [List.getElem?_drop]
  have hb : encoded[i + 2]? = (encoded.drop (i + 1))[1]? := by rw [List.getElem?_drop]
  rw [isEscape, ha, hb]
  generalize encoded.drop (i + 1) = rest at hlength
  rcases rest with _ | ⟨a, _ | ⟨b, t⟩⟩
  · rw [List.length_nil] at hlength
    rw [if_neg (by omega)]
  · rw [List.length_singleton] at hlength
    rw [if_neg (by omega)]
  · rw [List.length_cons, List.length_cons] at hlength
    rw [if_pos (by omega)]
    show (if isxdigit a then some (isxdigit b) else some false) = some (isxdigit a && isxdigit b)
    cases isxdigit a <;> rfl

/-- The loop makes of what is left what `uriDecode` does. -/
theorem uriDecodeLoop_eq (encoded : Octets) (i : ℕ) (decoded : Octets) :
    uriDecodeLoop encoded i decoded = some (decoded ++ uriDecode (encoded.drop i)) := by
  fun_induction uriDecodeLoop encoded i decoded with
  | case1 i decoded hlt hread => exact absurd (List.getElem?_eq_none_iff.mp hread) (by omega)
  | case2 i decoded hlt hescape hread =>
    rw [isEscape_eq] at hescape
    cases hescape
  | case3 i decoded hlt hescape hread ih =>
    rw [isEscape_eq, Option.some_inj] at hescape
    split at hescape
    next a b t hdrop =>
      have hbehind : encoded.drop (i + 3) = t := by
        rw [show i + 3 = i + 1 + 2 from rfl, ← List.drop_drop, hdrop]
        rfl
      rw [ih, drop_eq_cons hread, hdrop, hbehind, uriDecode, if_pos hescape, List.append_assoc,
        ← stoi_eq]
      rfl
    next => cases hescape
  | case4 i decoded hlt hescape hread ih =>
    rw [isEscape_eq, Option.some_inj] at hescape
    have hnone : ∀ a b t, encoded.drop (i + 1) = a :: b :: t →
        (isxdigit a && isxdigit b) = false := by
      intro a b t hdrop
      rwa [hdrop] at hescape
    rw [ih, drop_eq_cons hread, uriDecode_cons (by decide) fun _ => hnone, List.append_assoc]
    rfl
  | case5 i decoded hlt hread hpercent ih =>
    rw [ih, drop_eq_cons hread, uriDecode, List.append_assoc]
    rfl
  | case6 i decoded hlt c hread hpercent hplus ih =>
    rw [ih, drop_eq_cons hread, uriDecode_cons hplus fun heq => absurd heq hpercent,
      List.append_assoc]
    rfl
  | case7 i decoded hlt =>
    rw [List.drop_eq_nil_of_le (by omega), uriDecode, List.append_nil]

end Loop

/-! ## Encodings -/

/-- The digits of the numbers below 16. -/
def lowerDigits : Octets := octets "0123456789abcdef"

/-- The digits of the numbers below 16. -/
def upperDigits : Octets := octets "0123456789ABCDEF"

/-- The digit of a number, in either case. -/
def IsHexDigit (d : ℕ) (x : Octet) : Prop := lowerDigits[d]? = some x ∨ upperDigits[d]? = some x

/-- The ways to write an octet. -/
inductive Written (c : Octet) : Octets → Prop
  /-- As it is. -/
  | literal (hpercent : c ≠ 0x25) (hplus : c ≠ 0x2B) : Written c [c]
  /-- As an escape. -/
  | escape {a b : Octet} (ha : IsHexDigit (c.toNat / 16) a) (hb : IsHexDigit (c.toNat % 16) b) :
    Written c [0x25, a, b]

/-- A way to write a text. -/
structure UriEncoding (s : Octets) where
  /-- How each octet is written. -/
  pieces : List Octets
  /-- It may be written so. -/
  written : List.Forall₂ Written s pieces

/-- The text as it is written. -/
def UriEncoding.text {s : Octets} (e : UriEncoding s) : Octets := e.pieces.flatten

section Encoding

variable {c : Octet} {s : Octets}

/-- A digit is one for the decoder, and it has its value. -/
theorem IsHexDigit.spec {d : ℕ} {x : Octet} (h : IsHexDigit d x) :
    isxdigit x ∧ (hexDigit x).toNat = d := by
  have hdigits : ∀ p ∈ lowerDigits.zipIdx ++ upperDigits.zipIdx,
      isxdigit p.1 ∧ (hexDigit p.1).toNat = p.2 := by decide
  refine hdigits (x, d) (List.mem_append.mpr ?_)
  rwa [List.mk_mem_zipIdx_iff_getElem?, List.mk_mem_zipIdx_iff_getElem?]

/-- The digits of an octet have its value. -/
theorem value_eq {a b : Octet} (ha : (hexDigit a).toNat = c.toNat / 16)
    (hb : (hexDigit b).toNat = c.toNat % 16) : 16 * hexDigit a + hexDigit b = c := by
  have hlt := c.toNat_lt
  refine UInt8.toNat_inj.mp ?_
  rw [UInt8.toNat_add, UInt8.toNat_mul, ha, hb]
  show (16 * (c.toNat / 16) % 2 ^ 8 + c.toNat % 16) % 2 ^ 8 = c.toNat
  omega

/-- What is written for an octet is read as the octet, whatever follows. -/
theorem Written.uriDecode_append {piece : Octets} (h : Written c piece) (t : Octets) :
    uriDecode (piece ++ t) = c :: uriDecode t := by
  cases h with
  | literal hpercent hplus =>
    rw [List.singleton_append]
    exact uriDecode_cons hplus fun heq => absurd heq hpercent
  | @escape a b ha hb =>
    have hdigits : (isxdigit a && isxdigit b) = true := by
      rw [ha.spec.1, hb.spec.1]
      rfl
    show uriDecode (0x25 :: a :: b :: t) = _
    rw [uriDecode, if_pos hdigits, value_eq ha.spec.2 hb.spec.2]

theorem uriDecode_text (e : UriEncoding s) : uriDecode e.text = s := by
  obtain ⟨pieces, hwritten⟩ := e
  show uriDecode pieces.flatten = s
  induction hwritten with
  | nil => rfl
  | cons hpiece _ ih => rw [List.flatten_cons, hpiece.uriDecode_append, ih]

end Encoding

/-- `uri_decode` undoes each encoding, and for any input it stays inside and makes nothing
longer. -/
theorem uriDecodeLoop_spec :
    (∀ (s : Octets) (e : UriEncoding s), uriDecodeLoop e.text 0 [] = some s) ∧
      ∀ encoded : Octets, ∃ decoded, uriDecodeLoop encoded 0 [] = some decoded ∧
        decoded.length ≤ encoded.length := by
  constructor
  · intro s e
    rw [uriDecodeLoop_eq, List.nil_append, List.drop_zero, uriDecode_text]
  · intro encoded
    exact ⟨uriDecode encoded, uriDecodeLoop_eq encoded 0 [], length_uriDecode_le encoded⟩

end Http

end Rite
