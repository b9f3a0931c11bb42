import Rite.Http.Request

/-!
# Stores past the variable of `decode_uri_component`

`sscanf` stores the number that it reads behind a `%` in four octets, where the variable has one. If
there is no such number anywhere, then nothing is stored, and the octets behind the variable do not
matter.

## Main results

* `decodeUriComponent_eq`: `decode_uri_component` returns exactly if there is no number behind a
  `%`;
* `parseQueryM_eq`: the query parser does so exactly if there is none in any key or value.
-/

namespace Rite

namespace Http

/-- What `decode_uri_component` gives to `sscanf`. -/
def escapes : Octets → List Octets
  | [] => []
  | c :: rest => if c = 0x25 then rest.take 2 :: escapes (rest.drop 2) else escapes rest
termination_by s => s.length

/-- `sscanf` finds no number behind a `%`. -/
def Numberless (s : Octets) : Prop := ∀ e ∈ escapes s, scanHex e = none

instance (s : Octets) : Decidable (Numberless s) :=
  inferInstanceAs (Decidable (∀ e ∈ escapes s, scanHex e = none))

theorem numberless_nil : Numberless [] := by simp [Numberless, escapes]

theorem numberless_percent (rest : Octets) :
    Numberless (0x25 :: rest) ↔ scanHex (rest.take 2) = none ∧ Numberless (rest.drop 2) := by
  simp only [Numberless]
  rw [escapes, if_pos rfl, List.forall_mem_cons]

theorem numberless_cons {c : Octet} (hc : c ≠ 0x25) (s : Octets) :
    Numberless (c :: s) ↔ Numberless s := by
  simp only [Numberless]
  rw [escapes, if_neg hc]

/-- It returns exactly if there is no number behind a `%`. -/
theorem decodeUriComponent_eq (ch : Octet) (s : Octets) :
    decodeUriComponent ch s =
      if Numberless s then .ok (decodeUriOctets ch s) else .error .overrun := by
  fun_induction decodeUriComponent ch s with
  | case1 =>
    rw [if_pos numberless_nil, decodeUriOctets]
    rfl
  | case2 rest hnumber =>
    -- the first number ends it
    have hnot : ¬ Numberless (0x25 :: rest) := fun h => by
      rw [((numberless_percent rest).mp h).1] at hnumber
      cases hnumber
    rw [if_neg hnot]
    rfl
  | case3 rest hnumber ih =>
    -- nothing is stored, so that the variable stays what it is
    have hnone : scanHex (rest.take 2) = none := Option.not_isSome_iff_eq_none.mp hnumber
    have hiff : Numberless (0x25 :: rest) ↔ Numberless (rest.drop 2) := by
      simp only [numberless_percent, hnone, true_and]
    rw [ih, decodeUriOctets, if_pos rfl, hnone, Option.getD_none]
    by_cases h : Numberless (rest.drop 2)
    · rw [if_pos h, if_pos (hiff.mpr h)]
      rfl
    · rw [if_neg h, if_neg (mt hiff.mp h)]
      rfl
  | case4 c rest hc ih =>
    rw [ih, decodeUriOctets, if_neg hc]
    by_cases h : Numberless rest
    · rw [if_pos h, if_pos ((numberless_cons hc rest).mpr h)]
      rfl
    · rw [if_neg h, if_neg (mt (numberless_cons hc rest).mp h)]
      rfl

/-! ## Query parameters -/

/-- The key and the value of a parameter. -/
def parameterComponents (param : Octets) : List Octets :=
  if 0x3D ∈ param then
    [param.takeWhile (· ≠ 0x3D), (param.dropWhile (· ≠ 0x3D)).tail]
  else [param]

/-- The keys and values of a query. -/
def queryComponents (query : Octets) : List Octets :=
  if 0x3F ∈ query then
    (getlines 0x26 (query.dropWhile (· ≠ 0x3F)).tail).flatMap parameterComponents
  else []

theorem queryParameterM_eq (ch : Octet) (param : Octets) :
    queryParameterM ch param =
      if ∀ c ∈ parameterComponents param, Numberless c then .ok (queryParameter ch param)
      else .error .overrun := by
  unfold queryParameterM parameterComponents queryParameter
  by_cases hmem : 0x3D ∈ param
  · -- the key is decoded before the value
    simp only [if_pos hmem, decodeUriComponent_eq, List.forall_mem_cons, List.not_mem_nil,
      false_implies, implies_true, and_true]
    by_cases hkey : Numberless (param.takeWhile (· ≠ 0x3D))
    · by_cases hvalue : Numberless (param.dropWhile (· ≠ 0x3D)).tail
      · rw [if_pos hkey, if_pos hvalue, if_pos ⟨hkey, hvalue⟩]
        rfl
      · rw [if_pos hkey, if_neg hvalue, if_neg (mt And.right hvalue)]
        rfl
    · rw [if_neg hkey, if_neg (mt And.left hkey)]
      rfl
  · simp only [if_neg hmem, decodeUriComponent_eq, List.forall_mem_singleton]
    split_ifs <;> rfl

/-- Calls that return what they are described by, or fail, are made one after the other. -/
private theorem mapM_eq_ite {α β ε : Type} {f : α → Except ε β} {g : α → β} {P : α → Prop}
    [DecidablePred P] {e : ε} (h : ∀ a, f a = if P a then .ok (g a) else .error e) (l : List α) :
    l.mapM f = if ∀ a ∈ l, P a then .ok (l.map g) else .error e := by
  induction l with
  | nil => rfl
  | cons a l ih =>
    rw [List.mapM_cons, h, ih]
    by_cases ha : P a
    · by_cases hl : ∀ b ∈ l, P b
      · rw [if_pos ha, if_pos hl, if_pos (List.forall_mem_cons.mpr ⟨ha, hl⟩)]
        rfl
      · rw [if_pos ha, if_neg hl, if_neg fun h => hl (List.forall_mem_cons.mp h).2]
        rfl
    · rw [if_neg ha, if_neg fun h => ha (List.forall_mem_cons.mp h).1]
      rfl

/-- The query parser returns exactly if there is no number behind a `%` in any key or value. -/
theorem parseQueryM_eq (ch : Octet) (query : Octets) :
    parseQueryM ch query =
      if ∀ c ∈ queryComponents query, Numberless c then .ok (parseQuery ch query)
      else .error .overrun := by
  unfold parseQueryM queryComponents parseQuery
  by_cases hmem : 0x3F ∈ query
  · simp only [if_pos hmem, mapM_eq_ite (queryParameterM_eq ch), List.forall_mem_flatMap]
    split_ifs <;> rfl
  · simp only [if_neg hmem, List.not_mem_nil, false_implies, implies_true, if_true]
    rfl

/-- `uri_decode` leaves an escape. -/
example : ¬ ∀ c ∈ queryComponents (uriDecode (octets "/?a=%2541")), Numberless c := by
  decide +kernel

end Http

end Rite
