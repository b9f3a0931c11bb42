import Mathlib

/-!
# Prefix codes and bit-serial decoders

A prefix code over an alphabet, and the two decoders that read such a code one bit at a time,
keeping the bits seen since the last symbol. The *greedy* decoder is total: it gives up on its
pending bits once there are `limit` of them and drops what is left at the end. The *strict*
decoder fails unless what is left is admitted as padding.

Both are parameterised by a lookup `symbol`, which is `Reads C` when it finds exactly the code
words of `C`.

## Main results

* `encode_append_inj`: bits are read as code words in one way only;
* `greedy_encode_append`: the greedy decoder reads an encoded word back, and then whatever
  follows it as if it stood alone;
* `greedy_eq_nil`: bits no prefix of which is a code word yield no symbol;
* `mul_length_greedy_le`: whatever the bits are, it puts out one symbol for `k` of them at most, if
  no code word is shorter than that;
* `finished_greedy`: inside an encoded word, it has put out what it has read in full;
* `strict_encode_append`: so does the strict decoder, in front of a padding;
* `exists_padding_of_strict`: what the strict decoder accepts is an encoded word and a padding.
-/

/-- A code whose words are non-empty and none of which is a prefix of another. -/
structure PrefixCode (α : Type*) where
  /-- The code word of a symbol. -/
  code : α → List Bool
  /-- No code word is empty. -/
  code_ne_nil : ∀ a, code a ≠ []
  /-- A code word is a prefix of no other one. -/
  prefixFree : ∀ a b, code a <+: code b → a = b

namespace PrefixCode

variable {α : Type*} (C : PrefixCode α)

/-- The concatenated code words of a list of symbols. -/
def encode (s : List α) : List Bool := s.flatMap C.code

@[simp] theorem encode_nil : C.encode [] = [] := rfl

@[simp] theorem encode_cons (a : α) (s : List α) : C.encode (a :: s) = C.code a ++ C.encode s := rfl

/-- `symbol` finds the symbol of every code word of `C`, and nothing else. -/
def Reads (symbol : List Bool → Option α) : Prop := ∀ p a, symbol p = some a ↔ C.code a = p

/-- No code word is at the beginning of these bits. -/
def Stuck (bs : List Bool) : Prop := ∀ a, ¬ C.code a <+: bs

section Decoders

variable (symbol : List Bool → Option α)

/-- Read bits one at a time after the pending bits `pend`, and drop the pending bits when
`limit` of them have matched nothing. -/
def greedy (limit : ℕ) : List Bool → List Bool → List α
  | _, [] => []
  | pend, b :: bs =>
    match symbol (pend ++ [b]) with
    | some a => a :: greedy limit [] bs
    | none => if limit ≤ pend.length + 1 then greedy limit [] bs else greedy limit (pend ++ [b]) bs

/-- Read bits one at a time after the pending bits `pend`, and accept only if what is pending at
the end is a `padding`. -/
def strict (padding : List Bool → Bool) : List Bool → List Bool → Option (List α)
  | pend, [] => if padding pend then some [] else none
  | pend, b :: bs =>
    match symbol (pend ++ [b]) with
    | some a => (strict padding [] bs).map (a :: ·)
    | none => strict padding (pend ++ [b]) bs

end Decoders

variable {C} {symbol : List Bool → Option α} {limit : ℕ}

/-- Bits are read as code words in one way only, up to where no code word comes next. -/
theorem encode_append_inj {s t : List α} {p q : List Bool} (hp : C.Stuck p) (hq : C.Stuck q)
    (h : C.encode s ++ p = C.encode t ++ q) : s = t ∧ p = q := by
  induction s generalizing t with
  | nil =>
    cases t with
    | nil => exact ⟨rfl, h⟩
    | cons b t =>
      rw [encode_cons, List.append_assoc] at h
      exact absurd ⟨_, h.symm⟩ (hp b)
  | cons a s ih =>
    cases t with
    | nil =>
      rw [encode_cons, List.append_assoc] at h
      exact absurd ⟨_, h⟩ (hq a)
    | cons b t =>
      rw [encode_cons, encode_cons, List.append_assoc, List.append_assoc] at h
      -- one of the two code words is a prefix of the other
      have hab : a = b := by
        rcases List.prefix_or_prefix_of_prefix ⟨_, h⟩ (List.prefix_append (C.code b) _) with
          hpre | hpre
        · exact C.prefixFree a b hpre
        · exact (C.prefixFree b a hpre).symm
      subst hab
      obtain ⟨rfl, hpq⟩ := ih (List.append_cancel_left h)
      exact ⟨rfl, hpq⟩

/-- Code words can be read off any bits, until none comes next. -/
theorem exists_stuck (C : PrefixCode α) (bs : List Bool) :
    ∃ s rest, bs = C.encode s ++ rest ∧ C.Stuck rest := by
  induction hlen : bs.length using Nat.strong_induction_on generalizing bs with
  | _ n ih =>
    by_cases hstuck : C.Stuck bs
    · exact ⟨[], bs, rfl, hstuck⟩
    · simp only [Stuck, not_forall, not_not] at hstuck
      obtain ⟨a, bs', rfl⟩ := hstuck
      -- the code word takes at least one bit
      have hlt : bs'.length < n := by
        have := List.length_pos_iff.mpr (C.code_ne_nil a)
        rw [List.length_append] at hlen
        omega
      obtain ⟨s, rest, hs, hrest⟩ := ih bs'.length hlt bs' rfl
      refine ⟨a :: s, rest, ?_, hrest⟩
      rw [encode_cons, List.append_assoc, ← hs]

/-- No proper prefix of a code word is itself one. -/
theorem Reads.eq_none_of_append (hr : C.Reads symbol) {a : α} {p q : List Bool}
    (hpq : p ++ q = C.code a) (hq : q ≠ []) : symbol p = none := by
  rw [Option.eq_none_iff_forall_not_mem]
  intro a' ha'
  have hcode : C.code a' = p := (hr p a').mp ha'
  have hab : a' = a := C.prefixFree a' a ⟨q, by rw [hcode, hpq]⟩
  rw [← hab, hcode] at hpq
  exact hq (List.append_right_eq_self.mp hpq)

/-- From a proper prefix of a code word, the greedy decoder reads to the end of that word. -/
theorem greedy_code_append (hr : C.Reads symbol) {a : α} (hlim : (C.code a).length < limit)
    (tail : List Bool) : ∀ (pend rest : List Bool), pend ++ rest = C.code a → rest ≠ [] →
      greedy symbol limit pend (rest ++ tail) = a :: greedy symbol limit [] tail
  | _, [], _, hne => absurd rfl hne
  | pend, [b], hcode, _ => by
    have hsym : symbol (pend ++ [b]) = some a := (hr _ a).mpr hcode.symm
    simp [greedy, hsym]
  | pend, b :: b' :: rest, hcode, _ => by
    have hcode' : (pend ++ [b]) ++ b' :: rest = C.code a := by simpa using hcode
    have hsym : symbol (pend ++ [b]) = none := hr.eq_none_of_append hcode' (by simp)
    have hlen : ¬ limit ≤ pend.length + 1 := by
      have := congrArg List.length hcode
      simp only [List.length_append, List.length_cons] at this
      omega
    rw [List.cons_append, greedy, hsym]
    simp only [hlen, if_false]
    exact greedy_code_append hr hlim tail (pend ++ [b]) (b' :: rest) hcode' (by simp)

/-- The greedy decoder reads an encoded word back. -/
theorem greedy_encode_append (hr : C.Reads symbol) (hlim : ∀ a, (C.code a).length < limit)
    (s : List α) (tail : List Bool) :
    greedy symbol limit [] (C.encode s ++ tail) = s ++ greedy symbol limit [] tail := by
  induction s with
  | nil => rfl
  | cons a s ih =>
    rw [encode_cons, List.append_assoc,
      greedy_code_append hr (hlim a) _ [] (C.code a) rfl (C.code_ne_nil a), ih, List.cons_append]

/-- Bits no prefix of which is a code word yield no symbol. -/
theorem greedy_eq_nil : ∀ (pend bits : List Bool), pend.length + bits.length < limit →
    (∀ p, p ≠ [] → p <+: bits → symbol (pend ++ p) = none) → greedy symbol limit pend bits = []
  | _, [], _, _ => rfl
  | pend, b :: bits, hlim, hnone => by
    have hlen : ¬ limit ≤ pend.length + 1 := by
      rw [List.length_cons] at hlim
      omega
    rw [greedy, hnone [b] (by simp) (by simp)]
    simp only [hlen, if_false]
    refine greedy_eq_nil (pend ++ [b]) bits ?_ fun p hp hpre => ?_
    · simp only [List.length_append, List.length_cons, List.length_nil] at hlim ⊢
      omega
    · rw [List.append_assoc]
      exact hnone ([b] ++ p) (by simp) (by simpa using hpre)

/-- If it takes `k` bits to find a symbol, every symbol is paid for by bits that are read: those
that are pending pay for the next one, whatever they are. -/
theorem mul_length_greedy_le {k : ℕ} (hk : ∀ p a, symbol p = some a → k ≤ p.length)
    (pend bits : List Bool) :
    k * (greedy symbol limit pend bits).length ≤ pend.length + bits.length := by
  fun_induction greedy symbol limit pend bits with
  | case1 pend => simp
  | case2 pend b bits a hsym ih =>
    have hle := hk _ a hsym
    simp only [List.length_append, List.length_cons, List.length_nil, Nat.mul_succ] at hle ih ⊢
    omega
  | case3 pend b bits hsym hlim ih =>
    simp only [List.length_cons, List.length_nil] at ih ⊢
    omega
  | case4 pend b bits hsym hlim ih =>
    simp only [List.length_append, List.length_cons, List.length_nil] at ih ⊢
    omega

/-- `out` are the symbols of `s` whose code words have been read with the bits `read`. -/
structure Finished (C : PrefixCode α) (s : List α) (read : List Bool) (out : List α) : Prop where
  /-- They come first in `s`. -/
  isPrefix : out <+: s
  /-- Their code words have been read. -/
  encode_isPrefix : C.encode out <+: read
  /-- They are all of these symbols. -/
  longest : ∀ t, t <+: s → C.encode t <+: read → t <+: out

/-- Bits that end inside the first code word finish no symbol. -/
theorem finished_nil {s : List α} {read : List Bool}
    (h : ∀ a t, s = a :: t → read.length < (C.code a).length) : C.Finished s read [] where
  isPrefix := List.nil_prefix
  encode_isPrefix := List.nil_prefix
  longest t ht hread := by
    cases t with
    | nil => exact List.prefix_rfl
    | cons a t =>
      obtain ⟨rest, rfl⟩ := ht
      have hlt := h a (t ++ rest) rfl
      have hle := hread.length_le
      rw [encode_cons, List.length_append] at hle
      omega

theorem Finished.cons {s out : List α} {read : List Bool} (h : C.Finished s read out) (a : α) :
    C.Finished (a :: s) (C.code a ++ read) (a :: out) where
  isPrefix := (List.cons_prefix_cons).mpr ⟨rfl, h.isPrefix⟩
  encode_isPrefix := by
    rw [encode_cons, List.prefix_append_right_inj]
    exact h.encode_isPrefix
  longest t ht hread := by
    cases t with
    | nil => exact List.nil_prefix
    | cons b t =>
      obtain ⟨rfl, ht'⟩ := List.cons_prefix_cons.mp ht
      rw [encode_cons, List.prefix_append_right_inj] at hread
      exact List.cons_prefix_cons.mpr ⟨rfl, h.longest t ht' hread⟩

/-- Wherever the greedy decoder is in an encoded word with bits behind it that match nothing, it
has put out the symbols whose code words it has read, and nothing else. -/
theorem finished_greedy (hr : C.Reads symbol) (hlim : ∀ a, (C.code a).length < limit)
    {pad : List Bool} (hpad : pad.length < limit)
    (hnone : ∀ p, p ≠ [] → p <+: pad → symbol p = none) (s : List α) {read : List Bool}
    (hread : read <+: C.encode s ++ pad) :
    C.Finished s read (greedy symbol limit [] read) := by
  induction s generalizing read with
  | nil =>
    rw [encode_nil, List.nil_append] at hread
    have hnil : greedy symbol limit [] read = [] := by
      refine greedy_eq_nil [] read ?_ fun p hp hpre => hnone p hp (hpre.trans hread)
      rw [List.length_nil, Nat.zero_add]
      exact hread.length_le.trans_lt hpad
    rw [hnil]
    exact finished_nil (by simp)
  | cons a s ih =>
    rw [encode_cons, List.append_assoc] at hread
    have hcode := List.prefix_append (C.code a) (C.encode s ++ pad)
    rcases lt_or_ge read.length (C.code a).length with hlt | hge
    · -- all that has been read is the beginning of one code word
      obtain ⟨rest, hrest⟩ := List.prefix_of_prefix_length_le hread hcode hlt.le
      have hne : rest ≠ [] := by
        rintro rfl
        rw [← hrest, List.append_nil] at hlt
        exact lt_irrefl _ hlt
      have hnil : greedy symbol limit [] read = [] := by
        refine greedy_eq_nil [] read ?_ fun p _ hpre => ?_
        · rw [List.length_nil, Nat.zero_add]
          exact hlt.trans (hlim a)
        · obtain ⟨q, rfl⟩ := hpre
          rw [List.append_assoc] at hrest
          exact hr.eq_none_of_append hrest (by simp [hne])
      rw [hnil]
      refine finished_nil ?_
      rintro b t ⟨⟩
      exact hlt
    · obtain ⟨read', rfl⟩ := List.prefix_of_prefix_length_le hcode hread hge
      rw [greedy_code_append hr (hlim a) read' [] (C.code a) rfl (C.code_ne_nil a)]
      exact (ih ((List.prefix_append_right_inj _).mp hread)).cons a

/-- From a proper prefix of a code word, the strict decoder reads to the end of that word. -/
theorem strict_code_append (hr : C.Reads symbol) {padding : List Bool → Bool} {a : α}
    (tail : List Bool) : ∀ (pend rest : List Bool), pend ++ rest = C.code a → rest ≠ [] →
      strict symbol padding pend (rest ++ tail) = (strict symbol padding [] tail).map (a :: ·)
  | _, [], _, hne => absurd rfl hne
  | pend, [b], hcode, _ => by
    have hsym : symbol (pend ++ [b]) = some a := (hr _ a).mpr hcode.symm
    simp [strict, hsym]
  | pend, b :: b' :: rest, hcode, _ => by
    have hcode' : (pend ++ [b]) ++ b' :: rest = C.code a := by simpa using hcode
    have hsym : symbol (pend ++ [b]) = none := hr.eq_none_of_append hcode' (by simp)
    rw [List.cons_append, strict, hsym]
    exact strict_code_append hr tail (pend ++ [b]) (b' :: rest) hcode' (by simp)

/-- Bits no prefix of which is a code word are accepted if they are a padding. -/
theorem strict_of_padding {padding : List Bool → Bool} : ∀ (pend bits : List Bool),
    (∀ p, p ≠ [] → p <+: bits → symbol (pend ++ p) = none) → padding (pend ++ bits) = true →
      strict symbol padding pend bits = some []
  | pend, [], _, hpad => by
    rw [List.append_nil] at hpad
    simp [strict, hpad]
  | pend, b :: bits, hnone, hpad => by
    rw [strict, hnone [b] (by simp) (by simp)]
    refine strict_of_padding (pend ++ [b]) bits (fun p hp hpre => ?_) (by simpa using hpad)
    rw [List.append_assoc]
    exact hnone ([b] ++ p) (by simp) (by simpa using hpre)

/-- The strict decoder reads an encoded word back, if a padding is behind it. -/
theorem strict_encode_append (hr : C.Reads symbol) {padding : List Bool → Bool} {pad : List Bool}
    (hnone : ∀ p, p ≠ [] → p <+: pad → symbol p = none) (hpad : padding pad = true) (s : List α) :
    strict symbol padding [] (C.encode s ++ pad) = some s := by
  induction s with
  | nil => exact strict_of_padding [] pad hnone hpad
  | cons a s ih =>
    rw [encode_cons, List.append_assoc,
      strict_code_append hr _ [] (C.code a) rfl (C.code_ne_nil a), ih]
    rfl

/-- What the strict decoder accepts after `pend` is an encoded word and a padding. -/
theorem exists_padding_of_strict (hr : C.Reads symbol) {padding : List Bool → Bool} :
    ∀ {pend bits : List Bool} {s : List α}, strict symbol padding pend bits = some s →
      ∃ pad, padding pad = true ∧ pend ++ bits = C.encode s ++ pad
  | pend, [], s, h => by
    simp only [strict, Option.ite_none_right_eq_some, Option.some.injEq] at h
    exact ⟨pend, h.1, by simp [← h.2]⟩
  | pend, b :: bits, s, h => by
    rw [strict] at h
    cases hsym : symbol (pend ++ [b]) with
    | none =>
      rw [hsym] at h
      obtain ⟨pad, hpad, heq⟩ := exists_padding_of_strict hr h
      exact ⟨pad, hpad, by simpa using heq⟩
    | some a =>
      rw [hsym] at h
      obtain ⟨s', hs', rfl⟩ := Option.map_eq_some_iff.mp h
      obtain ⟨pad, hpad, heq⟩ := exists_padding_of_strict hr hs'
      refine ⟨pad, hpad, ?_⟩
      rw [encode_cons, List.append_assoc, ← heq, (hr _ a).mp hsym]
      simp

end PrefixCode
