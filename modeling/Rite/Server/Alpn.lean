import Rite.Basic
import Rite.ToMathlib.LengthPrefix

/-!
# The choice of the application protocol (`alpn_select_cb`)

A client offers protocols as a list of names with their lengths in front. The callback goes through
the list for `h2`. `inlen` is an `unsigned int` that counts what is left of the list, and a length
is compared to it before the name is read.

## Main results

* `alpnLoop_spec`: where the loop ends, if `inlen` is what is left of the buffer;
* `alpnSelectCb_spec`: what the callback does for each buffer.
-/

namespace Rite

/-- The codes that `alpn_select_cb` returns. -/
inductive AlpnCode
  /-- `SSL_TLSEXT_ERR_OK`. -/
  | ok
  /-- `SSL_TLSEXT_ERR_NOACK`. -/
  | noack
  deriving DecidableEq

/-- What `alpn_select_cb` returns and writes. -/
structure AlpnReturn where
  /-- The code. -/
  code : AlpnCode
  /-- The position in the buffer that is written to `*out`. -/
  out : Option ℕ := none
  /-- What is written to `*outlen`. -/
  outlen : Option Octet := none

namespace Server

/-- `memcmp(buffer + pos, name, strlen(name)) == 0`, unless it reads behind the buffer. -/
def memcmp (buffer : Octets) (pos : ℕ) (name : Octets) : Option Bool :=
  if pos + name.length ≤ buffer.length then some ((buffer.drop pos).take name.length = name)
  else none

/-- `len == 2 && memcmp(in + 1, "h2", 2) == 0`. -/
def isH2 (buffer : Octets) (pos : ℕ) (len : Octet) : Option Bool :=
  if len = 2 then memcmp buffer (pos + 1) (octets "h2") else some false

section Inlen

variable {inlen : UInt32} {len : Octet}

/-- An octet is longer than what is left behind it. -/
theorem gt_inlen_sub_one_iff (h : inlen ≠ 0) :
    len.toUInt32 > inlen - 1 ↔ inlen.toNat < len.toNat + 1 := by
  have hpos : 1 ≤ inlen.toNat :=
    Nat.one_le_iff_ne_zero.mpr fun hzero => h (UInt32.toNat_inj.mp hzero)
  have hsub : (inlen - 1).toNat = inlen.toNat - 1 :=
    UInt32.toNat_sub_of_le inlen 1 (UInt32.le_iff_toNat_le.mpr hpos)
  rw [gt_iff_lt, UInt32.lt_iff_toNat_lt, hsub, UInt8.toNat_toUInt32]
  omega

theorem toNat_inlen_sub (hle : len.toNat + 1 ≤ inlen.toNat) :
    (inlen - (len.toUInt32 + 1)).toNat = inlen.toNat - (len.toNat + 1) := by
  have hlen : (len.toUInt32 + 1).toNat = len.toNat + 1 := by
    have hlt := len.toNat_lt
    rw [UInt32.toNat_add, UInt8.toNat_toUInt32]
    exact Nat.mod_eq_of_lt (show len.toNat + 1 < 2 ^ 32 by omega)
  rw [UInt32.toNat_sub_of_le _ _ (UInt32.le_iff_toNat_le.mpr (hlen ▸ hle)), hlen]

end Inlen

/-- The loop of `alpn_select_cb`, and what is done behind it. There is no result if an octet is read
that is not in the buffer. -/
def alpnLoop (buffer : Octets) (pos : ℕ) (inlen : UInt32) : Option AlpnReturn :=
  if _h : inlen = 0 then some { code := .noack }
  else
    match buffer[pos]? with
    | none => none
    | some len =>
      if _hlen : len.toUInt32 > inlen - 1 then some { code := .noack }
      else
        match isH2 buffer pos len with
        | none => none
        | some true => some { code := .ok, out := some (pos + 1), outlen := some len }
        | some false => alpnLoop buffer (pos + (len.toNat + 1)) (inlen - (len.toUInt32 + 1))
termination_by inlen.toNat
decreasing_by
  rw [gt_inlen_sub_one_iff _h] at _hlen
  rw [toNat_inlen_sub (by omega)]
  omega

/-- `alpn_select_cb`. -/
def alpnSelectCb (buffer : Octets) : Option AlpnReturn :=
  alpnLoop buffer 0 (UInt32.ofNat buffer.length)

/-- `h2`, as a name. -/
def h2 : LengthPrefix.Name := ⟨octets "h2", by decide⟩

/-- The list from a position on has been searched for `h2`. -/
structure AlpnSelection (buffer : Octets) (pos : ℕ) (r : AlpnReturn) : Prop where
  /-- It is found behind complete entries. -/
  ok_iff : r.code = .ok ↔ LengthPrefix.Lists h2 (buffer.drop pos)
  /-- The name is a part of the buffer. -/
  slice : r.code = .ok → ∃ out, r.out = some out ∧ r.outlen = some 2 ∧
    out + 2 ≤ buffer.length ∧ (buffer.drop out).take 2 = octets "h2"
  /-- Nothing is written otherwise. -/
  unwritten : r.code = .noack → r.out = none ∧ r.outlen = none

section Step

variable {buffer : Octets} {pos : ℕ} {inlen : UInt32} {len : Octet}

/-- If there is no such entry, the answer is that none has been found. -/
theorem AlpnSelection.noack (h : ¬ LengthPrefix.Lists h2 (buffer.drop pos)) :
    AlpnSelection buffer pos { code := .noack } :=
  ⟨⟨fun hok => (AlpnCode.noConfusion hok), fun hlists => absurd hlists h⟩,
    fun hok => AlpnCode.noConfusion hok, fun _ => ⟨rfl, rfl⟩⟩

/-- The entry at a position. -/
theorem lists_drop_iff (hread : buffer[pos]? = some len) :
    LengthPrefix.Lists h2 (buffer.drop pos) ↔
      pos + (len.toNat + 1) ≤ buffer.length ∧
        ((buffer.drop (pos + 1)).take len.toNat = octets "h2" ∨
          LengthPrefix.Lists h2 (buffer.drop (pos + (len.toNat + 1)))) := by
  obtain ⟨hlt, hlen⟩ := List.getElem?_eq_some_iff.mp hread
  have hle : len.toNat ≤ buffer.length - (pos + 1) ↔ pos + (len.toNat + 1) ≤ buffer.length := by
    omega
  rw [List.drop_eq_getElem_cons hlt, hlen, LengthPrefix.lists_cons_iff, List.length_drop, hle,
    List.drop_drop, Nat.add_assoc, Nat.add_comm 1]
  rfl

/-- An entry with another name is skipped. -/
theorem AlpnSelection.skip {r : AlpnReturn} (hread : buffer[pos]? = some len)
    (hle : pos + (len.toNat + 1) ≤ buffer.length)
    (hname : (buffer.drop (pos + 1)).take len.toNat ≠ octets "h2")
    (h : AlpnSelection buffer (pos + (len.toNat + 1)) r) : AlpnSelection buffer pos r := by
  refine ⟨?_, h.slice, h.unwritten⟩
  rw [h.ok_iff, lists_drop_iff hread]
  exact ⟨fun hrest => ⟨hle, .inr hrest⟩, fun hlists => hlists.2.resolve_left hname⟩

/-- The entry for `h2` is selected. -/
theorem AlpnSelection.found (hread : buffer[pos]? = some len)
    (hle : pos + (len.toNat + 1) ≤ buffer.length)
    (hname : (buffer.drop (pos + 1)).take len.toNat = octets "h2") :
    AlpnSelection buffer pos { code := .ok, out := some (pos + 1), outlen := some len } := by
  have hlength := congrArg List.length hname
  rw [List.length_take, List.length_drop, show (octets "h2").length = 2 by decide] at hlength
  obtain rfl : len = 2 := UInt8.toNat_inj.mp (show len.toNat = 2 by omega)
  exact ⟨⟨fun _ => (lists_drop_iff hread).mpr ⟨hle, .inl hname⟩, fun _ => rfl⟩,
    fun _ => ⟨pos + 1, rfl, rfl, hle, hname⟩, fun hnoack => AlpnCode.noConfusion hnoack⟩

/-- Within the buffer the comparison tells whether the name is `h2`. -/
theorem isH2_eq (hle : pos + (len.toNat + 1) ≤ buffer.length) :
    isH2 buffer pos len =
      some (decide ((buffer.drop (pos + 1)).take len.toNat = octets "h2")) := by
  have htwo : (octets "h2").length = 2 := by decide
  rw [isH2]
  split_ifs with hlen
  · have hlen' : len.toNat = 2 := congrArg UInt8.toNat hlen
    rw [memcmp, htwo, if_pos (by omega), hlen']
  · have hne : (buffer.drop (pos + 1)).take len.toNat ≠ octets "h2" := by
      intro heq
      have hlength := congrArg List.length heq
      rw [List.length_take, List.length_drop, htwo] at hlength
      exact hlen (UInt8.toNat_inj.mp (show len.toNat = 2 by omega))
    rw [decide_eq_false hne]

end Step

/-- As long as `inlen` is what is left of the buffer, the loop stays inside. -/
theorem alpnLoop_spec {buffer : Octets} {pos : ℕ} {inlen : UInt32}
    (h : pos + inlen.toNat = buffer.length) :
    ∃ r, alpnLoop buffer pos inlen = some r ∧ AlpnSelection buffer pos r := by
  fun_induction alpnLoop buffer pos inlen with
  | case1 pos =>
    refine ⟨_, rfl, .noack ?_⟩
    rw [List.drop_eq_nil_of_le (show buffer.length ≤ pos from h.symm.le)]
    exact LengthPrefix.not_lists_nil h2
  | case2 pos inlen hinlen hread =>
    -- there is an octet left
    have hpos : inlen.toNat ≠ 0 := fun hzero => hinlen (UInt32.toNat_inj.mp hzero)
    rw [List.getElem?_eq_none_iff] at hread
    omega
  | case3 pos inlen hinlen len hread hlen =>
    rw [gt_inlen_sub_one_iff hinlen] at hlen
    refine ⟨_, rfl, .noack ?_⟩
    rw [lists_drop_iff hread]
    omega
  | case4 pos inlen hinlen len hread hlen hname =>
    rw [gt_inlen_sub_one_iff hinlen] at hlen
    rw [isH2_eq (by omega)] at hname
    cases hname
  | case5 pos inlen hinlen len hread hlen hname =>
    rw [gt_inlen_sub_one_iff hinlen] at hlen
    rw [isH2_eq (by omega), Option.some_inj, decide_eq_true_eq] at hname
    exact ⟨_, rfl, .found hread (by omega) hname⟩
  | case6 pos inlen hinlen len hread hlen hname ih =>
    rw [gt_inlen_sub_one_iff hinlen] at hlen
    rw [isH2_eq (by omega), Option.some_inj, decide_eq_false_iff_not] at hname
    -- `inlen` is what is left behind the entry
    have hleft : (inlen - (len.toUInt32 + 1)).toNat = _ := toNat_inlen_sub (by omega)
    obtain ⟨r, hr, hselection⟩ := ih (by omega)
    exact ⟨r, hr, hselection.skip hread (by omega) hname⟩

/-- A buffer whose length is an `unsigned int`. -/
structure AlpnBuffer where
  /-- What is in it. -/
  octets : Octets
  /-- Its length is `inlen`. -/
  length_lt : octets.length < 2 ^ 32

/-- The callback ends without a read outside of the buffer, and it selects `h2` exactly if the
buffer has it behind complete entries. -/
theorem alpnSelectCb_spec (buffer : AlpnBuffer) :
    ∃ r, alpnSelectCb buffer.octets = some r ∧ AlpnSelection buffer.octets 0 r := by
  have hlength : (UInt32.ofNat buffer.octets.length).toNat = buffer.octets.length :=
    UInt32.toNat_ofNat_of_lt' buffer.length_lt
  exact alpnLoop_spec (by omega)

end Server

end Rite
