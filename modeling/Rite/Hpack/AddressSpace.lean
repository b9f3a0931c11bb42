import Rite.Hpack.Field
import Rite.Hpack.Rfc7541

/-!
# The index address space

The static table takes the indexes from 1 on, the dynamic table those behind it. `header_by_index`
compares an index with the *size* of the static table, as if its keys began with 0: the index 0 is
asked of a table that has no such key, and the last static index goes to the dynamic table.

## Main results

* `headerByIndex_zero`, `headerByIndex_lastStatic`: what happens at these two indexes;
* `addressed_iff`: every other index is answered as the specification has it.
-/

namespace Rite

namespace Hpack

namespace Parser

/-- `header_by_index` answers an index with the entry that the address space has there, or with
`eUnknownHeader` if there is none, and leaves the parser alone. -/
def Addressed (p : Parser) (index : UInt32) : Prop :=
  (headerByIndex index).run p =
    match (Rfc7541.Decoder.mk 0 p.headerMap).lookup index.toNat with
    | some header => .ok header p
    | none => .error (.hpack .unknownHeader) p

variable {p : Parser} {index : UInt32}

/-! ## Look-ups in the initial table -/

/-- The index 0 is entered in the static table, and answered with an empty header. -/
theorem headerByIndex_zero (hp : p.table = staticHeaderTable) :
    (headerByIndex 0).run p =
      .ok default { p with table := staticHeaderTable.insert 0 default } := by
  have hlt : (0 : UInt32).toNat < p.table.size := by
    rw [hp, size_staticHeaderTable]
    decide
  -- no key of the table is 0, so that the subscript enters one
  rw [headerByIndex_of_lt hlt, hp, UInt32.toNat_zero,
    StaticTable.subscript_of_notMem zero_notMem_staticHeaderTable]

/-- A static index before the last one is looked up in the static table. -/
theorem headerByIndex_static (hp : p.table = staticHeaderTable) {header : Header}
    (h61 : index.toNat < 61) (hlook : staticHeaderTable.lookup index.toNat = some header) :
    (headerByIndex index).run p = .ok header p := by
  rw [headerByIndex_of_lt (by rwa [hp, size_staticHeaderTable]), hp,
    StaticTable.subscript_of_lookup hlook, ← hp]

private theorem sub_toNat (h62 : 62 ≤ index.toNat) :
    (index - UInt32.ofNat 61 - 1).toNat = index.toNat - 62 := by
  have h61 : (UInt32.ofNat 61).toNat = 61 := rfl
  have h1 : (1 : UInt32).toNat = 1 := rfl
  -- 61 and then 1 can be taken from 62 or more
  have hfst : (index - UInt32.ofNat 61).toNat = index.toNat - 61 := by
    rw [UInt32.toNat_sub_of_le _ _ (by rw [UInt32.le_iff_toNat_le]; omega), h61]
  rw [UInt32.toNat_sub_of_le _ _ (by rw [UInt32.le_iff_toNat_le]; omega), hfst, h1]
  omega

/-- Behind the static indexes neither subtraction wraps. -/
theorem headerByIndex_dynamic (hp : p.table = staticHeaderTable) (h62 : 62 ≤ index.toNat) :
    (headerByIndex index).run p =
      match p.headerMap[index.toNat - 62]? with
      | some header => .ok header p
      | none => .error (.hpack .unknownHeader) p := by
  have hsize : p.table.size = 61 := by rw [hp, size_staticHeaderTable]
  have hrun := @headerByIndex_of_le index p (by omega)
  rw [hsize, sub_toNat h62] at hrun
  exact hrun

/-- The second subtraction wraps at the last static index, to an index that no table reaches. -/
theorem headerByIndex_lastStatic (hp : p.table = staticHeaderTable)
    (hlen : p.headerMap.length < 2 ^ 32) :
    (headerByIndex 61).run p = .error (.hpack .unknownHeader) p := by
  have hsize : p.table.size = 61 := by rw [hp, size_staticHeaderTable]
  -- `61 - 61 - 1` in 32 bits
  have hwrap : ((61 : UInt32) - UInt32.ofNat 61 - 1).toNat = 2 ^ 32 - 1 := by decide
  rw [headerByIndex_of_le (by rw [hsize]; decide), hsize, hwrap,
    List.getElem?_eq_none (by omega)]

/-! ## The address space -/

theorem not_addressed_zero (hp : p.table = staticHeaderTable) : ¬ p.Addressed 0 := by
  intro h
  rw [Addressed, headerByIndex_zero hp] at h
  cases h

theorem not_addressed_lastStatic (hp : p.table = staticHeaderTable)
    (hlen : p.headerMap.length < 2 ^ 32) : ¬ p.Addressed 61 := by
  intro h
  -- the address space has a static entry there, and not an error
  obtain ⟨header, hlook⟩ := exists_lookup_staticHeaderTable (k := 61) (by norm_num) le_rfl
  have hentry : (Rfc7541.Decoder.mk 0 p.headerMap).lookup (61 : UInt32).toNat = some header :=
    hlook
  rw [Addressed, headerByIndex_lastStatic hp hlen, hentry] at h
  cases h

/-- Every index is answered as the address space has it, but for 0 and the last static one. -/
theorem addressed_iff (headerMap decoded : List Header) (hlen : headerMap.length < 2 ^ 31)
    (index : UInt32) :
    (Parser.mk staticHeaderTable headerMap decoded).Addressed index ↔ index ≠ 0 ∧ index ≠ 61 := by
  generalize hp' : Parser.mk staticHeaderTable headerMap decoded = p
  have hp : p.table = staticHeaderTable := by rw [← hp']
  have hlen' : p.headerMap.length < 2 ^ 32 := by
    rw [← hp']
    exact hlen.trans (by norm_num)
  constructor
  · intro h
    constructor
    · rintro rfl
      exact not_addressed_zero hp h
    · rintro rfl
      exact not_addressed_lastStatic hp hlen' h
  · rintro ⟨h0, h61⟩
    have h0' : index.toNat ≠ 0 := fun h => h0 (UInt32.toNat_inj.mp h)
    have h61' : index.toNat ≠ 61 := fun h => h61 (UInt32.toNat_inj.mp h)
    -- what is left are the indexes 1 to 60, and those from 62 on
    unfold Addressed Rfc7541.Decoder.lookup
    rw [if_neg h0']
    split_ifs with hle
    · obtain ⟨header, hlook⟩ :=
        exists_lookup_staticHeaderTable (Nat.one_le_iff_ne_zero.mpr h0') hle
      rw [hlook, headerByIndex_static hp (by omega) hlook]
    · rw [headerByIndex_dynamic hp (by omega)]

/-- The newest entry of the dynamic table, at its own index. -/
theorem addressed_sample :
    (Parser.mk staticHeaderTable [⟨octets "x-id", octets "7"⟩] []).Addressed 62 :=
  (addressed_iff [⟨octets "x-id", octets "7"⟩] [] (by decide) 62).mpr ⟨by decide, by decide⟩

/-- In a new parser the index 0 has a header, and the last static index has none. -/
theorem not_addressed : ¬ (Parser.mk staticHeaderTable [] []).Addressed 0 ∧
    ¬ (Parser.mk staticHeaderTable [] []).Addressed 61 :=
  ⟨not_addressed_zero rfl, not_addressed_lastStatic rfl (by norm_num)⟩

end Parser

end Hpack

end Rite
