import Rite.Hpack.Conformance

/-!
# The letter case of names on the wire

HTTP/2 wants field names in lower case. `search_index` lowers a name to look for it, but what it
looked for is not what `serialize` writes: an index stands for the name of the static table, which
is in lower case, and a name that has no index is written as the header holds it.

## Main results

* `lowerCase_received_iff`: when the name that a decoder finds is in lower case;
* `lowerCase_iff`: the same for all names of a block.
-/

namespace Rite

namespace Hpack

/-- No octet of the name is an upper-case ASCII letter. -/
def LowerCase (name : Octets) : Prop := ∀ c ∈ name, ¬ (0x41 ≤ c ∧ c ≤ 0x5A)

instance (name : Octets) : Decidable (LowerCase name) :=
  inferInstanceAs (Decidable (∀ c ∈ name, ¬ (0x41 ≤ c ∧ c ≤ 0x5A)))

theorem lowerCase_toLower (s : Octets) : LowerCase (toLower s) := by
  have key : ∀ i : Fin 256,
      ¬ (0x41 ≤ tolower (UInt8.ofNat i) ∧ tolower (UInt8.ofNat i) ≤ 0x5A) := by
    decide +kernel
  -- `toLower` maps `tolower` over the octets
  intro c hc
  obtain ⟨a, -, rfl⟩ := List.mem_map.mp hc
  simpa using key ⟨a.toNat, a.toNat_lt⟩

/-- The headers that a decoder of the specification finds in the block of a list. It is to accept
the block, whatever its limit is and whatever it has read before. -/
def Lowers (order : List (ℕ × Header)) (list : List Header) : Prop :=
  ∀ (limit : ℕ) (d : Rfc7541.Decoder), ∃ hs d',
    d.decode limit (Serializer.serialize order list {}).payload = some (hs, d') ∧
      ∀ h ∈ hs, LowerCase h.key

/-- A name with an index arrives in lower case, any other name as it is. -/
theorem lowerCase_received_iff (h : Header) :
    LowerCase (Rfc7541.received h).key ↔ Rfc7541.Indexed h.key ∨ LowerCase h.key := by
  unfold Rfc7541.received
  split_ifs with hindexed
  · simp [hindexed, lowerCase_toLower]
  · simp [hindexed]

section Block

variable {order : List (ℕ × Header)} (horder : order.Perm staticHeaderTable.items)
  {list : List Header} (hfits : ∀ h ∈ list, h.Fits)

include horder hfits

/-- The headers that are found are the received ones, whatever the decoder is. -/
private theorem exists_decode (limit : ℕ) (d : Rfc7541.Decoder) :
    ∃ d', d.decode limit (Serializer.serialize order list {}).payload =
      some (list.map Rfc7541.received, d') := by
  have hpayload : (Serializer.serialize order list {}).payload =
      list.flatMap (Serializer.field order) :=
    (Serializer.serialize_payload order list {}).trans (List.nil_append _)
  rw [hpayload]
  exact Rfc7541.decode_serialize limit horder hfits d

/-- A name that is in lower case in the block has an index, or it was before. -/
theorem indexed_or_lowerCase_of_lowers (hlower : Lowers order list) {h : Header} (hmem : h ∈ list) :
    Rfc7541.Indexed h.key ∨ LowerCase h.key := by
  obtain ⟨hs, d', hread, hnames⟩ := hlower 0 (.initial 0)
  obtain ⟨d'', hread'⟩ := exists_decode horder hfits 0 (.initial 0)
  -- what any decoder finds are the received headers
  rw [hread', Option.some.injEq, Prod.mk.injEq] at hread
  rw [← lowerCase_received_iff]
  refine hnames _ ?_
  rw [← hread.1]
  exact List.mem_map_of_mem hmem

end Block

/-- The names of a block are in lower case if and only if all those that have no index were. -/
theorem lowerCase_iff {order : List (ℕ × Header)} (horder : order.Perm staticHeaderTable.items)
    {list : List Header} (hfits : ∀ h ∈ list, h.Fits) :
    Lowers order list ↔ ∀ h ∈ list, Rfc7541.Indexed h.key ∨ LowerCase h.key := by
  constructor
  · intro hlower h hmem
    exact indexed_or_lowerCase_of_lowers horder hfits hlower hmem
  · intro hlist limit d
    obtain ⟨d', hread⟩ := exists_decode horder hfits limit d
    refine ⟨_, d', hread, fun h' hmem' => ?_⟩
    obtain ⟨h, hmem, rfl⟩ := List.mem_map.mp hmem'
    exact (lowerCase_received_iff h).mpr (hlist h hmem)

/-- A name with capitals that has an index, and a new one without. -/
theorem lowerCase_sample : Lowers staticHeaderTable.items
    [⟨octets ":status", octets "200"⟩, ⟨octets "Content-Length", octets "5"⟩,
      ⟨octets "x-id", octets "7"⟩] := by
  refine (lowerCase_iff (List.Perm.refl _) fun h hh => ?_).mpr (by decide +kernel)
  have hlength : h.key.length < 2 ^ 30 ∧ h.value.length < 2 ^ 30 := by
    revert h
    decide
  exact Header.fits_of_length hlength.1 hlength.2

/-- The block of a response with `X-Powered-By` has a name with capitals. -/
theorem not_lowers : ¬ Lowers staticHeaderTable.items
    [⟨octets ":status", octets "200"⟩, ⟨octets "X-Powered-By", octets "rite"⟩] := by
  intro hlower
  have hfits : ∀ h ∈ ([⟨octets ":status", octets "200"⟩,
      ⟨octets "X-Powered-By", octets "rite"⟩] : List Header), h.Fits := by
    intro h hh
    have hlength : h.key.length < 2 ^ 30 ∧ h.value.length < 2 ^ 30 := by
      revert h
      decide
    exact Header.fits_of_length hlength.1 hlength.2
  rcases indexed_or_lowerCase_of_lowers (List.Perm.refl _) hfits hlower
    (List.mem_cons_of_mem _ List.mem_cons_self) with hindexed | hcase
  · -- the name is not in the static table
    exact absurd hindexed (by decide)
  · exact absurd hcase (by decide)

end Hpack

end Rite
