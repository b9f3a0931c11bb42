import Rite.Basic

/-!
# Header fields and the static table

`h2::hpack::STATIC_HEADER_TABLE` is a mutable global `std::unordered_map`; `operator[]` enters a
missing key. Its iteration order is unspecified, so whatever iterates over it takes the order as
an argument.
-/

namespace Rite

namespace Hpack

/-- `h2::hpack::header`. -/
structure Header where
  /-- The name. -/
  key : Octets
  /-- The value. -/
  value : Octets
  deriving DecidableEq

/-- The value-initialised header. -/
instance : Inhabited Header := ⟨⟨[], []⟩⟩

/-- `std::unordered_map<ssize_t, h2::hpack::header>`. Every key it is asked for is a `uint32_t`. -/
abbrev StaticTable := AList fun _ : ℕ => Header

namespace StaticTable

/-- `size()`. -/
def size (t : StaticTable) : ℕ := t.entries.length

/-- `operator[]`: a missing key is entered with a value-initialised header. -/
def subscript (t : StaticTable) (k : ℕ) : Header × StaticTable :=
  match t.lookup k with
  | some h => (h, t)
  | none => (default, t.insert k default)

/-- The entries, as the range-`for` of `search_index` sees them. -/
def items (t : StaticTable) : List (ℕ × Header) := t.entries.map fun e => (e.1, e.2)

theorem lookup_of_mem_items {t : StaticTable} {e : ℕ × Header} (he : e ∈ t.items) :
    t.lookup e.1 = some e.2 := by
  obtain ⟨s, hs, rfl⟩ := List.mem_map.mp he
  exact AList.mem_lookup_iff.mpr hs

theorem subscript_of_lookup {t : StaticTable} {k : ℕ} {h : Header} (hk : t.lookup k = some h) :
    t.subscript k = (h, t) := by
  rw [subscript, hk]

theorem subscript_of_notMem {t : StaticTable} {k : ℕ} (hk : k ∉ t) :
    t.subscript k = (default, t.insert k default) := by
  rw [subscript, AList.lookup_eq_none.mpr hk]

end StaticTable

private def row (k : ℕ) (key value : String) : (_ : ℕ) × Header := ⟨k, octets key, octets value⟩

/-- `h2::hpack::STATIC_HEADER_TABLE` as it is initialised. -/
def staticHeaderTable : StaticTable where
  entries := [
    row 1 ":authority" "",
    row 2 ":method" "GET",
    row 3 ":method" "POST",
    row 4 ":path" "/",
    row 5 ":path" "/index.html",
    row 6 ":scheme" "http",
    row 7 ":scheme" "https",
    row 8 ":status" "200",
    row 9 ":status" "204",
    row 10 ":status" "206",
    row 11 ":status" "304",
    row 12 ":status" "400",
    row 13 ":status" "404",
    row 14 ":status" "500",
    row 15 "accept-charset" "",
    row 16 "accept-encoding" "gzip, deflate",
    row 17 "accept-language" "",
    row 18 "accept-ranges" "",
    row 19 "accept" "",
    row 20 "access-control-allow-origin" "",
    row 21 "age" "",
    row 22 "allow" "",
    row 23 "authorization" "",
    row 24 "cache-control" "",
    row 25 "content-disposition" "",
    row 26 "content-encoding" "",
    row 27 "content-language" "",
    row 28 "content-length" "",
    row 29 "content-location" "",
    row 30 "content-range" "",
    row 31 "content-type" "",
    row 32 "cookie" "",
    row 33 "date" "",
    row 34 "etag" "",
    row 35 "expect" "",
    row 36 "expires" "",
    row 37 "from" "",
    row 38 "host" "",
    row 39 "if-match" "",
    row 40 "if-modified-since" "",
    row 41 "if-none-match" "",
    row 42 "if-range" "",
    row 43 "if-unmodified-since" "",
    row 44 "last-modified" "",
    row 45 "link" "",
    row 46 "location" "",
    row 47 "max-forwards" "",
    row 48 "proxy-authenticate" "",
    row 49 "proxy-authorization" "",
    row 50 "range" "",
    row 51 "referer" "",
    row 52 "refresh" "",
    row 53 "retry-after" "",
    row 54 "server" "",
    row 55 "set-cookie" "",
    row 56 "strict-transport-security" "",
    row 57 "transfer-encoding" "",
    row 58 "user-agent" "",
    row 59 "vary" "",
    row 60 "via" "",
    row 61 "www-authenticate" ""
  ]
  nodupKeys := by
    unfold List.NodupKeys
    decide

theorem size_staticHeaderTable : staticHeaderTable.size = 61 := rfl

/-- The keys are the numbers from 1 to 61. -/
theorem keys_staticHeaderTable : staticHeaderTable.keys = List.range' 1 61 := by decide

theorem mem_staticHeaderTable {k : ℕ} : k ∈ staticHeaderTable ↔ 1 ≤ k ∧ k ≤ 61 := by
  rw [AList.mem_keys, keys_staticHeaderTable, List.mem_range'_1]
  omega

theorem zero_notMem_staticHeaderTable : 0 ∉ staticHeaderTable := by
  rw [mem_staticHeaderTable]
  omega

/-- The name of the last entry stands at no other index. -/
theorem key_eq_iff_of_mem_items : ∀ e ∈ staticHeaderTable.items,
    1 ≤ e.1 ∧ e.1 ≤ 61 ∧ (e.2.key = octets "www-authenticate" ↔ e.1 = 61) := by
  decide

/-- An index of the table is a `uint32_t`. -/
theorem toNat_ofNat_of_mem_items {e : ℕ × Header} (he : e ∈ staticHeaderTable.items) :
    (UInt32.ofNat e.1).toNat = e.1 := by
  have := key_eq_iff_of_mem_items e he
  exact UInt32.toNat_ofNat_of_lt (by norm_num [UInt32.size]; omega)

/-- Every index from 1 to 61 has an entry. -/
theorem exists_lookup_staticHeaderTable {k : ℕ} (h1 : 1 ≤ k) (h61 : k ≤ 61) :
    ∃ h, staticHeaderTable.lookup k = some h :=
  Option.isSome_iff_exists.mp (AList.lookup_isSome.mpr (mem_staticHeaderTable.mpr ⟨h1, h61⟩))

end Hpack

end Rite
