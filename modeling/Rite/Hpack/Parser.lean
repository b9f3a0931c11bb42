import Rite.H2.Frame
import Rite.Hpack.Huffman
import Rite.Hpack.Integer
import Rite.Hpack.StaticTable

/-!
# The header block decoder (`parser<h2::hpack>`)

`parse` follows `src/protocols/h2/hpack.cpp`. A position in the payload is the list of octets from
there on; the static table is part of the state, since `header_by_index` can change it. The octet
behind the end of a payload has no specified value: `parse_string` tests its high bit before
`variable_integer::decode` throws, so nothing depends on it.
-/

namespace Rite

/-- The exceptions of the header block decoder. -/
def Fault.Decoding (e : Fault) : Prop :=
  e = .hpack .unknownHeader ∨ e = .hpack .invalid ∨
    e = .std (.invalidArgument "Data cannot be empty")

namespace Hpack

/-- `parser<h2::hpack>`, with the `STATIC_HEADER_TABLE` that every parser shares. -/
structure Parser where
  /-- `STATIC_HEADER_TABLE`. -/
  table : StaticTable := staticHeaderTable
  /-- `header_map_`, newest entry first. -/
  headerMap : List Header := []
  /-- `decoded_`. -/
  decoded : List Header := []

/-- A call that works on a parser; what it has changed before an exception stays changed. -/
abbrev ParserM := EStateM Fault Parser

/-- A call that leaves the parser alone. -/
def ofExcept {α : Type} : Except Fault α → ParserM α
  | .ok a => pure a
  | .error e => throw e

namespace Parser

/-- `decoded_.push_back`. -/
def push (h : Header) (p : Parser) : Parser := { p with decoded := p.decoded ++ [h] }

/-- `header_map_.push_front`. -/
def insert (h : Header) (p : Parser) : Parser := { p with headerMap := h :: p.headerMap }

/-- `header_map_.pop_back` until `size` entries are left. -/
def resize (size : UInt32) (p : Parser) : Parser :=
  { p with headerMap := p.headerMap.take size.toNat }

/-- `header_by_index`. The index is a `uint32_t`, so the two subtractions wrap. -/
def headerByIndex (index : UInt32) : ParserM Header := do
  let p ← get
  if index.toNat < p.table.size then
    let (header, table) := p.table.subscript index.toNat
    set { p with table }
    return header
  let index := index - UInt32.ofNat p.table.size - 1
  match p.headerMap[index.toNat]? with
  | some header => return header
  | none => throw (.hpack .unknownHeader)

/-- `parse_string`. -/
def parseString (pos : Octets) : Except Fault (Octets × Octets) := do
  let isHuffman := pos.headD 0 &&& 0x80 ≠ 0
  let (length, len) ← VariableInteger.decode 7 pos
  let pos := pos.drop len
  if pos.length < length.toNat then throw (.hpack .invalid)
  else
    let raw := pos.take length.toNat
    return (if isHuffman then decoder.decode raw else raw, pos.drop length.toNat)

/-- The name of a literal: an index into the tables, or a string when the index is `0`. -/
def parseName (index : UInt32) (pos : Octets) : ParserM (Octets × Octets) := do
  if index = 0 then ofExcept (parseString pos)
  else
    let header ← headerByIndex index
    return (header.key, pos)

/-- An iteration of the loop of `parse`, up to the label `next`. -/
def parseField (pos : Octets) : ParserM Octets := do
  let start := pos.headD 0
  -- indexed
  if start &&& 0x80 ≠ 0 then
    let (index, len) ← ofExcept (VariableInteger.decode 7 pos)
    let header ← headerByIndex index
    modify (push header)
    return pos.drop len
  -- literal, with indexing
  if start &&& 0x40 ≠ 0 then
    let (index, len) ← ofExcept (VariableInteger.decode 6 pos)
    let (key, pos) ← parseName index (pos.drop len)
    let (value, pos) ← ofExcept (parseString pos)
    modify (push ⟨key, value⟩)
    modify (insert ⟨key, value⟩)
    return pos
  -- dynamic table size update
  if start &&& 0x20 ≠ 0 then
    let (size, len) ← ofExcept (VariableInteger.decode 5 pos)
    modify (resize size)
    return pos.drop len
  -- literal, not indexed
  let (index, len) ← ofExcept (VariableInteger.decode 4 pos)
  let (key, pos) ← parseName index (pos.drop len)
  let (value, pos) ← ofExcept (parseString pos)
  modify (push ⟨key, value⟩)
  return pos

/-- The loop of `parse`, with a bound on its iterations. -/
def parseLoop : ℕ → Octets → ParserM Unit
  | _, [] => pure ()
  | 0, _ :: _ => throw (.hpack .invalid)
  | n + 1, pos => do
    let next ← parseField pos
    if next.length = pos.length then throw (.hpack .invalid)
    parseLoop n next

/-- The `try` block of `parse`; every iteration takes an octet, so their number bounds the loop. -/
def parseBlock (flags : UInt8) (payload : Octets) : ParserM Error := do
  parseLoop payload.length payload
  if flags &&& (Characteristics.Headers.endHeaders ||| Characteristics.Headers.endStream) ≠ 0 then
    return .done
  return .more

/-- `parse`. Only a `h2::hpack::error` is caught, and the payload is built outside the `try`. -/
def parse (f : Frame) : ParserM Error := do
  let headers ← ofExcept (HeadersPayload.ofFrame f)
  tryCatch (parseBlock f.flags headers.data) fun
    | .hpack e => return e
    | e => throw e

/-- `result`, together with the move that empties `decoded_`. -/
def result (p : Parser) : List Header × Parser := (p.decoded, { p with decoded := [] })

end Parser

end Hpack

end Rite
