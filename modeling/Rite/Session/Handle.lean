import Rite.Http.Istream
import Rite.ToMathlib.PosixPath

/-!
# Session handles (`rite::http::session_handle`)

A session handle is a map of values that is read from a file when the handle is constructed and
written to it when the handle is destroyed. The file has a line `key=value` for each entry, in the
order of the keys.

A value is a `std::any` with a function that serializes it. The code always sets the two together,
so that a value is an element of one of its types here, of `std::string` or of one of the types
`El i` that have a `pluggable`; which types these are is left open.

The disk says what is in the file at each path, and keeps the paths that have been used. Paths are
`std::filesystem::path`.
-/

namespace Rite

/-- `pluggable<T>`. -/
class Pluggable (T : Type) where
  /-- `serialize`. -/
  serialize : T → Octets
  /-- `deserialize`. -/
  deserialize : Octets → T

/-- `pluggable<std::string>`. -/
instance : Pluggable Octets where
  serialize data := data
  deserialize data := data

/-! ## The disk -/

/-- The file system. -/
structure Disk where
  /-- What is in the file at a path, if there is one. -/
  file : Octets → Option Octets
  /-- The paths that have been checked, opened or removed. -/
  used : List Octets := []

/-- A computation that uses the disk. -/
abbrev DiskM (α : Type) := StateM Disk α

/-- The result of a computation, and the disk behind it. -/
def DiskM.runOn {α : Type} (m : DiskM α) (d : Disk) : α × Disk := (m.run d).run

namespace Disk

/-- `fs::exists`. -/
def fsExists (path : Octets) : DiskM Bool :=
  modifyGet fun d => ((d.file path).isSome, { d with used := d.used ++ [path] })

/-- The characters of a `std::ifstream`. -/
def ifstream (path : Octets) : DiskM Octets :=
  modifyGet fun d => ((d.file path).getD [], { d with used := d.used ++ [path] })

/-- What is written to a `std::ofstream` becomes the file. -/
def ofstream (path content : Octets) : DiskM Unit :=
  modify fun d => { d with
    file := Function.update d.file path (some content)
    used := d.used ++ [path] }

/-- `fs::remove`. -/
def fsRemove (path : Octets) : DiskM Unit :=
  modify fun d => { d with file := Function.update d.file path none, used := d.used ++ [path] }

end Disk

section RunOn

variable {α β : Type} (d : Disk) (path content : Octets)

@[simp] theorem runOn_pure (a : α) : (pure a : DiskM α).runOn d = (a, d) := rfl

@[simp] theorem runOn_bind (m : DiskM α) (k : α → DiskM β) :
    (m >>= k).runOn d = (k (m.runOn d).1).runOn (m.runOn d).2 := rfl

@[simp] theorem runOn_map (f : α → β) (m : DiskM α) :
    (f <$> m).runOn d = (f (m.runOn d).1, (m.runOn d).2) := rfl

@[simp] theorem runOn_ite (p : Prop) [Decidable p] (m m' : DiskM α) :
    (if p then m else m').runOn d = if p then m.runOn d else m'.runOn d :=
  apply_ite (·.runOn d) p m m'

@[simp] theorem runOn_fsExists : (Disk.fsExists path).runOn d =
    ((d.file path).isSome, { d with used := d.used ++ [path] }) := rfl

@[simp] theorem runOn_ifstream : (Disk.ifstream path).runOn d =
    ((d.file path).getD [], { d with used := d.used ++ [path] }) := rfl

@[simp] theorem runOn_ofstream : (Disk.ofstream path content).runOn d =
    ((), ⟨Function.update d.file path (some content), d.used ++ [path]⟩) := rfl

@[simp] theorem runOn_fsRemove : (Disk.fsRemove path).runOn d =
    ((), ⟨Function.update d.file path none, d.used ++ [path]⟩) := rfl

end RunOn

/-! ## Handles -/

/-- `session_handle::value`. -/
inductive Value {ι : Type} (El : ι → Type)
  /-- A `std::string`, also if it is `untreated`. -/
  | string (s : Octets)
  /-- A value of another type. -/
  | other (i : ι) (v : El i)

section Handle

variable {ι : Type} {El : ι → Type}

/-- `value::serialize`. -/
def Value.serialize [∀ i, Pluggable (El i)] : Value El → Octets
  | .string s => Pluggable.serialize s
  | .other _ v => Pluggable.serialize v

/-- `session_handle::error`. -/
inductive SessionError
  | cast | notFound
  deriving DecidableEq

/-- `session_handle`. -/
structure SessionHandle {ι : Type} (El : ι → Type) where
  /-- `id_`. -/
  id : Octets
  /-- `values_`. -/
  values : Std.TreeMap Octets (Value El) := ∅

namespace SessionHandle

/-- `set`. -/
def set (h : SessionHandle El) (key : Octets) (v : Value El) : SessionHandle El :=
  { h with values := h.values.insert key v }

/-- `get<std::string>`. -/
def getString (h : SessionHandle El) (key : Octets) : Except SessionError Octets :=
  match h.values[key]? with
  | none => .error .notFound
  | some (.string s) => .ok s
  | some (.other _ _) => .error .cast

/-- The variables of the loop in the constructor. -/
structure Loading (El : ι → Type) where
  /-- `key`. -/
  key : Octets := []
  /-- `value`. -/
  value : Octets := []
  /-- `values_`. -/
  values : Std.TreeMap Octets (Value El) := ∅

/-- A line of the file. The variables keep what a call of `std::getline` that fails leaves them. -/
def Loading.line (l : Loading El) (line : Octets) : Loading El :=
  let (_, key, entry) := Istream.getline 0x3D l.key ⟨line, true⟩
  -- what `key` has left of the line, up to the next `=`
  let (_, value, _) := Istream.getline 0x3D l.value entry
  ⟨key, value, l.values.insert key (.string value)⟩

/-- The loop over the lines of the file. -/
def load (file : Octets) : Loading El := (Http.getlines 0x0A file).foldl Loading.line {}

/-- The constructor. -/
def construct (dir id : Octets) : DiskM (SessionHandle El) := do
  if ← Disk.fsExists (PosixPath.join dir id) then
    let file ← Disk.ifstream (PosixPath.join dir id)
    return { id, values := (load file).values }
  -- without a file the session has no values
  return { id }

/-- What `save` writes to the file. -/
def content [∀ i, Pluggable (El i)] (h : SessionHandle El) : Octets :=
  h.values.toList.flatMap fun e => e.1 ++ 0x3D :: (e.2.serialize ++ [0x0A])

/-- `save`, which is the destructor as well. -/
def save [∀ i, Pluggable (El i)] (dir : Octets) (h : SessionHandle El) : DiskM Unit := do
  let sessionFile := PosixPath.join dir h.id
  if h.values.isEmpty then
    -- a session without values has no file
    if ← Disk.fsExists sessionFile then Disk.fsRemove sessionFile
  else Disk.ofstream sessionFile h.content

end SessionHandle

end Handle

end Rite
