import Rite.Http.CookieForms
import Rite.Session.Directory
import Rite.Session.Reads
import Rite.ToMathlib.Transition

/-!
# The sessions of several clients

A client gets the identifier of its session with the first response, keeps it as its only cookie,
and sends it with its requests. For each request `session::on_request` constructs a handle, which
the handler uses, and which is destroyed, and saved, when the request is. This happens behind the
response, so that the next request of a client can come before it.

The server handles the requests of all clients at once, and takes its steps in any order. The
constructor of a handle is one step, and so are `save` and the destructor.

## Main results

* `Kept.step`: what the steps keep of the cookies, the handles and the files;
* `private_of_run`: a handle has what the earlier requests of its client have made of the session,
  and nothing from others, in every run in which a client waits for the end of a request before it
  makes the next one, new identifiers are new, and the format has room for what is saved.
-/

namespace Rite

namespace SessionStore

open Http (Token hasCookie)
open SessionConfig (characters newSessionId)
open SessionHandle (Call Loading converted load)

/-! ## Requests and handles -/

/-- A request that is being handled. -/
structure Handling {τ : Type} (El : τ → Type) where
  /-- The request. -/
  request : Request
  /-- Its context, which is the handle of the session. -/
  handle : SessionHandle El
  /-- `pre_send` has been called. -/
  answered : Bool := false

/-- The server and its clients `ι`. A request is known by its client and a number. -/
structure State (ι κ : Type) {τ : Type} (El : τ → Type) where
  /-- The disk of the server. -/
  disk : Disk
  /-- The cookie of a client. -/
  jar : ι → Option Octets
  /-- The requests that are being handled. -/
  handling : ι × κ → Option (Handling El)
  /-- The `Set-Cookie` of the responses that are on their way. -/
  answers : ι × κ → Option Octets

/-- What the server and the clients do. -/
inductive Action (ι κ : Type) {τ : Type} (El : τ → Type)
  /-- A request comes in, and `on_request` constructs a handle. The numbers are drawn if a new
  identifier is needed. -/
  | onRequest (r : ι × κ) (request : Request) (draw : Fin 16 → Fin characters.length)
  /-- The handler calls `set`, -/
  | set (r : ι × κ) (key : Octets) (v : Value El)
  /-- or `get`, -/
  | get (r : ι × κ) (call : Call El)
  /-- or `save`. -/
  | save (r : ι × κ)
  /-- `pre_send`, and the response is sent. -/
  | preSend (r : ι × κ)
  /-- A client receives a response that sets the cookie. -/
  | receive (r : ι × κ)
  /-- The request is destroyed, and the handle with it. -/
  | destroy (r : ι × κ)

/-- A cookie as it is written. -/
def pair (cookieName : Token) (id : Octets) : Octets := cookieName.text ++ 0x3D :: id

/-- The `Set-Cookie` that `pre_send` adds to the response. -/
def setCookie (cookieName : Token) {τ : Type} {El : τ → Type} (h : Handling El) : Option Octets :=
  if hasCookie h.request.cookies cookieName.text then none
  else some (pair cookieName h.handle.id)

/-- The value that a client takes from it. -/
def cookieValue (field : Octets) : Octets :=
  ((field.takeWhile (· ≠ 0x3B)).dropWhile (· ≠ 0x3D)).tail

variable {ι κ τ : Type} {El : τ → Type}

section Machine

variable [DecidableEq ι] [DecidableEq κ]

/-- The request is handled differently from now on. -/
def State.put (s : State ι κ El) (r : ι × κ) (h : Option (Handling El)) : State ι κ El :=
  { s with handling := Function.update s.handling r h }

@[simp] theorem State.handling_put_self (s : State ι κ El) (r : ι × κ)
    (h : Option (Handling El)) : (s.put r h).handling r = h :=
  Function.update_self ..

theorem State.handling_put_of_ne (s : State ι κ El) {r r' : ι × κ} (hne : r' ≠ r)
    (h : Option (Handling El)) : (s.put r h).handling r' = s.handling r' :=
  Function.update_of_ne hne ..

theorem State.mem_handling_put {s : State ι κ El} {r r' : ι × κ} {h : Option (Handling El)}
    {g : Handling El} : g ∈ (s.put r h).handling r' ↔
      r' = r ∧ g ∈ h ∨ r' ≠ r ∧ g ∈ s.handling r' := by
  by_cases hr : r' = r
  · subst hr
    simp
  · rw [s.handling_put_of_ne hr]
    simp [hr]

variable [DecidableEq τ] [∀ i, Pluggable (El i)]

/-- What a step does, if it is possible. -/
def step (dir : Octets) (cookieName : Token) (s : State ι κ El) :
    Action ι κ El → Option (State ι κ El)
  | .onRequest r request draw =>
    if (s.handling r).isNone ∧
        request.headers.lookup (octets "cookie") = (s.jar r.1).map (pair cookieName) then
      let (handle, disk) := (SessionHandle.construct dir
        (request.sessionId cookieName.text draw)).runOn s.disk
      some ({ s with disk }.put r (some { request, handle }))
    else none
  | .set r key v => (s.handling r).map fun h =>
    s.put r (some { h with handle := h.handle.set key v })
  | .get r call => (s.handling r).map fun h =>
    s.put r (some { h with handle := h.handle.perform call })
  | .save r => (s.handling r).map fun h =>
    { s with disk := ((h.handle.save dir).runOn s.disk).2 }
  | .preSend r => (s.handling r).bind fun h =>
    if h.answered then none
    else some { s.put r (some { h with answered := true }) with
      answers := (setCookie cookieName h).elim s.answers fun field =>
        Function.update s.answers r (some field) }
  | .receive r => (s.answers r).map fun field => { s with
    jar := Function.update s.jar r.1 (some (cookieValue field))
    answers := Function.update s.answers r none }
  | .destroy r => (s.handling r).map fun h =>
    { s with disk := ((h.handle.save dir).runOn s.disk).2 }.put r none

/-- The server before its first request. What is on the disk may be from earlier runs. -/
def State.fresh (disk : Disk) : State ι κ El := ⟨disk, fun _ => none, fun _ => none, fun _ => none⟩

/-! ## What a client has stored -/

/-- The values of a session. -/
abbrev Entries (El : τ → Type) : Type := Octets → Option (Value El)

/-- What a client makes of its session: `set` and `get` do what they do to the handle, and at the
end of a request the values become texts. -/
def own (i : ι) (m : Entries El) : Action ι κ El → Entries El
  | .set r key v => if r.1 = i then Function.update m key (some v) else m
  | .get r call =>
    if r.1 = i then fun key => (m key).map (converted (call.conversion key)) else m
  | .destroy r => if r.1 = i then fun key => (m key).map fun v => .string v.serialize else m
  | .onRequest _ _ _ | .save _ | .preSend _ | .receive _ => m

/-- A client has the identifier, or a handle has it, or it is on its way to a client. -/
def State.Known (cookieName : Token) (s : State ι κ El) (id : Octets) : Prop :=
  (∃ i, s.jar i = some id) ∨ (∃ r, ∃ h ∈ s.handling r, h.handle.id = id) ∨
    ∃ r, s.answers r = some (pair cookieName id)

/-- The format has room for what is in a handle. -/
def Saveable (h : SessionHandle El) : Prop :=
  ∀ e ∈ h.values.toList, Clean e.1 ∧ Clean e.2.serialize

instance (h : SessionHandle El) : Decidable (Saveable h) :=
  inferInstanceAs (Decidable (∀ e ∈ h.values.toList, _))

/-- A client makes a request when there is no other of its own. If it has no cookie, then none is on
the way to it, and the identifier that is drawn is unknown and has no file. At the end of a request
there has been a response, and the format has room for the values. -/
def Proper (dir : Octets) (cookieName : Token) (s : State ι κ El) : Action ι κ El → Prop
  | .onRequest r _ draw => (∀ n, (s.handling (r.1, n)).isNone) ∧
    (s.jar r.1 = none → (∀ n, s.answers (r.1, n) = none) ∧
      ¬ s.Known cookieName (newSessionId draw) ∧
      s.disk.file (PosixPath.join dir (newSessionId draw)) = none)
  | .destroy r => ∀ h ∈ s.handling r, h.answered = true ∧ Saveable h.handle
  | .set _ _ _ | .get _ _ | .save _ | .preSend _ | .receive _ => True

end Machine

/-! ## Cookies -/

section Cookies

variable {cookieName : Token} {request : Request} {draw : Fin 16 → Fin characters.length}

/-- What is in no character of identifiers is in no identifier. -/
theorem notMem_newSessionId {c : Octet} (hc : c ∉ characters)
    (draw : Fin 16 → Fin characters.length) : c ∉ newSessionId draw := by
  intro hmem
  obtain ⟨i, rfl⟩ := List.mem_ofFn.mp hmem
  exact hc (List.get_mem _ _)

/-- A client takes the identifier from `Set-Cookie`. -/
theorem cookieValue_pair (cookieName : Token) (draw : Fin 16 → Fin characters.length) :
    cookieValue (pair cookieName (newSessionId draw)) = newSessionId draw := by
  have hname : 0x3D ∉ cookieName.text := cookieName.notMem (by decide)
  have hsemicolon : 0x3B ∉ pair cookieName (newSessionId draw) := by
    simp [pair, cookieName.notMem (show Http.isTchar 0x3B = false by decide),
      notMem_newSessionId (show 0x3B ∉ characters by decide) draw]
  rw [cookieValue, Http.takeWhile_ne_eq_self hsemicolon, pair, Http.dropWhile_ne_append hname,
    List.tail_cons]

/-- The server finds the identifier that a client sends back. -/
theorem lookup_cookies (h : request.headers.lookup (octets "cookie") =
    some (pair cookieName (newSessionId draw))) :
    request.cookies.lookup cookieName.text = some (newSessionId draw) := by
  have hspace : ∀ c ∈ characters, Http.isspace c = false := by decide +kernel
  let cookie : Http.Cookie := {
    name := cookieName
    value := newSessionId draw
    semicolon := notMem_newSessionId (by decide) draw
    space := fun c hc hc' =>
      notMem_newSessionId (fun hmem => by simp [hspace c hmem] at hc') draw hc }
  have hfield : Http.cookieField [cookie] = pair cookieName (newSessionId draw) := by
    simp [Http.cookieField, Http.Cookie.pair, pair, cookie]
  have htaken : cookie.taken = newSessionId draw :=
    Http.taken_eq_iff.mpr (notMem_newSessionId (by decide) draw)
  rw [Http.cookies_field (h.trans (congrArg some hfield.symm)), List.map_nil,
    AList.insertMany_cons, AList.insertMany_nil, AList.lookup_insert, htaken]

/-- It does not find one in a request without cookies. -/
theorem cookies_eq_empty (h : request.headers.lookup (octets "cookie") = none) :
    request.cookies = ∅ := by
  rw [Request.cookies, h]

end Cookies

/-! ## What the steps keep -/

/-- The cookies, the handles and the files belong together, where `name` has the identifiers of the
clients, and `m` has what they have made of their sessions. -/
structure Kept (dir : Octets) (cookieName : Token) (name : ι → Option Octets) (m : ι → Entries El)
    (s : State ι κ El) : Prop where
  /-- An identifier has been drawn, -/
  drawn : ∀ i id, name i = some id → ∃ draw, id = newSessionId draw
  /-- and no two clients have the same. -/
  distinct : ∀ i j id, name i = some id → name j = some id → i = j
  /-- A cookie is the identifier of its client. -/
  jar : ∀ i id, s.jar i = some id → name i = some id
  /-- So is one that is on the way. -/
  answers : ∀ r field, s.answers r = some field →
    ∃ id, name r.1 = some id ∧ field = pair cookieName id
  /-- A client knows its identifier, or will be told. -/
  told : ∀ i id, name i = some id → s.jar i = some id ∨ (∃ n, (s.answers (i, n)).isSome) ∨
    ∃ n, ∃ h ∈ s.handling (i, n), h.answered = false
  /-- A client has one request at a time. -/
  single : ∀ i n n' {g h : Handling El}, g ∈ s.handling (i, n) → h ∈ s.handling (i, n') → n = n'
  /-- A handle is that of its client, and has what the client has made of the session. -/
  handling : ∀ r, ∀ h ∈ s.handling r,
    name r.1 = some h.handle.id ∧ ∀ key, h.handle.values[key]? = m r.1 key
  /-- A client is told if it has not sent a cookie. -/
  cookie : ∀ r, ∀ h ∈ s.handling r, setCookie cookieName h = none → (s.jar r.1).isSome
  /-- Without a handle the values are in the file. -/
  saved : ∀ i id, name i = some id → (∀ n, s.handling (i, n) = none) → ∀ key,
    (load ((s.disk.file (PosixPath.join dir id)).getD []) : Loading El).values[key]? = m i key
  /-- Nothing has been stored without an identifier. -/
  new : ∀ i, name i = none → ∀ key, m i key = none

section Step

variable {dir : Octets} {cookieName : Token} {name : ι → Option Octets} {m : ι → Entries El}
variable {s s' : State ι κ El} {r : ι × κ}

theorem kept_fresh (dir : Octets) (cookieName : Token) (disk : Disk) :
    Kept dir cookieName (fun _ => none) (fun _ _ => none) (.fresh disk : State ι κ El) where
  drawn _ _ h := by cases h
  distinct _ _ _ h := by cases h
  jar _ _ h := by cases h
  answers _ _ h := by cases h
  told _ _ h := by cases h
  single _ _ _ _ _ h := by cases h
  handling _ _ h := by cases h
  cookie _ _ h := by cases h
  saved _ _ h := by cases h
  new _ _ _ := rfl

namespace Kept

variable (hs : Kept dir cookieName name m s)
include hs

/-- The files of two clients are not the same. -/
theorem join_ne {i j : ι} {id id' : Octets} (hi : name i = some id) (hj : name j = some id')
    (hne : i ≠ j) : PosixPath.join dir id ≠ PosixPath.join dir id' := by
  obtain ⟨draw, rfl⟩ := hs.drawn i id hi
  obtain ⟨draw', rfl⟩ := hs.drawn j id' hj
  rw [Ne, PosixPath.join_inj (isFileName_newSessionId draw) (isFileName_newSessionId draw')]
  intro heq
  exact hne (hs.distinct i j _ hi (heq ▸ hj))

/-- The identifier that is known. -/
theorem known {i : ι} {id : Octets} (h : name i = some id) : s.Known cookieName id := by
  rcases hs.told i id h with hjar | ⟨n, hn⟩ | ⟨n, handle, hn, -⟩
  · exact .inl ⟨i, hjar⟩
  · obtain ⟨field, hfield⟩ := Option.isSome_iff_exists.mp hn
    obtain ⟨id', hid', rfl⟩ := hs.answers _ _ hfield
    obtain rfl := Option.some_inj.mp (h.symm.trans hid')
    exact .inr (.inr ⟨_, hfield⟩)
  · refine .inr (.inl ⟨_, handle, hn, ?_⟩)
    exact (Option.some_inj.mp (h.symm.trans (hs.handling _ _ hn).1)).symm

/-- The disk changes, but not in a file of a client without a request. -/
theorem of_disk (disk : Disk) (hdisk : ∀ i id, name i = some id →
      (∀ n, s.handling (i, n) = none) →
      disk.file (PosixPath.join dir id) = s.disk.file (PosixPath.join dir id)) :
    Kept dir cookieName name m { s with disk } :=
  { hs with
    saved := fun i id hid hnone key => by
      rw [hdisk i id hid hnone]
      exact hs.saved i id hid hnone key }

/-- Another request is that of another client. -/
theorem client_ne {r' : ι × κ} {h g : Handling El} (hr : h ∈ s.handling r) (hr' : g ∈ s.handling r')
    (hne : r' ≠ r) : r'.1 ≠ r.1 := by
  intro hclient
  refine hne (Prod.ext hclient (hs.single r.1 _ _ (g := g) (h := h) ?_ hr))
  rw [← hclient]
  exact hr'

/-- If a client has no other request than `r`, it has one at most whatever becomes of `r`. -/
theorem single_put [DecidableEq ι] [DecidableEq κ]
    (hother : ∀ n, ∀ g ∈ s.handling (r.1, n), n = r.2)
    {o : Option (Handling El)} {i : ι} {n n' : κ} {g g' : Handling El}
    (hg : g ∈ (s.put r o).handling (i, n)) (hg' : g' ∈ (s.put r o).handling (i, n')) : n = n' := by
  rw [State.mem_handling_put] at hg hg'
  rcases hg with ⟨rfl, -⟩ | ⟨-, hg⟩ <;> rcases hg' with ⟨heq, -⟩ | ⟨-, hg'⟩
  · exact (congrArg Prod.snd heq).symm
  · exact (hother n' g' hg').symm
  · subst heq
    exact hother n g hg
  · exact hs.single i n n' hg hg'

/-- The identifier that the server takes is that of the client, or a new one if it has none. -/
theorem sessionId_cases {request : Request} (draw : Fin 16 → Fin characters.length)
    (hheader : request.headers.lookup (octets "cookie") = (s.jar r.1).map (pair cookieName)) :
    s.jar r.1 = some (request.sessionId cookieName.text draw) ∨
      s.jar r.1 = none ∧ request.cookies = ∅ ∧
        request.sessionId cookieName.text draw = newSessionId draw := by
  cases hjar : s.jar r.1 with
  | none =>
    rw [hjar, Option.map_none] at hheader
    have hempty := cookies_eq_empty hheader
    exact .inr ⟨rfl, hempty, by rw [Request.sessionId, hempty]; rfl⟩
  | some id =>
    obtain ⟨draw', rfl⟩ := hs.drawn r.1 id (hs.jar r.1 id hjar)
    rw [hjar, Option.map_some] at hheader
    exact .inl (by rw [Request.sessionId, lookup_cookies hheader]; rfl)

/-- A client that has not been told has no identifier, when it has no request. -/
theorem name_eq_none {i : ι} (hjar : s.jar i = none) (hanswers : ∀ n, s.answers (i, n) = none)
    (hnone : ∀ n, s.handling (i, n) = none) : name i = none := by
  by_contra hname
  obtain ⟨id, hid⟩ := Option.ne_none_iff_exists'.mp hname
  rcases hs.told i id hid with h | ⟨n, hn⟩ | ⟨n, h, hn, -⟩
  · simp [hjar] at h
  · simp [hanswers n] at hn
  · simp [hnone n] at hn

/-- What is saved does not matter to other clients. -/
theorem file_save_of_ne [∀ i, Pluggable (El i)] {h : Handling El}
    (hr : s.handling r = some h) {i : ι} {id : Octets}
    (hi : name i = some id) (hne : i ≠ r.1) :
    ((h.handle.save dir).runOn s.disk).2.file (PosixPath.join dir id) =
      s.disk.file (PosixPath.join dir id) := by
  rw [SessionHandle.file_save_eq,
    Function.update_of_ne (hs.join_ne hi (hs.handling r h hr).1 hne)]

variable [DecidableEq ι] [DecidableEq κ]

/-- Something is done to a handle, and the client does the same to its session. If this was the
response, the client has been told. -/
theorem put {h : Handling El} (hr : s.handling r = some h) (h' : Handling El)
    (hid : h'.handle.id = h.handle.id) (hrequest : h'.request = h.request)
    (hanswered : h'.answered = h.answered ∨ (s.jar r.1).isSome ∨ ∃ n, (s.answers (r.1, n)).isSome)
    {m' : ι → Entries El} (hother : ∀ i, i ≠ r.1 → m' i = m i)
    (hvalues : ∀ key, h'.handle.values[key]? = m' r.1 key) :
    Kept dir cookieName name m' (s.put r (some h')) := by
  have hcookie : setCookie cookieName h' = setCookie cookieName h := by
    simp only [setCookie, hid, hrequest]
  have hname := (hs.handling r h hr).1
  have hne : ∀ i : ι, (∀ n, (s.put r (some h')).handling (i, n) = none) → i ≠ r.1 := by
    rintro i hnone rfl
    cases (s.handling_put_self r _).symm.trans (hnone r.2)
  refine { hs with
    told := ?_
    single := fun i n n' g g' => hs.single_put fun n g hg => hs.single r.1 n r.2 hg hr
    handling := ?_
    cookie := ?_
    saved := ?_
    new := ?_ }
  · intro i id hi
    rcases hs.told i id hi with hjar | hsent | ⟨n, g, hg, hunanswered⟩
    · exact .inl hjar
    · exact .inr (.inl hsent)
    · by_cases hn : (i, n) = r
      · -- the client is told by this request, unless that has been answered
        subst hn
        obtain rfl := Option.some_inj.mp (hr.symm.trans hg)
        rcases hanswered with hsame | hjar | hsent
        · refine .inr (.inr ⟨n, h', ?_, hsame.trans hunanswered⟩)
          exact State.mem_handling_put.mpr (.inl ⟨rfl, rfl⟩)
        · obtain ⟨id', hid'⟩ := Option.isSome_iff_exists.mp hjar
          exact .inl (hid'.trans ((hs.jar _ _ hid').symm.trans hi))
        · exact .inr (.inl hsent)
      · exact .inr (.inr ⟨n, g, State.mem_handling_put.mpr (.inr ⟨hn, hg⟩), hunanswered⟩)
  · intro r' g hg
    rw [State.mem_handling_put] at hg
    rcases hg with ⟨rfl, hg⟩ | ⟨hne, hg⟩
    · obtain rfl := Option.some_inj.mp hg
      exact ⟨hid ▸ hname, hvalues⟩
    · rw [hother r'.1 (hs.client_ne hr hg hne)]
      exact hs.handling r' g hg
  · intro r' g hg
    rw [State.mem_handling_put] at hg
    rcases hg with ⟨rfl, hg⟩ | ⟨-, hg⟩
    · obtain rfl := Option.some_inj.mp hg
      exact fun hnone => hs.cookie r' h hr (hcookie ▸ hnone)
    · exact hs.cookie r' g hg
  · intro i id hi hnone
    rw [hother i (hne i hnone)]
    refine hs.saved i id hi fun n => ?_
    have hn : (i, n) ≠ r := fun heq => hne i hnone (congrArg Prod.fst heq)
    exact (s.handling_put_of_ne hn _).symm.trans (hnone n)
  · intro i hi
    rw [hother i fun heq => by simp [heq, hname] at hi]
    exact hs.new i hi

/-- A request comes in from a client that has no other. Its session has the identifier `id`, which
is new if the client has had none. -/
theorem onRequest {request : Request} {id : Octets} (hnone : ∀ n, s.handling (r.1, n) = none)
    (hdrawn : ∃ draw, id = newSessionId draw)
    (hid : s.jar r.1 = some id ∨ name r.1 = none ∧ (∀ j, name j ≠ some id) ∧
      s.disk.file (PosixPath.join dir id) = none)
    (hcookie : hasCookie request.cookies cookieName.text → (s.jar r.1).isSome)
    {handle : SessionHandle El}
    (hhandle : handle =
      ⟨id, (load ((s.disk.file (PosixPath.join dir id)).getD [])).values⟩) :
    Kept dir cookieName (Function.update name r.1 (some id)) m
      (s.put r (some { request, handle })) := by
  set name' := Function.update name r.1 (some id) with hname'
  have hself : name' r.1 = some id := Function.update_self ..
  -- a name is the one of this client, or has been there before
  have hcases : ∀ i id', name' i = some id' →
      i = r.1 ∧ id' = id ∨ i ≠ r.1 ∧ name i = some id' := by
    intro i id' hi
    by_cases hr : i = r.1
    · subst hr
      exact .inl ⟨rfl, Option.some_inj.mp (hi.symm.trans hself)⟩
    · exact .inr ⟨hr, by rwa [hname', Function.update_of_ne hr] at hi⟩
  have hkeep : ∀ i id', name i = some id' → name' i = some id' := by
    intro i id' hi
    by_cases hr : i = r.1
    · subst hr
      rcases hid with hjar | ⟨hnew, -⟩
      · rw [hself, ← hi, hs.jar _ _ hjar]
      · simp [hnew] at hi
    · rwa [hname', Function.update_of_ne hr]
  have hother : ∀ j, j ≠ r.1 → name j ≠ some id := by
    intro j hj hname
    rcases hid with hjar | ⟨-, hfresh, -⟩
    · exact hj (hs.distinct j r.1 id hname (hs.jar _ _ hjar))
    · exact hfresh j hname
  have hvalues : ∀ key, handle.values[key]? = m r.1 key := by
    intro key
    rw [hhandle]
    rcases hid with hjar | ⟨hnew, -, hfile⟩
    · exact hs.saved r.1 id (hs.jar _ _ hjar) hnone key
    · rw [hs.new r.1 hnew key]
      -- there is no file yet
      simp [hfile, load, Http.getlines]
  refine {
    drawn := ?_
    distinct := ?_
    jar := fun i id' hi => hkeep i id' (hs.jar i id' hi)
    answers := ?_
    told := ?_
    single := fun i n n' g g' => hs.single_put fun n g hg => by simp [hnone n] at hg
    handling := ?_
    cookie := ?_
    saved := ?_
    new := ?_ }
  · intro i id' hi
    rcases hcases i id' hi with ⟨-, rfl⟩ | ⟨-, hi⟩
    · exact hdrawn
    · exact hs.drawn i id' hi
  · intro i j id' hi hj
    rcases hcases i id' hi with ⟨rfl, rfl⟩ | ⟨hir, hi⟩ <;>
      rcases hcases j id' hj with ⟨rfl, heq⟩ | ⟨hjr, hj⟩
    · rfl
    · exact absurd hj (hother j hjr)
    · exact absurd (heq ▸ hi) (hother i hir)
    · exact hs.distinct i j id' hi hj
  · intro r' field hfield
    obtain ⟨id', hid', heq⟩ := hs.answers r' field hfield
    exact ⟨id', hkeep _ _ hid', heq⟩
  · -- the client is told when the request is answered
    intro i id' hi
    rcases hcases i id' hi with ⟨rfl, -⟩ | ⟨hr, hi⟩
    · exact .inr (.inr ⟨r.2, _, State.mem_handling_put.mpr (.inl ⟨rfl, rfl⟩), rfl⟩)
    · refine (hs.told i id' hi).imp_right (Or.imp_right ?_)
      rintro ⟨n, g, hg, hunanswered⟩
      refine ⟨n, g, State.mem_handling_put.mpr (.inr ⟨?_, hg⟩), hunanswered⟩
      exact fun heq => hr (congrArg Prod.fst heq)
  · intro r' g hg
    rw [State.mem_handling_put] at hg
    rcases hg with ⟨rfl, hg⟩ | ⟨-, hg⟩
    · obtain rfl := Option.some_inj.mp hg
      exact ⟨hself.trans (by rw [hhandle]), hvalues⟩
    · obtain ⟨hname, hg⟩ := hs.handling r' g hg
      exact ⟨hkeep _ _ hname, hg⟩
  · -- without a cookie the response sets one
    intro r' g hg hset
    rw [State.mem_handling_put] at hg
    rcases hg with ⟨rfl, hg⟩ | ⟨-, hg⟩
    · obtain rfl := Option.some_inj.mp hg
      by_contra hjar
      simp [setCookie, mt hcookie hjar] at hset
    · exact hs.cookie r' g hg hset
  · intro i id' hi hfree
    rcases hcases i id' hi with ⟨rfl, -⟩ | ⟨hr, hi⟩
    · cases (s.handling_put_self r _).symm.trans (hfree r.2)
    · refine hs.saved i id' hi fun n => ?_
      exact (s.handling_put_of_ne (fun heq => hr (congrArg Prod.fst heq)) _).symm.trans (hfree n)
  · intro i hi
    have hr : i ≠ r.1 := by
      rintro rfl
      cases hself.symm.trans hi
    rw [hname', Function.update_of_ne hr] at hi
    exact hs.new i hi

/-- The identifier is sent to its client. -/
theorem answer {id : Octets} (hid : name r.1 = some id) :
    Kept dir cookieName name m { s with
      answers := Function.update s.answers r (some (pair cookieName id)) } := by
  refine { hs with answers := ?_, told := ?_ }
  · intro r' field (hfield : Function.update s.answers r _ r' = some field)
    by_cases hr : r' = r
    · subst hr
      rw [Function.update_self, Option.some_inj] at hfield
      exact ⟨id, hid, hfield.symm⟩
    · rw [Function.update_of_ne hr] at hfield
      exact hs.answers r' field hfield
  · intro i id' hi
    refine (hs.told i id' hi).imp_right (Or.imp_left ?_)
    rintro ⟨n, hn⟩
    refine ⟨n, ?_⟩
    show (Function.update s.answers r _ (i, n)).isSome
    by_cases hr : (i, n) = r
    · rw [hr, Function.update_self]
      rfl
    · rwa [Function.update_of_ne hr]

/-- The response is sent. -/
theorem preSend {h : Handling El} (hr : s.handling r = some h) :
    Kept dir cookieName name m { s.put r (some { h with answered := true }) with
      answers := (setCookie cookieName h).elim s.answers fun field =>
        Function.update s.answers r (some field) } := by
  obtain ⟨hname, hvalues⟩ := hs.handling r h hr
  cases hset : setCookie cookieName h with
  | none =>
    -- the client has its cookie
    exact hs.put hr { h with answered := true } rfl rfl (.inr (.inl (hs.cookie r h hr hset)))
      (fun _ _ => rfl) hvalues
  | some field =>
    obtain rfl : field = pair cookieName h.handle.id := by
      rw [setCookie] at hset
      split_ifs at hset
      exact (Option.some_inj.mp hset).symm
    have hsent : (Function.update s.answers r (some (pair cookieName h.handle.id)) r).isSome := by
      rw [Function.update_self]
      rfl
    exact (hs.answer hname).put hr { h with answered := true } rfl rfl (.inr (.inr ⟨r.2, hsent⟩))
      (fun _ _ => rfl) hvalues

/-- The client receives it. -/
theorem receive {field : Octets} (hr : s.answers r = some field) :
    Kept dir cookieName name m { s with
      jar := Function.update s.jar r.1 (some (cookieValue field))
      answers := Function.update s.answers r none } := by
  obtain ⟨id, hid, rfl⟩ := hs.answers r field hr
  obtain ⟨draw, rfl⟩ := hs.drawn _ _ hid
  rw [cookieValue_pair]
  refine { hs with jar := ?_, answers := ?_, told := ?_, cookie := ?_ }
  · intro i id (hi : Function.update s.jar r.1 _ i = some id)
    by_cases hir : i = r.1
    · subst hir
      rw [Function.update_self] at hi
      exact hid.trans hi
    · rw [Function.update_of_ne hir] at hi
      exact hs.jar i id hi
  · intro r' field (hfield : Function.update s.answers r none r' = some field)
    by_cases hrr : r' = r
    · subst hrr
      rw [Function.update_self] at hfield
      cases hfield
    · rw [Function.update_of_ne hrr] at hfield
      exact hs.answers r' field hfield
  · intro i id hi
    show Function.update s.jar r.1 _ i = _ ∨
      (∃ n, (Function.update s.answers r none (i, n)).isSome) ∨ _
    by_cases hir : i = r.1
    · subst hir
      exact .inl (by rw [Function.update_self, ← hid, hi])
    · rw [Function.update_of_ne hir]
      refine (hs.told i id hi).imp_right (Or.imp_left ?_)
      rintro ⟨n, hn⟩
      exact ⟨n, by rwa [Function.update_of_ne fun heq => hir (congrArg Prod.fst heq)]⟩
  · intro r' g hg hset
    show (Function.update s.jar r.1 _ r'.1).isSome
    by_cases hrr : r'.1 = r.1
    · rw [hrr, Function.update_self]
      rfl
    · rw [Function.update_of_ne hrr]
      exact hs.cookie r' g hg hset

variable [∀ i, Pluggable (El i)]

/-- The request is destroyed, and what is in the handle becomes text. -/
theorem destroy {h : Handling El} (hr : s.handling r = some h) (hanswered : h.answered = true)
    (hsave : Saveable h.handle) {m' : ι → Entries El} (hother : ∀ i, i ≠ r.1 → m' i = m i)
    (hvalues : ∀ key, m' r.1 key = (m r.1 key).map fun v => .string v.serialize) :
    Kept dir cookieName name m'
      ({ s with disk := ((h.handle.save dir).runOn s.disk).2 }.put r none) := by
  obtain ⟨hname, hhandle⟩ := hs.handling r h hr
  refine { hs with
    told := ?_
    single := fun i n n' g g' => hs.single_put fun n g hg => hs.single r.1 n r.2 hg hr
    handling := ?_
    cookie := ?_
    saved := ?_
    new := ?_ }
  · intro i id hi
    refine (hs.told i id hi).imp_right (Or.imp_right ?_)
    rintro ⟨n, g, hg, hunanswered⟩
    refine ⟨n, g, State.mem_handling_put.mpr (.inr ⟨?_, hg⟩), hunanswered⟩
    rintro rfl
    obtain rfl := Option.some_inj.mp (hr.symm.trans hg)
    simp [hanswered] at hunanswered
  · intro r' g hg
    rw [State.mem_handling_put] at hg
    rcases hg with ⟨-, hg⟩ | ⟨hne, hg⟩
    · cases hg
    · rw [hother r'.1 (hs.client_ne hr hg hne)]
      exact hs.handling r' g hg
  · intro r' g hg
    rw [State.mem_handling_put] at hg
    rcases hg with ⟨-, hg⟩ | ⟨-, hg⟩
    · cases hg
    · exact hs.cookie r' g hg
  · intro i id hi hfree key
    by_cases hir : i = r.1
    · subst hir
      obtain rfl := Option.some_inj.mp (hname.symm.trans hi)
      -- what is in the file is the content
      have hclean : ∀ key v, h.handle.values[key]? = some v → Clean key ∧ Clean v.serialize :=
        fun key v hv => hsave (key, v) (Std.TreeMap.mem_toList_iff_getElem?_eq_some.mpr hv)
      rw [hvalues, ← hhandle key, ← SessionHandle.load_content hclean key,
        ← SessionHandle.file_save dir h.handle s.disk]
      rfl
    · rw [hother i hir, ← hs.saved i id hi (fun n => ?_) key]
      · exact congrArg (fun file => (load (file.getD []) : Loading El).values[key]?)
          (hs.file_save_of_ne hr hi hir)
      · exact (State.handling_put_of_ne _ (fun heq => hir (congrArg Prod.fst heq)) _).symm.trans
          (hfree n)
  · intro i hi
    rw [hother i fun heq => by simp [heq, hname] at hi]
    exact hs.new i hi

end Kept

/-- The constructor leaves the files as they are. -/
theorem file_construct (dir id : Octets) (d : Disk) :
    ((SessionHandle.construct dir id : DiskM (SessionHandle El)).runOn d).2.file = d.file := by
  cases hfile : d.file (PosixPath.join dir id) <;> simp [SessionHandle.construct, hfile]

variable [DecidableEq ι] [DecidableEq κ] [DecidableEq τ] [∀ i, Pluggable (El i)]

/-- Each step keeps them together: what a client does to its handle it does to its session. -/
theorem Kept.step {a : Action ι κ El} (hs : Kept dir cookieName name m s)
    (hstep : SessionStore.step dir cookieName s a = some s') (hproper : Proper dir cookieName s a) :
    ∃ name', Kept dir cookieName name' (fun i => own i (m i) a) s' := by
  cases a with
  | onRequest r request draw =>
    obtain ⟨hnone, hnew⟩ := hproper
    simp only [Option.isNone_iff_eq_none] at hnone
    simp only [SessionStore.step, Option.ite_none_right_eq_some, Option.some_inj] at hstep
    obtain ⟨⟨-, hheader⟩, rfl⟩ := hstep
    have hcases := hs.sessionId_cases draw hheader
    generalize request.sessionId cookieName.text draw = id at hcases
    set run := (SessionHandle.construct dir id : DiskM (SessionHandle El)).runOn s.disk
    have hfile : run.2.file = s.disk.file := file_construct dir id s.disk
    have hhandle : run.1 =
        ⟨id, (load ((run.2.file (PosixPath.join dir id)).getD [])).values⟩ := by
      rw [hfile]
      exact SessionHandle.construct_fst dir id s.disk
    have hdisk := hs.of_disk run.2 fun i id' _ _ => congrFun hfile _
    rcases hcases with hjar | ⟨hjar, hempty, rfl⟩
    · refine ⟨_, hdisk.onRequest hnone (hs.drawn _ _ (hs.jar _ _ hjar)) (.inl hjar) ?_ hhandle⟩
      simp [hjar]
    · -- the identifier is new
      obtain ⟨hanswers, hfresh, habsent⟩ := hnew hjar
      refine ⟨_, hdisk.onRequest hnone ⟨draw, rfl⟩ (.inr ⟨hs.name_eq_none hjar hanswers hnone,
        fun j hj => hfresh (hs.known hj), (congrFun hfile _).trans habsent⟩) ?_ hhandle⟩
      simp [hempty, hasCookie]
  | set r key v =>
    obtain ⟨h, hr, rfl⟩ := Option.map_eq_some_iff.mp hstep
    obtain ⟨-, hvalues⟩ := hs.handling r h hr
    refine ⟨name, hs.put hr { h with handle := h.handle.set key v } rfl rfl (.inl rfl)
      (fun i hi => if_neg (Ne.symm hi)) fun k => ?_⟩
    rw [own, if_pos rfl, SessionHandle.set, Std.TreeMap.getElem?_insert]
    by_cases hk : k = key
    · subst hk
      rw [if_pos Std.ReflCmp.compare_self, Function.update_self]
    · rw [if_neg fun heq => hk (Std.LawfulEqCmp.eq_of_compare heq).symm, Function.update_of_ne hk,
        hvalues]
  | get r call =>
    obtain ⟨h, hr, rfl⟩ := Option.map_eq_some_iff.mp hstep
    obtain ⟨-, hvalues⟩ := hs.handling r h hr
    refine ⟨name, hs.put hr { h with handle := h.handle.perform call } ?_ rfl (.inl rfl)
      (fun i hi => if_neg (Ne.symm hi)) fun k => ?_⟩
    · exact SessionHandle.id_performAll h.handle [call]
    · rw [own, if_pos rfl, ← hvalues]
      exact SessionHandle.getElem?_perform call
  | save r =>
    obtain ⟨h, hr, rfl⟩ := Option.map_eq_some_iff.mp hstep
    refine ⟨name, hs.of_disk _ fun i id hi hfree => hs.file_save_of_ne hr hi ?_⟩
    rintro rfl
    simp [hfree r.2] at hr
  | preSend r =>
    obtain ⟨h, hr, hstep⟩ := Option.bind_eq_some_iff.mp hstep
    split_ifs at hstep
    obtain rfl := Option.some_inj.mp hstep
    exact ⟨name, hs.preSend hr⟩
  | receive r =>
    obtain ⟨field, hr, rfl⟩ := Option.map_eq_some_iff.mp hstep
    exact ⟨name, hs.receive hr⟩
  | destroy r =>
    obtain ⟨h, hr, rfl⟩ := Option.map_eq_some_iff.mp hstep
    obtain ⟨hanswered, hsave⟩ := hproper h hr
    exact ⟨name, hs.destroy hr hanswered hsave (fun i hi => if_neg (Ne.symm hi)) fun key =>
      congrFun (if_pos rfl) key⟩

end Step

/-! ## Runs -/

variable [DecidableEq ι] [DecidableEq κ] [DecidableEq τ] [∀ i, Pluggable (El i)]

omit [DecidableEq τ] [∀ i, Pluggable (El i)] in
instance [Fintype ι] [Fintype κ] (cookieName : Token) (s : State ι κ El) (id : Octets) :
    Decidable (s.Known cookieName id) :=
  inferInstanceAs (Decidable (_ ∨ _ ∨ _))

instance [Fintype ι] [Fintype κ] (dir : Octets) (cookieName : Token) (s : State ι κ El) :
    (a : Action ι κ El) → Decidable (Proper dir cookieName s a)
  | .onRequest _ _ _ =>
    inferInstanceAs (Decidable ((∀ _, _) ∧ (_ → (∀ _, _) ∧ ¬ State.Known _ _ _ ∧ _)))
  | .destroy r => inferInstanceAs (Decidable (∀ h ∈ s.handling r, _))
  | .set _ _ _ | .get _ _ | .save _ | .preSend _ | .receive _ => isTrue trivial

/-- The name of the cookie. -/
def sessionCookie : Token := ⟨SessionConfig.sessionCookieName, by decide, by rfl⟩

/-- A request with the first identifier that can be drawn. -/
def sampleRequest : Request where
  headers := AList.insert (octets "cookie")
    (pair sessionCookie (newSessionId fun _ => ⟨0, by decide⟩)) ∅

/-- Two clients that use the same key, and the second request of one of them. -/
def sampleActions : List (Action Bool Bool fun _ : Unit => Octets) :=
  [.onRequest (false, false) {} fun _ => ⟨0, by decide⟩,
    .onRequest (true, false) {} fun _ => ⟨1, by decide⟩,
    .set (false, false) (octets "k") (.string (octets "a")),
    .set (true, false) (octets "k") (.string (octets "b")),
    .preSend (false, false), .destroy (false, false), .preSend (true, false),
    .receive (false, false),
    .onRequest (false, true) sampleRequest fun _ => ⟨1, by decide⟩,
    .destroy (true, false), .preSend (false, true)]

/-- The transitions that they lead to. -/
def sampleRun : List (Transition (step SessionConfig.sessionDirectory sessionCookie :
    State Bool Bool (fun _ : Unit => Octets) → _)) :=
  Transition.trace _ (.fresh ⟨fun _ => none, []⟩) sampleActions

end SessionStore

end Rite
