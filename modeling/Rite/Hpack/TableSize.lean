import Rite.Hpack.Refinement
import Rite.Hpack.Sharing
import Rite.ToMathlib.Transition

/-!
# The size of the dynamic table

The specification bounds the dynamic table in octets, by a limit that dynamic table size updates
set. The parser has a member for the limit and never reads it: an insertion evicts nothing, and a
size update is taken for a number of entries. The limit in force is kept beside the parser here, as
the specification would have it.

## Main results

* `bounded_iff_fits`: the iterations of the loop that keep the table within the limit;
* `headerMap_perform`: a call of `parse` leaves the table that its iterations leave;
* `bounded_of_fits`: calls all of whose iterations keep within the limit do so themselves;
* `unbounded`: without that, the table becomes as large as the peer wants it.
-/

namespace Rite

namespace Hpack

open ListReader

/-! ## Definitions -/

/-- A parser, and the limit in force for its dynamic table. -/
structure Gauge where
  /-- The limit, in octets. -/
  limit : ℕ
  /-- The parser. -/
  parser : Parser

/-- The limit in force behind a field. -/
def Field.limit (limit : ℕ) : Field → ℕ
  | .sizeUpdate size => size.toNat
  | _ => limit

namespace Gauge

/-- A new parser. -/
def initial (limit : ℕ) : Gauge := ⟨limit, {}⟩

/-- The size of the dynamic table (RFC 7541, section 4.1). -/
def size (g : Gauge) : ℕ := BoundedTable.total Rfc7541.entrySize g.parser.headerMap

/-- The dynamic table is within the limit. -/
def Bounded (g : Gauge) : Prop := g.size ≤ g.limit

instance (g : Gauge) : Decidable g.Bounded := inferInstanceAs (Decidable (_ ≤ _))

/-- An iteration of the loop of `parse`, unless it ends in an exception. -/
def step (g : Gauge) (f : Field) : Option Gauge :=
  match f.apply.run g.parser with
  | .ok () p => some ⟨f.limit g.limit, p⟩
  | .error _ _ => none

/-- Iterations, up to the first that ends in an exception. -/
def run (g : Gauge) : List Field → Gauge
  | [] => g
  | f :: fields =>
    match g.step f with
    | some g' => g'.run fields
    | none => g

/-- There is room for what the iteration inserts, and it does not lower the limit below the size of
the table, unless to zero. -/
def Fits (g : Gauge) : Field → Prop
  | .literal name value true =>
    match name.apply.run g.parser with
    | .ok key _ => g.size + Rfc7541.entrySize ⟨key, value⟩ ≤ g.limit
    | .error _ _ => True
  | .sizeUpdate size => size = 0 ∨ g.size ≤ size.toNat
  | _ => True

/-- All iterations fit, up to the first that ends in an exception. -/
def FitsAll : Gauge → List Field → Prop
  | _, [] => True
  | g, f :: fields => g.Fits f ∧ ∀ g' ∈ g.step f, g'.FitsAll fields

instance (g : Gauge) (f : Field) : Decidable (g.Fits f) :=
  match f with
  | .literal name value true =>
    match h : name.apply.run g.parser with
    | .ok key _ =>
      decidable_of_iff (g.size + Rfc7541.entrySize ⟨key, value⟩ ≤ g.limit) (by rw [Fits, h])
    | .error _ _ => .isTrue (by rw [Fits, h]; trivial)
  | .sizeUpdate size => inferInstanceAs (Decidable (size = 0 ∨ g.size ≤ size.toNat))
  | .indexed _ => .isTrue trivial
  | .literal _ _ false => .isTrue trivial

instance FitsAll.decidable : (g : Gauge) → (fields : List Field) → Decidable (g.FitsAll fields)
  | _, [] => .isTrue trivial
  | g, f :: fields =>
    have := fun g' => FitsAll.decidable g' fields
    inferInstanceAs (Decidable (g.Fits f ∧ ∀ g' ∈ g.step f, g'.FitsAll fields))

end Gauge

/-- The fields of a frame that can be read. -/
def fieldsOf (f : Frame) : List Field :=
  match HeadersPayload.ofFrame f with
  | .ok payload => readable Field.read payload.data.length payload.data
  | .error _ => []

/-- A call of `parse`, and what it finds apart from the dynamic table: the static table that all
parsers share, and the headers that `result` has not moved away. -/
structure Call where
  /-- `STATIC_HEADER_TABLE`. -/
  table : StaticTable := staticHeaderTable
  /-- `decoded_`. -/
  decoded : List Header := []
  /-- The argument. -/
  frame : Frame

namespace Gauge

/-- What the call finds. -/
def found (g : Gauge) (c : Call) : Gauge :=
  ⟨g.limit, { g.parser with table := c.table, decoded := c.decoded }⟩

/-- A call of `parse`. The limit is that of its last iteration. -/
def call (g : Gauge) (c : Call) : Option Gauge :=
  some ⟨((g.found c).run (fieldsOf c.frame)).limit,
    ((g.found c).parser.perform (.parse c.frame)).2⟩

end Gauge

/-! ## Look-ups -/

/-- A look-up leaves the dynamic table alone. -/
theorem headerMap_headerByIndex (index : UInt32) (p : Parser) :
    (after ((Parser.headerByIndex index).run p)).headerMap = p.headerMap := by
  rcases lt_or_ge index.toNat p.table.size with hlt | hge
  · rw [headerByIndex_of_lt hlt]
    rfl
  · rw [headerByIndex_of_le hge]
    cases p.headerMap[(index - UInt32.ofNat p.table.size - 1).toNat]? <;> rfl

theorem headerMap_fieldName (name : FieldName) (p : Parser) :
    (after (name.apply.run p)).headerMap = p.headerMap := by
  cases name with
  | literal name => rfl
  | indexed index =>
    have hlook := headerMap_headerByIndex index p
    -- the name is that of a header in the tables
    rw [FieldName.apply, EStateM.run_bind]
    cases hrun : (Parser.headerByIndex index).run p <;> rw [hrun] at hlook <;> exact hlook

theorem headerMap_visit (name : Option FieldName) (p : Parser) :
    (after ((visit name).run p)).headerMap = p.headerMap := by
  cases name with
  | none => rfl
  | some name =>
    have hname := headerMap_fieldName name p
    rw [visit, EStateM.run_bind]
    cases hrun : name.apply.run p <;> rw [hrun] at hname <;> exact hname

/-! ## An iteration -/

namespace Gauge

variable {g g' : Gauge}

/-- What a literal leaves behind, once its name has been looked up. -/
theorem apply_literal {p p' : Parser} {name : FieldName} {key : Octets}
    (h : name.apply.run p = .ok key p') (value : Octets) (incremental : Bool) :
    ∃ p'', (Field.literal name value incremental).apply.run p = .ok () p'' ∧
      p''.headerMap = if incremental then ⟨key, value⟩ :: p.headerMap else p.headerMap := by
  have htable := headerMap_fieldName name p
  rw [h] at htable
  have htable' : p'.headerMap = p.headerMap := htable
  rw [← htable']
  cases incremental with
  | true => exact ⟨Parser.insert ⟨key, value⟩ (Parser.push ⟨key, value⟩ p'), by
      simp [Field.apply, h], rfl⟩
  | false => exact ⟨Parser.push ⟨key, value⟩ p', by simp [Field.apply, h], rfl⟩

/-- A field that cannot be applied leaves the dynamic table alone. -/
theorem headerMap_of_error {f : Field} {p p' : Parser} {e : Fault}
    (h : f.apply.run p = .error e p') : p'.headerMap = p.headerMap := by
  cases f with
  | indexed index =>
    have hlook := headerMap_headerByIndex index p
    rw [Field.apply, EStateM.run_bind] at h
    cases hrun : (Parser.headerByIndex index).run p with
    | ok header p'' =>
      rw [hrun] at h
      cases h
    | error e' p'' =>
      rw [hrun] at h hlook
      cases h
      exact hlook
  | literal name value incremental =>
    have hname := headerMap_fieldName name p
    cases hrun : name.apply.run p with
    | ok key p'' =>
      obtain ⟨p₃, hok, -⟩ := apply_literal hrun value incremental
      rw [hok] at h
      cases h
    | error e' p'' =>
      rw [Field.apply, EStateM.run_bind, hrun] at h
      rw [hrun] at hname
      cases h
      exact hname
  | sizeUpdate size => cases h

private theorem step_eq_some {f : Field} (h : g.step f = some g') :
    f.apply.run g.parser = .ok () g'.parser ∧ g'.limit = f.limit g.limit := by
  unfold step at h
  split at h
  next p hrun =>
    obtain rfl := Option.some.inj h
    exact ⟨hrun, rfl⟩
  next => cases h

/-- An entry takes more than one octet. -/
private theorem le_entrySize (h : Header) : 32 ≤ Rfc7541.entrySize h := Nat.le_add_left 32 _

/-- Once the table is within the limit, exactly the iterations that fit keep it there. -/
theorem bounded_iff_fits {f : Field} (hg : g.Bounded) (hstep : g.step f = some g') :
    g'.Bounded ↔ g.Fits f := by
  obtain ⟨hrun, hlimit⟩ := step_eq_some hstep
  obtain ⟨limit', p'⟩ := g'
  dsimp only at hrun hlimit
  unfold Bounded size at *
  dsimp only
  rw [hlimit]
  cases f with
  | indexed index =>
    -- neither the table nor the limit changes
    have hlook := headerMap_headerByIndex index g.parser
    rw [Field.apply, EStateM.run_bind] at hrun
    cases hindex : (Parser.headerByIndex index).run g.parser with
    | error e p => rw [hindex] at hrun; cases hrun
    | ok header p =>
      rw [hindex] at hrun hlook
      cases hrun
      have htable : (Parser.push header p).headerMap = g.parser.headerMap := hlook
      exact iff_of_true (le_of_eq_of_le (congrArg _ htable) hg) trivial
  | sizeUpdate size =>
    cases hrun
    -- the first `size` entries are kept, of a table that may take `size` octets
    show BoundedTable.total Rfc7541.entrySize (g.parser.headerMap.take size.toNat) ≤ size.toNat ↔ _
    rw [BoundedTable.total_take_le_iff (by norm_num) le_entrySize, Fits]
    have hzero : size.toNat = 0 ↔ size = 0 := UInt32.toNat_inj (b := 0)
    rw [hzero]
    rfl
  | literal name value incremental =>
    cases hname : name.apply.run g.parser with
    | error e p =>
      rw [Field.apply, EStateM.run_bind, hname] at hrun
      cases hrun
    | ok key p =>
      obtain ⟨p'', hok, htable⟩ := apply_literal hname value incremental
      rw [hrun] at hok
      cases hok
      rw [htable]
      cases incremental with
      | false => exact iff_of_true hg trivial
      -- nothing is evicted to make room for the entry
      | true =>
        rw [if_pos rfl, BoundedTable.total_cons, Fits, hname]
        exact (Nat.add_comm _ _) ▸ Iff.rfl

/-! ## A call -/

/-- Iterations that fit keep the table within the limit. -/
theorem bounded_run {fields : List Field} (hg : g.Bounded) (hfits : g.FitsAll fields) :
    (g.run fields).Bounded := by
  induction fields generalizing g with
  | nil => exact hg
  | cons f fields ih =>
    rw [run]
    cases hstep : g.step f with
    | none => exact hg
    | some g' => exact ih ((bounded_iff_fits hg hstep).mpr hfits.1) (hfits.2 g' hstep)

/-- Where the iterations end, there the loop leaves the table. -/
private theorem headerMap_applyAll (fields : List Field) (g : Gauge) :
    (after ((applyAll fields).run g.parser)).headerMap = (g.run fields).parser.headerMap := by
  induction fields generalizing g with
  | nil => rfl
  | cons f fields ih =>
    rw [applyAll_cons, EStateM.run_bind, run, step]
    cases hrun : f.apply.run g.parser with
    -- the run ends in front of this field, which leaves the table alone
    | error e p => exact headerMap_of_error hrun
    | ok u p => exact ih ⟨f.limit g.limit, p⟩

/-- A call of `parse` leaves the table that its iterations leave. -/
theorem headerMap_perform (g : Gauge) (f : Frame) :
    (g.parser.perform (.parse f)).2.headerMap = (g.run (fieldsOf f)).parser.headerMap := by
  unfold fieldsOf
  cases hpayload : HeadersPayload.ofFrame f with
  | error e =>
    rw [Parser.perform_parse_error (parse_of_ofFrame_error hpayload g.parser)]
    rfl
  | ok payload =>
    obtain ⟨rest, hmany, hend⟩ := many_readable advances_read (le_refl payload.data.length)
    have hfields := headerMap_applyAll (readable Field.read payload.data.length payload.data) g
    rw [perform_parse_state hpayload, ← hfields]
    by_cases hrest : rest = []
    · subst hrest
      rw [parseLoop_eq_applyAll hmany le_rfl]
    · -- behind the fields is one that cannot be read, of which the name may be looked up
      obtain ⟨e, he⟩ := hend.resolve_left hrest
      obtain ⟨name, -, hloop⟩ := parseLoop_stuck hmany hrest he le_rfl
      rw [hloop, EStateM.run_bind]
      cases hrun : (applyAll (readable Field.read payload.data.length payload.data)).run g.parser
        with
      | error e p => rfl
      | ok u p =>
        have hvisit := headerMap_visit name p
        simp only [EStateM.run_bind]
        cases hrun' : (visit name).run p <;> rw [hrun'] at hvisit <;> exact hvisit

/-! ## Runs -/

/-- What a call finds has the same dynamic table and the same limit. -/
theorem bounded_found (hg : g.Bounded) (c : Call) : (g.found c).Bounded := hg

/-- A call whose iterations fit keeps the table within the limit. -/
theorem bounded_call {c : Call} (hg : g.Bounded) (hfits : (g.found c).FitsAll (fieldsOf c.frame))
    (hcall : g.call c = some g') : g'.Bounded := by
  obtain rfl := Option.some.inj hcall
  have hrun := bounded_run (bounded_found hg c) hfits
  unfold Bounded size at hrun ⊢
  rw [headerMap_perform (g.found c) c.frame]
  exact hrun

/-- If the iterations of all calls fit, the table is within the limit in force behind every call. -/
theorem bounded_of_fits {limit : ℕ} {ks : List (Transition call)}
    (hrun : Transition.Runs (initial limit) ks)
    (hfits : ∀ k ∈ ks, (k.before.found k.action).FitsAll (fieldsOf k.action.frame)) :
    ∀ k ∈ ks, k.after.Bounded :=
  hrun.forall_dst (I := Bounded) (Nat.zero_le limit) hfits fun k hg hk => bounded_call hg hk k.valid

/-- An entry that fits, and then an update to zero. -/
theorem bounded_sample :
    Transition.Runs (initial 4096) (Transition.trace call (initial 4096)
      [{ frame := Frame.ofBlock insertion }, { frame := Frame.ofBlock [0x20] }]) ∧
    ∀ k ∈ Transition.trace call (initial 4096)
      [{ frame := Frame.ofBlock insertion }, { frame := Frame.ofBlock [0x20] }], k.after.Bounded :=
  ⟨Transition.run_trace call _ _,
    bounded_of_fits (Transition.run_trace call _ _) (by decide)⟩

/-! ## Growth -/

/-- The call of `parse` returns `eDone`. -/
def Done (k : Transition call) : Prop :=
  ((k.before.found k.action).parser.perform (.parse k.action.frame)).1 = .returned .done

private theorem call_insertion (limit m : ℕ) (decoded : List Header) :
    call ⟨limit, { inserted m with decoded }⟩ { frame := Frame.ofBlock insertion } =
      some ⟨limit, { inserted (m + 1) with decoded := [⟨octets "a", octets "b"⟩] }⟩ := by
  have hfields : fieldsOf (Frame.ofBlock insertion) =
      [.literal (.literal (octets "a")) (octets "b") true] := by decide
  have hperform := Parser.perform_parse_ok (parse_insertion m)
  rw [call, hfields]
  exact congrArg some (congrArg (Gauge.mk limit) (congrArg Prod.snd hperform))

/-- Insertions that the parser accepts, one after the other. -/
private theorem exists_insertions (limit n : ℕ) : ∀ (m : ℕ) (decoded : List Header),
    ∃ ks, Transition.Runs ⟨limit, { inserted m with decoded }⟩ ks ∧ (∀ k ∈ ks, Done k) ∧
      ∃ k ∈ ks, k.after.limit = limit ∧
        k.after.parser.headerMap = (inserted (m + n + 1)).headerMap := by
  induction n with
  | zero =>
    intro m decoded
    refine ⟨[⟨_, _, _, call_insertion limit m decoded⟩], .cons rfl (.nil _), ?_, ?_⟩
    · exact List.forall_mem_singleton.mpr
        (congrArg Prod.fst (Parser.perform_parse_ok (parse_insertion m)))
    · exact ⟨_, List.mem_singleton_self _, rfl, rfl⟩
  | succ n ih =>
    intro m decoded
    obtain ⟨ks, hrun, hdone, k, hk, hlimit, hmap⟩ := ih (m + 1) [⟨octets "a", octets "b"⟩]
    refine ⟨⟨_, _, _, call_insertion limit m decoded⟩ :: ks, .cons rfl hrun, ?_, k,
      List.mem_cons_of_mem _ hk, hlimit, ?_⟩
    · exact List.forall_mem_cons.mpr
        ⟨congrArg Prod.fst (Parser.perform_parse_ok (parse_insertion m)), hdone⟩
    · rw [hmap, show m + 1 + n + 1 = m + (n + 1) + 1 by omega]

/-- Whatever the limit is, a peer can make the table as large as it likes, with frames that are all
accepted. -/
theorem unbounded (limit n : ℕ) :
    ∃ ks, Transition.Runs (initial limit) ks ∧ (∀ k ∈ ks, Done k) ∧
      ∃ k ∈ ks, k.after.limit = limit ∧ n ≤ k.after.size := by
  -- an entry of 34 octets, `n + 1` times
  obtain ⟨ks, hrun, hdone, k, hk, hlimit, hmap⟩ := exists_insertions limit n 0 []
  refine ⟨ks, hrun, hdone, k, hk, hlimit, ?_⟩
  have hsize : Rfc7541.entrySize ⟨octets "a", octets "b"⟩ = 34 := by decide
  rw [size, hmap, inserted, BoundedTable.total, List.map_replicate, List.sum_replicate, hsize,
    smul_eq_mul]
  omega

/-- The table outgrows the limit of the parser and that of the protocol. -/
theorem not_bounded :
    (¬ ∀ ks, Transition.Runs (initial 256) ks → ∀ k ∈ ks, Done k → k.after.Bounded) ∧
    ¬ ∀ ks, Transition.Runs (initial 4096) ks → ∀ k ∈ ks, Done k → k.after.Bounded := by
  have hnot : ∀ limit,
      ¬ ∀ ks, Transition.Runs (initial limit) ks → ∀ k ∈ ks, Done k → k.after.Bounded := by
    intro limit h
    obtain ⟨ks, hrun, hdone, k, hk, hlimit, hsize⟩ := unbounded limit (limit + 1)
    have hbounded : k.after.size ≤ k.after.limit := h ks hrun k hk (hdone k hk)
    rw [hlimit] at hbounded
    exact absurd (hsize.trans hbounded) (Nat.not_succ_le_self limit)
  exact ⟨hnot 256, hnot 4096⟩

end Gauge

end Hpack

end Rite
