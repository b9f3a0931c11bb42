import Rite.Hpack.AddressSpace
import Rite.Hpack.Block

/-!
# Two parsers and the static table they share

`STATIC_HEADER_TABLE` is a global, and `header_by_index` reads it with a subscript that enters a
missing key. The key 0 is missing, and an indexed field may ask for it.

## Main results

* `parse_table_eq_iff`: a call of `parse` leaves the static table as it is if and only if it does
  not come upon an indexed field with index 0;
* `undisturbed_iff`: whatever another parser does in between, it sees nothing of the calls of a
  parser if and only if none of these comes upon such a field.
-/

namespace Rite

namespace Hpack

open ListReader

/-! ## Calls -/

/-- A call of a member function of `parser<h2::hpack>`. -/
inductive Op
  | parse (f : Frame)
  | result

/-- What a call returns or raises. -/
inductive Output
  | returned (e : Error)
  | raised (e : Fault)
  | headers (list : List Header)
  deriving DecidableEq

/-- Carry out a call. -/
def Parser.perform (p : Parser) : Op → Output × Parser
  | .parse f =>
    match (Parser.parse f).run p with
    | .ok e p => (.returned e, p)
    | .error e p => (.raised e, p)
  | .result => (.headers p.result.1, p.result.2)

theorem Parser.perform_parse_ok {p p' : Parser} {f : Frame} {e : Error}
    (h : (Parser.parse f).run p = .ok e p') : p.perform (.parse f) = (.returned e, p') := by
  simp only [Parser.perform, h]

theorem Parser.perform_parse_error {p p' : Parser} {f : Frame} {e : Fault}
    (h : (Parser.parse f).run p = .error e p') : p.perform (.parse f) = (.raised e, p') := by
  simp only [Parser.perform, h]

/-- One of two parsers. -/
inductive Party
  | a | b
  deriving DecidableEq

/-- Two parsers that share the static table. -/
structure Shared where
  /-- The one. -/
  a : Parser
  /-- The other. -/
  b : Parser
  /-- There is one static table. -/
  table_eq : b.table = a.table

/-- A call on the first parser. -/
def Shared.stepA (w : Shared) (op : Op) : Shared where
  a := (w.a.perform op).2
  b := { w.b with table := (w.a.perform op).2.table }
  table_eq := rfl

/-- A call on the second parser. -/
def Shared.stepB (w : Shared) (op : Op) : Shared where
  a := { w.a with table := (w.b.perform op).2.table }
  b := (w.b.perform op).2
  table_eq := rfl

/-- What the second parser produces when the calls of both are carried out in turn. -/
def Shared.outputs (w : Shared) : List (Party × Op) → List Output
  | [] => []
  | (.a, op) :: calls => (w.stepA op).outputs calls
  | (.b, op) :: calls => (w.b.perform op).1 :: (w.stepB op).outputs calls

/-- The calls of one party. -/
def callsOf (party : Party) (calls : List (Party × Op)) : List Op :=
  (calls.filter fun c => c.1 = party).map Prod.snd

/-! ## Coming upon the index zero -/

/-- An index, other than zero, that the tables have when the dynamic one has `n` entries. -/
def InTables (n : ℕ) (index : UInt32) : Prop := index.toNat < 61 ∨ (index - 61 - 1).toNat < n

instance (n : ℕ) (index : UInt32) : Decidable (InTables n index) :=
  inferInstanceAs (Decidable (_ ∨ _))

/-- The number of entries of the dynamic table after a field, if its index is in the tables. -/
def Field.entriesAfter (n : ℕ) : Field → Option ℕ
  | .indexed index => if InTables n index then some n else none
  | .literal (.indexed index) _ incremental =>
    if InTables n index then some (n + incremental.toNat) else none
  | .literal (.literal _) _ incremental => some (n + incremental.toNat)
  | .sizeUpdate size => some (min size.toNat n)

/-- There is an indexed field with index 0 behind fields whose indexes are in the tables. -/
def ZeroAhead : ℕ → List Field → Prop
  | _, [] => False
  | n, f :: fields => f = .indexed 0 ∨ ∃ m, f.entriesAfter n = some m ∧ ZeroAhead m fields

/-- The payload begins with fields that can be read, up to an indexed field with index 0. -/
def Parser.MeetsZero (p : Parser) (f : Frame) : Prop :=
  ∃ payload fields rest, HeadersPayload.ofFrame f = .ok payload ∧
    Many Field.read payload.data fields rest ∧ ZeroAhead p.headerMap.length fields

/-- No call comes upon the index zero. -/
def Parser.AvoidsZero : Parser → List Op → Prop
  | _, [] => True
  | p, op :: ops => (∀ f, op = .parse f → ¬ p.MeetsZero f) ∧ (p.perform op).2.AvoidsZero ops

/-- The state after calls. -/
def Parser.performAll (p : Parser) (ops : List Op) : Parser :=
  ops.foldl (fun p op => (p.perform op).2) p

/-! ## The static table during a call -/

/-- Every key below the size is in the table. -/
def StaticTable.Full (t : StaticTable) : Prop := ∀ k < t.size, k ∈ t

theorem StaticTable.Full.subscript {t : StaticTable} (ht : t.Full) {k : ℕ} (hk : k < t.size) :
    (t.subscript k).2 = t := by
  obtain ⟨h, hlook⟩ := Option.isSome_iff_exists.mp (AList.lookup_isSome.mpr (ht k hk))
  rw [StaticTable.subscript_of_lookup hlook]

/-- The static table with the entry that the index zero leaves behind. -/
def extendedTable : StaticTable := staticHeaderTable.insert 0 default

theorem full_extendedTable : extendedTable.Full := by
  intro k hk
  have hsize : extendedTable.size = 62 := by decide
  rw [extendedTable, AList.mem_insert, mem_staticHeaderTable]
  omega

theorem mem_subscript (t : StaticTable) (k j : ℕ) (hj : j ∈ t) : j ∈ (t.subscript k).2 := by
  unfold StaticTable.subscript
  split
  · exact hj
  · exact (AList.mem_insert t).mpr (.inr hj)

/-- Along every call, keys stay in the table, a full table stays as it is, and the initial table
stays as it is or gets the entry of the index zero. -/
structure TableStep (t t' : StaticTable) : Prop where
  /-- Keys stay. -/
  grows : ∀ k ∈ t, k ∈ t'
  /-- A full table is not changed. -/
  full : t.Full → t' = t
  /-- The initial one changes in one way only. -/
  initial : t = staticHeaderTable → t' = staticHeaderTable ∨ t' = extendedTable

theorem TableStep.refl (t : StaticTable) : TableStep t t := ⟨fun _ h => h, fun _ => rfl, .inl⟩

theorem TableStep.subscript {t : StaticTable} {k : ℕ} (hk : k < t.size) :
    TableStep t (t.subscript k).2 where
  grows j hj := mem_subscript t k j hj
  full ht := ht.subscript hk
  initial ht := by
    subst ht
    rcases Nat.eq_zero_or_pos k with rfl | hpos
    · right
      rw [StaticTable.subscript_of_notMem zero_notMem_staticHeaderTable]
      rfl
    · left
      rw [size_staticHeaderTable] at hk
      obtain ⟨h, hlook⟩ := exists_lookup_staticHeaderTable hpos hk.le
      rw [StaticTable.subscript_of_lookup hlook]

theorem closed_tableStep : Parser.Closed fun p p' => TableStep p.table p'.table where
  refl p := .refl p.table
  trans {p p' p''} h h' :=
    { grows := fun k hk => h'.grows k (h.grows k hk)
      full := fun ht => (h'.full (by rw [h.full ht]; exact ht)).trans (h.full ht)
      initial := fun ht => by
        rcases h.initial ht with heq | hext
        · exact h'.initial heq
        · right
          rw [h'.full (hext ▸ full_extendedTable), hext] }
  subscript _ _ hk := .subscript hk
  push p _ := .refl p.table
  insert p _ := .refl p.table
  resize p _ := .refl p.table

/-- A relation that holds along every call. -/
theorem perform_closed {R : Parser → Parser → Prop} (hR : Parser.Closed R)
    (hresult : ∀ p : Parser, R p p.result.2) (p : Parser) (op : Op) : R p (p.perform op).2 := by
  cases op with
  | result => exact hresult p
  | parse f =>
    have hend := parse_cases hR f p
    cases hrun : (Parser.parse f).run p with
    | ok e p' =>
      rw [Parser.perform_parse_ok hrun]
      rw [hrun] at hend
      cases hend with
      | completed h => exact h
      | failed _ h => exact h
    | error e p' =>
      rw [Parser.perform_parse_error hrun]
      rw [hrun] at hend
      cases hend with
      | payload _ => exact hR.refl p
      | raised h => exact h

theorem tableStep_perform (p : Parser) (op : Op) : TableStep p.table (p.perform op).2.table :=
  perform_closed closed_tableStep (fun p => .refl p.table) p op

/-! ## When the static table changes -/

/-- In the initial table every index but zero is looked up without a change. -/
private theorem headerByIndex_initial {p : Parser} (hp : p.table = staticHeaderTable)
    {index : UInt32} (h0 : index ≠ 0) :
    if InTables p.headerMap.length index then
      ∃ h, (Parser.headerByIndex index).run p = .ok h p
    else (Parser.headerByIndex index).run p = .error (.hpack .unknownHeader) p := by
  have hsize : p.table.size = 61 := by rw [hp, size_staticHeaderTable]
  have hpos : 1 ≤ index.toNat := by
    have := UInt32.toNat_inj.not.mpr h0
    rw [UInt32.toNat_zero] at this
    omega
  rcases lt_or_ge index.toNat 61 with hlt | hge
  · rw [if_pos (show InTables _ _ from .inl hlt)]
    obtain ⟨h, hlook⟩ := exists_lookup_staticHeaderTable hpos hlt.le
    exact ⟨h, Parser.headerByIndex_static hp hlt hlook⟩
  · -- from the last static index on, `header_by_index` looks into the dynamic table
    rw [headerByIndex_of_le (by omega), hsize]
    have h61 : UInt32.ofNat 61 = 61 := rfl
    rw [h61]
    by_cases hlt : (index - 61 - 1).toNat < p.headerMap.length
    · rw [if_pos (show InTables _ _ from .inr hlt), List.getElem?_eq_getElem hlt]
      exact ⟨_, rfl⟩
    · have hnot : ¬ InTables p.headerMap.length index := by
        unfold InTables
        omega
      rw [if_neg hnot, List.getElem?_eq_none (by omega)]

/-- In the initial table every other field than that with index zero is applied without a change
of the static table. -/
private theorem apply_initial {p : Parser} (hp : p.table = staticHeaderTable) {f : Field}
    (h0 : f ≠ .indexed 0)
    (hname : ∀ value incremental, f ≠ .literal (.indexed 0) value incremental) :
    (∃ p', f.apply.run p = .ok () p' ∧ p'.table = staticHeaderTable ∧
        f.entriesAfter p.headerMap.length = some p'.headerMap.length) ∨
      f.apply.run p = .error (.hpack .unknownHeader) p ∧
        f.entriesAfter p.headerMap.length = none := by
  cases f with
  | indexed index =>
    have hlook := headerByIndex_initial hp fun h => h0 (congrArg Field.indexed h)
    split_ifs at hlook with hin
    · obtain ⟨h, hrun⟩ := hlook
      exact .inl ⟨Parser.push h p, by simp [Field.apply, hrun], hp, if_pos hin⟩
    · exact .inr ⟨by simp [Field.apply, hlook], if_neg hin⟩
  | sizeUpdate size => exact .inl ⟨Parser.resize size p, rfl, hp, by
      simp [Field.entriesAfter, Parser.resize]⟩
  | literal name value incremental =>
    -- with the name at hand, the rest cannot fail
    have hrest : ∀ key, name.apply.run p = .ok key p → ∃ p',
        (Field.literal name value incremental).apply.run p = .ok () p' ∧
          p'.table = staticHeaderTable ∧
          p'.headerMap.length = p.headerMap.length + incremental.toNat := by
      intro key hrun
      cases incremental with
      | true =>
        exact ⟨Parser.insert ⟨key, value⟩ (Parser.push ⟨key, value⟩ p),
          by simp [Field.apply, hrun], hp, rfl⟩
      | false => exact ⟨Parser.push ⟨key, value⟩ p, by simp [Field.apply, hrun], hp, rfl⟩
    cases name with
    | literal name =>
      obtain ⟨p', hrun, htable, hlen⟩ := hrest name rfl
      exact .inl ⟨p', hrun, htable, by rw [hlen]; rfl⟩
    | indexed index =>
      have h0 : index ≠ 0 := by
        rintro rfl
        exact hname value incremental rfl
      have hlook := headerByIndex_initial hp h0
      split_ifs at hlook with hin
      · obtain ⟨h, hrun⟩ := hlook
        obtain ⟨p', hrun', htable, hlen⟩ := hrest h.key (by simp [FieldName.apply, hrun])
        exact .inl ⟨p', hrun', htable, by rw [hlen]; exact if_pos hin⟩
      · exact .inr ⟨by simp [Field.apply, FieldName.apply, hlook], if_neg hin⟩

/-- The state in which a call ends. -/
def after {α : Type} : EStateM.Result Fault Parser α → Parser
  | .ok _ p => p
  | .error _ p => p

/-- Without the index zero ahead, fields leave the initial table alone. -/
private theorem applyAll_initial {fields : List Field} {p : Parser}
    (hp : p.table = staticHeaderTable) (hzero : ¬ ZeroAhead p.headerMap.length fields)
    (hname : ∀ f ∈ fields, ∀ value incremental, f ≠ .literal (.indexed 0) value incremental) :
    (after ((applyAll fields).run p)).table = staticHeaderTable := by
  induction fields generalizing p with
  | nil => exact hp
  | cons f fields ih =>
    simp only [ZeroAhead, not_or, not_exists, not_and] at hzero
    rcases apply_initial hp hzero.1 (hname f List.mem_cons_self) with
      ⟨p', hrun, htable, hentries⟩ | ⟨hrun, -⟩
    · rw [applyAll_cons, EStateM.run_bind, hrun]
      exact ih htable (hzero.2 _ hentries) fun f hf => hname f (List.mem_cons_of_mem _ hf)
    · rw [applyAll_cons, EStateM.run_bind, hrun]
      exact hp

/-- With the index zero ahead, it enters the initial table. -/
private theorem zero_mem_applyAll {fields : List Field} {p : Parser}
    (hp : p.table = staticHeaderTable) (hzero : ZeroAhead p.headerMap.length fields)
    (hname : ∀ f ∈ fields, ∀ value incremental, f ≠ .literal (.indexed 0) value incremental) :
    0 ∈ (after ((applyAll fields).run p)).table := by
  induction fields generalizing p with
  | nil => exact hzero.elim
  | cons f fields ih =>
    by_cases hf : f = .indexed 0
    · -- `operator[]` inserts the index, and nothing takes it out again
      subst hf
      have hlook : (Parser.headerByIndex 0).run p =
          .ok default { p with table := extendedTable } := Parser.headerByIndex_zero hp
      have hgrows := keeps_applyAll closed_tableStep fields
        (Parser.push default { p with table := extendedTable })
      have hmem : 0 ∈ extendedTable := (AList.mem_insert _).mpr (.inl rfl)
      rw [applyAll_cons, EStateM.run_bind, Field.apply, EStateM.run_bind, hlook]
      show 0 ∈ (after ((applyAll fields).run
        (Parser.push default { p with table := extendedTable }))).table
      cases hrun : (applyAll fields).run (Parser.push default { p with table := extendedTable })
        with
      | ok a p' =>
        rw [hrun] at hgrows
        exact hgrows.grows 0 hmem
      | error e p' =>
        rw [hrun] at hgrows
        exact hgrows.1.grows 0 hmem
    · -- the index is behind a field that is applied
      obtain ⟨m, hentries, hrest⟩ := hzero.resolve_left hf
      rcases apply_initial hp hf (hname f List.mem_cons_self) with
        ⟨p', hrun, htable, hentries'⟩ | ⟨-, hnone⟩
      · rw [applyAll_cons, EStateM.run_bind, hrun]
        obtain rfl : m = p'.headerMap.length := Option.some.inj (hentries.symm.trans hentries')
        exact ih htable hrest fun f hf => hname f (List.mem_cons_of_mem _ hf)
      · rw [hentries] at hnone
        cases hnone

private theorem name_ne_of_many {pos rest : Octets} {fields : List Field}
    (h : Many Field.read pos fields rest) :
    ∀ f ∈ fields, ∀ value incremental, f ≠ .literal (.indexed 0) value incremental := by
  induction h with
  | nil => simp
  | cons hread _ ih => exact List.forall_mem_cons.mpr ⟨ne_literal_zero_of_read hread, ih⟩

/-- What `parse` makes of the end of the loop does not change the parser. -/
theorem perform_parse_state {f : Frame} {payload : HeadersPayload}
    (h : HeadersPayload.ofFrame f = .ok payload) (p : Parser) :
    (p.perform (.parse f)).2 =
      after ((Parser.parseLoop payload.data.length payload.data).run p) := by
  have hparse := parse_of_ofFrame h p
  cases hrun : (Parser.parseLoop payload.data.length payload.data).run p with
  | ok a p' =>
    rw [hrun] at hparse
    rw [Parser.perform_parse_ok hparse]
    rfl
  | error e p' =>
    rw [hrun] at hparse
    cases e with
    | hpack e =>
      rw [Parser.perform_parse_ok hparse]
      rfl
    | _ =>
      rw [Parser.perform_parse_error hparse]
      rfl

private theorem visit_initial {p : Parser} (hp : p.table = staticHeaderTable)
    {name : Option FieldName} (hname : name ≠ some (.indexed 0)) :
    (after ((visit name).run p)).table = staticHeaderTable := by
  rcases name with _ | (index | name)
  · exact hp
  · have h0 : index ≠ 0 := by
      rintro rfl
      exact hname rfl
    have hlook := headerByIndex_initial hp h0
    split_ifs at hlook
    · obtain ⟨h, hrun⟩ := hlook
      simpa [visit, FieldName.apply, hrun, after] using hp
    · simpa [visit, FieldName.apply, hlook, after] using hp
  · exact hp

/-- The keys of the static table stay in it until the end of a call. -/
private theorem mem_after_bind {α β : Type} {E : Fault → Prop} {x : ParserM α}
    {k : α → ParserM β} (hk : ∀ a, Keeps (fun p p' => TableStep p.table p'.table) E (k a))
    {p : Parser} {j : ℕ} (hj : j ∈ (after (x.run p)).table) :
    j ∈ (after ((x >>= k).run p)).table := by
  rw [EStateM.run_bind]
  cases hrun : x.run p with
  | error e p' =>
    rw [hrun] at hj
    exact hj
  | ok a p' =>
    rw [hrun] at hj
    have hgrows := hk a p'
    simp only
    cases hrun' : (k a).run p' with
    | ok b p'' =>
      rw [hrun'] at hgrows
      exact hgrows.grows j hj
    | error e p'' =>
      rw [hrun'] at hgrows
      exact hgrows.1.grows j hj

/-- A call that meets the initial table leaves it as it is if and only if it does not come upon
the index zero. -/
theorem parse_table_eq_iff {p : Parser} (hp : p.table = staticHeaderTable) (f : Frame) :
    (p.perform (.parse f)).2.table = staticHeaderTable ↔ ¬ p.MeetsZero f := by
  constructor
  · rintro htable ⟨payload, fields, rest, hpayload, hmany, hzero⟩
    obtain ⟨n, -, hloop⟩ := parseLoop_of_many hmany le_rfl
    have hmem : 0 ∈ (p.perform (.parse f)).2.table := by
      rw [perform_parse_state hpayload, hloop]
      exact mem_after_bind (fun _ => keeps_parseLoop closed_tableStep n rest)
        (zero_mem_applyAll hp hzero (name_ne_of_many hmany))
    rw [htable] at hmem
    exact zero_notMem_staticHeaderTable hmem
  · intro hzero
    cases hpayload : HeadersPayload.ofFrame f with
    | error e =>
      rw [Parser.perform_parse_error (parse_of_ofFrame_error hpayload p)]
      exact hp
    | ok payload =>
      obtain ⟨fields, rest, hmany, hend⟩ := exists_many advances_read payload.data
      have hahead : ¬ ZeroAhead p.headerMap.length fields := fun h =>
        hzero ⟨payload, fields, rest, hpayload, hmany, h⟩
      have hfields := applyAll_initial hp hahead (name_ne_of_many hmany)
      rw [perform_parse_state hpayload]
      by_cases hrest : rest = []
      · subst hrest
        rw [parseLoop_eq_applyAll hmany le_rfl]
        exact hfields
      · -- behind the fields is one that cannot be read, of which the name may be looked up
        obtain ⟨e, he⟩ := hend.resolve_left hrest
        obtain ⟨name, hname, hloop⟩ := parseLoop_stuck hmany hrest he le_rfl
        rw [hloop, EStateM.run_bind]
        cases hrun : (applyAll fields).run p with
        | error e p' =>
          rw [hrun] at hfields
          exact hfields
        | ok a p' =>
          rw [hrun] at hfields
          have hvisit : (after ((visit name).run p')).table = staticHeaderTable :=
            visit_initial hfields hname
          simp only [EStateM.run_bind]
          cases hrun' : (visit name).run p' with
          | error e p'' =>
            rw [hrun'] at hvisit
            exact hvisit
          | ok a p'' =>
            rw [hrun'] at hvisit
            exact hvisit

/-! ## What the other parser sees -/

/-- The second parser depends on the first one through the static table only. -/
private theorem outputs_congr {w w' : Shared} (hb : w.b = w'.b) (calls : List (Party × Op)) :
    w.outputs (calls.filter fun c => c.1 = .b) = w'.outputs (calls.filter fun c => c.1 = .b) := by
  induction calls generalizing w w' with
  | nil => rfl
  | cons c calls ih =>
    obtain ⟨party, op⟩ := c
    cases party with
    | a => exact ih hb
    | b =>
      have hstep : (w.stepB op).b = (w'.stepB op).b := by
        simp only [Shared.stepB, hb]
      rw [List.filter_cons_of_pos (by simp), Shared.outputs, Shared.outputs, ih hstep, hb]

/-- A call of the first parser that does not change the static table is not seen. -/
private theorem stepA_b {w : Shared} {op : Op} (h : (w.a.perform op).2.table = w.a.table) :
    (w.stepA op).b = w.b := by
  simp only [Shared.stepA, h, ← w.table_eq]

/-- Calls that do not come upon the index zero are not seen by the other parser, and neither are
any calls once the table is full. -/
private theorem outputs_eq_of_avoids {calls : List (Party × Op)} {w : Shared}
    (hw : w.a.table.Full ∨ w.a.table = staticHeaderTable ∧ w.a.AvoidsZero (callsOf .a calls)) :
    w.outputs calls = w.outputs (calls.filter fun c => c.1 = .b) := by
  induction calls generalizing w with
  | nil => rfl
  | cons c calls ih =>
    obtain ⟨party, op⟩ := c
    cases party with
    | a =>
      -- the table is full, or the call does not come upon the index zero
      have htable : (w.a.perform op).2.table = w.a.table := by
        rcases hw with hfull | ⟨hinit, havoid, -⟩
        · exact (tableStep_perform w.a op).full hfull
        · cases op with
          | result => rfl
          | parse f => exact ((parse_table_eq_iff hinit f).mpr (havoid f rfl)).trans hinit.symm
      have hrest : (w.stepA op).outputs calls =
          (w.stepA op).outputs (calls.filter fun c => c.1 = .b) := by
        refine ih ?_
        rcases hw with hfull | ⟨hinit, -, havoid⟩
        · left
          show (w.a.perform op).2.table.Full
          rw [htable]
          exact hfull
        · exact .inr ⟨htable.trans hinit, havoid⟩
      rw [Shared.outputs, hrest]
      exact outputs_congr (stepA_b htable) calls
    | b =>
      -- the second parser may fill the table itself, and from then on nothing changes it
      have hrest : (w.stepB op).outputs calls =
          (w.stepB op).outputs (calls.filter fun c => c.1 = .b) := by
        have hstep := tableStep_perform w.b op
        rw [w.table_eq] at hstep
        refine ih ?_
        rcases hw with hfull | ⟨hinit, havoid⟩
        · left
          show (w.b.perform op).2.table.Full
          rw [hstep.full hfull]
          exact hfull
        · rcases hstep.initial hinit with heq | hext
          · refine .inr ⟨heq, ?_⟩
            -- the first parser is as it was
            have ha : (w.stepB op).a = w.a := by
              simp only [Shared.stepB, heq, ← hinit]
            rw [ha]
            exact havoid
          · left
            show (w.b.perform op).2.table.Full
            rw [hext]
            exact full_extendedTable
      rw [List.filter_cons_of_pos (by simp), Shared.outputs, Shared.outputs, hrest]

private theorem performAll_extended {a : Parser} (ha : a.table = extendedTable) (ops : List Op) :
    (a.performAll ops).table = extendedTable := by
  induction ops generalizing a with
  | nil => exact ha
  | cons op ops ih =>
    refine ih ?_
    rw [(tableStep_perform a op).full (ha ▸ full_extendedTable), ha]

/-- The static table after calls tells whether one of them came upon the index zero. -/
private theorem performAll_table {a : Parser} (ha : a.table = staticHeaderTable) (ops : List Op) :
    (a.AvoidsZero ops → (a.performAll ops).table = staticHeaderTable) ∧
      (¬ a.AvoidsZero ops → (a.performAll ops).table = extendedTable) := by
  induction ops generalizing a with
  | nil => exact ⟨fun _ => ha, fun h => (h trivial).elim⟩
  | cons op ops ih =>
    have hstep := (tableStep_perform a op).initial ha
    have hop : (∀ f, op = .parse f → ¬ a.MeetsZero f) ↔
        (a.perform op).2.table = staticHeaderTable := by
      cases op with
      | result => exact ⟨fun _ => ha, fun _ _ h => by cases h⟩
      | parse f =>
        rw [parse_table_eq_iff ha f]
        exact ⟨fun h => h f rfl, fun h f' hf' => by cases hf'; exact h⟩
    refine ⟨fun h => (ih (hop.mp h.1)).1 h.2, fun h => ?_⟩
    rcases hstep with hinit | hext
    · exact (ih hinit).2 fun hrest => h ⟨hop.mpr hinit, hrest⟩
    · exact performAll_extended hext ops

theorem extendedTable_ne : extendedTable ≠ staticHeaderTable := by
  intro h
  have hmem : 0 ∈ extendedTable := (AList.mem_insert _).mpr (.inl rfl)
  exact zero_notMem_staticHeaderTable (h ▸ hmem)

/-- The last static index is there for the second parser only with the entry of the index zero. -/
private theorem perform_lastStatic :
    (Parser.perform {} (.parse (.ofBlock [0xBD]))).1 = .returned .unknownHeader ∧
      (Parser.perform { table := extendedTable } (.parse (.ofBlock [0xBD]))).1 =
        .returned .done := by
  decide

private theorem outputs_append_b {w : Shared} {ops : List Op} {op : Op} :
    w.outputs (ops.map (Prod.mk .a) ++ [(.b, op)]) =
      [(Parser.perform { w.b with table := (w.a.performAll ops).table } op).1] := by
  induction ops generalizing w with
  | nil =>
    show [(w.b.perform op).1] = [(Parser.perform { w.b with table := w.a.table } op).1]
    rw [← w.table_eq]
  | cons first ops ih =>
    rw [List.map_cons, List.cons_append, Shared.outputs, ih]
    rfl

/-- Whatever calls of another parser come in between, what it produces is the same as without the
calls of the first parser if and only if none of these comes upon the index zero; and this is so
if and only if they leave the static table as it was. -/
theorem undisturbed_iff {a : Parser} (ha : a.table = staticHeaderTable) (ops : List Op) :
    ((∀ (b : Parser) (hb : b.table = a.table) (calls : List (Party × Op)),
        callsOf .a calls = ops →
          Shared.outputs ⟨a, b, hb⟩ calls =
            Shared.outputs ⟨a, b, hb⟩ (calls.filter fun c => c.1 = .b)) ↔ a.AvoidsZero ops) ∧
      ((a.performAll ops).table = staticHeaderTable ↔ a.AvoidsZero ops) := by
  obtain ⟨havoid, hmeet⟩ := performAll_table ha ops
  refine ⟨⟨fun h => ?_, ?_⟩, ⟨fun h => ?_, havoid⟩⟩
  · -- the last static index makes the second parser see that the table is full
    by_contra hnot
    have hcalls : callsOf .a (ops.map (Prod.mk .a) ++ [(.b, .parse (.ofBlock [0xBD]))]) = ops := by
      simp [callsOf, List.filter_append, List.filter_map, Function.comp_def]
    have hfilter : (ops.map (Prod.mk Party.a) ++ [(Party.b, Op.parse (.ofBlock [0xBD]))]).filter
        (fun c => c.1 = Party.b) = [(Party.b, Op.parse (.ofBlock [0xBD]))] := by
      simp [List.filter_append, List.filter_map, Function.comp_def]
    have houtputs := h {} ha.symm _ hcalls
    rw [hfilter, outputs_append_b, hmeet hnot, perform_lastStatic.2] at houtputs
    have hfresh : Shared.outputs ⟨a, {}, ha.symm⟩ [(.b, .parse (.ofBlock [0xBD]))] =
        [.returned .unknownHeader] := by
      rw [Shared.outputs, perform_lastStatic.1]
      rfl
    rw [hfresh] at houtputs
    simp at houtputs
  · rintro h b hb calls rfl
    exact outputs_eq_of_avoids (.inr ⟨ha, h⟩)
  · by_contra hnot
    exact extendedTable_ne ((hmeet hnot).symm.trans h)

/-- A parser that decodes `:method: GET` leaves the static table alone. -/
theorem undisturbed_sample :
    Parser.AvoidsZero {} [.parse (.ofBlock [0x82]), .result] :=
  (undisturbed_iff rfl _).2.mp rfl

/-- One parser reads an indexed field with index 0, and the other one `www-authenticate`, which it
could not read before. -/
theorem disturbed_by_zero :
    ¬ ∀ (w : Shared) (calls : List (Party × Op)), w.a.table = staticHeaderTable →
      w.outputs calls = w.outputs (calls.filter fun c => c.1 = .b) := by
  intro h
  have heq := h ⟨{}, {}, rfl⟩ [(.a, .parse (.ofBlock [0x80])), (.b, .parse (.ofBlock [0xBD]))] rfl
  have hne : Shared.outputs ⟨{}, {}, rfl⟩
      [(.a, .parse (.ofBlock [0x80])), (.b, .parse (.ofBlock [0xBD]))] ≠
        Shared.outputs ⟨{}, {}, rfl⟩ [(.b, .parse (.ofBlock [0xBD]))] := by
    decide
  exact hne heq

end Hpack

end Rite
