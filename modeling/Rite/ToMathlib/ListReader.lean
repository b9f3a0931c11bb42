import Mathlib

/-!
# Readers over a list of tokens

A reader takes tokens off the front of a list and returns the rest, or fails. It is *local* when
it leaves a suffix and does not look behind what it takes, and it *advances* when it takes at
least one token. Locality need not hold at the very end of the list, where a reader may accept
an item that is cut short; so it is stated for lists that go on.

## Main results

* `Local.bind`: local readers compose;
* `Many.of_append`: so does reading item by item;
* `Many.append_right`: a reader that can be given more reads the same items if more follows;
* `upToPair_append`: a text without a pair is read up to one;
* `exists_many`: a reader that advances reads items until the tokens or its luck run out.
-/

variable {ε τ α β : Type*}

/-- A reader takes an item off the front of a list of tokens, or fails. -/
abbrev ListReader (ε τ α : Type*) := List τ → Except ε (α × List τ)

namespace ListReader

/-- Read with `r`, then with the reader chosen by what it read. -/
protected def bind (r : ListReader ε τ α) (k : α → ListReader ε τ β) : ListReader ε τ β := fun l =>
  match r l with
  | .ok (a, m) => k a m
  | .error e => .error e

/-- Read nothing. -/
protected def pure (a : α) : ListReader ε τ α := fun l => .ok (a, l)

/-- Read `n` tokens, or fail with `e` if there are fewer. -/
def chunk (e : ε) (n : ℕ) : ListReader ε τ (List τ) := fun l =>
  if l.length < n then .error e else .ok (l.take n, l.drop n)

/-- Read nothing, or fail with `e` if there is no item. -/
def ofOption (e : ε) (o : Option α) : ListReader ε τ α := fun l =>
  match o with
  | some a => .ok (a, l)
  | none => .error e

/-- Read up to the first pair of `t` and `t'`, and the pair with it, or fail with `e`. -/
def upToPair [DecidableEq τ] (e : ε) (t t' : τ) : ListReader ε τ (List τ)
  | [] => .error e
  | [_] => .error e
  | x :: y :: l =>
    if x = t ∧ y = t' then .ok ([], l)
    else (upToPair e t t' (y :: l)).map (Prod.map (x :: ·) id)

/-- Read with the reader that the first token, or else `d`, chooses. -/
def byHead (d : τ) (k : τ → ListReader ε τ α) : ListReader ε τ α := fun l => k (l.headD d) l

theorem bind_eq_ok {r : ListReader ε τ α} {k : α → ListReader ε τ β} {l rest : List τ} {b : β} :
    ListReader.bind r k l = .ok (b, rest) ↔ ∃ a m, r l = .ok (a, m) ∧ k a m = .ok (b, rest) := by
  unfold ListReader.bind
  cases r l with
  | error e => simp
  | ok am =>
    obtain ⟨a, m⟩ := am
    simp

theorem bind_eq_error {r : ListReader ε τ α} {k : α → ListReader ε τ β} {l : List τ} {e : ε} :
    ListReader.bind r k l = .error e ↔
      r l = .error e ∨ ∃ a m, r l = .ok (a, m) ∧ k a m = .error e := by
  unfold ListReader.bind
  cases r l with
  | error e => simp
  | ok am =>
    obtain ⟨a, m⟩ := am
    simp

/-! ## Local readers -/

/-- A reader leaves a suffix of its input and does not look behind what it takes. -/
structure Local (r : ListReader ε τ α) : Prop where
  /-- What is left is a suffix of the input. -/
  suffix : ∀ {l rest a}, r l = .ok (a, rest) → rest <:+ l
  /-- An item that ends inside `p` is read from `p` alone. -/
  of_append : ∀ {p p' q a}, q ≠ [] → r (p ++ q) = .ok (a, p' ++ q) → r p = .ok (a, p')

/-- A reader takes at least one token. -/
def Advances (r : ListReader ε τ α) : Prop :=
  ∀ l rest a, r l = .ok (a, rest) → rest.length < l.length

theorem local_pure (a : α) : Local (ListReader.pure a : ListReader ε τ α) where
  suffix h := by
    simp only [ListReader.pure, Except.ok.injEq, Prod.mk.injEq] at h
    rw [h.2]
  of_append _ h := by
    simp only [ListReader.pure, Except.ok.injEq, Prod.mk.injEq, List.append_left_inj] at h ⊢
    exact h

theorem Local.bind {r : ListReader ε τ α} {k : α → ListReader ε τ β} (hr : Local r)
    (hk : ∀ a, Local (k a)) : Local (ListReader.bind r k) where
  suffix h := by
    obtain ⟨a, m, hm, hrest⟩ := bind_eq_ok.mp h
    exact ((hk a).suffix hrest).trans (hr.suffix hm)
  of_append hq h := by
    obtain ⟨a, m, hm, hrest⟩ := bind_eq_ok.mp h
    -- what the second reader leaves ends with `q`, hence so does what it was given
    obtain ⟨u, rfl⟩ := (hk a).suffix hrest
    rw [← List.append_assoc] at hm hrest
    exact bind_eq_ok.mpr ⟨a, _, hr.of_append hq hm, (hk a).of_append hq hrest⟩

theorem Advances.bind {r : ListReader ε τ α} {k : α → ListReader ε τ β} (hr : Advances r)
    (hk : ∀ a, Local (k a)) : Advances (ListReader.bind r k) := by
  intro l rest b h
  obtain ⟨a, m, hm, hrest⟩ := bind_eq_ok.mp h
  exact lt_of_le_of_lt ((hk a).suffix hrest).length_le (hr _ _ _ hm)

theorem local_chunk (e : ε) (n : ℕ) : Local (chunk e n : ListReader ε τ (List τ)) where
  suffix {l rest a} h := by
    unfold chunk at h
    split at h
    · cases h
    · simp only [Except.ok.injEq, Prod.mk.injEq] at h
      exact h.2 ▸ List.drop_suffix n l
  of_append {p p' q a} _ h := by
    unfold chunk at h ⊢
    split at h
    · cases h
    next hle =>
      simp only [Except.ok.injEq, Prod.mk.injEq] at h
      have hlen := congrArg List.length h.2
      simp only [List.length_append, List.length_drop] at hle hlen
      have hn : n ≤ p.length := by omega
      rw [List.take_append_of_le_length hn, List.drop_append_of_le_length hn,
        List.append_left_inj] at h
      rw [if_neg (not_lt.mpr hn), h.1, h.2]

theorem advances_byHead {d : τ} {k : τ → ListReader ε τ α} (hk : ∀ t, Advances (k t)) :
    Advances (byHead d k) := fun h => hk _ h

theorem local_byHead {d : τ} {k : τ → ListReader ε τ α} (hk : ∀ t, Local (k t))
    (hadv : ∀ t, Advances (k t)) : Local (byHead d k) where
  suffix h := (hk _).suffix h
  of_append {p p' q a} hq h := by
    cases p with
    | nil =>
      have := hadv _ _ _ _ h
      simp only [List.nil_append, List.length_append] at this
      omega
    | cons t p => exact (hk t).of_append hq h

/-! ## Failure -/

/-- A reader fails only with errors that satisfy `P`. -/
def FailsWith (r : ListReader ε τ α) (P : ε → Prop) : Prop := ∀ l e, r l = .error e → P e

theorem failsWith_pure (a : α) (P : ε → Prop) :
    FailsWith (ListReader.pure a : ListReader ε τ α) P := by
  intro l e h
  cases h

theorem failsWith_chunk {e : ε} {P : ε → Prop} (he : P e) (n : ℕ) :
    FailsWith (chunk e n : ListReader ε τ (List τ)) P := by
  intro l e' h
  unfold chunk at h
  split at h
  · cases h
    exact he
  · cases h

theorem FailsWith.bind {r : ListReader ε τ α} {k : α → ListReader ε τ β} {P : ε → Prop}
    (hr : FailsWith r P) (hk : ∀ a, FailsWith (k a) P) : FailsWith (ListReader.bind r k) P := by
  intro l e h
  rcases bind_eq_error.mp h with h | ⟨a, m, -, h⟩
  · exact hr l e h
  · exact hk a m e h

/-! ## Readers that can be given more -/

/-- What is read stays the same if more tokens follow. -/
def Extends (r : ListReader ε τ α) : Prop :=
  ∀ l rest a q, r l = .ok (a, rest) → r (l ++ q) = .ok (a, rest ++ q)

theorem extends_pure (a : α) : Extends (ListReader.pure a : ListReader ε τ α) := by
  intro l rest b q h
  cases h
  rfl

theorem extends_ofOption (e : ε) (o : Option α) :
    Extends (ofOption e o : ListReader ε τ α) := by
  intro l rest a q h
  cases o with
  | none => cases h
  | some b =>
    cases h
    rfl

theorem extends_chunk (e : ε) (n : ℕ) : Extends (chunk e n : ListReader ε τ (List τ)) := by
  intro l rest a q h
  unfold chunk at h ⊢
  split at h
  · cases h
  next hle =>
    cases h
    have hn : n ≤ l.length := not_lt.mp hle
    rw [if_neg (by rw [List.length_append]; omega), List.take_append_of_le_length hn,
      List.drop_append_of_le_length hn]

theorem Extends.bind {r : ListReader ε τ α} {k : α → ListReader ε τ β} (hr : Extends r)
    (hk : ∀ a, Extends (k a)) : Extends (ListReader.bind r k) := by
  intro l rest b q h
  obtain ⟨a, m, hm, hrest⟩ := bind_eq_ok.mp h
  exact bind_eq_ok.mpr ⟨a, m ++ q, hr _ _ _ q hm, hk a _ _ _ q hrest⟩

section UpToPair

variable [DecidableEq τ] {e : ε} {t t' : τ}

/-- What is read is in front of the pair. -/
theorem eq_append_of_upToPair {l rest p : List τ} (h : upToPair e t t' l = .ok (p, rest)) :
    l = p ++ t :: t' :: rest := by
  fun_induction upToPair e t t' l generalizing p rest with
  | case1 => cases h
  | case2 => cases h
  | case3 x y l hpair =>
    obtain ⟨rfl, rfl⟩ := hpair
    cases h
    rfl
  | case4 x y l hpair ih =>
    cases hread : upToPair e t t' (y :: l) with
    | error e' =>
      rw [hread] at h
      cases h
    | ok found =>
      rw [hread] at h
      cases h
      rw [ih hread]
      rfl

/-- The first pair is the one in front of which there is none. -/
theorem upToPair_append (ht : t ≠ t') {p : List τ} (h : ¬ [t, t'] <:+: p) (rest : List τ) :
    upToPair e t t' (p ++ t :: t' :: rest) = .ok (p, rest) := by
  induction p with
  | nil => rw [List.nil_append, upToPair, if_pos ⟨rfl, rfl⟩]
  | cons x p ih =>
    have hp : ¬ [t, t'] <:+: p := fun hpair => h (hpair.trans (List.suffix_cons x p).isInfix)
    cases p with
    | nil =>
      -- the first of the pair does not end another one
      rw [List.cons_append, List.nil_append, upToPair, if_neg (fun hx => ht hx.2)]
      rw [List.nil_append] at ih
      rw [ih hp]
      rfl
    | cons y p =>
      have hx : ¬ (x = t ∧ y = t') := by
        rintro ⟨rfl, rfl⟩
        exact h (List.prefix_append [x, y] p).isInfix
      rw [List.cons_append, List.cons_append, upToPair, if_neg hx, ← List.cons_append, ih hp]
      rfl

theorem extends_upToPair (e : ε) (t t' : τ) :
    Extends (upToPair e t t' : ListReader ε τ (List τ)) := by
  intro l rest p q h
  fun_induction upToPair e t t' l generalizing p rest with
  | case1 => cases h
  | case2 => cases h
  | case3 x y l hpair =>
    cases h
    rw [List.cons_append, List.cons_append, upToPair, if_pos hpair]
  | case4 x y l hpair ih =>
    cases hread : upToPair e t t' (y :: l) with
    | error e' =>
      rw [hread] at h
      cases h
    | ok found =>
      rw [hread] at h
      cases h
      have hmore := ih _ _ hread
      rw [List.cons_append] at hmore
      rw [List.cons_append, List.cons_append, upToPair, if_neg hpair, hmore]
      rfl

end UpToPair

/-! ## Reading item by item -/

/-- Reading `items` one after the other off the list leaves `rest`. -/
inductive Many (r : ListReader ε τ α) : List τ → List α → List τ → Prop
  | nil (l : List τ) : Many r l [] l
  | cons {l m rest : List τ} {a : α} {items : List α} :
    r l = .ok (a, m) → Many r m items rest → Many r l (a :: items) rest

variable {r : ListReader ε τ α} {l m rest : List τ} {items items' : List α}

theorem Many.append (h : Many r l items m) (h' : Many r m items' rest) :
    Many r l (items ++ items') rest := by
  induction h with
  | nil => exact h'
  | cons hread _ ih => exact .cons hread (ih h')

/-- Items that are written one after the other are read one after the other. -/
theorem many_flatMap {β : Type*} {write : β → List τ} {item : β → α} {bs : List β}
    (h : ∀ b ∈ bs, ∀ rest, r (write b ++ rest) = .ok (item b, rest)) :
    Many r (bs.flatMap write) (bs.map item) [] := by
  induction bs with
  | nil => exact .nil []
  | cons b bs ih =>
    rw [List.flatMap_cons, List.map_cons]
    exact .cons (h b List.mem_cons_self _) (ih fun b' hb' => h b' (List.mem_cons_of_mem b hb'))

theorem Many.suffix (hr : Local r) (h : Many r l items rest) : rest <:+ l := by
  induction h with
  | nil => exact List.suffix_rfl
  | cons hread _ ih => exact ih.trans (hr.suffix hread)

/-- Items that end inside `p` are read from `p` alone. -/
theorem Many.of_append (hr : Local r) {p p' q : List τ} (hq : q ≠ [])
    (h : Many r (p ++ q) items (p' ++ q)) : Many r p items p' := by
  generalize hl : p ++ q = l at h
  generalize hrest : p' ++ q = rest at h
  induction h generalizing p with
  | nil =>
    obtain rfl : p = p' := List.append_cancel_right (hl.trans hrest.symm)
    exact .nil p
  | cons hread htail ih =>
    subst hl hrest
    obtain ⟨u, hu⟩ := htail.suffix hr
    rw [← List.append_assoc] at hu
    subst hu
    exact .cons (hr.of_append hq hread) (ih rfl rfl)

/-- The items are read the same if more follows. -/
theorem Many.append_right (hr : Extends r) (h : Many r l items rest) (q : List τ) :
    Many r (l ++ q) items (rest ++ q) := by
  induction h with
  | nil l => exact .nil (l ++ q)
  | cons hread _ ih => exact .cons (hr _ _ _ q hread) ih

/-- As many items are the same ones. -/
theorem Many.unique (h : Many r l items m) (h' : Many r l items' rest)
    (hlength : items.length = items'.length) : items = items' ∧ m = rest := by
  induction h generalizing items' with
  | nil l =>
    cases h' with
    | nil => exact ⟨rfl, rfl⟩
    | cons hread' _ => cases hlength
  | cons hread _ ih =>
    cases h' with
    | nil => cases hlength
    | cons hread' htail' =>
      obtain ⟨rfl, rfl⟩ := Prod.mk.inj (Except.ok.inj (hread.symm.trans hread'))
      obtain ⟨rfl, rfl⟩ := ih htail' (Nat.succ.inj hlength)
      exact ⟨rfl, rfl⟩

/-- Where the reader fails, there are no more items. -/
theorem Many.isPrefix (h : Many r l items m) (h' : Many r l items' rest) {e : ε}
    (hfail : r rest = .error e) : items <+: items' := by
  induction h generalizing items' with
  | nil => exact List.nil_prefix
  | cons hread _ ih =>
    cases h' with
    | nil =>
      rw [hread] at hfail
      cases hfail
    | cons hread' htail' =>
      obtain ⟨rfl, rfl⟩ := Prod.mk.inj (Except.ok.inj (hread.symm.trans hread'))
      exact List.cons_prefix_cons.mpr ⟨rfl, ih htail'⟩

/-- The pieces of a list are cut where an item ends. -/
def CutsAt (r : ListReader ε τ α) : List (List τ) → Prop
  | [] => True
  | p :: ps => (∃ items, Many r (p ++ ps.flatten) items ps.flatten) ∧ CutsAt r ps

/-- Each piece is then read on its own, and the items are those of the whole list. -/
theorem CutsAt.exists_items (hr : Local r) {ps : List (List τ)} (h : CutsAt r ps)
    (hne : ∀ p ∈ ps, p ≠ []) :
    ∃ itemss : List (List α), List.Forall₂ (fun p items => Many r p items []) ps itemss ∧
      Many r ps.flatten itemss.flatten [] := by
  induction ps with
  | nil => exact ⟨[], .nil, .nil []⟩
  | cons p ps ih =>
    obtain ⟨⟨items, hitems⟩, hps⟩ := h
    obtain ⟨itemss, hforall, hflatten⟩ := ih hps fun p hp => hne p (List.mem_cons_of_mem _ hp)
    refine ⟨items :: itemss, .cons ?_ hforall, hitems.append hflatten⟩
    cases ps with
    | nil => simpa using hitems
    | cons q ps =>
      -- what follows the piece is not empty, so that its items are read from it alone
      have hq : (q :: ps).flatten ≠ [] := by
        simp [hne q (by simp)]
      exact hitems.of_append hr hq

/-- The items that can be read one after the other, with at most `n` of them. -/
def readable (r : ListReader ε τ α) : ℕ → List τ → List α
  | 0, _ => []
  | n + 1, l =>
    match r l with
    | .ok (a, m) => a :: readable r n m
    | .error _ => []

/-- They are read one after the other. -/
theorem exists_many_readable (r : ListReader ε τ α) (n : ℕ) (l : List τ) :
    ∃ rest, Many r l (readable r n l) rest := by
  induction n generalizing l with
  | zero => exact ⟨l, .nil l⟩
  | succ n ih =>
    rw [readable]
    cases hread : r l with
    | error e => exact ⟨l, .nil l⟩
    | ok am =>
      obtain ⟨rest, hmany⟩ := ih am.2
      exact ⟨rest, .cons hread hmany⟩

/-- Items that can be read one after the other are among them. -/
theorem isPrefix_readable (h : Many r l items rest) {n : ℕ} (hn : items.length ≤ n) :
    items <+: readable r n l := by
  induction h generalizing n with
  | nil => exact List.nil_prefix
  | cons hread _ ih =>
    cases n with
    | zero => simp at hn
    | succ n =>
      rw [readable, hread]
      exact List.cons_prefix_cons.mpr ⟨rfl, ih (by simpa using hn)⟩

/-- Reading goes on until the list is empty or the reader fails. -/
theorem many_readable (hr : Advances r) {n : ℕ} {l : List τ} (hn : l.length ≤ n) :
    ∃ rest, Many r l (readable r n l) rest ∧ (rest = [] ∨ ∃ e, r rest = .error e) := by
  induction n generalizing l with
  | zero => exact ⟨l, .nil l, .inl (List.length_eq_zero_iff.mp (Nat.le_zero.mp hn))⟩
  | succ n ih =>
    rw [readable]
    cases hread : r l with
    | error e => exact ⟨l, .nil l, .inr ⟨e, hread⟩⟩
    | ok am =>
      obtain ⟨a, m⟩ := am
      have hlt := hr _ _ _ hread
      obtain ⟨rest, hmany, hend⟩ := ih (l := m) (by omega)
      exact ⟨rest, .cons hread hmany, hend⟩

theorem exists_many (hr : Advances r) (l : List τ) :
    ∃ items rest, Many r l items rest ∧ (rest = [] ∨ ∃ e, r rest = .error e) :=
  ⟨_, many_readable hr le_rfl⟩

/-- Read the whole list item by item, with at most `n` items. -/
def all (r : ListReader ε τ α) (e : ε) : ℕ → List τ → Except ε (List α)
  | _, [] => .ok []
  | 0, _ :: _ => .error e
  | n + 1, l =>
    match r l with
    | .ok (a, m) => (all r e n m).map (a :: ·)
    | .error e => .error e

theorem many_of_all {e : ε} {n : ℕ} {l : List τ} {items : List α} (h : all r e n l = .ok items) :
    Many r l items [] := by
  fun_induction all r e n l generalizing items with
  | case1 =>
    cases h
    exact .nil []
  | case2 => cases h
  | case3 n l _ a m hread ih =>
    -- the other items are read from what the first one leaves
    cases hall : all r e n m with
    | error e' =>
      rw [hall] at h
      cases h
    | ok items' =>
      rw [hall] at h
      cases h
      exact .cons hread (ih hall)
  | case4 => cases h

/-- A list that is read item by item is read as a whole. -/
theorem all_of_many {e : ε} {n : ℕ} {l : List τ} {items : List α} (h : Many r l items [])
    (hne : ∀ a m, r [] ≠ .ok (a, m)) (hn : items.length ≤ n) : all r e n l = .ok items := by
  generalize hrest : ([] : List τ) = rest at h
  induction h generalizing n with
  | nil =>
    subst hrest
    cases n <;> rfl
  | @cons l m rest a items hread _ ih =>
    subst hrest
    cases l with
    | nil => exact absurd hread (hne a m)
    | cons t l =>
      cases n with
      | zero => simp at hn
      | succ n =>
        have hitems := ih (by simpa using hn) rfl
        simp only [all, hread, hitems]
        rfl

end ListReader
