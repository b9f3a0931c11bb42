import Mathlib

/-!
# Backtracking regular expressions

Regular expressions with capturing groups, matched by backtracking as in ECMAScript: a matcher is
given what is to be matched behind it, and goes back to its next choice if that fails. The letters
are those of an arbitrary alphabet.

Each round of a repetition forgets what the groups inside of it have captured, and a round that is
not required fails if it takes no letter.

## Main results

* `run_word`: a word is matched letter by letter;
* `run_star`, `run_plus`: a greedy repetition takes all letters of its set, if that lets the rest
  match;
* `exists_of_run_star`: what a repetition takes is a word over its set;
* `run_option`: an option is taken if it matches, with what follows.
-/

variable {α : Type*}

/-- A regular expression over an alphabet, with numbered groups. -/
inductive Regex (α : Type*)
  /-- Nothing. -/
  | empty
  /-- A letter of a set. -/
  | set (p : α → Bool)
  /-- One after the other. -/
  | seq (r r' : Regex α)
  /-- The first, or else the second. -/
  | alt (r r' : Regex α)
  /-- A capturing group. -/
  | group (i : ℕ) (r : Regex α)
  /-- At least `min` and at most `max` rounds, as many or as few as possible. -/
  | rep (min : ℕ) (max : Option ℕ) (greedy : Bool) (r : Regex α)
  /-- What a group has captured. -/
  | backreference (i : ℕ)
  /-- A look ahead, for a match or for none. -/
  | lookahead (negated : Bool) (r : Regex α)
  /-- The beginning of the input. -/
  | start
  /-- The end of the input. -/
  | stop
  /-- A place between a letter of the set and none, or any other place. -/
  | boundary (p : α → Bool) (negated : Bool)

namespace Regex

/-- How far a match has come. -/
structure State (α : Type*) where
  /-- The letters in front, the last one first. -/
  before : List α
  /-- The letters to come. -/
  rest : List α
  /-- What the groups have captured. -/
  captures : ℕ → Option (List α)

/-- A matcher, which is given what is to be matched behind it. -/
abbrev Matcher (α : Type*) := (State α → Option (State α)) → State α → Option (State α)

namespace State

/-- Before the first letter. -/
def initial (input : List α) : State α := ⟨[], input, fun _ => none⟩

/-- The state behind `n` letters. -/
def advance (n : ℕ) (s : State α) : State α :=
  { s with before := (s.rest.take n).reverse ++ s.before, rest := s.rest.drop n }

/-- A group captures the letters up to another state. -/
def capture (i : ℕ) (s s' : State α) : State α :=
  let word := s.rest.take (s.rest.length - s'.rest.length)
  { s' with captures := Function.update s'.captures i (some word) }

/-- Groups forget what they have captured. -/
def forget (groups : List ℕ) (s : State α) : State α :=
  { s with captures := fun i => if i ∈ groups then none else s.captures i }

/-- The place is between a letter of the set and none. -/
def atBoundary (p : α → Bool) (s : State α) : Bool := s.before.head?.any p != s.rest.head?.any p

end State

/-- The groups of a regular expression. -/
def groups : Regex α → List ℕ
  | seq r r' | alt r r' => r.groups ++ r'.groups
  | group i r => i :: r.groups
  | rep _ _ _ r | lookahead _ r => r.groups
  | empty | set _ | backreference _ | start | stop | boundary _ _ => []

/-- The rounds of a repetition. -/
def runRep (m : Matcher α) (groups : List ℕ) (greedy : Bool) (min : ℕ) (max : Option ℕ)
    (k : State α → Option (State α)) (s : State α) : Option (State α) :=
  if max = some 0 then k s
  else
    let round := m (fun s' =>
      -- a round that is not required has to take a letter
      if min = 0 ∧ s.rest.length ≤ s'.rest.length then none
      else runRep m groups greedy (min - 1) (max.map (· - 1)) k s') (s.forget groups)
    -- a greedy repetition would rather go on, one that is not would rather stop
    if min ≠ 0 then round
    else if greedy then round <|> k s
    else k s <|> round
termination_by (min, s.rest.length)
decreasing_by
  rcases Nat.eq_zero_or_pos min with rfl | hmin
  · exact Prod.Lex.right _ (by omega)
  · exact Prod.Lex.left _ _ (by omega)

/-- The matcher of a regular expression. -/
def run [DecidableEq α] : Regex α → Matcher α
  | empty => fun k s => k s
  | set p => fun k s =>
    match s.rest with
    | c :: _ => if p c then k (s.advance 1) else none
    | [] => none
  | seq r r' => fun k => r.run (r'.run k)
  | alt r r' => fun k s => r.run k s <|> r'.run k s
  | group i r => fun k s => r.run (fun s' => k (s.capture i s')) s
  | rep min max greedy r => runRep r.run r.groups greedy min max
  | backreference i => fun k s =>
    match s.captures i with
    | none => k s
    | some word => if word <+: s.rest then k (s.advance word.length) else none
  | lookahead false r => fun k s =>
    (r.run some s).bind fun s' => k { s with captures := s'.captures }
  | lookahead true r => fun k s => if (r.run some s).isSome then none else k s
  | start => fun k s => if s.before = [] then k s else none
  | stop => fun k s => if s.rest = [] then k s else none
  | boundary p negated => fun k s => if s.atBoundary p != negated then k s else none

/-! ## Sequences -/

/-- Regular expressions one after the other. -/
def sequence (rs : List (Regex α)) : Regex α := rs.foldr seq empty

/-- A letter. -/
def letter [DecidableEq α] (c : α) : Regex α := set (· == c)

@[simp] theorem State.forget_nil (s : State α) : s.forget [] = s := by simp [State.forget]

@[simp] theorem groups_set (p : α → Bool) : (set p).groups = [] := rfl

section Run

variable [DecidableEq α] {k : State α → Option (State α)} {s t : State α}
  {before rest word : List α} {captures : ℕ → Option (List α)}

@[simp] theorem run_empty : (empty : Regex α).run k s = k s := rfl

@[simp] theorem run_seq (r r' : Regex α) : (seq r r').run k s = r.run (r'.run k) s := rfl

@[simp] theorem run_group (i : ℕ) (r : Regex α) :
    (group i r).run k s = r.run (fun s' => k (s.capture i s')) s := rfl

@[simp] theorem run_rep (min : ℕ) (max : Option ℕ) (greedy : Bool) (r : Regex α) :
    (rep min max greedy r).run k s = runRep r.run r.groups greedy min max k s := rfl

@[simp] theorem run_set_nil (p : α → Bool) : (set p).run k ⟨before, [], captures⟩ = none := rfl

@[simp] theorem run_set_cons (p : α → Bool) (c : α) :
    (set p).run k ⟨before, c :: rest, captures⟩ =
      if p c then k ⟨c :: before, rest, captures⟩ else none := rfl

theorem run_letter (c : α) : (letter c).run k ⟨before, c :: rest, captures⟩ =
    k ⟨c :: before, rest, captures⟩ := by
  rw [letter, run_set_cons, beq_self_eq_true, if_pos rfl]

@[simp] theorem run_sequence_nil : (sequence ([] : List (Regex α))).run k s = k s := rfl

@[simp] theorem run_sequence_cons (r : Regex α) (rs : List (Regex α)) :
    (sequence (r :: rs)).run k s = r.run ((sequence rs).run k) s := rfl

@[simp] theorem run_sequence_append (rs rs' : List (Regex α)) :
    (sequence (rs ++ rs')).run k s = (sequence rs).run ((sequence rs').run k) s := by
  induction rs generalizing s with
  | nil => rfl
  | cons r rs ih =>
    have hk : (sequence (rs ++ rs')).run k = (sequence rs).run ((sequence rs').run k) :=
      funext fun s => ih
    rw [List.cons_append, run_sequence_cons, run_sequence_cons, hk]

/-- A word is matched letter by letter. -/
theorem run_word (word : List α) :
    (sequence (word.map letter)).run k ⟨before, word ++ rest, captures⟩ =
      k ⟨word.reverse ++ before, rest, captures⟩ := by
  induction word generalizing before with
  | nil => rfl
  | cons c word ih =>
    rw [List.map_cons, run_sequence_cons, letter, List.cons_append, run_set_cons, beq_self_eq_true,
      if_pos rfl, ih, List.reverse_cons, List.append_assoc, List.singleton_append]

/-! ## Repetitions -/

/-- Rounds that are not required take the letters of the set, if that lets the rest match. -/
private theorem runRep_set {p : α → Bool} (hword : ∀ c ∈ word, p c)
    (hrest : ∀ c ∈ rest.head?, ¬ p c)
    (hk : k ⟨word.reverse ++ before, rest, captures⟩ = some t) :
    runRep (set p).run [] true 0 none k ⟨before, word ++ rest, captures⟩ = some t := by
  induction word generalizing before with
  | nil =>
    -- no round takes the next letter, and so the rest has to match here
    rw [runRep, if_neg (by simp)]
    cases rest with
    | nil => simpa using hk
    | cons c rest =>
      have hc : p c = false := by simpa using hrest c rfl
      simpa [hc] using hk
  | cons c word ih =>
    rw [List.forall_mem_cons] at hword
    -- the round takes the letter, and the rounds behind it go on to the end of the word
    have hround : runRep (set p).run [] true 0 none k ⟨c :: before, word ++ rest, captures⟩ =
        some t := ih hword.2 (by simpa using hk)
    rw [runRep, if_neg (by simp)]
    simp [hword.1, hround]

/-- A greedy repetition that is not required takes all letters of its set, perhaps none, if that
lets the rest match. -/
theorem run_star {p : α → Bool} (hword : ∀ c ∈ word, p c) (hrest : ∀ c ∈ rest.head?, ¬ p c)
    (hk : k ⟨word.reverse ++ before, rest, captures⟩ = some t) :
    (rep 0 none true (set p)).run k ⟨before, word ++ rest, captures⟩ = some t := by
  rw [run_rep, groups_set]
  exact runRep_set hword hrest hk

/-- What a repetition of a set takes is a word over the set, and the rest matches behind it. -/
theorem exists_of_run_star {p : α → Bool} {greedy : Bool}
    (h : (rep 0 none greedy (set p)).run k ⟨before, rest, captures⟩ = some t) :
    ∃ word rest', rest = word ++ rest' ∧ (∀ c ∈ word, p c) ∧
      k ⟨word.reverse ++ before, rest', captures⟩ = some t := by
  rw [run_rep, groups_set] at h
  induction rest generalizing before with
  | nil =>
    rw [runRep, if_neg (by simp)] at h
    exact ⟨[], [], rfl, by simp, by cases greedy <;> simpa using h⟩
  | cons c rest ih =>
    rw [runRep, if_neg (by simp)] at h
    -- either the rest matches here, or a round takes the letter
    have hcases : k ⟨before, c :: rest, captures⟩ = some t ∨ p c = true ∧
        runRep (set p).run [] greedy 0 none k ⟨c :: before, rest, captures⟩ = some t := by
      cases hc : p c <;> cases greedy <;> simp [hc, Option.or_eq_some_iff] at h ⊢
      all_goals tauto
    rcases hcases with hk | ⟨hc, hrounds⟩
    · exact ⟨[], c :: rest, rfl, by simp, hk⟩
    · obtain ⟨word, rest', rfl, hword, hk⟩ := ih hrounds
      exact ⟨c :: word, rest', rfl, List.forall_mem_cons.mpr ⟨hc, hword⟩, by simpa using hk⟩

/-- A greedy repetition takes all letters of its set, if that lets the rest match. -/
theorem run_plus {p : α → Bool} (hne : word ≠ []) (hword : ∀ c ∈ word, p c)
    (hrest : ∀ c ∈ rest.head?, ¬ p c)
    (hk : k ⟨word.reverse ++ before, rest, captures⟩ = some t) :
    (rep 1 none true (set p)).run k ⟨before, word ++ rest, captures⟩ = some t := by
  obtain ⟨c, word, rfl⟩ := List.exists_cons_of_ne_nil hne
  rw [List.forall_mem_cons] at hword
  -- the first round is required
  have hrounds : runRep (set p).run [] true 0 none k ⟨c :: before, word ++ rest, captures⟩ =
      some t := runRep_set hword.2 hrest (by simpa using hk)
  rw [run_rep, groups_set, runRep, if_neg (by simp)]
  simp [hword.1, hrounds]

/-- An option is taken if it matches, with what follows, and takes a letter. -/
theorem run_option (r : Regex α) :
    (rep 0 (some 1) true r).run k s =
      (r.run (fun s' => if s.rest.length ≤ s'.rest.length then none else k s') (s.forget r.groups)
        <|> k s) := by
  -- behind the only round there is no other
  have hlast (s' : State α) : runRep r.run r.groups true 0 (some 0) k s' = k s' := by
    rw [runRep, if_pos rfl]
  rw [run_rep, runRep, if_neg (by simp)]
  simp [hlast]

end Run

/-! ## Matches -/

section Match

variable [DecidableEq α]

/-- A match of the whole input. -/
def fullMatch (r : Regex α) (input : List α) : Option (State α) :=
  r.run (fun s => if s.rest = [] then some s else none) (.initial input)

/-- The first match behind the letters in front: where it begins and where it ends. -/
def searchFrom (r : Regex α) (before : List α) : List α → Option (State α × State α)
  | [] => (r.run some ⟨before, [], fun _ => none⟩).map (⟨before, [], fun _ => none⟩, ·)
  | c :: rest =>
    match r.run some ⟨before, c :: rest, fun _ => none⟩ with
    | some s => some (⟨before, c :: rest, fun _ => none⟩, s)
    | none => searchFrom r (c :: before) rest

/-- The first match in the input. -/
def search (r : Regex α) (input : List α) : Option (State α × State α) := r.searchFrom [] input

/-- A search passes the letters at which there is no match. -/
theorem searchFrom_append {r : Regex α} {word rest : List α}
    (h : ∀ c ∈ word, ∀ before rest, r.run some ⟨before, c :: rest, fun _ => none⟩ = none)
    (before : List α) :
    r.searchFrom before (word ++ rest) = r.searchFrom (word.reverse ++ before) rest := by
  induction word generalizing before with
  | nil => rfl
  | cons c word ih =>
    rw [List.forall_mem_cons] at h
    rw [List.cons_append, searchFrom, h.1, ih h.2, List.reverse_cons, List.append_assoc,
      List.singleton_append]

end Match

end Regex
