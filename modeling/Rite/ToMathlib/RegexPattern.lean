import Rite.ToMathlib.ListReader
import Rite.ToMathlib.Regex

/-!
# Patterns of regular expressions

The grammar of ECMAScript patterns, over letters of eight bits. A pattern is read token by token,
and the tokens are put together with a stack of the groups that are open.

## Main results

* `token_letter`: a letter that is no syntax character stands for itself;
* `compile_of_many`: the tokens of a pattern determine its regular expression.
-/

namespace RegexPattern

open ListReader Regex

/-! ## Letters -/

/-- The code of a character. -/
def code (c : Char) : UInt8 := UInt8.ofNat c.toNat

/-- The letters from one to another. -/
def range (a b : UInt8) (x : UInt8) : Bool := a ≤ x && x ≤ b

/-- A letter of `\d`. -/
def isDigit : UInt8 → Bool := range (code '0') (code '9')

/-- A letter of `\w`. -/
def isWord (x : UInt8) : Bool :=
  isDigit x || range (code 'A') (code 'Z') x || range (code 'a') (code 'z') x || x == code '_'

/-- A letter of `\s`. -/
def isSpace (x : UInt8) : Bool := range 0x09 0x0D x || x == code ' '

/-- A line terminator. -/
def isTerminator (x : UInt8) : Bool := x == 0x0A || x == 0x0D

/-- The letters that mean something else than themselves. -/
def syntaxCharacters : List UInt8 :=
  ['^', '$', '\\', '.', '*', '+', '?', '(', ')', '[', ']', '{', '}', '|'].map code

/-- A hexadecimal digit. -/
def hexDigit (x : UInt8) : Option ℕ :=
  if isDigit x then some (x - code '0').toNat
  else if range (code 'A') (code 'F') x then some ((x - code 'A').toNat + 10)
  else if range (code 'a') (code 'f') x then some ((x - code 'a').toNat + 10)
  else none

/-! ## Tokens -/

/-- How a group begins. -/
inductive Opening
  | capture
  | plain
  | lookahead (negated : Bool)

/-- The tokens of a pattern. -/
inductive Token
  | atom (p : UInt8 → Bool)
  | assertion (r : Regex UInt8)
  | backreference (i : ℕ)
  | opening (o : Opening)
  | closing
  | bar
  | quantifier (min : ℕ) (max : Option ℕ) (greedy : Bool)

/-- A decimal number. -/
def number (s : List UInt8) : Option (ℕ × List UInt8) :=
  let digits := s.takeWhile isDigit
  if digits = [] then none
  else some (digits.foldl (fun n d => 10 * n + (d - code '0').toNat) 0, s.drop digits.length)

/-- `n` hexadecimal digits. -/
def hexNumber : ℕ → ℕ → List UInt8 → Option (UInt8 × List UInt8)
  | 0, value, s => some (UInt8.ofNat value, s)
  | _ + 1, _, [] => none
  | n + 1, value, c :: s => (hexDigit c).bind fun d => hexNumber n (16 * value + d) s

/-- The letters of a class escape. -/
def classEscape (c : UInt8) : Option (UInt8 → Bool) :=
  if c = code 'd' then some isDigit
  else if c = code 'D' then some fun x => ! isDigit x
  else if c = code 's' then some isSpace
  else if c = code 'S' then some fun x => ! isSpace x
  else if c = code 'w' then some isWord
  else if c = code 'W' then some fun x => ! isWord x
  else none

/-- The letter of a character escape, behind the backslash. -/
def characterEscape : List UInt8 → Option (UInt8 × List UInt8)
  | [] => none
  | c :: s =>
    if c = code 't' then some (0x09, s)
    else if c = code 'n' then some (0x0A, s)
    else if c = code 'v' then some (0x0B, s)
    else if c = code 'f' then some (0x0C, s)
    else if c = code 'r' then some (0x0D, s)
    else if c = code '0' then some (0x00, s)
    else if c = code 'x' then hexNumber 2 0 s
    else if c = code 'u' then hexNumber 4 0 s
    else if c = code 'c' then
      match s with
      | [] => none
      | l :: s =>
        if range (code 'A') (code 'Z') l || range (code 'a') (code 'z') l then some (l % 32, s)
        else none
    -- only what cannot be a part of a name may be escaped otherwise
    else if isWord c then none
    else some (c, s)

/-- An escape, behind the backslash. -/
def escape : ListReader Unit UInt8 Token
  | [] => .error ()
  | c :: s =>
    if c = code 'b' then .ok (.assertion (.boundary isWord false), s)
    else if c = code 'B' then .ok (.assertion (.boundary isWord true), s)
    else if range (code '1') (code '9') c then
      match number (c :: s) with
      | some (i, s) => .ok (.backreference i, s)
      | none => .error ()
    else
      match classEscape c, characterEscape (c :: s) with
      | some p, _ => .ok (.atom p, s)
      | none, some (d, s) => .ok (.atom (· == d), s)
      | none, none => .error ()

/-- A letter or the letters of a class escape, between brackets. -/
def classAtom : List UInt8 → Option ((UInt8 ⊕ (UInt8 → Bool)) × List UInt8)
  | [] => none
  | c :: s =>
    if c = code '\\' then
      match s with
      | [] => none
      | d :: s' =>
        if d = code 'b' then some (.inl 0x08, s')
        else
          match classEscape d with
          | some p => some (.inr p, s')
          | none => (characterEscape s).map fun r => (.inl r.1, r.2)
    else some (.inl c, s)

/-- What is left of the letters between brackets, up to the closing one. -/
def classRanges : ℕ → List UInt8 → Option ((UInt8 → Bool) × List UInt8)
  | 0, _ => none
  | _, [] => none
  | n + 1, c :: s =>
    if c = code ']' then some (fun _ => false, s)
    else do
      let (a, rest) ← classAtom (c :: s)
      -- a dash in front of the bracket stands for itself
      if rest.head? = some (code '-') ∧ rest.tail.head? ≠ some (code ']') then
        let (b, rest) ← classAtom rest.tail
        match a, b with
        | .inl lo, .inl hi =>
          if lo ≤ hi then
            let (p, rest) ← classRanges n rest
            some (fun x => range lo hi x || p x, rest)
          else none
        | _, _ => none
      else
        let (p, rest) ← classRanges n rest
        match a with
        | .inl d => some (fun x => x == d || p x, rest)
        | .inr q => some (fun x => q x || p x, rest)

/-- A class, behind the opening bracket. -/
def bracket (s : List UInt8) : Except Unit (Token × List UInt8) :=
  if s.head? = some (code '^') then
    match classRanges s.length s.tail with
    | some (p, rest) => .ok (.atom fun x => ! p x, rest)
    | none => .error ()
  else
    match classRanges s.length s with
    | some (p, rest) => .ok (.atom p, rest)
    | none => .error ()

/-- The token of a quantifier, which is not greedy in front of a `?`. -/
def quantifier (min : ℕ) (max : Option ℕ) (s : List UInt8) : Except Unit (Token × List UInt8) :=
  if s.head? = some (code '?') then .ok (.quantifier min max false, s.tail)
  else .ok (.quantifier min max true, s)

/-- A quantifier with numbers, behind the opening brace. -/
def braces (s : List UInt8) : Except Unit (Token × List UInt8) :=
  match number s with
  | none => .error ()
  | some (min, s) =>
    if s.head? = some (code '}') then quantifier min (some min) s.tail
    else if s.head? = some (code ',') then
      if s.tail.head? = some (code '}') then quantifier min none s.tail.tail
      else
        match number s.tail with
        | some (max, s) =>
          if s.head? = some (code '}') ∧ min ≤ max then quantifier min (some max) s.tail
          else .error ()
        | none => .error ()
    else .error ()

/-- The beginning of a group, behind the parenthesis. -/
def opening (s : List UInt8) : Except Unit (Token × List UInt8) :=
  if s.head? = some (code '?') then
    match s.tail with
    | [] => .error ()
    | c :: s =>
      if c = code ':' then .ok (.opening .plain, s)
      else if c = code '=' then .ok (.opening (.lookahead false), s)
      else if c = code '!' then .ok (.opening (.lookahead true), s)
      else .error ()
  else .ok (.opening .capture, s)

/-- A token. -/
def token : ListReader Unit UInt8 Token
  | [] => .error ()
  | c :: s =>
    if c = code '^' then .ok (.assertion .start, s)
    else if c = code '$' then .ok (.assertion .stop, s)
    else if c = code '\\' then escape s
    else if c = code '.' then .ok (.atom fun x => ! isTerminator x, s)
    else if c = code '*' then quantifier 0 none s
    else if c = code '+' then quantifier 1 none s
    else if c = code '?' then quantifier 0 (some 1) s
    else if c = code '{' then braces s
    else if c = code '(' then opening s
    else if c = code ')' then .ok (.closing, s)
    else if c = code '|' then .ok (.bar, s)
    else if c = code '[' then bracket s
    else .ok (.atom (· == c), s)

/-! ## Groups -/

/-- A group that is open. -/
structure Level where
  /-- How it began. -/
  kind : Opening := .plain
  /-- Its number, if it captures. -/
  index : ℕ := 0
  /-- The alternatives that are complete, the last one first. -/
  alternatives : List (Regex UInt8) := []
  /-- The terms of the alternative to come, the last one first, and whether they can be repeated. -/
  terms : List (Regex UInt8 × Bool) := []

/-- The terms of an alternative. -/
def alternative (terms : List (Regex UInt8 × Bool)) : Regex UInt8 :=
  sequence (terms.reverse.map Prod.fst)

namespace Level

/-- One more term. -/
def push (r : Regex UInt8) (repeats : Bool) (l : Level) : Level :=
  { l with terms := (r, repeats) :: l.terms }

/-- What stands in the group. -/
def regex (l : Level) : Regex UInt8 :=
  l.alternatives.foldl (fun r r' => .alt r' r) (alternative l.terms)

/-- The group is closed, inside of another one. -/
def close (l outer : Level) : Level :=
  match l.kind with
  | .capture => outer.push (.group l.index l.regex) true
  | .plain => outer.push l.regex true
  | .lookahead negated => outer.push (.lookahead negated l.regex) false

end Level

/-- The groups that have been opened. -/
structure Stack where
  /-- The number of groups that capture. -/
  groups : ℕ := 0
  /-- The largest number of a back reference. -/
  references : ℕ := 0
  /-- The innermost group that is open, or the pattern. -/
  top : Level := {}
  /-- Those around it. -/
  outer : List Level := []

/-- Put a token on the stack. -/
def Stack.step (p : Stack) : Token → Option Stack
  | .atom q => some { p with top := p.top.push (.set q) true }
  | .assertion r => some { p with top := p.top.push r false }
  | .backreference i =>
    some { p with references := max p.references i, top := p.top.push (.backreference i) true }
  | .opening .capture => some { p with
      groups := p.groups + 1
      top := { kind := .capture, index := p.groups + 1 }
      outer := p.top :: p.outer }
  | .opening kind => some { p with top := { kind }, outer := p.top :: p.outer }
  | .bar => some { p with top := { p.top with
      alternatives := alternative p.top.terms :: p.top.alternatives, terms := [] } }
  | .closing =>
    match p.outer with
    | [] => none
    | level :: outer => some { p with top := p.top.close level, outer }
  | .quantifier min max greedy =>
    match p.top.terms with
    | (r, true) :: terms =>
      some { p with top := { p.top with terms := (.rep min max greedy r, false) :: terms } }
    | _ => none

/-- A pattern that has been compiled. -/
structure Compiled where
  /-- The regular expression. -/
  regex : Regex UInt8
  /-- `mark_count()`: the number of groups that capture. -/
  markCount : ℕ

/-- What the tokens stand for, if all groups are closed and back references refer to groups. -/
def Stack.finish (p : Stack) : Option Compiled :=
  if p.outer.isEmpty ∧ p.references ≤ p.groups then some ⟨p.top.regex, p.groups⟩ else none

/-- Compile a pattern, if it is one. -/
def compile (pattern : List UInt8) : Option Compiled := do
  let tokens ← (ListReader.all token () pattern.length pattern).toOption
  let p ← tokens.foldlM Stack.step {}
  p.finish

/-! ## The tokens of a pattern -/

/-- A letter that is no syntax character stands for itself. -/
theorem token_letter {c : UInt8} (h : c ∉ syntaxCharacters) (s : List UInt8) :
    token (c :: s) = .ok (.atom (· == c), s) := by
  simp only [syntaxCharacters, List.map_cons, List.map_nil, List.mem_cons, List.not_mem_nil,
    or_false, not_or] at h
  simp [token, h]

/-- So does each letter of a word. -/
theorem many_word {word : List UInt8} (h : ∀ c ∈ word, c ∉ syntaxCharacters) (s : List UInt8) :
    Many token (word ++ s) (word.map fun c => .atom (· == c)) s := by
  induction word with
  | nil => exact .nil s
  | cons c word ih =>
    rw [List.forall_mem_cons] at h
    exact .cons (token_letter h.1 _) (ih h.2)

/-- The tokens of a pattern determine its regular expression. -/
theorem compile_of_many {pattern : List UInt8} {tokens : List Token}
    (h : Many token pattern tokens []) (hlength : tokens.length ≤ pattern.length) :
    compile pattern = (tokens.foldlM Stack.step {}).bind Stack.finish := by
  rw [compile, all_of_many h (by rintro a m ⟨⟩) hlength]
  rfl

/-- The letters of a word become terms. -/
theorem foldlM_word (word : List UInt8) (p : Stack) :
    (word.map fun c => Token.atom (· == c)).foldlM Stack.step p =
      some { p with top := { p.top with
        terms := (word.map fun c => (letter c, true)).reverse ++ p.top.terms } } := by
  induction word generalizing p with
  | nil => rfl
  | cons c word ih =>
    rw [List.map_cons, List.foldlM_cons, Stack.step, Option.bind_eq_bind, Option.bind_some, ih]
    simp [Level.push, letter]

end RegexPattern
