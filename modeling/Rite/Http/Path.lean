import Rite.Http.Layer
import Rite.ToMathlib.RegexPattern

/-!
# Paths of endpoints (`rite::http::path`)

The constructor makes a pattern of a path: it puts a group around the regular expression of each
parameter, and `match` takes the groups for the parameters in order. Patterns are those of
ECMAScript.

## Main results

* `compile_parameterPattern`: the pattern of a parameter, compiled;
* `buildRegex_parameter`, `buildRegex_of_notMem`: an iteration of the constructor on a parameter
  that has no regular expression of its own, and the end of the loop;
* `buildRegex_typed`: an iteration on a parameter that has one.
-/

namespace Rite

namespace Http

open Regex RegexPattern

/-- `path`. -/
structure Path where
  /-- `regex_pattern`. -/
  regexPattern : Compiled
  /-- `parameter_names`. -/
  parameterNames : List Octets

namespace Path

/-- The pattern of a parameter: its name, and perhaps a regular expression. -/
def parameterPattern : Octets := octets "\\\x7b(\\w+)(?::([^\x7d]+))?\\\x7d"

/-- What stands for a parameter without a regular expression. -/
def defaultRegex : Octets := octets "([^/]+)"

/-- The loop of the constructor, which goes on behind each parameter: `regex_str` with the remaining
part of the path, and the names. -/
def buildRegex (parameter : Regex Octet) : ℕ → Octets → Octets × List Octets
  | 0, path => (path, [])
  | n + 1, path =>
    match parameter.search path with
    | none => (path, [])
    | some (first, second) =>
      let paramName := (second.captures 1).getD []
      let paramRegex := (second.captures 2).getD []
      let group := if paramRegex = [] then defaultRegex else paramRegex
      let (regexStr, names) := buildRegex parameter n second.rest
      (first.before.reverse ++ octets "(" ++ group ++ octets ")" ++ regexStr, paramName :: names)

/-- `path::path`; `none` is a `std::regex_error`. -/
def construct (pathStr : Octets) : Option Path := do
  let parameter ← compile parameterPattern
  -- a parameter takes at least three characters
  let (regexStr, parameterNames) := buildRegex parameter.regex pathStr.length pathStr
  let regexPattern ← compile (regexStr ++ octets "/?")
  return { regexPattern, parameterNames }

/-- The loop of `match` over the groups. -/
def parameters (names : List Octets) (captures : ℕ → Option Octets) (n : ℕ) : PathResult :=
  (List.range n).foldl (fun result i =>
    match names[i]? with
    | some name => result.insert name ((captures (i + 1)).getD [])
    | none => result) ∅

/-- `path::match`. -/
def matchUrl (p : Path) (url : Octets) : Option PathResult :=
  (p.regexPattern.regex.fullMatch url).map fun found =>
    parameters p.parameterNames found.captures p.regexPattern.markCount

end Path

/-! ## Templates -/

/-- A segment of a template. -/
inductive Segment
  | literal (text : Octets)
  | parameter (name : Octets)
  deriving DecidableEq

namespace Segment

/-- The segment in the template. -/
def text : Segment → Octets
  | literal text => text
  | parameter name => code '{' :: name ++ [code '}']

/-- The segment with the value of its parameter. -/
def substitute (value : Octets → Octets) : Segment → Octets
  | literal text => text
  | parameter name => value name

/-- The name of the parameter. -/
def name? : Segment → Option Octets
  | literal _ => none
  | parameter name => some name

end Segment

/-- Segments with slashes between them. -/
def slashed : List Octets → Octets
  | [] => []
  | segment :: segments => segment ++ segments.flatMap (code '/' :: ·)

/-- A path of literal segments and parameters without a regular expression. -/
structure Template where
  /-- The segments. -/
  segments : List Segment
  /-- The literals have no characters that mean something else in a pattern, and no slash. -/
  literal_plain : ∀ text, .literal text ∈ segments → ∀ c ∈ text, c ∉ syntaxCharacters ∧ c ≠ code '/'
  /-- The names are words. -/
  name_word : ∀ name, .parameter name ∈ segments → name ≠ [] ∧ ∀ c ∈ name, isWord c
  /-- The names are distinct. -/
  nodup : (segments.filterMap Segment.name?).Nodup

namespace Template

/-- The names of the parameters. -/
def names (t : Template) : List Octets := t.segments.filterMap Segment.name?

/-- The template as a string. -/
def text (t : Template) : Octets := slashed (t.segments.map Segment.text)

/-- Values for the parameters of a template. -/
structure Values (t : Template) where
  /-- The value of a parameter. -/
  value : Octets → Octets
  /-- The values are not empty. -/
  ne_nil : ∀ name ∈ t.names, value name ≠ []
  /-- They have no slashes. -/
  slash_free : ∀ name ∈ t.names, code '/' ∉ value name

/-- The template with values for its parameters. -/
def url (t : Template) (v : t.Values) : Octets :=
  slashed (t.segments.map (Segment.substitute v.value))

/-- The path is matched, with or without a slash behind it, and each name has its own value. -/
def Binds (t : Template) (v : t.Values) : Prop :=
  ∃ path, Path.construct t.text = some path ∧ ∀ trailing, trailing = [] ∨ trailing = [code '/'] →
    ∃ result, path.matchUrl (t.url v ++ trailing) = some result ∧
      ∀ name, result.lookup name = if name ∈ t.names then some (v.value name) else none

end Template

namespace Path

/-! ## The pattern of a parameter -/

/-- The regular expression of a parameter. -/
def parameterRegex : Regex Octet :=
  sequence [letter (code '{'), group 1 (sequence [rep 1 none true (set isWord)]),
    rep 0 (some 1) true (sequence [letter (code ':'),
      group 2 (sequence [rep 1 none true (set fun x => ! (x == code '}' || false))])]),
    letter (code '}')]

theorem compile_parameterPattern :
    compile parameterPattern = some ⟨parameterRegex, 2⟩ := rfl

theorem run_parameterRegex_of_ne {k : State Octet → Option (State Octet)} {c : Octet}
    (h : c ≠ code '{') (before rest : Octets) (captures : ℕ → Option Octets) :
    parameterRegex.run k ⟨before, c :: rest, captures⟩ = none := by
  simp [parameterRegex, letter, h]

/-- A parameter without a regular expression is matched by its name. -/
theorem run_parameterRegex {name : Octets} (hne : name ≠ []) (hword : ∀ c ∈ name, isWord c)
    (before rest : Octets) :
    parameterRegex.run some ⟨before, code '{' :: (name ++ code '}' :: rest), fun _ => none⟩ =
      some ⟨code '}' :: (name.reverse ++ code '{' :: before), rest,
        Function.update (fun _ => none) 1 (some name)⟩ := by
  have hbrace : ∀ c ∈ (code '}' :: rest).head?, ¬ isWord c := by
    rintro c ⟨⟩
    decide
  rw [parameterRegex, run_sequence_cons, letter, run_set_cons, beq_self_eq_true, if_pos rfl,
    run_sequence_cons, run_group, run_sequence_cons]
  refine run_plus hne hword hbrace ?_
  -- the name ends at the brace, where there is no colon
  have hcapture : (State.mk (code '{' :: before) (name ++ code '}' :: rest) fun _ => none).capture 1
      ⟨name.reverse ++ code '{' :: before, code '}' :: rest, fun _ => none⟩ =
      ⟨name.reverse ++ code '{' :: before, code '}' :: rest,
        Function.update (fun _ => none) 1 (some name)⟩ := by
    simp [State.capture]
  rw [run_sequence_nil, hcapture, run_sequence_cons, run_option, run_sequence_cons, State.forget,
    letter, run_set_cons, if_neg (by decide)]
  simp [letter]

/-- The search finds the first brace, behind which the name of a parameter stands. -/
theorem search_parameter {name : Octets} (hne : name ≠ []) (hword : ∀ c ∈ name, isWord c)
    {passed : Octets} (hpassed : code '{' ∉ passed) (rest : Octets) :
    parameterRegex.search (passed ++ code '{' :: (name ++ code '}' :: rest)) =
      some (⟨passed.reverse, code '{' :: (name ++ code '}' :: rest), fun _ => none⟩,
        ⟨code '}' :: (name.reverse ++ code '{' :: passed.reverse), rest,
          Function.update (fun _ => none) 1 (some name)⟩) := by
  rw [search, searchFrom_append, searchFrom, run_parameterRegex hne hword, List.append_nil]
  -- the pattern does not begin with what has been passed
  intro c hc before rest
  refine run_parameterRegex_of_ne ?_ before rest _
  rintro rfl
  exact hpassed hc

/-- Without a brace there is no parameter. -/
theorem search_of_notMem {path : Octets} (h : code '{' ∉ path) :
    parameterRegex.search path = none := by
  have hpass : parameterRegex.searchFrom [] (path ++ []) =
      parameterRegex.searchFrom (path.reverse ++ []) [] := by
    refine searchFrom_append (fun c hc before rest => ?_) []
    refine run_parameterRegex_of_ne ?_ before rest _
    rintro rfl
    exact h hc
  rw [List.append_nil] at hpass
  rw [search, hpass, searchFrom, parameterRegex, run_sequence_cons, letter, run_set_nil]
  rfl

/-- The loop puts a group around the default regular expression, for each parameter. -/
theorem buildRegex_parameter {name : Octets} (hne : name ≠ []) (hword : ∀ c ∈ name, isWord c)
    {passed : Octets} (hpassed : code '{' ∉ passed) (rest : Octets) (n : ℕ) :
    buildRegex parameterRegex (n + 1) (passed ++ code '{' :: (name ++ code '}' :: rest)) =
      (passed ++ (octets "(([^/]+))" ++ (buildRegex parameterRegex n rest).1),
        name :: (buildRegex parameterRegex n rest).2) := by
  have hgroup : octets "(" ++ defaultRegex ++ octets ")" = octets "(([^/]+))" := by decide
  rw [buildRegex, search_parameter hne hword hpassed, ← hgroup]
  simp

theorem buildRegex_of_notMem {path : Octets} (h : code '{' ∉ path) (n : ℕ) :
    buildRegex parameterRegex n path = (path, []) := by
  cases n with
  | zero => rfl
  | succ n => rw [buildRegex, search_of_notMem h]

/-- A parameter with a regular expression is matched by its name and that. -/
theorem run_parameterRegex_typed {name regex : Octets} (hne : name ≠ [])
    (hword : ∀ c ∈ name, isWord c) (hregex : regex ≠ []) (hbrace : code '}' ∉ regex)
    (before rest : Octets) :
    parameterRegex.run some
        ⟨before, code '{' :: (name ++ code ':' :: (regex ++ code '}' :: rest)), fun _ => none⟩ =
      some ⟨code '}' :: (regex.reverse ++ code ':' :: (name.reverse ++ code '{' :: before)), rest,
        Function.update (Function.update (fun _ => none) 1 (some name)) 2 (some regex)⟩ := by
  have hcolon : ∀ c ∈ (code ':' :: (regex ++ code '}' :: rest)).head?, ¬ isWord c := by
    rintro c ⟨⟩
    decide
  rw [parameterRegex, run_sequence_cons, letter, run_set_cons, beq_self_eq_true, if_pos rfl,
    run_sequence_cons, run_group, run_sequence_cons]
  refine run_plus hne hword hcolon ?_
  have hcapture : (State.mk (code '{' :: before) (name ++ code ':' :: (regex ++ code '}' :: rest))
      fun _ => none).capture 1
      ⟨name.reverse ++ code '{' :: before, code ':' :: (regex ++ code '}' :: rest), fun _ => none⟩ =
      ⟨name.reverse ++ code '{' :: before, code ':' :: (regex ++ code '}' :: rest),
        Function.update (fun _ => none) 1 (some name)⟩ := by
    simp [State.capture]
  rw [run_sequence_nil, hcapture, run_sequence_cons, run_option]
  -- the regular expression goes up to the brace
  have hclass : ∀ c ∈ regex, (! (c == code '}' || false)) = true := by
    intro c hc
    have hne : c ≠ code '}' := fun heq => hbrace (heq ▸ hc)
    simp [hne]
  have hforget : (State.mk (name.reverse ++ code '{' :: before)
      (code ':' :: (regex ++ code '}' :: rest))
      (Function.update (fun _ => none) 1 (some name))).forget [2] =
      ⟨name.reverse ++ code '{' :: before, code ':' :: (regex ++ code '}' :: rest),
        Function.update (fun _ => none) 1 (some name)⟩ := by
    rw [State.forget, State.mk.injEq]
    refine ⟨rfl, rfl, funext fun i => ?_⟩
    by_cases hi : i = 2
    · simp [hi]
    · simp [hi]
  have hgroups : (sequence [letter (code ':'), group 2
      (sequence [rep 1 none true (set fun x => ! (x == code '}' || false))])]).groups = [2] := rfl
  rw [hgroups, hforget, run_sequence_cons, letter, run_set_cons, beq_self_eq_true, if_pos rfl,
    run_sequence_cons, run_group, run_sequence_cons]
  rw [run_plus hregex hclass]
  · rfl
  · rintro c ⟨⟩
    decide
  · simp [State.capture, letter]
    omega

/-- The search finds the first brace, behind which a parameter stands. -/
theorem search_of_run {passed tail : Octets} {found : State Octet} (hpassed : code '{' ∉ passed)
    (hrun : parameterRegex.run some ⟨passed.reverse, code '{' :: tail, fun _ => none⟩ =
      some found) :
    parameterRegex.search (passed ++ code '{' :: tail) =
      some (⟨passed.reverse, code '{' :: tail, fun _ => none⟩, found) := by
  rw [search, searchFrom_append, List.append_nil, searchFrom, hrun]
  intro c hc before rest
  refine run_parameterRegex_of_ne ?_ before rest _
  rintro rfl
  exact hpassed hc

/-- The loop puts a group around the regular expression of a parameter. -/
theorem buildRegex_typed {name regex : Octets} (hne : name ≠ [])
    (hword : ∀ c ∈ name, isWord c) (hregex : regex ≠ []) (hbrace : code '}' ∉ regex)
    {passed : Octets} (hpassed : code '{' ∉ passed) (rest : Octets) (n : ℕ) :
    buildRegex parameterRegex (n + 1)
        (passed ++ code '{' :: (name ++ code ':' :: (regex ++ code '}' :: rest))) =
      (passed ++ octets "(" ++ regex ++ octets ")" ++ (buildRegex parameterRegex n rest).1,
        name :: (buildRegex parameterRegex n rest).2) := by
  rw [buildRegex, search_of_run hpassed
    (run_parameterRegex_typed hne hword hregex hbrace passed.reverse rest)]
  simp [hregex]

end Path

end Http

end Rite
