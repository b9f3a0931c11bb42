import Rite.Http.Path

/-!
# The parameters of a template

The default regular expression has a group of its own, and the constructor puts another one around
it. So each parameter makes two groups, but `match` gives each name the group of its own number.

## Main results

* `compile_fragments`: the terms and the groups of the pattern of a template;
* `run_allTerms`: the pattern matches the segments with their values;
* `binds_iff`: each name has its own value if and only if all values are equal;
* `not_binds`: with two parameters they need not be.
-/

namespace Rite

namespace Http

open Regex RegexPattern

/-! ## The pattern of a template -/

namespace Segment

/-- The segment in the pattern. -/
def fragment : Segment → Octets
  | literal text => text
  | parameter _ => octets "(([^/]+))"

/-- A literal has no syntax characters, and a name is a word. -/
def Plain : Segment → Prop
  | literal text => ∀ c ∈ text, c ∉ syntaxCharacters
  | parameter name => name ≠ [] ∧ ∀ c ∈ name, isWord c

@[simp] theorem text_literal (text : Octets) : (literal text).text = text := rfl

@[simp] theorem text_parameter (name : Octets) :
    (parameter name).text = code '{' :: (name ++ [code '}']) := rfl

@[simp] theorem fragment_literal (text : Octets) : (literal text).fragment = text := rfl

@[simp] theorem fragment_parameter (name : Octets) :
    (parameter name).fragment = octets "(([^/]+))" := rfl

@[simp] theorem name?_literal (text : Octets) : (literal text).name? = none := rfl

@[simp] theorem name?_parameter (name : Octets) : (parameter name).name? = some name := rfl

theorem brace_notMem_literal {text : Octets} (h : (literal text).Plain) : code '{' ∉ text := by
  intro hmem
  exact h _ hmem (by decide)

end Segment

open Segment in
/-- The constructor goes over the segments, with what it has passed in front. -/
theorem buildRegex_segments {segments : List Segment} (h : ∀ s ∈ segments, s.Plain)
    {passed : Octets} (hpassed : code '{' ∉ passed) {n : ℕ}
    (hn : (passed ++ segments.flatMap text).length ≤ n) :
    Path.buildRegex Path.parameterRegex n (passed ++ segments.flatMap text) =
      (passed ++ segments.flatMap fragment, segments.filterMap name?) := by
  induction segments generalizing passed n with
  | nil =>
    rw [List.flatMap_nil, List.flatMap_nil, List.append_nil]
    exact Path.buildRegex_of_notMem hpassed n
  | cons s segments ih =>
    rw [List.forall_mem_cons] at h
    cases s with
    | literal text =>
      -- a literal is passed on the way to the next brace
      have hpassed' : code '{' ∉ passed ++ text := by
        simp [hpassed, brace_notMem_literal h.1]
      have hrest := ih h.2 hpassed' (n := n) (by simpa using hn)
      simpa [List.filterMap_cons] using hrest
    | parameter name =>
      cases n with
      | zero => simp at hn
      | succ n =>
        -- nothing has been passed behind the parameter
        have hnil : code '{' ∉ ([] : Octets) := List.not_mem_nil
        have hrest := ih h.2 hnil (n := n) (by
          simp at hn ⊢
          omega)
        have hbuild := Path.buildRegex_parameter h.1.1 h.1.2 hpassed (segments.flatMap text) n
        rw [← List.nil_append (segments.flatMap text), hrest] at hbuild
        simpa [List.filterMap_cons] using hbuild

/-! ## The tokens of the pattern -/

namespace Segment

/-- The letters that the default regular expression takes. -/
def notSlash (x : Octet) : Bool := ! (x == code '/' || false)

/-- The tokens of a segment. -/
def tokens : Segment → List RegexPattern.Token
  | literal text => text.map fun c => .atom (· == c)
  | parameter _ => [.opening .capture, .opening .capture, .atom notSlash, .quantifier 1 none true,
      .closing, .closing]

/-- The terms of a segment, behind `groups` groups. -/
def terms (groups : ℕ) : Segment → List (Regex Octet)
  | literal text => text.map letter
  | parameter _ => [.group (groups + 1) (sequence [.group (groups + 2)
      (sequence [.rep 1 none true (.set notSlash)])])]

/-- The groups of a segment. -/
def markCount : Segment → ℕ
  | literal _ => 0
  | parameter _ => 2

/-- A segment is read as its tokens. -/
theorem many_fragment {s : Segment} (h : s.Plain) (rest : Octets) :
    ListReader.Many token (s.fragment ++ rest) s.tokens rest := by
  cases s with
  | literal text => exact many_word h rest
  | parameter name =>
    exact .cons rfl (.cons rfl (.cons rfl (.cons rfl (.cons rfl (.cons rfl (.nil rest))))))

theorem length_tokens_le (s : Segment) : s.tokens.length ≤ s.fragment.length := by
  cases s with
  | literal text => simp [tokens]
  | parameter name =>
    have hlength : (octets "(([^/]+))").length = 9 := by decide
    simp [tokens, hlength]

/-- The terms that can still be repeated, which matters only in front of a quantifier. -/
theorem foldlM_tokens (s : Segment) (p : Stack) : ∃ terms,
    terms.map Prod.fst = (s.terms p.groups).reverse ∧
      s.tokens.foldlM Stack.step p = some { p with
        groups := p.groups + s.markCount
        top := { p.top with terms := terms ++ p.top.terms } } := by
  cases s with
  | literal text =>
    refine ⟨(text.map fun c => (letter c, true)).reverse, ?_, foldlM_word text p⟩
    simp [terms]
  | parameter name => exact ⟨[(_, true)], rfl, rfl⟩

/-- The terms of segments, behind `groups` groups. -/
def allTerms : ℕ → List Segment → List (Regex Octet)
  | _, [] => []
  | groups, s :: segments => s.terms groups ++ allTerms (groups + s.markCount) segments

end Segment

open Segment

theorem many_fragments {segments : List Segment} (h : ∀ s ∈ segments, s.Plain) (rest : Octets) :
    ListReader.Many token (segments.flatMap fragment ++ rest) (segments.flatMap tokens) rest := by
  induction segments with
  | nil => exact .nil rest
  | cons s segments ih =>
    rw [List.forall_mem_cons] at h
    rw [List.flatMap_cons, List.flatMap_cons, List.append_assoc]
    exact (many_fragment h.1 _).append (ih h.2)

theorem length_flatMap_tokens_le (segments : List Segment) :
    (segments.flatMap tokens).length ≤ (segments.flatMap fragment).length := by
  induction segments with
  | nil => exact le_rfl
  | cons s segments ih =>
    have := length_tokens_le s
    rw [List.flatMap_cons, List.flatMap_cons, List.length_append, List.length_append]
    omega

/-- The tokens of the segments make the terms of the pattern. -/
theorem foldlM_segments (segments : List Segment) (p : Stack) : ∃ terms,
    terms.map Prod.fst = (allTerms p.groups segments).reverse ∧
      (segments.flatMap tokens).foldlM Stack.step p = some { p with
        groups := p.groups + (segments.map markCount).sum
        top := { p.top with terms := terms ++ p.top.terms } } := by
  induction segments generalizing p with
  | nil => exact ⟨[], rfl, rfl⟩
  | cons s segments ih =>
    obtain ⟨terms, hterms, hfold⟩ := foldlM_tokens s p
    obtain ⟨terms', hterms', hfold'⟩ := ih { p with
      groups := p.groups + s.markCount
      top := { p.top with terms := terms ++ p.top.terms } }
    -- the terms are on a stack, so that those of the first segment are at its end
    refine ⟨terms' ++ terms, ?_, ?_⟩
    · rw [List.map_append, hterms, hterms', allTerms, List.reverse_append]
    · rw [List.flatMap_cons, List.foldlM_append, hfold, Option.bind_eq_bind, Option.bind_some,
        hfold', List.map_cons, List.sum_cons, List.append_assoc, Nat.add_assoc]

/-- The pattern of the segments, with the slash that may follow. -/
theorem compile_fragments {segments : List Segment} (h : ∀ s ∈ segments, s.Plain) :
    compile (segments.flatMap fragment ++ octets "/?") =
      some ⟨sequence (allTerms 0 segments ++ [.rep 0 (some 1) true (letter (code '/'))]),
        (segments.map markCount).sum⟩ := by
  have hslash : ListReader.Many token (octets "/?")
      [.atom (· == code '/'), .quantifier 0 (some 1) true] [] :=
    .cons rfl (.cons rfl (.nil []))
  obtain ⟨terms, hterms, hfold⟩ := foldlM_segments segments {}
  rw [compile_of_many ((many_fragments h _).append hslash), List.foldlM_append, hfold]
  · have hreverse := congrArg List.reverse hterms
    rw [List.reverse_reverse, ← List.map_reverse] at hreverse
    -- the slash and its quantifier are the last two tokens
    simp [Stack.step, Level.push, Stack.finish, Level.regex, alternative, hreverse, letter]
  · have := length_flatMap_tokens_le segments
    have hlength : (octets "/?").length = 2 := by decide
    simp only [List.length_append, hlength, List.length_cons, List.length_nil]
    omega

/-! ## The match -/

/-- Behind each parameter there is a slash or nothing. -/
def Separated : List Segment → Prop
  | [] => True
  | .literal _ :: segments => Separated segments
  | .parameter _ :: segments =>
    (∀ s ∈ segments.head?, ∃ text, s = .literal (code '/' :: text)) ∧ Separated segments

/-- What the groups of the segments capture, behind `groups` groups. -/
def captured (value : Octets → Octets) :
    ℕ → List Segment → (ℕ → Option Octets) → ℕ → Option Octets
  | _, [], captures => captures
  | groups, .literal _ :: segments, captures => captured value groups segments captures
  | groups, .parameter name :: segments, captures =>
    captured value (groups + 2) segments (Function.update
      (Function.update captures (groups + 2) (some (value name))) (groups + 1) (some (value name)))

section Match

variable {value : Octets → Octets} {segments : List Segment} {trailing : Octets}

/-- A slash follows a parameter. -/
theorem eq_slash_of_mem_head? {name : Octets} (hsep : Separated (.parameter name :: segments))
    (htrailing : ∀ c ∈ trailing.head?, c = code '/') :
    ∀ c ∈ (segments.flatMap (substitute value) ++ trailing).head?, c = code '/' := by
  cases segments with
  | nil => simpa using htrailing
  | cons s segments =>
    obtain ⟨text, rfl⟩ := hsep.1 s rfl
    rintro c ⟨⟩
    rfl

/-- The terms of the segments match their values, with what follows. -/
theorem run_allTerms {k : State Octet → Option (State Octet)} {t : State Octet}
    (hsep : Separated segments)
    (hvalue : ∀ name ∈ segments.filterMap name?, value name ≠ [] ∧ code '/' ∉ value name)
    (htrailing : ∀ c ∈ trailing.head?, c = code '/') {before : Octets} {groups : ℕ}
    {captures : ℕ → Option Octets}
    (hk : k ⟨(segments.flatMap (substitute value)).reverse ++ before, trailing,
      captured value groups segments captures⟩ = some t) :
    (sequence (allTerms groups segments)).run k
      ⟨before, segments.flatMap (substitute value) ++ trailing, captures⟩ = some t := by
  induction segments generalizing before groups captures with
  | nil => exact hk
  | cons s segments ih =>
    rw [allTerms, run_sequence_append, List.flatMap_cons, List.append_assoc]
    cases s with
    | literal text =>
      -- the letters are matched one by one
      rw [terms, substitute, run_word]
      refine ih hsep hvalue ?_
      simpa [captured, substitute, markCount] using hk
    | parameter name =>
      have hname : value name ≠ [] ∧ code '/' ∉ value name := hvalue name (by simp)
      have hletters : ∀ c ∈ value name, notSlash c := by
        intro c hc
        have hne : c ≠ code '/' := by
          rintro rfl
          exact hname.2 hc
        simp [notSlash, hne]
      have hstop : ∀ c ∈ (segments.flatMap (substitute value) ++ trailing).head?,
          ¬ notSlash c := by
        intro c hc
        rw [eq_slash_of_mem_head? hsep htrailing c hc]
        decide
      rw [terms, substitute, run_sequence_cons, run_group, run_sequence_cons, run_group,
        run_sequence_cons]
      -- the repetition takes the value, and ends at the slash behind it
      refine run_plus hname.1 hletters hstop ?_
      -- both groups capture the value
      simp only [run_sequence_nil]
      refine ih hsep.2 (fun name' hname' => hvalue name' ?_) ?_
      · simp [hname']
      · simpa [captured, substitute, markCount, State.capture] using hk

/-- The groups that the segments do not have keep what they have captured. -/
theorem captured_of_le (captures : ℕ → Option Octets) {i groups : ℕ} (h : i ≤ groups) :
    captured value groups segments captures i = captures i := by
  induction segments generalizing groups captures with
  | nil => rfl
  | cons s segments ih =>
    cases s with
    | literal text => exact ih captures h
    | parameter name =>
      rw [captured, ih _ (by omega), Function.update_of_ne (by omega),
        Function.update_of_ne (by omega)]

/-- Each parameter has two groups, which capture its value. -/
theorem captured_of_getElem? (captures : ℕ → Option Octets) {groups j : ℕ} {name : Octets}
    (h : (segments.filterMap name?)[j]? = some name) (i : ℕ) (hi : i = 1 ∨ i = 2) :
    captured value groups segments captures (groups + 2 * j + i) = some (value name) := by
  induction segments generalizing groups j captures with
  | nil => simp at h
  | cons s segments ih =>
    cases s with
    | literal text => exact ih captures h
    | parameter name' =>
      rw [List.filterMap_cons_some (name?_parameter name')] at h
      cases j with
      | zero =>
        obtain rfl : name' = name := by simpa using h
        -- the segments behind have groups of higher numbers
        rw [captured, captured_of_le _ (by omega)]
        rcases hi with rfl | rfl
        · rw [Nat.mul_zero, Nat.add_zero, Function.update_self]
        · rw [Nat.mul_zero, Nat.add_zero, Function.update_of_ne (by omega), Function.update_self]
      | succ j =>
        rw [captured, show groups + 2 * (j + 1) + i = groups + 2 + 2 * j + i by omega]
        exact ih _ (by simpa using h)

end Match

/-- The loop of `match` gives each name the group of its own number. -/
theorem lookup_parameters {names : List Octets} (hnodup : names.Nodup)
    (captures : ℕ → Option Octets) (n : ℕ) (name : Octets) :
    (Path.parameters names captures n).lookup name =
      if name ∈ names.take n then some ((captures (names.idxOf name + 1)).getD []) else none := by
  induction n with
  | zero => simp [Path.parameters]
  | succ n ih =>
    have hstep : Path.parameters names captures (n + 1) =
        (names[n]?).elim (Path.parameters names captures n) fun name' =>
          (Path.parameters names captures n).insert name' ((captures (n + 1)).getD []) := by
      unfold Path.parameters
      rw [List.range_succ, List.foldl_append, List.foldl_cons, List.foldl_nil]
      cases names[n]? <;> rfl
    rw [hstep, List.take_add_one]
    cases hname : names[n]? with
    | none => simpa using ih
    | some name' =>
      by_cases heq : name = name'
      · -- the name has been entered at its own place
        subst heq
        obtain ⟨hn, hget⟩ := List.getElem?_eq_some_iff.mp hname
        have hindex : names.idxOf name = n := by
          rw [← hget]
          exact hnodup.idxOf_getElem n hn
        simp [hindex]
      · simpa [heq, AList.lookup_insert_ne heq] using ih

/-! ## Templates -/

/-- The segments with the slashes between them as segments of their own. -/
def pieces : List Segment → List Segment
  | [] => []
  | s :: segments => s :: segments.flatMap fun s => [.literal [code '/'], s]

theorem slashed_map {f : Segment → Octets} (hf : f (.literal [code '/']) = [code '/'])
    (segments : List Segment) : slashed (segments.map f) = (pieces segments).flatMap f := by
  cases segments with
  | nil => rfl
  | cons s segments =>
    rw [List.map_cons, slashed, pieces, List.flatMap_cons, List.flatMap_map, List.flatMap_assoc]
    simp [hf]

theorem filterMap_pieces (segments : List Segment) :
    (pieces segments).filterMap name? = segments.filterMap name? := by
  have hrest (segments : List Segment) :
      (segments.flatMap fun s => [.literal [code '/'], s]).filterMap name? =
        segments.filterMap name? := by
    induction segments with
    | nil => rfl
    | cons s segments ih => simp [List.filterMap_cons, ih]
  cases segments with
  | nil => rfl
  | cons s segments => simp [pieces, List.filterMap_cons, hrest]

theorem mem_pieces {s : Segment} {segments : List Segment} (h : s ∈ pieces segments) :
    s ∈ segments ∨ s = .literal [code '/'] := by
  cases segments with
  | nil => exact .inl h
  | cons s' segments =>
    simp only [pieces, List.mem_cons, List.mem_flatMap, List.not_mem_nil, or_false] at h
    rcases h with rfl | ⟨s'', hs'', rfl | rfl⟩
    · exact .inl List.mem_cons_self
    · exact .inr rfl
    · exact .inl (List.mem_cons_of_mem _ hs'')

theorem separated_pieces (segments : List Segment) : Separated (pieces segments) := by
  have hcons (s : Segment) (segments : List Segment)
      (h : Separated (segments.flatMap fun s => [.literal [code '/'], s])) :
      Separated (s :: segments.flatMap fun s => [.literal [code '/'], s]) := by
    cases s with
    | literal text => exact h
    | parameter name =>
      refine ⟨?_, h⟩
      cases segments with
      | nil => rintro s ⟨⟩
      | cons s' segments =>
        rintro s ⟨⟩
        exact ⟨[], rfl⟩
  have hrest (segments : List Segment) :
      Separated (segments.flatMap fun s => [.literal [code '/'], s]) := by
    induction segments with
    | nil => trivial
    | cons s segments ih => exact hcons s segments ih
  cases segments with
  | nil => trivial
  | cons s segments => exact hcons s segments (hrest segments)

/-- Each parameter makes two groups. -/
theorem sum_markCount (segments : List Segment) :
    (segments.map markCount).sum = 2 * (segments.filterMap name?).length := by
  induction segments with
  | nil => rfl
  | cons s segments ih =>
    cases s <;> simp [markCount, List.filterMap_cons, ih]
    omega

namespace Template

variable (t : Template)

theorem nodup_names : t.names.Nodup := t.nodup

theorem plain_pieces : ∀ s ∈ pieces t.segments, s.Plain := by
  intro s hs
  rcases mem_pieces hs with hs | rfl
  · cases s with
    | literal text => exact fun c hc => (t.literal_plain text hs c hc).1
    | parameter name => exact t.name_word name hs
  · rintro c hc
    obtain rfl := List.mem_singleton.mp hc
    decide

/-- The path that the constructor makes of a template. -/
def path : Path where
  regexPattern := {
    regex := sequence (allTerms 0 (pieces t.segments) ++
      [.rep 0 (some 1) true (letter (code '/'))])
    markCount := 2 * t.names.length }
  parameterNames := t.names

theorem construct_text : Path.construct t.text = some t.path := by
  have htext : t.text = [] ++ (pieces t.segments).flatMap Segment.text := slashed_map rfl _
  have hbuild := buildRegex_segments t.plain_pieces (List.not_mem_nil (a := code '{'))
    (le_refl ([] ++ (pieces t.segments).flatMap Segment.text).length)
  rw [← htext, filterMap_pieces] at hbuild
  rw [Path.construct, Path.compile_parameterPattern]
  simp only [Option.bind_eq_bind, Option.bind_some, hbuild, List.nil_append,
    compile_fragments t.plain_pieces]
  rw [sum_markCount, filterMap_pieces]
  rfl

variable {t} (v : t.Values)

/-- The slash that may follow is taken. -/
theorem run_trailing {trailing : Octets} (h : trailing = [] ∨ trailing = [code '/'])
    (before : Octets) (captures : ℕ → Option Octets) :
    (sequence [Regex.rep 0 (some 1) true (letter (code '/'))]).run
        (fun s => if s.rest = [] then some s else none) ⟨before, trailing, captures⟩ =
      some ⟨trailing.reverse ++ before, [], captures⟩ := by
  have hgroups : (letter (code '/')).groups = [] := rfl
  rw [run_sequence_cons, run_option, hgroups, State.forget_nil, letter]
  rcases h with rfl | rfl
  · rfl
  · rw [run_set_cons, beq_self_eq_true, if_pos rfl]
    rfl

/-- The whole URL is matched, and each parameter is captured twice. -/
theorem fullMatch_path {trailing : Octets} (h : trailing = [] ∨ trailing = [code '/']) :
    ∃ found, t.path.regexPattern.regex.fullMatch (t.url v ++ trailing) = some found ∧
      found.captures = captured v.value 0 (pieces t.segments) fun _ => none := by
  have hvalue : ∀ name ∈ (pieces t.segments).filterMap name?,
      v.value name ≠ [] ∧ code '/' ∉ v.value name := by
    rw [filterMap_pieces]
    exact fun name hname => ⟨v.ne_nil name hname, v.slash_free name hname⟩
  have htrailing : ∀ c ∈ trailing.head?, c = code '/' := by
    rcases h with rfl | rfl
    · rintro c ⟨⟩
    · rintro c ⟨⟩
      rfl
  have hurl : t.url v = (pieces t.segments).flatMap (substitute v.value) := slashed_map rfl _
  have hrun : (sequence (allTerms 0 (pieces t.segments))).run _
      ⟨[], (pieces t.segments).flatMap (substitute v.value) ++ trailing, fun _ => none⟩ = _ :=
    run_allTerms (separated_pieces t.segments) hvalue htrailing
      (run_trailing h _ (captured v.value 0 (pieces t.segments) fun _ => none))
  rw [← run_sequence_append, ← hurl] at hrun
  exact ⟨_, hrun, rfl⟩

/-- The match succeeds, and each name gets the value of the parameter at half its place. -/
theorem matchUrl_path {trailing : Octets} (h : trailing = [] ∨ trailing = [code '/']) :
    ∃ result, t.path.matchUrl (t.url v ++ trailing) = some result ∧ ∀ name,
      result.lookup name = if name ∈ t.names then
        some (v.value (t.names.getD (t.names.idxOf name / 2) [])) else none := by
  obtain ⟨found, hfound, hcaptures⟩ := fullMatch_path v h
  have htake : t.names.take (2 * t.names.length) = t.names :=
    List.take_of_length_le (by omega)
  rw [Path.matchUrl, hfound, Option.map_some]
  refine ⟨_, rfl, fun name => ?_⟩
  rw [path, lookup_parameters t.nodup_names, htake, hcaptures]
  split_ifs with hname
  · -- the group of its own number is one of the two groups of that parameter
    have hlt := List.idxOf_lt_length_of_mem hname
    set i := t.names.idxOf name
    have hhalf : i / 2 < t.names.length := by omega
    have hget : ((pieces t.segments).filterMap name?)[i / 2]? = some t.names[i / 2] := by
      rw [filterMap_pieces]
      exact List.getElem?_eq_getElem hhalf
    have hgroup : captured v.value 0 (pieces t.segments) (fun _ => none)
        (0 + 2 * (i / 2) + (i % 2 + 1)) = some (v.value t.names[i / 2]) :=
      captured_of_getElem? (fun _ => none) hget (i % 2 + 1) (by omega)
    rw [show 0 + 2 * (i / 2) + (i % 2 + 1) = i + 1 by omega] at hgroup
    rw [hgroup, Option.getD_some, List.getD_eq_getElem _ _ hhalf]
  · rfl

/-- The values of all parameters are equal. -/
def Values.Equal : Prop := ∀ a ∈ t.names, ∀ b ∈ t.names, v.value a = v.value b

/-- If each name has its own value, that is the value of the parameter at half its place. -/
theorem value_eq_of_binds (h : t.Binds v) {name : Octets} (hname : name ∈ t.names) :
    v.value name = v.value (t.names.getD (t.names.idxOf name / 2) []) := by
  obtain ⟨path, hpath, hmatch⟩ := h
  rw [construct_text, Option.some.injEq] at hpath
  subst hpath
  obtain ⟨result, hresult, hlookup⟩ := hmatch [] (.inl rfl)
  obtain ⟨result', hresult', hlookup'⟩ := matchUrl_path v (.inl rfl)
  rw [hresult, Option.some.injEq] at hresult'
  subst hresult'
  have hvalue := (hlookup name).symm.trans (hlookup' name)
  rw [if_pos hname, if_pos hname] at hvalue
  exact Option.some.inj hvalue

/-- Each name has its own value if and only if they all have the same. -/
theorem binds_iff : t.Binds v ↔ v.Equal := by
  constructor
  · intro h
    -- each value is that at half its place, and so they all are the first one
    have hhalf (i : ℕ) (hi : i < t.names.length) :
        v.value t.names[i] = v.value (t.names.getD (i / 2) []) := by
      have hvalue := value_eq_of_binds v h (List.getElem_mem hi)
      rwa [t.nodup_names.idxOf_getElem i hi] at hvalue
    have hfirst (i : ℕ) (hi : i < t.names.length) :
        v.value t.names[i] = v.value (t.names.getD 0 []) := by
      induction i using Nat.strongRecOn with
      | ind i ih =>
        rw [hhalf i hi]
        rcases Nat.eq_zero_or_pos i with rfl | hpos
        · rfl
        · have hlt : i / 2 < t.names.length := by omega
          rw [List.getD_eq_getElem _ _ hlt]
          exact ih (i / 2) (by omega) hlt
    intro a ha b hb
    -- two names are at two places
    obtain ⟨i, hi, rfl⟩ := List.getElem_of_mem ha
    obtain ⟨j, hj, rfl⟩ := List.getElem_of_mem hb
    rw [hfirst i hi, hfirst j hj]
  · intro hequal
    refine ⟨t.path, t.construct_text, fun trailing h => ?_⟩
    obtain ⟨result, hresult, hlookup⟩ := matchUrl_path v h
    refine ⟨result, hresult, fun name => ?_⟩
    rw [hlookup]
    split_ifs with hname
    · have hlt := List.idxOf_lt_length_of_mem hname
      have hhalf : t.names.idxOf name / 2 < t.names.length := by omega
      rw [List.getD_eq_getElem _ _ hhalf, hequal _ (List.getElem_mem hhalf) _ hname]
    · rfl

/-- The template `/{a}/{b}`. -/
def twoParameters : Template where
  segments := [.literal [], .parameter (octets "a"), .parameter (octets "b")]
  literal_plain text htext c hc := by
    obtain rfl : text = [] := by simpa using htext
    cases hc
  name_word name hname := by
    have hname' : name = octets "a" ∨ name = octets "b" := by simpa using hname
    rcases hname' with rfl | rfl <;> decide +kernel
  nodup := by decide

/-- The values `x` and `y`. -/
def twoValues : twoParameters.Values where
  value name := if name = octets "a" then octets "x" else octets "y"
  ne_nil name _ := by split_ifs <;> decide
  slash_free name _ := by split_ifs <;> decide

/-- The second parameter of a template gets the value of the first one. -/
theorem not_binds : ¬ twoParameters.Binds twoValues := by
  intro h
  -- the name `b` is at place 1, half of which is that of `a`
  have hname : octets "b" ∈ twoParameters.names := by decide
  have hvalue := value_eq_of_binds twoValues h hname
  revert hvalue
  decide

end Template

end Http

end Rite
