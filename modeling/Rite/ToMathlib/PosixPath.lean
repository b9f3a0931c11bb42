import Mathlib

/-!
# POSIX paths

A path is a list of octets in which slashes separate the components. Slashes in a row count as one,
and the components `.` and `..` stand for themselves: paths are not resolved here.

## Main results

* `components_join`: a relative path adds its components to those of the path on the left;
* `join_inj`: different file names make different paths in a directory;
* `isChild_join_iff`: which names make a child of a directory.
-/

/-- A path. -/
abbrev PosixPath := List UInt8

namespace PosixPath

/-- The path begins with a slash. -/
def IsAbsolute (p : PosixPath) : Prop := p.head? = some 0x2F

instance (p : PosixPath) : Decidable p.IsAbsolute := inferInstanceAs (Decidable (_ = _))

/-- The components between the slashes. -/
def components (p : PosixPath) : List (List UInt8) := (p.splitOn 0x2F).filter (· ≠ [])

/-- `p / q`: an absolute path replaces the one on the left. -/
def join (p q : PosixPath) : PosixPath :=
  if q.IsAbsolute then q
  else if p ≠ [] ∧ p.getLast? ≠ some 0x2F then p ++ 0x2F :: q
  else p ++ q

/-- A component that is not one of the two that stand for a directory. -/
structure IsFileName (n : List UInt8) : Prop where
  /-- It is not empty. -/
  ne_nil : n ≠ []
  /-- It has no slash. -/
  slash_notMem : 0x2F ∉ n
  /-- It is not `.`. -/
  ne_dot : n ≠ [0x2E]
  /-- It is not `..`. -/
  ne_dot_dot : n ≠ [0x2E, 0x2E]

/-- The path is that of a file in the directory itself. -/
structure IsChild (dir p : PosixPath) : Prop where
  /-- Both begin at the root, or neither does. -/
  isAbsolute_iff : p.IsAbsolute ↔ dir.IsAbsolute
  /-- There is one component more, the name of the file. -/
  components_eq : ∃ name, IsFileName name ∧ p.components = dir.components ++ [name]
  /-- No slash follows it. -/
  getLast?_ne : p.getLast? ≠ some 0x2F

variable {p q dir : PosixPath}

/-! ## Components -/

theorem components_append (p q : PosixPath) :
    components (p ++ 0x2F :: q) = p.components ++ q.components := by
  rw [components, List.splitOn_append_cons_self, List.filter_append, components, components]

/-- A path without a slash is its only component, unless it is empty. -/
theorem components_of_notMem (hne : p ≠ []) (h : 0x2F ∉ p) : p.components = [p] := by
  rw [components, List.splitOn_eq_singleton h]
  simpa using hne

theorem components_ne_nil {c : UInt8} (hc : c ∈ p) (hne : c ≠ 0x2F) : p.components ≠ [] := by
  induction p with
  | nil => simp at hc
  | cons d p ih =>
    by_cases hd : d = 0x2F
    · subst hd
      have hmem : c ∈ p := by simpa [hne] using hc
      rw [← List.nil_append (0x2F :: p), components_append]
      exact List.append_ne_nil_of_right_ne_nil _ (ih hmem)
    · -- the first component has at least this character
      obtain ⟨x, xs, hxs⟩ := List.exists_cons_of_ne_nil (List.splitOn_ne_nil 0x2F p)
      simp [components, List.splitOn_cons_eq_if_modifyHead, hd, hxs]

/-- A relative path adds its components. -/
theorem components_join (hq : ¬ q.IsAbsolute) :
    (p.join q).components = p.components ++ q.components := by
  unfold join
  rw [if_neg hq]
  split_ifs with h
  · exact components_append p q
  · rcases List.eq_nil_or_concat p with rfl | ⟨p, c, rfl⟩
    · rfl
    · -- the path on the left ends with a slash
      obtain rfl : c = 0x2F := by simpa using h
      rw [List.concat_eq_append, List.append_assoc, List.singleton_append, components_append,
        components_append]
      exact congrArg (· ++ q.components) (List.append_nil (components p)).symm

/-! ## Children -/

theorem isAbsolute_join (hq : ¬ q.IsAbsolute) : (p.join q).IsAbsolute ↔ p.IsAbsolute := by
  unfold join
  rw [if_neg hq]
  -- the path begins as the one on the left, unless that is empty
  cases p with
  | nil => simpa [IsAbsolute] using hq
  | cons c p => split_ifs <;> simp [IsAbsolute]

theorem getLast?_join (hq : q ≠ []) : (p.join q).getLast? = q.getLast? := by
  unfold join
  split_ifs
  · rfl
  · rw [List.getLast?_append_of_ne_nil _ (List.cons_ne_nil _ _), List.getLast?_cons_of_ne_nil hq]
  · exact List.getLast?_append_of_ne_nil p hq

theorem IsFileName.not_isAbsolute {q : PosixPath} (h : IsFileName q) : ¬ q.IsAbsolute :=
  fun hq => h.slash_notMem (List.mem_of_head? hq)

/-- Different file names make different children of a directory. -/
theorem join_inj (hp : IsFileName p) (hq : IsFileName q) : dir.join p = dir.join q ↔ p = q := by
  refine ⟨fun h => ?_, fun h => h ▸ rfl⟩
  have hcomponents := congrArg components h
  rwa [components_join hp.not_isAbsolute, components_join hq.not_isAbsolute,
    components_of_notMem hp.ne_nil hp.slash_notMem, components_of_notMem hq.ne_nil hq.slash_notMem,
    List.append_cancel_left_eq, List.singleton_inj] at hcomponents

/-- A file name is a single component with nothing around it. -/
theorem isFileName_iff (hq : ¬ q.IsAbsolute) :
    IsFileName q ↔ q.getLast? ≠ some 0x2F ∧ ∃ name, IsFileName name ∧ q.components = [name] := by
  constructor
  · intro h
    refine ⟨fun hlast => h.slash_notMem (List.mem_of_getLast? hlast), q, h, ?_⟩
    exact components_of_notMem h.ne_nil h.slash_notMem
  · rintro ⟨hlast, name, hname, hcomponents⟩
    have hne : q ≠ [] := by
      rintro rfl
      simp [components] at hcomponents
    have hslash : 0x2F ∉ q := by
      intro hmem
      -- a slash in the middle separates two components
      obtain ⟨u, v, rfl⟩ := List.append_of_mem hmem
      rw [components_append] at hcomponents
      have hlen := congrArg List.length hcomponents
      have hu : components u ≠ [] := by
        cases u with
        | nil => exact absurd rfl hq
        | cons c u => exact components_ne_nil List.mem_cons_self (by simpa [IsAbsolute] using hq)
      have hv : components v ≠ [] := by
        rcases List.eq_nil_or_concat v with rfl | ⟨v, c, rfl⟩
        · simp at hlast
        · refine components_ne_nil (c := c) (by simp) ?_
          rintro rfl
          refine hlast ?_
          rw [List.concat_eq_append, ← List.cons_append, ← List.append_assoc, List.getLast?_concat]
      have hupos := List.length_pos_iff.mpr hu
      have hvpos := List.length_pos_iff.mpr hv
      simp only [List.length_append, List.length_singleton] at hlen
      omega
    rw [components_of_notMem hne hslash, List.singleton_inj] at hcomponents
    exact hcomponents ▸ hname

/-- A child of a directory is made by a file name, or by the absolute path of a child. -/
theorem isChild_join_iff :
    IsChild dir (dir.join q) ↔ IsFileName q ∨ q.IsAbsolute ∧ IsChild dir q := by
  by_cases hq : q.IsAbsolute
  · have hname : ¬ IsFileName q := fun h => h.slash_notMem (List.mem_of_head? hq)
    simp [join, hq, hname]
  · -- a relative path adds its components, of which there is to be one
    rw [isFileName_iff hq]
    simp only [hq, false_and, or_false]
    constructor
    · intro h
      obtain ⟨name, hname, hcomponents⟩ := h.components_eq
      rw [components_join hq, List.append_cancel_left_eq] at hcomponents
      have hne : q ≠ [] := by
        rintro rfl
        simp [components] at hcomponents
      exact ⟨getLast?_join hne ▸ h.getLast?_ne, name, hname, hcomponents⟩
    · rintro ⟨hlast, name, hname, hcomponents⟩
      have hne : q ≠ [] := by
        rintro rfl
        simp [components] at hcomponents
      exact {
        isAbsolute_iff := isAbsolute_join hq
        components_eq := ⟨name, hname, by rw [components_join hq, hcomponents]⟩
        getLast?_ne := getLast?_join hne ▸ hlast }

end PosixPath
