import Rite.Hpack.Cursor

/-!
# The loop of `parse` stays within its block

The loop compares its position with the end for equality, so it must not step over it. An iteration
that returns has taken the octets of a field, of which there is at least one, and none behind the
end. So the position grows from head to head and comes to the end, unless an iteration fails before.

## Main results

* `bounds_parseField`: an iteration that returns moves the position forward, within the block;
* `loop_bounds`: so it is at every head of the loop, and the loop comes to an end.
-/

namespace Rite

namespace Hpack

open ListReader

/-- An iteration on lists of octets that returns has read a field and applied it. -/
theorem read_of_parseField {pos rest : Octets} {p p' : Parser}
    (h : (Parser.parseField pos).run p = .ok rest p') :
    ∃ f, Field.read pos = .ok (f, rest) ∧ f.apply.run p = .ok () p' := by
  cases hread : Field.read pos with
  | error e =>
    -- the error is raised behind a look-up at most
    obtain ⟨name, -, heq⟩ := parseField_of_read_error hread
    rw [heq, EStateM.run_bind] at h
    cases hvisit : (visit name).run p <;> rw [hvisit] at h <;> cases h
  | ok r =>
    obtain ⟨f, rest'⟩ := r
    rw [parseField_of_read hread, EStateM.run_bind] at h
    cases happly : f.apply.run p with
    | error e p'' =>
      rw [happly] at h
      cases h
    | ok _ p'' =>
      rw [happly] at h
      cases h
      exact ⟨f, rfl, happly⟩

namespace Cursor

variable {counts : Bool} {block : Octets} {n pos next : ℕ} {p q q' : Parser}

/-- An iteration that returns takes an octet, and none behind the end. -/
theorem bounds_parseField (hpos : pos < block.length)
    (h : (parseField counts block pos).run q = .ok next q') : pos < next ∧ next ≤ block.length := by
  rcases parseField_cases counts hpos q with ⟨-, p', htrap⟩ | ⟨-, hagrees⟩
  · rw [htrap] at h
    cases h
  · rw [h] at hagrees
    -- on lists of octets a field takes at least one
    generalize hlist : (Parser.parseField (block.drop pos)).run q = r at hagrees
    cases hagrees with
    | ok hnext =>
      obtain ⟨f, hread, -⟩ := read_of_parseField hlist
      have hlt := advances_read _ _ _ hread
      rw [List.length_drop, List.length_drop] at hlt
      exact ⟨by omega, hnext⟩

/-- So there is no infinite loop to detect. -/
theorem iteration_eq (counts : Bool) (hpos : pos < block.length) (q : Parser) :
    (iteration counts block pos).run q = (parseField counts block pos).run q := by
  rw [iteration, EStateM.run_bind]
  cases h : (parseField counts block pos).run q with
  | error e q' => rfl
  | ok next q' =>
    have hlt := (bounds_parseField hpos h).1
    simp only [hlt.ne', if_false]
    rfl

/-! ## The heads of the loop -/

/-- A head of the loop on the block: the iterations that are done, the position and the parser. -/
inductive Head (counts : Bool) (block : Octets) (p : Parser) : ℕ → ℕ → Parser → Prop
  /-- The loop begins. -/
  | start : Head counts block p 0 0 p
  /-- An iteration returns. -/
  | next {n pos next : ℕ} {q q' : Parser} : Head counts block p n pos q → pos ≠ block.length →
    (iteration counts block pos).run q = .ok next q' → Head counts block p (n + 1) next q'

/-- The position stays within the block, and it has moved by an octet in each iteration. -/
theorem Head.bounds (h : Head counts block p n pos q) : n ≤ pos ∧ pos ≤ block.length := by
  induction h with
  | start => exact ⟨le_rfl, Nat.zero_le _⟩
  | @next n pos next q q' _ hne hrun ih =>
    have hpos : pos < block.length := lt_of_le_of_ne ih.2 hne
    rw [iteration_eq counts hpos] at hrun
    have hnext := bounds_parseField hpos hrun
    exact ⟨by omega, hnext.2⟩

/-- The loop goes on from a head until it comes to the end or an iteration fails. -/
theorem Head.ends (h : Head counts block p n pos q) {m : ℕ} (hm : block.length - pos ≤ m) :
    ∃ n' pos' q', Head counts block p n' pos' q' ∧
      (pos' = block.length ∧ (parseLoop counts block m pos).run q = .ok () q' ∨
        ∃ e q'', (parseField counts block pos').run q' = .error e q'' ∧
          (parseLoop counts block m pos).run q = .error e q'') := by
  induction m generalizing n pos q with
  | zero =>
    -- no octet is left
    have hend : pos = block.length := by
      have := h.bounds
      omega
    refine ⟨n, pos, q, h, .inl ⟨hend, ?_⟩⟩
    rw [parseLoop, if_pos hend]
    rfl
  | succ m ih =>
    by_cases hend : pos = block.length
    · refine ⟨n, pos, q, h, .inl ⟨hend, ?_⟩⟩
      rw [parseLoop, if_pos hend]
      rfl
    have hpos : pos < block.length := lt_of_le_of_ne h.bounds.2 hend
    have hiteration := iteration_eq counts hpos q
    rw [parseLoop, if_neg hend, EStateM.run_bind, hiteration]
    cases hrun : (parseField counts block pos).run q with
    | error e q'' => exact ⟨n, pos, q, h, .inr ⟨e, q'', hrun, rfl⟩⟩
    | ok next q' =>
      -- there is one head more, and an octet less in front of the end
      have hlt := (bounds_parseField hpos hrun).1
      exact ih (h.next hend (hiteration.trans hrun)) (by omega)

/-- At every head the position lies within the block, and an iteration that returns moves it
forward, but not past the end. The loop ends within as many iterations as there are octets: at the
end of the block, or with an iteration that fails before it comes to the detection of infinite
loops. -/
theorem loop_bounds (counts : Bool) (block : Octets) (p : Parser) :
    (∀ n pos q, Head counts block p n pos q → pos ≤ block.length ∧
      (pos ≠ block.length → ∀ next q', (parseField counts block pos).run q = .ok next q' →
        pos < next ∧ next ≤ block.length)) ∧
    ∃ n pos q, n ≤ block.length ∧ Head counts block p n pos q ∧
      (pos = block.length ∧ (parseLoop counts block block.length 0).run p = .ok () q ∨
        ∃ e q', (parseField counts block pos).run q = .error e q' ∧
          (parseLoop counts block block.length 0).run p = .error e q') := by
  constructor
  · intro n pos q hhead
    have hle := hhead.bounds.2
    exact ⟨hle, fun hne next q' hrun => bounds_parseField (lt_of_le_of_ne hle hne) hrun⟩
  · have hstart : Head counts block p 0 0 p := .start
    obtain ⟨n, pos, q, hhead, hend⟩ := hstart.ends (Nat.sub_le block.length 0)
    -- there are no more iterations than octets behind the beginning
    have hbounds := hhead.bounds
    exact ⟨n, pos, q, hbounds.1.trans hbounds.2, hhead, hend⟩

end Cursor

end Hpack

end Rite
