import Backtrack.Attempt

/-!
# What attempts leave behind

An attempt that matches does what the parser does, and one that fails leaves the cursor where it
was. A repetition is told turn by turn: it goes on after a match that moved the cursor, and what
ends it is the first absence, the first match in place, or an error.
-/

namespace Backtrack

variable {L S α β σ : Type}

/-- A sequence matches where both parsers do, one after the other. -/
theorem Parser.bind_eq_ok {p : Parser L S α} {f : α → Parser L S β} {value : β}
    {cursor after : Cursor L S} :
    (p >>= f) cursor = .ok value after ↔
      ∃ first middle, p cursor = .ok first middle ∧ f first middle = .ok value after := by
  rw [bind_apply]
  cases p cursor <;> simp [and_assoc]

theorem Parser.bind_of_fail {p : Parser L S α} {f : α → Parser L S β} {error : Error L}
    {cursor after : Cursor L S} (h : p cursor = .fail error after) :
    (p >>= f) cursor = .fail error after := by
  rw [bind_apply, h]

namespace Scope

variable [DecidableEq L] {scope : Scope L} {rule : Rule} {p : Parser L S α}
  {cursor after : Cursor L S}

/-! ## One attempt -/

theorem attempt_eq_ok {value : α} :
    scope.attempt rule p cursor = .ok value after ↔ p cursor = .ok value after := by
  unfold attempt
  cases p cursor with
  | ok value c => rfl
  | unfinished => rfl
  | fail error c =>
    simp only [reduceCtorEq, iff_false]
    split <;> simp

/-- An attempt fails with the error of the parser. -/
theorem attempt_of_fail {error : Error L} (h : p cursor = .fail error after) :
    ∃ back, scope.attempt rule p cursor = .fail error back := by
  unfold attempt
  rw [h]
  by_cases hc : after.location = cursor.location
  · exact ⟨after, if_pos hc⟩
  · exact ⟨_, if_neg hc⟩

/-- **An attempt that fails** leaves the cursor where it was. -/
theorem attempt_fail_location {error : Error L}
    (h : scope.attempt rule p cursor = .fail error after) :
    after.location = cursor.location := by
  unfold attempt at h
  cases hp : p cursor with
  | ok value c => simp [hp] at h
  | unfinished => simp [hp] at h
  | fail error c =>
    simp only [hp] at h
    split at h <;> cases h
    · assumption
    · rfl

/-- An attempt fails where the parser does, and goes back. -/
theorem attempt_goes_back {error : Error L} (h : p cursor = .fail error after) :
    ∃ back, scope.attempt rule p cursor = .fail error back ∧ back.location = cursor.location := by
  obtain ⟨back, failed⟩ : ∃ back, scope.attempt rule p cursor = .fail error back :=
    attempt_of_fail h
  exact ⟨back, failed, attempt_fail_location failed⟩

theorem attemptOptional_fail {error : Error L}
    (h : scope.attemptOptional rule p cursor = .fail error after) :
    scope.attempt rule p cursor = .fail error after := by
  unfold attemptOptional at h
  cases hp : scope.attempt rule p cursor with
  | ok value c => simp [hp] at h
  | unfinished => simp [hp] at h
  | fail error c =>
    simp only [hp] at h
    split at h <;> cases h
    rfl

/-- An optional attempt that finds nothing leaves the cursor where it was. -/
theorem attemptOptional_none_location (h : scope.attemptOptional rule p cursor = .ok none after) :
    after.location = cursor.location := by
  unfold attemptOptional at h
  cases hp : scope.attempt rule p cursor with
  | ok value c => simp [hp] at h
  | unfinished => simp [hp] at h
  | fail error c =>
    simp only [hp] at h
    split at h <;> cases h
    exact attempt_fail_location hp

/-! ## Repetitions, one turn at a time -/

variable {extend : σ → α → σ} {fuel : Nat} {gathered result : σ}

section

variable {value : α} {error : Error L}

theorem attemptManyInto_absent (h : scope.attemptOptional rule p cursor = .ok none after) :
    scope.attemptManyInto rule p extend (fuel + 1) gathered cursor
      = .ok (gathered, none) after := by
  simp [attemptManyInto, h]

theorem attemptManyInto_error (h : scope.attemptOptional rule p cursor = .fail error after) :
    scope.attemptManyInto rule p extend (fuel + 1) gathered cursor
      = .ok (gathered, some error) after := by
  simp [attemptManyInto, h]

/-- A match that does not move the cursor is the last. -/
theorem attemptManyInto_still (h : scope.attemptOptional rule p cursor = .ok (some value) after)
    (still : after.location = cursor.location) :
    scope.attemptManyInto rule p extend (fuel + 1) gathered cursor
      = .ok (extend gathered value, none) after := by
  simp [attemptManyInto, h, still]

theorem attemptManyInto_moved (h : scope.attemptOptional rule p cursor = .ok (some value) after)
    (moved : after.location ≠ cursor.location) :
    scope.attemptManyInto rule p extend (fuel + 1) gathered cursor
      = scope.attemptManyInto rule p extend fuel (extend gathered value) after := by
  simp [attemptManyInto, h, moved]

theorem attemptManyInto_unfinished (h : scope.attemptOptional rule p cursor = .unfinished) :
    scope.attemptManyInto rule p extend (fuel + 1) gathered cursor = .unfinished := by
  simp [attemptManyInto, h]

theorem extendMany_absent (h : scope.attemptOptional rule p cursor = .ok none after) :
    scope.extendMany rule p extend (fuel + 1) gathered cursor = .ok gathered after := by
  simp [extendMany, attemptManyInto_absent h]

theorem extendMany_error (h : scope.attemptOptional rule p cursor = .fail error after) :
    scope.extendMany rule p extend (fuel + 1) gathered cursor = .fail error after := by
  simp [extendMany, attemptManyInto_error h]

theorem extendMany_still (h : scope.attemptOptional rule p cursor = .ok (some value) after)
    (still : after.location = cursor.location) :
    scope.extendMany rule p extend (fuel + 1) gathered cursor
      = .ok (extend gathered value) after := by
  simp [extendMany, attemptManyInto_still h still]

theorem extendMany_moved (h : scope.attemptOptional rule p cursor = .ok (some value) after)
    (moved : after.location ≠ cursor.location) :
    scope.extendMany rule p extend (fuel + 1) gathered cursor
      = scope.extendMany rule p extend fuel (extend gathered value) after := by
  simp [extendMany, attemptManyInto_moved h moved]

theorem extendMany_unfinished (h : scope.attemptOptional rule p cursor = .unfinished) :
    scope.extendMany rule p extend (fuel + 1) gathered cursor = .unfinished := by
  simp [extendMany, attemptManyInto_unfinished h]

end

/-! ## The result of a repetition -/

/-- The error that ends a repetition is part of its result. -/
theorem attemptManyInto_ne_fail {error : Error L} :
    scope.attemptManyInto rule p extend fuel gathered cursor ≠ .fail error after := by
  induction fuel generalizing gathered cursor with
  | zero => simp [attemptManyInto]
  | succ fuel ih =>
    simp only [attemptManyInto]
    split
    · split
      · simp
      · exact ih
    all_goals simp

theorem extendMany_ok
    (h : scope.extendMany rule p extend fuel gathered cursor = .ok result after) :
    scope.attemptManyInto rule p extend fuel gathered cursor = .ok (result, none) after := by
  unfold extendMany at h
  split at h <;> cases h
  assumption

theorem extendMany_fail {error : Error L}
    (h : scope.extendMany rule p extend fuel gathered cursor = .fail error after) :
    ∃ result, scope.attemptManyInto rule p extend fuel gathered cursor
      = .ok (result, some error) after := by
  unfold extendMany at h
  split at h <;> cases h
  · exact ⟨_, by assumption⟩
  · exact absurd (by assumption) attemptManyInto_ne_fail

end Scope

end Backtrack
