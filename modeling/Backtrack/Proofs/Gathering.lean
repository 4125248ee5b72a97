import Backtrack.Proofs.Repetitions
import Backtrack.Rule.Fuel

/-!
# One or more matches, and any number of them

One or more matches are a first match and then a repetition, which is not entered if the first match
has not moved the cursor. They are the same as any number of matches wherever the first match is
made, whatever the rule is and wherever it stops moving; and where the first match is not made, the
one is absent and the other is empty (`Rule.many1_agrees_many`).
-/

namespace Backtrack

variable {L S α σ : Type}

/-! ## The first match -/

variable [DecidableEq L]

namespace Scope

/-- One or more matches of a parser, added to anything that grows. -/
def oneOrMore (scope : Scope L) (rule : Rule) (p : Parser L S α) (extend : σ → α → σ) (fuel : Nat)
    (empty : σ) : Parser L S σ := do
  let start ← Parser.location
  let first ← scope.attempt rule p
  if (← Parser.location) = start then pure (extend empty first)
  else scope.extendMany rule p extend fuel (extend empty first)

section

variable {scope : Scope L} {rule : Rule} {p q : Parser L S α} {extend : σ → α → σ} {fuel : Nat}
  {empty : σ} {cursor after : Cursor L S}

/-- Behind a first match, one or more matches go on as any number does. -/
theorem oneOrMore_of_ok {value : α} (h : scope.attempt rule p cursor = .ok value after) :
    scope.oneOrMore rule p extend fuel empty cursor
      = scope.extendMany rule p extend (fuel + 1) empty cursor := by
  have hoptional : scope.attemptOptional rule p cursor = .ok (some value) after := by
    rw [attemptOptional, h]
  by_cases hm : after.location = cursor.location
  · rw [extendMany_still hoptional hm]
    simp [oneOrMore, Parser.bind_apply, Parser.location, h, hm]
  · rw [extendMany_moved hoptional hm]
    simp [oneOrMore, Parser.bind_apply, Parser.location, h, hm]

theorem oneOrMore_of_fail {error : Error L} (h : scope.attempt rule p cursor = .fail error after) :
    scope.oneOrMore rule p extend fuel empty cursor = .fail error after := by
  simp [oneOrMore, Parser.bind_apply, Parser.location, h]

theorem oneOrMore_of_unfinished (h : scope.attempt rule p cursor = .unfinished) :
    scope.oneOrMore rule p extend fuel empty cursor = .unfinished := by
  simp [oneOrMore, Parser.bind_apply, Parser.location, h]

/-- Where there is no first match, any number of matches is none, or fails with an error that is not
taken for an absence. -/
theorem extendMany_of_fail {error : Error L}
    (h : scope.attempt rule p cursor = .fail error after) :
    scope.extendMany rule p extend (fuel + 1) empty cursor
      = if error.recoverable then .ok empty after else .fail error after := by
  have hoptional : scope.attemptOptional rule p cursor
      = if error.recoverable then .ok none after else .fail error after := by
    rw [attemptOptional, h]
  cases hr : error.recoverable with
  | true =>
    rw [hr, if_pos rfl] at hoptional
    exact extendMany_absent hoptional
  | false =>
    rw [hr, if_neg Bool.false_ne_true] at hoptional
    exact extendMany_error hoptional

/-- One or more matches come to an end exactly where any number of them does. -/
theorem oneOrMore_eq_unfinished :
    scope.oneOrMore rule p extend fuel empty cursor = .unfinished ↔
      scope.extendMany rule p extend (fuel + 1) empty cursor = .unfinished := by
  cases h : scope.attempt rule p cursor with
  | ok value after => rw [oneOrMore_of_ok h]
  | fail error after =>
    rw [oneOrMore_of_fail h, extendMany_of_fail h]
    cases error.recoverable <;> simp
  | unfinished =>
    have hoptional : scope.attemptOptional rule p cursor = .unfinished := by
      rw [attemptOptional, h]
    simp [oneOrMore_of_unfinished h, extendMany_unfinished hoptional]

theorem oneOrMore_finishesAs (scope : Scope L) (rule : Rule) (h : p.FinishesAs q)
    (extend : σ → α → σ) {n m : Nat} (hnm : n ≤ m) (empty : σ) :
    (scope.oneOrMore rule p extend n empty).FinishesAs
      (scope.oneOrMore rule q extend m empty) := by
  refine .bind (.refl _) fun start => .bind (h.attempt scope rule) fun first => ?_
  refine .bind (.refl _) fun stop => ?_
  split
  · exact .refl _
  · exact h.extendMany scope rule extend hnm _

end

end Scope

/-! ## Agreement -/

namespace Account

/-- How one or more matches compare with any number of them, by the account of the first attempt at
the location. -/
structure ManyAgree (first : Account L α) (empty : σ) (l : L) (one any : Account L σ) : Prop where
  reports : one.reports = any.reports
  /-- With a first match they are the same. -/
  matched : ∀ value, first.outcome = .ok value →
    one.outcome = any.outcome ∧ one.location = any.location
  /-- Without one they are absent and none. -/
  absent : ∀ error, first.outcome = .error error → error.recoverable = true →
    one.outcome = .error error ∧ one.location = l ∧ any.outcome = .ok empty ∧ any.location = l
  /-- An error that is not taken for an absence is the error of both. -/
  hard : ∀ error, first.outcome = .error error → error.recoverable = false →
    one.outcome = .error error ∧ one.location = l ∧ any.outcome = .error error ∧ any.location = l

end Account

namespace Scope

variable [Sink S L Terminal] {scope : Scope L} {rule : Rule} {p : Parser L S α}
  {extend : σ → α → σ} {fuel : Nat} {empty : σ} {cursor : Cursor L S}

/-- **The first attempt decides** how one or more matches compare with any number of them. -/
theorem many_agree (self self' : Rule) (hp : p.Parallel scope.source p)
    (ended : scope.attempt self (scope.oneOrMore rule p extend fuel empty) cursor ≠ .unfinished) :
    ∃ first one any, scope.attempt rule p cursor = Account.replyTo first cursor ∧
      scope.attempt self (scope.oneOrMore rule p extend fuel empty) cursor
        = Account.replyTo one cursor ∧
      scope.attempt self' (scope.extendMany rule p extend (fuel + 1) empty) cursor
        = Account.replyTo any cursor ∧
      first.ManyAgree empty cursor.location one any := by
  have turn : scope.attempt rule p cursor ≠ .unfinished := fun h =>
    ended (scope.attempt_unfinished self (oneOrMore_of_unfinished h))
  obtain ⟨first, does⟩ := Parser.exists_does (hp.attempt scope rule) turn
  have hfirst := does cursor rfl
  obtain ⟨outcome, m, es⟩ := first
  cases outcome with
  | ok value =>
    have same : scope.oneOrMore rule p extend fuel empty cursor
        = scope.extendMany rule p extend (fuel + 1) empty cursor := oneOrMore_of_ok hfirst
    have finished : scope.extendMany rule p extend (fuel + 1) empty cursor ≠ .unfinished := by
      rw [← same]
      exact fun h => ended (scope.attempt_unfinished self h)
    obtain ⟨a, ha⟩ := Parser.exists_does
      ((related_parallel scope).extendMany rule hp extend (fuel + 1) empty) finished
    have hany := ha cursor rfl
    refine ⟨_, _, _, hfirst, scope.attempt_account self (same.trans hany),
      scope.attempt_account self' hany, ?_, ?_, nofun, nofun⟩
    · rw [Account.reports_rewind, Account.reports_rewind]
    · intro value' _
      rw [Account.rewind_outcome, Account.rewind_outcome, Account.rewind_location,
        Account.rewind_location]
      exact ⟨rfl, rfl⟩
  | error error =>
    obtain rfl := attempt_does_error does
    have hone : scope.oneOrMore rule p extend fuel empty cursor
        = Account.replyTo ⟨.error error, cursor.location, es⟩ cursor := oneOrMore_of_fail hfirst
    have hany : scope.extendMany rule p extend (fuel + 1) empty cursor
        = Account.replyTo ⟨if error.recoverable then .ok empty else .error error, cursor.location,
            es⟩ cursor := by
      rw [extendMany_of_fail hfirst]
      cases error.recoverable <;> rfl
    refine ⟨_, _, _, hfirst, scope.attempt_account self hone, scope.attempt_account self' hany,
      ?_, nofun, ?_, ?_⟩
    · rw [Account.reports_rewind, Account.reports_rewind]
      rfl
    · rintro error' ⟨⟩ hr
      rw [Account.rewind_outcome, Account.rewind_outcome, Account.rewind_location,
        Account.rewind_location, hr]
      exact ⟨rfl, rfl, rfl, rfl⟩
    · rintro error' ⟨⟩ hr
      rw [Account.rewind_outcome, Account.rewind_outcome, Account.rewind_location,
        Account.rewind_location, hr]
      exact ⟨rfl, rfl, rfl, rfl⟩

end Scope

namespace Rule

variable [Sink S L Terminal]

theorem attempt_many1 (scope : Scope L) (fuel : Nat) (rule : Rule) (into : Container) :
    ((many1 rule into).attempt scope (fuel + 1) : Parser L S Value)
      = scope.attempt (many1 rule into)
          (scope.oneOrMore rule (rule.parse scope fuel) Container.extend fuel into.empty) :=
  rfl

theorem attempt_many (scope : Scope L) (fuel : Nat) (rule : Rule) (into : Container) :
    ((many rule into).attempt scope (fuel + 1) : Parser L S Value)
      = scope.attempt (many rule into)
          (scope.extendMany rule (rule.parse scope fuel) Container.extend fuel into.empty) :=
  rfl

/-- With enough fuel for both, one or more matches and any number of them begin with the same first
attempt. -/
theorem oneOrMore_agrees (scope : Scope L) (rule : Rule) (cursor : Cursor L S)
    (extend : σ → Value → σ) (empty : σ) (self self' : Rule) {n n' : Nat}
    (hone : scope.attempt self (scope.oneOrMore rule (rule.parse scope n) extend n empty) cursor
      ≠ .unfinished)
    (hany : scope.attempt self' (scope.extendMany rule (rule.parse scope n') extend n' empty) cursor
      ≠ .unfinished) :
    ∃ (k : Nat) (first : Account L Value) (a b : Account L σ),
      rule.attempt scope k cursor = first.replyTo cursor ∧
      scope.attempt self (scope.oneOrMore rule (rule.parse scope n) extend n empty) cursor
        = a.replyTo cursor ∧
      scope.attempt self' (scope.extendMany rule (rule.parse scope n') extend n' empty) cursor
        = b.replyTo cursor ∧
      first.ManyAgree empty cursor.location a b := by
  let most := max n n'
  have hn : n ≤ most := Nat.le_max_left n n'
  have hn' : n' ≤ most := Nat.le_max_right n n'
  have one := (scope.oneOrMore_finishesAs rule (rule.parse_finishesAs (S := S) scope hn) extend hn
    empty).attempt scope self
  have any := ((rule.parse_finishesAs (S := S) scope hn').extendMany scope rule extend
    (Nat.le_succ_of_le hn') empty).attempt scope self'
  obtain ⟨first, a, b, hfirst, ha, hb, agree⟩ :=
    Scope.many_agree self self' (rule.parse_parallel scope most) (one.ne_unfinished hone)
  exact ⟨most, first, a, b, hfirst, ((one cursor).resolve_left hone).trans ha,
    ((any cursor).resolve_left hany).trans hb, agree⟩

/-- One or more matches come to an end exactly where any number of them does. -/
theorem many1_ends_iff (scope : Scope L) (rule : Rule) (into : Container) (cursor : Cursor L S) :
    (∃ n, (many1 rule into).attempt scope n cursor ≠ .unfinished) ↔
      ∃ n, (many rule into).attempt scope n cursor ≠ .unfinished := by
  constructor
  · rintro ⟨n, hone⟩
    cases n with
    | zero => exact absurd rfl hone
    | succ n =>
      refine ⟨n + 2, ?_⟩
      have longer := (rule.parse_finishesAs (S := S) scope (Nat.le_succ n)).extendMany scope rule
        Container.extend (Nat.le_refl (n + 1)) into.empty
      rw [attempt_many1, Ne, Scope.attempt_eq_unfinished] at hone
      rw [attempt_many, Ne, Scope.attempt_eq_unfinished]
      exact longer.ne_unfinished (mt Scope.oneOrMore_eq_unfinished.2 hone)
  · rintro ⟨n, hany⟩
    cases n with
    | zero => exact absurd rfl hany
    | succ n =>
      refine ⟨n + 1, ?_⟩
      have longer := (Parser.FinishesAs.refl (rule.parse scope n : Parser L S Value)).extendMany
        scope rule Container.extend (Nat.le_succ n) into.empty
      rw [attempt_many, Ne, Scope.attempt_eq_unfinished] at hany
      rw [attempt_many1, Ne, Scope.attempt_eq_unfinished]
      exact mt Scope.oneOrMore_eq_unfinished.1 (longer.ne_unfinished hany)

/-- **One or more matches agree with any number of them**, for every rule, also one that matches
without consuming, and whatever the values are gathered in. Where both come to an end, they make the
same reports, and:

* if the rule matches at the start, they have the same outcome and stop at the same location;
* if it is absent there, its error is that of the one, the other has gathered nothing, and neither
  has moved;
* if it fails with an error that is not taken for an absence, both fail with that error.

The rules that gather in a container are instances, and one of them comes to an end where the other
does. -/
theorem many1_agrees_many (scope : Scope L) (rule : Rule) (cursor : Cursor L S) :
    (∀ {σ : Type} (extend : σ → Value → σ) (empty : σ) (self self' : Rule) (n n' : Nat),
      let one := scope.attempt self (scope.oneOrMore rule (rule.parse scope n) extend n empty)
      let any := scope.attempt self' (scope.extendMany rule (rule.parse scope n') extend n' empty)
      one cursor ≠ .unfinished → any cursor ≠ .unfinished →
        ∃ (k : Nat) (first : Account L Value) (a b : Account L σ),
          rule.attempt scope k cursor = first.replyTo cursor ∧
          one cursor = a.replyTo cursor ∧ any cursor = b.replyTo cursor ∧
          first.ManyAgree empty cursor.location a b) ∧
    (∀ (into : Container) (n n' : Nat),
      (many1 rule into).attempt scope n cursor ≠ .unfinished →
      (many rule into).attempt scope n' cursor ≠ .unfinished →
        ∃ (k : Nat) (first a b : Account L Value),
          rule.attempt scope k cursor = first.replyTo cursor ∧
          (many1 rule into).attempt scope n cursor = a.replyTo cursor ∧
          (many rule into).attempt scope n' cursor = b.replyTo cursor ∧
          first.ManyAgree into.empty cursor.location a b) ∧
    ∀ into : Container, (∃ n, (many1 rule into).attempt scope n cursor ≠ .unfinished) ↔
      ∃ n, (many rule into).attempt scope n cursor ≠ .unfinished := by
  refine ⟨?_, ?_, fun into => many1_ends_iff scope rule into cursor⟩
  · intro σ extend empty self self' n n' one any hone hany
    exact oneOrMore_agrees scope rule cursor extend empty self self' hone hany
  · intro into n n' hone hany
    cases n with
    | zero => exact absurd rfl hone
    | succ n =>
      cases n' with
      | zero => exact absurd rfl hany
      | succ n' =>
        rw [attempt_many1] at hone ⊢
        rw [attempt_many] at hany ⊢
        exact oneOrMore_agrees scope rule cursor Container.extend into.empty _ _ hone hany

/-- Letters that may be missing, over and over: after `ab` there is one that is missing, and no
more. -/
theorem many1_agrees_many_optional :
    let scope : Scope Nat :=
      { source := .ofArray #[97, 98, 44], naming := .offsets .byte true,
        definitions := fun _ => none }
    let rule : Rule := .optional .letter
    let start : Cursor Nat (NoReports Nat Terminal) := .atStart scope.source {}
    ∃ after after' : Cursor Nat (NoReports Nat Terminal),
      (many1 rule .count).attempt scope 4 start = .ok (.count 3) after ∧
        (many rule .count).attempt scope 4 start = .ok (.count 3) after' ∧
        after.location = 2 ∧ after'.location = 2 ∧
        ∃ a b : Account Nat Value, (many1 rule .count).attempt scope 4 start = a.replyTo start ∧
          (many rule .count).attempt scope 4 start = b.replyTo start ∧ a.reports = b.reports := by
  intro scope rule start
  obtain ⟨after, hone, hafter⟩ : ∃ after, (many1 rule .count).attempt scope 4 start
      = .ok (.count 3) after ∧ after.location = 2 := ⟨_, by cbv, rfl⟩
  obtain ⟨after', hany, hafter'⟩ : ∃ after, (many rule .count).attempt scope 4 start
      = .ok (.count 3) after ∧ after.location = 2 := ⟨_, by cbv, rfl⟩
  have finished : (many1 rule .count).attempt scope 4 start ≠ .unfinished :=
    hone ▸ Reply.ok_ne_unfinished
  have finished' : (many rule .count).attempt scope 4 start ≠ .unfinished :=
    hany ▸ Reply.ok_ne_unfinished
  obtain ⟨k, first, a, b, -, ha, hb, agree⟩ :=
    (many1_agrees_many scope rule start).2.1 .count 4 4 finished finished'
  exact ⟨after, after', hone, hany, hafter, hafter', a, b, ha, hb, agree.reports⟩

end Rule

end Backtrack
