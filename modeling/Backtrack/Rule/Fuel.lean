import Backtrack.Rule.Parse

/-!
# Fuel

How much fuel a parse is given does not matter once it is enough: a reply that was reached with some
fuel is reached with more. Every operation on parsers is shown to respect the relation "wherever the
one finishes, the other replies the same"; for rules, `Rule.parse_finishesAs` follows by induction
on the fuel.
-/

namespace Backtrack

namespace Parser

variable {L S α β : Type}

/-- Wherever the first parser finishes, the second gives the same reply. -/
def FinishesAs (p q : Parser L S α) : Prop :=
  ∀ cursor, p cursor = .unfinished ∨ p cursor = q cursor

namespace FinishesAs

theorem refl (p : Parser L S α) : p.FinishesAs p :=
  fun _ => .inr rfl

theorem trans {p q r : Parser L S α} (h : p.FinishesAs q) (h' : q.FinishesAs r) :
    p.FinishesAs r := by
  intro cursor
  rcases h cursor with unfinished | same
  · exact .inl unfinished
  · rw [same]
    exact h' cursor

/-- Where a parser finishes, so does one that replies the same. -/
theorem ne_unfinished {p q : Parser L S α} (h : p.FinishesAs q) {cursor : Cursor L S}
    (finished : p cursor ≠ .unfinished) : q cursor ≠ .unfinished :=
  (h cursor).resolve_left finished ▸ finished

theorem bind {p q : Parser L S α} {f g : α → Parser L S β} (h : p.FinishesAs q)
    (hf : ∀ value, (f value).FinishesAs (g value)) : (p >>= f).FinishesAs (q >>= g) := by
  intro cursor
  rcases h cursor with h | h
  · left
    simp [bind_apply, h]
  · simp only [bind_apply, h]
    cases q cursor with
    | ok value cursor => exact hf value cursor
    | fail error cursor => exact .inr rfl
    | unfinished => exact .inl rfl

/-! ## Attempts -/

section Attempts

variable {σ : Type} [DecidableEq L] (scope : Scope L) (rule : Rule) {p q : Parser L S α}

theorem attempt (h : p.FinishesAs q) :
    (scope.attempt rule p).FinishesAs (scope.attempt rule q) := by
  intro cursor
  rcases h cursor with h | h
  · left
    simp [Scope.attempt, h]
  · right
    simp [Scope.attempt, h]

theorem attemptOptional (h : p.FinishesAs q) :
    (scope.attemptOptional rule p).FinishesAs (scope.attemptOptional rule q) := by
  intro cursor
  rcases h.attempt scope rule cursor with h | h
  · left
    simp [Scope.attemptOptional, h]
  · right
    simp [Scope.attemptOptional, h]

theorem attemptManyInto (h : p.FinishesAs q) (extend : σ → α → σ) {n m : Nat} (hnm : n ≤ m)
    (gathered : σ) :
    (scope.attemptManyInto rule p extend n gathered).FinishesAs
      (scope.attemptManyInto rule q extend m gathered) := by
  induction n generalizing m gathered with
  | zero => exact fun _ => .inl rfl
  | succ n ih =>
    intro cursor
    obtain ⟨m, rfl⟩ : ∃ k, m = k + 1 := ⟨m - 1, by omega⟩
    rcases h.attemptOptional scope rule cursor with h' | h'
    · left
      simp [Scope.attemptManyInto, h']
    · simp only [Scope.attemptManyInto, h']
      split
      · split
        · exact .inr rfl
        · exact ih (by omega) _ _
      · exact .inr rfl
      · exact .inr rfl
      · exact .inl rfl

theorem extendMany (h : p.FinishesAs q) (extend : σ → α → σ) {n m : Nat} (hnm : n ≤ m)
    (gathered : σ) :
    (scope.extendMany rule p extend n gathered).FinishesAs
      (scope.extendMany rule q extend m gathered) := by
  intro cursor
  rcases h.attemptManyInto scope rule extend hnm gathered cursor with h | h
  · left
    simp [Scope.extendMany, h]
  · right
    simp [Scope.extendMany, h]

end Attempts

end FinishesAs

end Parser

/-! ## Rules -/

namespace Scope

variable {L S : Type} [DecidableEq L] (scope : Scope L)

theorem digitsAfter_finishesAs [Sink S L Terminal] (alphabet : Digit) (type : IntegerType)
    (combine : Int → Int → Option Int) {n m : Nat} (hnm : n ≤ m) (value : Int) :
    (scope.digitsAfter alphabet type combine n value : Parser L S Int).FinishesAs
      (scope.digitsAfter alphabet type combine m value) := by
  induction n generalizing m value with
  | zero => exact fun _ => .inl rfl
  | succ n ih =>
    intro cursor
    obtain ⟨m, rfl⟩ : ∃ k, m = k + 1 := ⟨m - 1, by omega⟩
    simp only [digitsAfter]
    split
    · split
      · exact ih (by omega) _ _
      · exact .inr rfl
    · exact .inr rfl
    · exact .inr rfl
    · exact .inl rfl

theorem sequence_finishesAs {run run' : Rule → Parser L S Value}
    (h : ∀ rule, (run rule).FinishesAs (run' rule)) (rules : List Rule) :
    (scope.sequence run rules).FinishesAs (scope.sequence run' rules) := by
  induction rules with
  | nil => exact .refl _
  | cons rule rules ih =>
    exact .bind ((h rule).attempt scope rule) fun _ => .bind ih fun _ => .refl _

theorem firstPresent_finishesAs [Sink S L Terminal] {run run' : Rule → Parser L S Value}
    (h : ∀ rule, (run rule).FinishesAs (run' rule)) (self : Rule) (rules : List Rule) :
    (scope.firstPresent run self rules).FinishesAs (scope.firstPresent run' self rules) := by
  fun_induction firstPresent scope run self rules with
  | case1 => exact .refl _
  | case2 rule => exact (h rule).attempt scope rule
  | case3 rule rules hne ih =>
    rw [firstPresent.eq_3 _ _ _ _ _ hne]
    refine .bind ((h rule).attemptOptional scope rule) fun value => ?_
    cases value with
    | none => exact ih
    | some value => exact .refl _

end Scope

namespace Rule

variable {L S : Type} [DecidableEq L] [Sink S L Terminal]

/-- With more fuel a rule replies the same wherever it finished before. -/
theorem parse_finishesAs (scope : Scope L) {n m : Nat} (hnm : n ≤ m) (rule : Rule) :
    (rule.parse scope n : Parser L S Value).FinishesAs (rule.parse scope m) := by
  induction n generalizing m rule with
  | zero => exact fun _ => .inl rfl
  | succ n ih =>
    obtain ⟨m, rfl⟩ : ∃ k, m = k + 1 := ⟨m - 1, by omega⟩
    have hnm : n ≤ m := by omega
    have run : ∀ rule, (parse scope n rule : Parser L S Value).FinishesAs (parse scope m rule) :=
      fun rule => ih hnm rule
    simp only [parse]
    cases rule with
    | terminal accepted => exact .refl _
    | endOfInput => exact .refl _
    | optional rule => exact .bind ((run rule).attemptOptional scope rule) fun _ => .refl _
    | discard rule => exact .bind ((run rule).attempt scope rule) fun _ => .refl _
    | many rule into => exact (run rule).extendMany scope rule _ hnm _
    | many1 rule into =>
      refine .bind (.refl _) fun start => .bind ((run rule).attempt scope rule) fun first => ?_
      refine .bind (.refl _) fun stop => ?_
      split
      · exact .refl _
      · exact (run rule).extendMany scope rule _ hnm _
    | sepBy1 rule separator into =>
      refine .bind ((run rule).attempt scope rule) fun first => ?_
      refine .extendMany scope _ ?_ _ hnm _
      exact .bind ((run separator).attempt scope separator) fun _ =>
        (run rule).attempt scope rule
    | padded rule padding =>
      have pads : ∀ gathered, (scope.repeated (parse scope n) n padding gathered :
          Parser L S Value).FinishesAs (scope.repeated (parse scope m) m padding gathered) :=
        fun gathered => (run padding).extendMany scope padding _ hnm gathered
      exact .bind (pads _) fun _ => .bind ((run rule).attempt scope rule) fun _ =>
        .bind (pads _) fun _ => .refl _
    | seq rules => exact .bind (scope.sequence_finishesAs run rules) fun _ => .refl _
    | numeral first next type =>
      refine .bind (.bind (.refl _) fun value => ?_) fun _ => .refl _
      exact scope.digitsAfter_finishesAs _ _ _ hnm value
    | signedNumeral name alphabet type =>
      refine .bind (.bind (.refl _) fun sign => .bind (.refl _) fun first => ?_) fun _ => .refl _
      split
      · exact scope.digitsAfter_finishesAs _ _ _ hnm _
      · exact scope.digitsAfter_finishesAs _ _ _ hnm _
    | take name n => exact .refl _
    | choice name rules => exact scope.firstPresent_finishesAs run _ rules
    | label name rule =>
      refine .bind (.refl _) fun start => .bind ((run rule).attemptOptional scope rule) ?_
      exact fun value => by cases value <;> exact .refl _
    | insist name rule type =>
      refine .bind (.refl _) fun start => .bind ((run rule).attemptOptional scope rule) ?_
      exact fun value => by cases value <;> exact .refl _
    | nothing name => exact .refl _
    | silent name => exact .refl _
    | ref name definition =>
      simp only [Scope.parseRule]
      split
      · exact run _
      · exact .refl _
    | assemble name constructs rules build =>
      exact .bind (scope.sequence_finishesAs run rules) fun _ => .refl _
    | named name rule => exact run rule

/-! ## What comes of a rule with enough fuel -/

/-- At the location the rule matches with the value and stops at another location, with enough fuel
and whatever the sink holds. -/
def MatchesAt (scope : Scope L) (rule : Rule) (l : L) (value : Value) (stop : L) : Prop :=
  ∃ enough, ∀ fuel, enough ≤ fuel → ∀ {S : Type} [Sink S L Terminal] (cursor : Cursor L S),
    cursor.location = l →
      ∃ after, rule.attempt scope fuel cursor = .ok value after ∧ after.location = stop

/-- At the location the rule fails with the error and goes back, with enough fuel and whatever the
sink holds. -/
def FailsAt (scope : Scope L) (rule : Rule) (l : L) (error : Error L) : Prop :=
  ∃ enough, ∀ fuel, enough ≤ fuel → ∀ {S : Type} [Sink S L Terminal] (cursor : Cursor L S),
    cursor.location = l →
      ∃ back, rule.attempt scope fuel cursor = .fail error back ∧ back.location = l

variable {scope : Scope L} {rule : Rule} {l stop : L} {fuel : Nat} {cursor after : Cursor L S}

/-- A reply that was reached with some fuel is the one that enough fuel comes to. -/
theorem attempt_eq_of_le {reply : Reply L S Value} (h : rule.attempt scope fuel cursor = reply)
    (finished : reply ≠ .unfinished) {more : Nat} (hle : fuel ≤ more) :
    rule.attempt scope more cursor = reply := by
  subst h
  exact (((parse_finishesAs scope hle rule).attempt scope rule cursor).resolve_left finished).symm

/-- Where the rule is known to match, no other match is made. -/
theorem MatchesAt.of_ok {value result : Value} (h : MatchesAt scope rule l value stop)
    (here : cursor.location = l) (hok : rule.attempt scope fuel cursor = .ok result after) :
    result = value ∧ after.location = stop := by
  obtain ⟨enough, matched⟩ := h
  obtain ⟨after', hmore, hstop⟩ := matched (max enough fuel) (Nat.le_max_left ..) cursor here
  rw [attempt_eq_of_le hok Reply.ok_ne_unfinished (Nat.le_max_right ..)] at hmore
  cases hmore
  exact ⟨rfl, hstop⟩

/-- Where the rule is known to fail, no match is made. -/
theorem FailsAt.not_ok {error : Error L} {result : Value} (h : FailsAt scope rule l error)
    (here : cursor.location = l) : rule.attempt scope fuel cursor ≠ .ok result after := by
  intro hok
  obtain ⟨enough, failed⟩ := h
  obtain ⟨back, hmore, -⟩ := failed (max enough fuel) (Nat.le_max_left ..) cursor here
  rw [attempt_eq_of_le hok Reply.ok_ne_unfinished (Nat.le_max_right ..)] at hmore
  cases hmore

end Rule

end Backtrack
