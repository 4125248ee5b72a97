import Backtrack.Grammar.Sample
import Backtrack.Proofs.Repetitions
import Backtrack.Rule.Fuel

/-!
# Padding

A repetition that has come to an end has come to rest. Where it stops, its rule is absent or has
just matched without moving the cursor, and either is found again there: repeated once more it stays
where it is and constructs one value at most (`Scope.Repeats.again`, `Scope.extendMany_again`).

So there is nothing more to skip around an element that has padding on both sides, and padding it
twice is padding it once (`Rule.padding_settles`). This holds of everything that settles where it
stops (`Parser.Settles`), whatever the element between it.
-/

namespace Backtrack

variable {L S α β σ : Type}

/-! ## Repetitions at rest -/

namespace Scope

variable [DecidableEq L] [Sink S L Terminal] {scope : Scope L} {rule : Rule} {p : Parser L S α}
  {extend : σ → α → σ} {fuel : Nat} {gathered : σ} {cursor after : Cursor L S}

/-- Where a repetition has stopped, one turn ends it again: what is absent there is absent, and what
has matched there without moving matches once more. -/
theorem Repeats.again {l stop : L} {ms : List (Match L α)} {es : List (TraceEntry L)}
    (h : Repeats scope rule p l ms stop none es) :
    ∃ ms' es', ms'.length ≤ 1 ∧ ∀ {τ : Type} (extend : τ → α → τ) (fuel : Nat) (gathered : τ),
      (scope.attemptManyInto rule p extend (fuel + 1) gathered).Does stop
        (repeating extend gathered ms' stop none es') := by
  cases h.ends with
  | @absent error _ here recoverable =>
    refine ⟨[], es, Nat.zero_le 1, ?_⟩
    intro τ extend fuel gathered cursor there
    have absent := attemptOptional_does here cursor there
    simp only [Account.optional, recoverable, if_true] at absent
    exact attemptManyInto_absent absent
  | @still m last still =>
    obtain ⟨here, stopped⟩ := h.leads.last last
    refine ⟨[m], [], Nat.le_refl 1, ?_⟩
    intro τ extend fuel gathered cursor there
    have start : cursor.location = m.start := by rw [there, ← stopped, still]
    have matched : scope.attemptOptional rule p cursor
        = .ok (some m.value) (cursor.record m.stop m.entries) :=
      attemptOptional_does here cursor start
    have unmoved : (cursor.record m.stop m.entries).location = cursor.location := by
      rw [Cursor.record_location, stopped, there]
    have ends : scope.attemptManyInto rule p extend (fuel + 1) gathered cursor
        = .ok (extend gathered m.value, none) (cursor.record m.stop m.entries) :=
      attemptManyInto_still matched unmoved
    simpa [repeating, Account.replyTo, stopped] using ends

/-- **A repetition reaches a fixed point**: where it has succeeded and stopped, it succeeds again
with the same fuel, stays there, and adds one value at most. The value is the same whatever it is
added to. -/
theorem extendMany_again {source : Source L} (hp : p.Parallel source p) {result : σ}
    (h : scope.extendMany rule p extend fuel gathered cursor = .ok result after) :
    ∃ (values : List α) (es : List (TraceEntry L)), values.length ≤ 1 ∧
      ∀ {τ : Type} (extend : τ → α → τ) (gathered : τ),
        (scope.extendMany rule p extend fuel gathered).Does after.location
          ⟨.ok (values.foldl extend gathered), after.location, es⟩ := by
  cases fuel with
  | zero => cases h
  | succ fuel =>
    have ended : scope.attemptManyInto rule p extend (fuel + 1) gathered cursor ≠ .unfinished := by
      intro unfinished
      rw [extendMany, unfinished] at h
      exact Reply.ok_ne_unfinished h.symm
    obtain ⟨ms, stop, error?, es, repeats, hmany⟩ := attemptManyInto_repeats hp ended
    have hextend := extendMany_does (hmany extend gathered) cursor rfl
    obtain ⟨es', same⟩ := Account.eq_of_replyTo_ok (hextend.symm.trans h)
    cases error? with
    | some error => cases congrArg Account.outcome same
    | none =>
      obtain rfl : stop = after.location := congrArg Account.location same
      obtain ⟨ms', es'', atMostOne, hagain⟩ := repeats.again
      refine ⟨ms'.map Match.value, ms'.flatMap Match.entries ++ es'', by simpa using atMostOne, ?_⟩
      intro τ extend gathered
      exact extendMany_does (hagain extend fuel gathered)

end Scope

/-! ## An element and what surrounds it -/

namespace Parser

/-- An element, and what is skipped in front of it and behind it. -/
def surroundedBy (element : Parser L S α) (skip : Parser L S β) : Parser L S α := do
  let _ ← skip
  let value ← element
  let _ ← skip
  pure value

theorem FinishesAs.surroundedBy {element element' : Parser L S α} {skip skip' : Parser L S β}
    (h : element.FinishesAs element') (hskip : skip.FinishesAs skip') :
    (element.surroundedBy skip).FinishesAs (element'.surroundedBy skip') :=
  hskip.bind fun _ => h.bind fun _ => hskip.bind fun _ => .refl _

section

variable [Sink S L Terminal]

/-- Where the parser stops, it matches again and stays there. -/
def Settles (p : Parser L S α) : Prop :=
  ∀ l m value es, p.Does l ⟨.ok value, m, es⟩ → ∃ value' es', p.Does m ⟨.ok value', m, es'⟩

/-- What an attempt of an element comes to from a location on, with what is skipped around it, and
where it stops. -/
inductive Surrounded (element : Parser L S α) (skip : Parser L S β) (l : L) :
    Except (Error L) α → L → Prop where
  | matched {m m' stop : L} {before after : β} {value : α} {es es' es'' : List (TraceEntry L)}
      (leading : skip.Does l ⟨.ok before, m, es⟩) (here : element.Does m ⟨.ok value, m', es'⟩)
      (trailing : skip.Does m' ⟨.ok after, stop, es''⟩) : Surrounded element skip l (.ok value) stop
  /-- What is skipped in front of the element fails. -/
  | leading {m : L} {error : Error L} {es : List (TraceEntry L)}
      (fails : skip.Does l ⟨.error error, m, es⟩) : Surrounded element skip l (.error error) l
  /-- The element fails. -/
  | element {m m' : L} {before : β} {error : Error L} {es es' : List (TraceEntry L)}
      (leading : skip.Does l ⟨.ok before, m, es⟩) (fails : element.Does m ⟨.error error, m', es'⟩) :
      Surrounded element skip l (.error error) l
  /-- What is skipped behind the element fails. -/
  | trailing {m m' stop : L} {before : β} {value : α} {error : Error L}
      {es es' es'' : List (TraceEntry L)} (leading : skip.Does l ⟨.ok before, m, es⟩)
      (here : element.Does m ⟨.ok value, m', es'⟩)
      (fails : skip.Does m' ⟨.error error, stop, es''⟩) : Surrounded element skip l (.error error) l

end

end Parser

namespace Parser.Surrounded

variable [Sink S L Terminal] {element : Parser L S α} {skip : Parser L S β} {l : L}
  {outcome : Except (Error L) α} {stop : L}

/-- The attempt does what it comes to. -/
theorem does [DecidableEq L] (h : element.Surrounded skip l outcome stop) (scope : Scope L)
    (self : Rule) :
    ∃ es, (scope.attempt self (element.surroundedBy skip)).Does l ⟨outcome, stop, es⟩ := by
  cases h with
  | @matched m m' _ before after value es es' es'' leading here trailing =>
    have whole : (element.surroundedBy skip).Does l ⟨.ok value, stop, es ++ (es' ++ es'')⟩ := by
      intro cursor there
      refine (bind_account_ok (leading cursor there)).trans ?_
      refine (bind_account_ok (here _ rfl)).trans ?_
      refine (bind_account_ok (trailing _ rfl)).trans ?_
      rw [Cursor.record_record, Cursor.record_record]
      rfl
    exact ⟨_, whole.attempt scope self⟩
  | @leading m error es fails =>
    have whole : (element.surroundedBy skip).Does l ⟨.error error, m, es⟩ := by
      intro cursor there
      exact bind_account_error (fails cursor there)
    exact ⟨_, whole.attempt scope self⟩
  | @element m m' before error es es' leading fails =>
    have whole : (element.surroundedBy skip).Does l ⟨.error error, m', es ++ es'⟩ := by
      intro cursor there
      refine (bind_account_ok (leading cursor there)).trans ?_
      exact (bind_account_error (fails _ rfl)).trans (replyTo_record ..)
    exact ⟨_, whole.attempt scope self⟩
  | @trailing m m' stop before value error es es' es'' leading here fails =>
    have whole : (element.surroundedBy skip).Does l ⟨.error error, stop, es ++ es' ++ es''⟩ := by
      intro cursor there
      refine (bind_account_ok (leading cursor there)).trans ?_
      refine (bind_account_ok (here _ rfl)).trans ?_
      refine (bind_account_error (fails _ rfl)).trans ?_
      rw [Cursor.record_record, replyTo_record]
      rfl
    exact ⟨_, whole.attempt scope self⟩

/-- An element that comes to an end between what is skipped comes to something. -/
theorem of_ended {source : Source L} (helement : element.Parallel source element)
    (hskip : skip.Parallel source skip) {cursor : Cursor L S}
    (ended : element.surroundedBy skip cursor ≠ .unfinished) :
    ∃ outcome stop, element.Surrounded skip cursor.location outcome stop := by
  have front : skip cursor ≠ .unfinished := fun h => ended (bind_unfinished h)
  obtain ⟨⟨leads, m, es⟩, leading⟩ := exists_does hskip front
  cases leads with
  | error error => exact ⟨_, _, .leading leading⟩
  | ok before =>
    have rest : (do let value ← element; let _ ← skip; pure value : Parser L S α)
        (cursor.record m es) ≠ .unfinished := by
      intro h
      exact ended ((bind_account_ok (leading cursor rfl)).trans h)
    have middle : element (cursor.record m es) ≠ .unfinished := fun h => rest (bind_unfinished h)
    obtain ⟨⟨outcome, m', es'⟩, here⟩ := exists_does helement middle
    cases outcome with
    | error error => exact ⟨_, _, .element leading here⟩
    | ok value =>
      have back : skip ((cursor.record m es).record m' es') ≠ .unfinished := by
        intro h
        exact rest ((bind_account_ok (here _ rfl)).trans (bind_unfinished h))
      obtain ⟨⟨trails, stop, es''⟩, trailing⟩ := exists_does hskip back
      cases trails with
      | error error => exact ⟨_, _, .trailing leading here trailing⟩
      | ok after => exact ⟨_, _, .matched leading here trailing⟩

/-- **What settles is skipped once.** Around an element that has it on both sides already, it is
skipped again to no effect. -/
theorem again [DecidableEq L] (h : element.Surrounded skip l outcome stop) (settles : skip.Settles)
    (scope : Scope L) (self : Rule) :
    (scope.attempt self (element.surroundedBy skip)).Surrounded skip l outcome stop := by
  cases h with
  | matched leading here trailing =>
    obtain ⟨before', es, rests⟩ := settles _ _ _ _ leading
    obtain ⟨after', es', rests'⟩ := settles _ _ _ _ trailing
    obtain ⟨es'', inner⟩ := (Surrounded.matched rests here trailing).does scope self
    exact .matched leading inner rests'
  | leading fails => exact .leading fails
  | element leading fails =>
    obtain ⟨before', es, rests⟩ := settles _ _ _ _ leading
    obtain ⟨es', inner⟩ := (Surrounded.element rests fails).does scope self
    exact .element leading inner
  | trailing leading here fails =>
    obtain ⟨before', es, rests⟩ := settles _ _ _ _ leading
    obtain ⟨es', inner⟩ := (Surrounded.trailing rests here fails).does scope self
    exact .element leading inner

/-- Behind what has been skipped already, the element comes to an end as it does in front of it. -/
theorem of_skipped (cursor : Cursor L S) (settles : skip.Settles) {m : L} {before : β}
    {es : List (TraceEntry L)} (leading : skip.Does l ⟨.ok before, m, es⟩)
    (h : element.Surrounded skip m outcome stop) :
    ∃ outcome stop, element.Surrounded skip l outcome stop := by
  obtain ⟨before', es', rests⟩ := settles _ _ _ _ leading
  cases h with
  | matched leading' here trailing =>
    obtain ⟨rfl, rfl, rfl⟩ := rests.unique cursor leading'
    exact ⟨_, _, .matched leading here trailing⟩
  | leading fails => exact absurd (rests.unique cursor fails) nofun
  | element leading' fails =>
    obtain ⟨rfl, rfl, rfl⟩ := rests.unique cursor leading'
    exact ⟨_, _, .element leading fails⟩
  | trailing leading' here fails =>
    obtain ⟨rfl, rfl, rfl⟩ := rests.unique cursor leading'
    exact ⟨_, _, .trailing leading here fails⟩

/-- An element that comes to something between what is skipped twice does so between what is skipped
once. -/
theorem of_again [DecidableEq L] {source : Source L} (cursor : Cursor L S)
    (helement : element.Parallel source element) (hskip : skip.Parallel source skip)
    (settles : skip.Settles) {scope : Scope L} {self : Rule}
    (h : (scope.attempt self (element.surroundedBy skip)).Surrounded skip l outcome stop) :
    ∃ outcome stop, element.Surrounded skip l outcome stop := by
  have inner {m m' : L} {before : β} {outcome : Except (Error L) α} {es es' : List (TraceEntry L)}
      (leading : skip.Does l ⟨.ok before, m, es⟩)
      (here : (scope.attempt self (element.surroundedBy skip)).Does m ⟨outcome, m', es'⟩) :
      ∃ outcome stop, element.Surrounded skip l outcome stop := by
    have ended : element.surroundedBy skip { cursor with location := m } ≠ .unfinished := by
      intro unfinished
      have none := scope.attempt_unfinished self unfinished
      exact Account.replyTo_ne_unfinished _ ((here _ rfl).symm.trans none)
    obtain ⟨_, _, surrounded⟩ := of_ended helement hskip ended
    exact surrounded.of_skipped cursor settles leading
  cases h with
  | matched leading here trailing => exact inner leading here
  | leading fails => exact ⟨_, _, .leading fails⟩
  | element leading fails => exact inner leading fails
  | trailing leading here fails => exact inner leading here

end Parser.Surrounded

/-! ## Padding of a rule -/

/-- How a padded element can fail with an error, from a location on, by the parsers of the element
and of the padding. -/
inductive Parser.PadFails [Sink S L Terminal] (element pad : Parser L S Value) (l : L)
    (error : Error L) : Prop where
  /-- Behind the padding in front of it, the element fails. -/
  | element {m m' : L} {ms : List (Match L Value)} {es es' : List (TraceEntry L)}
      (leading : pad.Leads l ms m) (ends : pad.Ends ms m none es)
      (fails : element.Does m ⟨.error error, m', es'⟩)
  /-- In front of the element, the padding fails with an error that is not taken for an absence. -/
  | leading {m : L} {ms : List (Match L Value)} {es : List (TraceEntry L)}
      (leading : pad.Leads l ms m) (fails : pad.Does m ⟨.error error, m, es⟩)
      (hard : error.recoverable = false)
  /-- Behind the element, the padding fails with an error that is not taken for an absence. -/
  | trailing {m m' stop : L} {ms ms' : List (Match L Value)} {value : Value}
      {es es' es'' : List (TraceEntry L)} (leading : pad.Leads l ms m)
      (ends : pad.Ends ms m none es) (here : element.Does m ⟨.ok value, m', es'⟩)
      (trailing : pad.Leads m' ms' stop)
      (fails : pad.Does stop ⟨.error error, stop, es''⟩) (hard : error.recoverable = false)

namespace Scope

variable [DecidableEq L] [Sink S L Terminal] (scope : Scope L) (padding : Rule)
  {pad : Parser L S Value} {fuel : Nat}

/-- Skips padding: it is matched as often as possible, and what it constructs is dropped. -/
def skip (pad : Parser L S Value) (fuel : Nat) : Parser L S Value :=
  scope.extendMany padding pad Container.extend fuel Container.unit.empty

variable {scope padding}

theorem skip_parallel (hpad : pad.Parallel scope.source pad) :
    (scope.skip padding pad fuel).Parallel scope.source (scope.skip padding pad fuel) :=
  (related_parallel scope).extendMany padding hpad Container.extend fuel Container.unit.empty

/-- Where padding has been skipped, there is nothing more to skip. -/
theorem skip_settles (cursor : Cursor L S) (hpad : pad.Parallel scope.source pad) :
    (scope.skip padding pad fuel).Settles := by
  intro l m value es h
  have here : scope.skip padding pad fuel { cursor with location := l }
      = .ok value (Cursor.record { cursor with location := l } m es) := h _ rfl
  obtain ⟨values, es', -, again⟩ := extendMany_again hpad here
  exact ⟨_, es', again Container.extend Container.unit.empty⟩

/-- What has been skipped are matches of the padding, up to where it is absent, has matched without
moving, or fails. -/
theorem repeats_of_skip (cursor : Cursor L S) (hpad : pad.Parallel scope.source pad) {l : L}
    {a : Account L Value} (h : (scope.skip padding pad fuel).Does l a) :
    ∃ ms es, Repeats scope padding pad l ms a.location a.error? es := by
  have here := h { cursor with location := l } rfl
  have ended : scope.attemptManyInto padding pad Container.extend fuel Container.unit.empty
      { cursor with location := l } ≠ .unfinished := by
    intro unfinished
    rw [skip, extendMany, unfinished] at here
    exact a.replyTo_ne_unfinished here.symm
  obtain ⟨ms, stop, error?, es, repeats, hmany⟩ := attemptManyInto_repeats hpad ended
  obtain rfl := (extendMany_does (hmany Container.extend Container.unit.empty)).unique cursor h
  refine ⟨ms, es, ?_⟩
  cases error? <;> exact repeats

/-- The attempts of the element and of the padding that a failure comes from. -/
theorem padFails_of_surrounded (cursor : Cursor L S) (hpad : pad.Parallel scope.source pad)
    {element : Parser L S Value} {l stop : L} {error : Error L}
    (h : element.Surrounded (scope.skip padding pad fuel) l (.error error) stop) :
    element.PadFails (scope.attempt padding pad) l error := by
  cases h with
  | leading fails =>
    obtain ⟨ms, es, repeats⟩ := repeats_of_skip cursor hpad fails
    cases repeats.ends with
    | error here hard => exact .leading repeats.leads here hard
  | element leading fails =>
    obtain ⟨ms, es, repeats⟩ := repeats_of_skip cursor hpad leading
    exact .element repeats.leads repeats.ends fails
  | trailing leading here fails =>
    obtain ⟨ms, es, repeats⟩ := repeats_of_skip cursor hpad leading
    obtain ⟨ms', es', repeats'⟩ := repeats_of_skip cursor hpad fails
    cases repeats'.ends with
    | error here' hard => exact .trailing repeats.leads repeats.ends here repeats'.leads here' hard

end Scope

namespace Rule

variable [DecidableEq L] [Sink S L Terminal] (scope : Scope L) (rule padding : Rule)

/-- What a padded rule does to a cursor. -/
def parsePadded (fuel : Nat) : Parser L S Value :=
  (rule.attempt scope fuel).surroundedBy (scope.skip padding (padding.parse scope fuel) fuel)

/-- What a padded rule within the same padding does to a cursor. -/
def parseTwicePadded (fuel : Nat) : Parser L S Value :=
  (scope.attempt (padded rule padding) (parsePadded scope rule padding fuel)).surroundedBy
    (scope.skip padding (padding.parse scope fuel) fuel)

theorem attempt_padded (fuel : Nat) :
    ((padded rule padding).attempt scope (fuel + 1) : Parser L S Value)
      = scope.attempt (padded rule padding) (parsePadded scope rule padding fuel) :=
  rfl

theorem padded_longer {n k : Nat} (hnk : n ≤ k + 1) :
    ((padded rule padding).attempt scope n : Parser L S Value).FinishesAs
      (scope.attempt (padded rule padding) (parsePadded scope rule padding k)) :=
  (parse_finishesAs scope hnk (padded rule padding)).attempt scope (padded rule padding)

theorem twicePadded_longer {n k : Nat} (hnk : n ≤ k + 1) :
    ((padded (padded rule padding) padding).attempt scope n : Parser L S Value).FinishesAs
      (scope.attempt (padded (padded rule padding) padding)
        (parseTwicePadded scope rule padding k)) := by
  have inner := padded_longer (S := S) scope rule padding (Nat.le_succ k)
  have outer := parse_finishesAs (S := S) scope hnk (padded (padded rule padding) padding)
  exact (outer.trans (inner.surroundedBy (.refl _))).attempt scope _

theorem longer_twicePadded (k : Nat) :
    (scope.attempt (padded (padded rule padding) padding)
        (parseTwicePadded scope rule padding k) : Parser L S Value).FinishesAs
      ((padded (padded rule padding) padding).attempt scope (k + 2)) := by
  have skip := (parse_finishesAs (S := S) scope (Nat.le_succ k) padding).extendMany scope padding
    Container.extend (Nat.le_succ k) Container.unit.empty
  exact (Parser.FinishesAs.surroundedBy (.refl _) skip).attempt scope _

theorem skips_parallel (k : Nat) :
    (scope.skip padding (padding.parse scope k) k : Parser L S Value).Parallel scope.source
      (scope.skip padding (padding.parse scope k) k : Parser L S Value) :=
  Scope.skip_parallel (padding.parse_parallel scope k)

theorem skips_settle (cursor : Cursor L S) (k : Nat) :
    (scope.skip padding (padding.parse scope k) k : Parser L S Value).Settles :=
  Scope.skip_settles cursor (padding.parse_parallel scope k)

variable {cursor : Cursor L S}

/-- What a padded rule comes to where it comes to an end, once or twice padded. -/
theorem padded_does {k : Nat}
    (ended : scope.attempt (padded rule padding) (parsePadded scope rule padding k) cursor
      ≠ .unfinished) :
    ∃ outcome stop es es',
      (rule.attempt scope k : Parser L S Value).Surrounded
        (scope.skip padding (padding.parse scope k) k) cursor.location outcome stop ∧
      scope.attempt (padded rule padding) (parsePadded scope rule padding k) cursor
        = Account.replyTo ⟨outcome, stop, es⟩ cursor ∧
      scope.attempt (padded (padded rule padding) padding)
          (parseTwicePadded scope rule padding k) cursor
        = Account.replyTo ⟨outcome, stop, es'⟩ cursor := by
  have helement := (rule.parse_parallel (S := S) (T := S) scope k).attempt scope rule
  obtain ⟨outcome, stop, surrounded⟩ := Parser.Surrounded.of_ended helement
    (skips_parallel scope padding k) (mt Scope.attempt_eq_unfinished.2 ended)
  obtain ⟨es, once⟩ := surrounded.does scope (padded rule padding)
  obtain ⟨es', twice⟩ := (surrounded.again (skips_settle scope padding cursor k) scope
    (padded rule padding)).does scope (padded (padded rule padding) padding)
  exact ⟨outcome, stop, es, es', surrounded, once cursor rfl, twice cursor rfl⟩

/-- Where a rule comes to an end that is padded twice, it comes to an end padded once. -/
theorem padded_ended {k : Nat}
    (ended : scope.attempt (padded (padded rule padding) padding)
      (parseTwicePadded scope rule padding k) cursor ≠ .unfinished) :
    scope.attempt (padded rule padding) (parsePadded scope rule padding k) cursor
      ≠ .unfinished := by
  have helement := (rule.parse_parallel (S := S) (T := S) scope k).attempt scope rule
  have hskip := skips_parallel (S := S) scope padding k
  have hpadded : (parsePadded scope rule padding k : Parser L S Value).Parallel scope.source
      (parsePadded scope rule padding k) :=
    (parse_parallel (S := S) (T := S) scope (k + 1) (padded rule padding))
  obtain ⟨_, _, outer⟩ := Parser.Surrounded.of_ended (hpadded.attempt scope (padded rule padding))
    hskip (mt Scope.attempt_eq_unfinished.2 ended)
  obtain ⟨_, _, surrounded⟩ :=
    outer.of_again cursor helement hskip (skips_settle scope padding cursor k)
  obtain ⟨es, once⟩ := surrounded.does scope (padded rule padding)
  exact fun unfinished => Account.replyTo_ne_unfinished _ ((once cursor rfl).symm.trans unfinished)

/-- Padding once and padding twice come to an end at the same places. -/
theorem padded_ends_iff (cursor : Cursor L S) :
    (∃ n, (padded (padded rule padding) padding).attempt scope n cursor ≠ .unfinished) ↔
      ∃ n, (padded rule padding).attempt scope n cursor ≠ .unfinished := by
  constructor
  · intro ⟨n, ended⟩
    have longer := twicePadded_longer (S := S) scope rule padding (Nat.le_succ n)
    exact ⟨n + 1, padded_ended scope rule padding (longer.ne_unfinished ended)⟩
  · intro ⟨n, ended⟩
    have longer := padded_longer (S := S) scope rule padding (Nat.le_succ n)
    obtain ⟨outcome, stop, es, es', -, -, twice⟩ :=
      padded_does scope rule padding (longer.ne_unfinished ended)
    have finished := twice ▸ Account.replyTo_ne_unfinished _
    exact ⟨n + 2, (longer_twicePadded scope rule padding n).ne_unfinished finished⟩

/-- A repetition that has succeeded adds one value at most where it has stopped, with enough fuel
for the first time and wherever it comes to an end. -/
theorem many_again {σ : Type} (extend : σ → Value → σ) (gathered : σ) (n : Nat) {result : σ}
    {after : Cursor L S}
    (h : scope.extendMany padding (padding.parse scope n) extend n gathered cursor
      = .ok result after) :
    ∃ (values : List Value) (es : List (TraceEntry L)), values.length ≤ 1 ∧
      ∀ {τ : Type} (extend : τ → Value → τ) (gathered : τ) (again : Cursor L S),
        again.location = after.location → ∀ k,
          let repeated :=
            scope.extendMany padding (padding.parse scope k) extend k gathered again
          n ≤ k ∨ repeated ≠ .unfinished →
            repeated = .ok (values.foldl extend gathered) (again.record after.location es) := by
  obtain ⟨values, es, atMostOne, settled⟩ :=
    Scope.extendMany_again (padding.parse_parallel scope n) h
  refine ⟨values, es, atMostOne, ?_⟩
  intro τ extend' gathered' again there k repeated enough
  have first := settled extend' gathered' again there
  have finished := first ▸ Account.replyTo_ne_unfinished _
  have longer {m m' : Nat} (hmm : m ≤ m') :=
    (padding.parse_finishesAs (S := S) scope hmm).extendMany scope padding extend' hmm gathered'
  have most := (longer (Nat.le_max_left n k) again).resolve_left finished
  have other : repeated ≠ .unfinished := by
    rcases enough with hnk | ended
    · exact (longer hnk).ne_unfinished finished
    · exact ended
  calc repeated
    _ = _ := (longer (Nat.le_max_right n k) again).resolve_left other
    _ = _ := most.symm
    _ = _ := first

/-- **Repetition reaches a fixed point, so that padding twice is padding once**, for all rules of
the element and of the padding, also where these match without consuming or overflow.

* Where any number of matches has succeeded, it succeeds again from the location at which it has
  stopped, stays there, and adds one value at most. It needs no more fuel than the first time.
* An element that is padded twice and one that is padded once match with the same value and stop at
  the same location, or fail with the same error and do not move. One comes to an end where the
  other does.
* A padded element fails only where the element fails behind the padding in front of it, or where
  the padding itself fails with an error that is not taken for an absence. -/
theorem padding_settles (scope : Scope L) (rule padding : Rule) (cursor : Cursor L S) :
    let once := padded rule padding
    let twice := padded once padding
    (∀ {σ : Type} (extend : σ → Value → σ) (gathered : σ) (n : Nat) (result : σ)
      (after : Cursor L S),
      scope.extendMany padding (padding.parse scope n) extend n gathered cursor
          = .ok result after →
        ∃ (values : List Value) (es : List (TraceEntry L)), values.length ≤ 1 ∧
          ∀ {τ : Type} (extend : τ → Value → τ) (gathered : τ) (again : Cursor L S),
            again.location = after.location → ∀ k,
              let repeated :=
                scope.extendMany padding (padding.parse scope k) extend k gathered again
              n ≤ k ∨ repeated ≠ .unfinished →
                repeated = .ok (values.foldl extend gathered)
                  (again.record after.location es)) ∧
    (∀ (into : Container) (n : Nat) (result : Value) (after : Cursor L S),
      padding.attemptMany scope n into cursor = .ok result after →
        ∃ (values : List Value) (es : List (TraceEntry L)), values.length ≤ 1 ∧
          ∀ k, n ≤ k ∨ padding.attemptMany scope k into after ≠ .unfinished →
            padding.attemptMany scope k into after
              = .ok (into.ofValues values) (after.record after.location es)) ∧
    (∀ n n', twice.attempt scope n cursor ≠ .unfinished →
      once.attempt scope n' cursor ≠ .unfinished →
        ∃ a b : Account L Value, twice.attempt scope n cursor = a.replyTo cursor ∧
          once.attempt scope n' cursor = b.replyTo cursor ∧
          a.outcome = b.outcome ∧ a.location = b.location ∧
          ∀ error, b.outcome = .error error → b.location = cursor.location) ∧
    (∀ n error back, once.attempt scope (n + 1) cursor = .fail error back →
      back.location = cursor.location ∧
        (rule.attempt scope n : Parser L S Value).PadFails (padding.attempt scope n)
          cursor.location error) ∧
    ((∃ n, twice.attempt scope n cursor ≠ .unfinished) ↔
      ∃ n, once.attempt scope n cursor ≠ .unfinished) := by
  intro once twice
  refine ⟨?_, ?_, ?_, ?_, padded_ends_iff scope rule padding cursor⟩
  · intro σ extend gathered n result after h
    exact many_again scope padding extend gathered n h
  · intro into n result after h
    obtain ⟨values, es, atMostOne, settled⟩ :=
      many_again scope padding Container.extend into.empty n h
    exact ⟨values, es, atMostOne, settled Container.extend into.empty after rfl⟩
  · intro n n' htwice honce
    let k := max n n'
    have longer := padded_longer (S := S) scope rule padding (show n' ≤ k + 1 by omega)
    have longer' := twicePadded_longer (S := S) scope rule padding (show n ≤ k + 1 by omega)
    obtain ⟨outcome, stop, es, es', surrounded, ha, hb⟩ :=
      padded_does scope rule padding (longer.ne_unfinished honce)
    refine ⟨_, _, ((longer' cursor).resolve_left htwice).trans hb,
      ((longer cursor).resolve_left honce).trans ha, rfl, rfl, ?_⟩
    rintro error rfl
    exact Scope.attempt_fail_location ha
  · intro n error back h
    refine ⟨Scope.attempt_fail_location h, ?_⟩
    have ended : scope.attempt once (parsePadded scope rule padding n) cursor ≠ .unfinished := by
      rw [← attempt_padded, h]
      exact Reply.fail_ne_unfinished
    obtain ⟨outcome, stop, es, es', surrounded, ha, -⟩ := padded_does scope rule padding ended
    obtain ⟨_, same⟩ := Account.eq_of_replyTo_fail (ha.symm.trans h)
    obtain rfl : outcome = .error error := congrArg Account.outcome same
    exact Scope.padFails_of_surrounded cursor (padding.parse_parallel scope n) surrounded

/-- Whitespace that may be missing matches everywhere. In ` a ,` it is skipped around the letter,
and once more without moving, however often it is skipped. -/
theorem padding_settles_optional :
    let scope : Scope Nat :=
      { source := .ofArray #[32, 97, 32, 44], naming := .offsets .byte true,
        definitions := fun _ => none }
    let padding : Rule := .optional (.mark .whitespace)
    let once : Rule := .padded .letter padding
    let twice : Rule := .padded once padding
    let start : Cursor Nat (NoReports Nat Terminal) := .atStart scope.source {}
    (∃ (values : List Value) (after again : Cursor Nat (NoReports Nat Terminal)),
      padding.attemptMany scope 5 .count start = .ok (.count 2) after ∧ after.location = 1 ∧
      padding.attemptMany scope 5 .count after = .ok (Container.count.ofValues values) again ∧
      again.location = 1 ∧ values.length ≤ 1) ∧
    ∃ a b : Account Nat Value, twice.attempt scope 6 start = a.replyTo start ∧
      once.attempt scope 5 start = b.replyTo start ∧ a.outcome = .ok (.terminal 97) ∧
      b.outcome = .ok (.terminal 97) ∧ a.location = 3 ∧ b.location = 3 := by
  intro scope padding once twice start
  obtain ⟨-, rests, agrees, -⟩ := padding_settles scope .letter padding start
  constructor
  · obtain ⟨after, hmany, location⟩ : ∃ after,
        padding.attemptMany scope 5 .count start = .ok (.count 2) after ∧ after.location = 1 :=
      ⟨_, by cbv, rfl⟩
    obtain ⟨values, es, atMostOne, again⟩ := rests .count 5 (.count 2) after hmany
    exact ⟨values, after, _, hmany, location, again 5 (.inl (Nat.le_refl 5)), location, atMostOne⟩
  · obtain ⟨after, honce, location⟩ : ∃ after,
        once.attempt scope 5 start = .ok (.terminal 97) after ∧ after.location = 3 :=
      ⟨_, by cbv, rfl⟩
    obtain ⟨after', htwice⟩ : ∃ after, twice.attempt scope 6 start = .ok (.terminal 97) after :=
      ⟨_, by cbv⟩
    obtain ⟨a, b, ha, hb, outcome, same, -⟩ := agrees 6 5 (htwice ▸ Reply.ok_ne_unfinished)
      (honce ▸ Reply.ok_ne_unfinished)
    obtain ⟨es, rfl⟩ := Account.eq_of_replyTo_ok (hb.symm.trans honce)
    exact ⟨a, _, ha, hb, outcome, rfl, same.trans location, location⟩

end Rule

end Backtrack
