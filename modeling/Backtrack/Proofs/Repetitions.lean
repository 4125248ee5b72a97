import Backtrack.Grammar.Sample
import Backtrack.Proofs.Parallel
import Mathlib.Tactic

/-!
# Repetitions from end to end

A repetition is a list of matches, each attempted where the one before it has stopped
(`Parser.Leads`). All but the last of them have moved the cursor. It ends at the first absence, at a
match that has not moved, or at an error that no repetition takes for an absence (`Parser.Ends`).
Where the cursor stands, what has been gathered and what has been reported agree in all three cases,
and only the values of the matches depend on what they are gathered in
(`Rule.attemptManyInto_exact`).
-/

namespace Backtrack

variable {L S α σ : Type}

/-! ## Matches one after the other -/

/-- A match of a parser. -/
structure Match (L α : Type) where
  /-- Where the parser was attempted. -/
  start : L
  /-- Where the match stopped. -/
  stop : L
  value : α
  /-- What was raised and given back on the way. -/
  entries : List (TraceEntry L)

/-- The account of a match. -/
def Match.account (m : Match L α) : Account L α where
  outcome := .ok m.value
  location := m.stop
  entries := m.entries

namespace Parser

section

variable [Sink S L Terminal]

/-- At the location the parser has this account, whatever its sink and its trace hold. -/
def Does (p : Parser L S α) (l : L) (a : Account L α) : Prop :=
  ∀ cursor : Cursor L S, cursor.location = l → p cursor = a.replyTo cursor

/-- Matches of the parser lead from one location to another. -/
inductive Leads (p : Parser L S α) : L → List (Match L α) → L → Prop where
  | nil (l : L) : Leads p l [] l
  | cons {m : Match L α} {ms : List (Match L α)} {l : L} (here : p.Does m.start m.account)
      (rest : Leads p m.stop ms l) : Leads p m.start (m :: ms) l

/-- Why a repetition of the parser goes no further than these matches and the location that they
lead to, with the error that it fails with, if it does, and the entries of the last attempt. -/
inductive Ends (p : Parser L S α) (ms : List (Match L α)) (l : L) :
    Option (Error L) → List (TraceEntry L) → Prop where
  /-- The parser is absent there. -/
  | absent {error : Error L} {es : List (TraceEntry L)} (here : p.Does l ⟨.error error, l, es⟩)
      (recoverable : error.recoverable = true) : Ends p ms l none es
  /-- The last match has not moved the cursor. -/
  | still {m : Match L α} (last : ms.getLast? = some m) (still : m.stop = m.start) :
      Ends p ms l none []
  /-- The parser fails there with an error that is not taken for an absence. -/
  | error {error : Error L} {es : List (TraceEntry L)} (here : p.Does l ⟨.error error, l, es⟩)
      (hard : error.recoverable = false) : Ends p ms l (some error) es

/-- One more match in front does not change why a repetition ends. -/
theorem Ends.cons {p : Parser L S α} {ms : List (Match L α)} {l : L} {error? : Option (Error L)}
    {es : List (TraceEntry L)} (h : p.Ends ms l error? es) (m : Match L α) :
    p.Ends (m :: ms) l error? es := by
  cases h with
  | absent here recoverable => exact .absent here recoverable
  | still last still => exact .still (by rw [List.getLast?_cons, last]; rfl) still
  | error here hard => exact .error here hard

/-- Where a parser that is told by the location comes to an end, it has an account. -/
theorem exists_does {source : Source L} {p : Parser L S α} (hp : p.Parallel source p)
    {cursor : Cursor L S} (ended : p cursor ≠ .unfinished) : ∃ a, p.Does cursor.location a := by
  rcases hp cursor cursor rfl with ⟨hunfinished, -⟩ | ⟨a, _, ha, -, -, -⟩
  · exact absurd hunfinished ended
  · refine ⟨a, fun cursor' same => ?_⟩
    rcases hp cursor cursor' same with ⟨hunfinished, -⟩ | ⟨b, _, hb, hb', rfl, -⟩
    · exact absurd hunfinished ended
    · obtain rfl := Account.replyTo_inj (ha.symm.trans hb)
      exact hb'

/-- The account of a match that was made somewhere is the account of it anywhere. -/
theorem Parallel.does_of_ok {source : Source L} {p : Parser L S α}
    (hp : p.Parallel source p) {cursor after : Cursor L S} {value : α}
    (h : p cursor = .ok value after) :
    ∃ es, p.Does cursor.location ⟨.ok value, after.location, es⟩ := by
  have ended : p cursor ≠ .unfinished := h ▸ Reply.ok_ne_unfinished
  obtain ⟨a, does⟩ := exists_does hp ended
  obtain ⟨es, rfl⟩ := Account.eq_of_replyTo_ok ((does cursor rfl).symm.trans h)
  exact ⟨es, does⟩

theorem Does.unique (cursor : Cursor L S) {p : Parser L S α} {l : L} {a b : Account L α}
    (h : p.Does l a) (h' : p.Does l b) : a = b :=
  Account.replyTo_inj ((h { cursor with location := l } rfl).symm.trans (h' _ rfl))

theorem Leads.eq_of_nil {p : Parser L S α} {l stop : L} (h : p.Leads l [] stop) :
    l = stop := by
  cases h
  rfl

/-- The last of the matches has stopped where they lead. -/
theorem Leads.last {p : Parser L S α} {l stop : L} {ms : List (Match L α)}
    (h : p.Leads l ms stop) {m : Match L α} (last : ms.getLast? = some m) :
    p.Does m.start m.account ∧ m.stop = stop := by
  induction h with
  | nil l => simp at last
  | @cons first ms stop here rest ih =>
    cases ms with
    | nil =>
      obtain rfl : first = m := by simpa using last
      exact ⟨here, rest.eq_of_nil⟩
    | cons second ms => exact ih (by simpa [List.getLast?_cons_cons] using last)

theorem Does.attempt [DecidableEq L] {p : Parser L S α} {l : L} {a : Account L α} (h : p.Does l a)
    (scope : Scope L) (rule : Rule) :
    (scope.attempt rule p).Does l (a.rewind (rule.identity scope.naming) l) := by
  rintro cursor rfl
  exact scope.attempt_account rule (h cursor rfl)

end

end Parser

/-! ## Repeated attempts -/

namespace Scope

variable [DecidableEq L] [Sink S L Terminal] {scope : Scope L} {rule : Rule} {p : Parser L S α}
  {extend : σ → α → σ} {fuel : Nat} {gathered : σ} {cursor : Cursor L S}

/-- The account of a failed attempt is back where it began. -/
theorem attempt_does_error {error : Error L} {m : L} {es : List (TraceEntry L)}
    (h : (scope.attempt rule p).Does cursor.location ⟨.error error, m, es⟩) :
    m = cursor.location :=
  attempt_fail_location (h cursor rfl)

/-- An optional attempt does what the attempt does, and takes a recoverable failure for an
absence. -/
theorem attemptOptional_does {l : L} {a : Account L α} (h : (scope.attempt rule p).Does l a) :
    (scope.attemptOptional rule p).Does l a.optional := by
  intro cursor here
  rw [attemptOptional, h cursor here]
  obtain ⟨outcome, m, es⟩ := a
  cases outcome with
  | ok value => rfl
  | error error => cases error <;> rfl

/-- From a location on, the repetition of a parser has these matches and ends so. -/
structure Repeats (scope : Scope L) (rule : Rule) (p : Parser L S α) (l : L)
    (ms : List (Match L α)) (stop : L) (error? : Option (Error L)) (es : List (TraceEntry L)) :
    Prop where
  leads : (scope.attempt rule p).Leads l ms stop
  moved : ∀ m ∈ ms.dropLast, m.stop ≠ m.start
  ends : (scope.attempt rule p).Ends ms stop error? es

/-- The account of a repetition with these matches: their values are added to what has been gathered
before, one by one. -/
def repeating (extend : σ → α → σ) (gathered : σ) (ms : List (Match L α)) (stop : L)
    (error? : Option (Error L)) (es : List (TraceEntry L)) : Account L (σ × Option (Error L)) where
  outcome := .ok ((ms.map Match.value).foldl extend gathered, error?)
  location := stop
  entries := ms.flatMap Match.entries ++ es

/-- **A repetition that comes to an end** has matches that do not depend on what their values are
gathered in. -/
theorem attemptManyInto_repeats {source : Source L} (hp : p.Parallel source p)
    (ended : scope.attemptManyInto rule p extend fuel gathered cursor ≠ .unfinished) :
    ∃ ms stop error? es, Repeats scope rule p cursor.location ms stop error? es ∧
      ∀ {τ : Type} (extend : τ → α → τ) (gathered : τ),
        (scope.attemptManyInto rule p extend fuel gathered).Does cursor.location
          (repeating extend gathered ms stop error? es) := by
  -- turn by turn; the matches of the turns behind the first are those of a repetition further on
  induction fuel generalizing gathered cursor with
  | zero => exact absurd rfl ended
  | succ fuel ih =>
    have turn : scope.attempt rule p cursor ≠ .unfinished := by
      intro hunfinished
      exact ended (attemptManyInto_unfinished (by rw [attemptOptional, hunfinished]))
    obtain ⟨⟨outcome, m, es⟩, does⟩ := Parser.exists_does (hp.attempt scope rule) turn
    have optional := attemptOptional_does does
    cases outcome with
    | error error =>
      obtain rfl := attempt_does_error does
      cases hr : error.recoverable with
      | true =>
        refine ⟨[], cursor.location, none, es, ⟨.nil _, by simp, .absent does hr⟩, ?_⟩
        intro τ extend gathered cursor' here
        have absent := optional cursor' here
        simp only [Account.optional, hr, if_true] at absent
        exact attemptManyInto_absent absent
      | false =>
        refine ⟨[], cursor.location, some error, es, ⟨.nil _, by simp, .error does hr⟩, ?_⟩
        intro τ extend gathered cursor' here
        have failed := optional cursor' here
        simp only [Account.optional, hr] at failed
        exact attemptManyInto_error failed
    | ok value =>
      let first : Match L α := ⟨cursor.location, m, value, es⟩
      have matched (cursor' : Cursor L S) (here : cursor'.location = cursor.location) :
          scope.attemptOptional rule p cursor' = .ok (some value) (cursor'.record m es) :=
        optional cursor' here
      by_cases hm : m = cursor.location
      · refine ⟨[first], m, none, [],
          ⟨.cons (m := first) does (.nil m), by simp, .still rfl hm⟩, ?_⟩
        intro τ extend gathered cursor' here
        simpa [repeating, Account.replyTo, first] using
          attemptManyInto_still (matched cursor' here) (hm.trans here.symm)
      · have moved {τ : Type} (extend : τ → α → τ) (gathered : τ) (cursor' : Cursor L S)
            (here : cursor'.location = cursor.location) :
            scope.attemptManyInto rule p extend (fuel + 1) gathered cursor'
              = scope.attemptManyInto rule p extend fuel (extend gathered value)
                  (cursor'.record m es) :=
          attemptManyInto_moved (matched cursor' here) (fun h => hm (h.trans here))
        rw [moved extend gathered cursor rfl] at ended
        obtain ⟨ms, stop, error?, es', ⟨leads, hmoved, ends⟩, hrest⟩ := ih ended
        refine ⟨first :: ms, stop, error?, es',
          ⟨.cons (m := first) does leads, ?_, ends.cons first⟩, ?_⟩
        · intro match' mem
          rcases ms with - | ⟨second, ms⟩
          · simp at mem
          · rw [List.dropLast_cons_cons, List.mem_cons] at mem
            rcases mem with rfl | mem
            · exact hm
            · exact hmoved match' mem
        · intro τ extend gathered cursor' here
          have rest := hrest extend (extend gathered value) (cursor'.record m es) rfl
          rw [Parser.replyTo_record] at rest
          refine (moved extend gathered cursor' here).trans (rest.trans ?_)
          simp [repeating, Account.after, first]

theorem extendMany_does {l stop : L} {ms : List (Match L α)} {error? : Option (Error L)}
    {es : List (TraceEntry L)}
    (h : (scope.attemptManyInto rule p extend fuel gathered).Does l
      (repeating extend gathered ms stop error? es)) :
    (scope.extendMany rule p extend fuel gathered).Does l
      ⟨error?.elim (.ok ((ms.map Match.value).foldl extend gathered)) .error, stop,
        ms.flatMap Match.entries ++ es⟩ := by
  intro cursor here
  rw [extendMany, h cursor here]
  cases error? <;> rfl

end Scope

/-- The reply with a result, or with the error that takes its place. -/
def Reply.unless (error? : Option (Error L)) (result : σ) (after : Cursor L S) : Reply L S σ :=
  match error? with
  | none => .ok result after
  | some error => .fail error after

/-- A list holds the values that it was extended with. -/
theorem Container.ofValues_vector (values : List Value) :
    Container.vector.ofValues values = .list values.toArray := by
  suffices ∀ items : Array Value,
      values.foldl Container.extend (.list items) = .list (items ++ values.toArray) by
    simpa [Container.ofValues, Container.empty] using this #[]
  induction values with
  | nil => simp
  | cons value values ih => simp [Container.extend, ih]

namespace Rule

variable [DecidableEq L] [Sink S L Terminal]

/-- **A repetition from end to end**: wherever it comes to an end, there are successive matches of
the rule, all but the last of which have moved the cursor. What was there before is extended with
their values, one by one and in order. Either the cursor is where the matches lead and the rule is
absent there or the last match has not moved; or the rule fails there with an error that is not
taken for an absence, and the values before it are kept. The entries, and so the reports, are those
of the attempts in order.

What the values are gathered in matters to nothing else: any container is extended with the same
values, which are those of the list. -/
theorem attemptManyInto_exact (scope : Scope L) (fuel : Nat) (rule : Rule)
    (extend : σ → Value → σ) (gathered : σ) (cursor : Cursor L S)
    (ended : rule.attemptManyInto scope fuel extend gathered cursor ≠ .unfinished) :
    ∃ (ms : List (Match L Value)) (stop : L) (error? : Option (Error L))
      (es : List (TraceEntry L)),
      let attempt : Parser L S Value := rule.attempt scope fuel
      let values := ms.map Match.value
      let after := cursor.record stop (ms.flatMap Match.entries ++ es)
      attempt.Leads cursor.location ms stop ∧
      (∀ m ∈ ms.dropLast, m.stop ≠ m.start) ∧
      attempt.Ends ms stop error? es ∧
      rule.attemptManyInto scope fuel extend gathered cursor
        = .ok (values.foldl extend gathered, error?) after ∧
      (∀ {τ : Type} (extend : τ → Value → τ) (empty : τ),
        scope.extendMany rule (rule.parse scope fuel) extend fuel empty cursor
          = .unless error? (values.foldl extend empty) after) ∧
      (∀ into, rule.attemptMany scope fuel into cursor
        = .unless error? (into.ofValues values) after) ∧
      rule.attemptMany scope fuel .vector cursor
        = .unless error? (.list values.toArray) after := by
  obtain ⟨ms, stop, error?, es, ⟨leads, moved, ends⟩, hmany⟩ :=
    Scope.attemptManyInto_repeats (rule.parse_parallel scope fuel) ended
  have gathers {τ : Type} (extend : τ → Value → τ) (empty : τ) :
      scope.extendMany rule (rule.parse scope fuel) extend fuel empty cursor
        = .unless error? ((ms.map Match.value).foldl extend empty)
            (cursor.record stop (ms.flatMap Match.entries ++ es)) := by
    rw [Scope.extendMany, hmany extend empty cursor rfl]
    cases error? <;> rfl
  refine ⟨ms, stop, error?, es, leads, moved, ends, hmany extend gathered cursor rfl, gathers, ?_,
    ?_⟩
  · intro into
    exact gathers Container.extend into.empty
  · rw [← Container.ofValues_vector]
    exact gathers Container.extend Container.vector.empty

/-- In `1,256,` the first number is kept, and the second, which is no byte, ends the repetition in
front of it. -/
theorem attemptManyInto_exact_overflow :
    let scope : Scope Nat :=
      { source := .ofArray #[49, 44, 50, 53, 54, 44], naming := .offsets .byte true,
        definitions := fun _ => none }
    let rule : Rule := .seq [Grammar.byte, .mark .comma]
    let start : Cursor Nat (NoReports Nat Terminal) := .atStart scope.source {}
    rule.attemptManyInto scope 5 Array.push #[] start ≠ .unfinished ∧
      ∃ ms es, (rule.attempt scope 5 : Parser Nat (NoReports Nat Terminal) Value).Leads 0 ms 2 ∧
        ms.map Match.value = [.tuple [.integer 1, .unit]] ∧
        ∀ into, rule.attemptMany scope 5 into start
          = .fail (.overflow "u8" 4) (start.record 2 (ms.flatMap Match.entries ++ es)) := by
  intro scope rule start
  obtain ⟨after, hmany, hlocation⟩ : ∃ after, rule.attemptManyInto scope 5 Array.push #[] start
      = .ok (#[.tuple [.integer 1, .unit]], some (.overflow "u8" 4)) after ∧ after.location = 2 :=
    ⟨_, by cbv, rfl⟩
  have ended : rule.attemptManyInto scope 5 Array.push #[] start ≠ .unfinished := by
    rw [hmany]
    exact Reply.ok_ne_unfinished
  obtain ⟨ms, stop, error?, es, leads, -, -, hgathered, -, hinto, -⟩ :=
    attemptManyInto_exact scope 5 rule Array.push #[] start ended
  rw [hmany] at hgathered
  simp only [Reply.ok.injEq, Prod.mk.injEq] at hgathered
  obtain ⟨⟨hvalues, rfl⟩, rfl⟩ := hgathered
  obtain rfl : stop = 2 := hlocation
  exact ⟨ended, ms, es, leads, by simpa using hvalues.symm, hinto⟩

end Rule

end Backtrack
