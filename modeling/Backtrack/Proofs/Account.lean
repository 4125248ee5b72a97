import Backtrack.Proofs.Composition
import Backtrack.Proofs.Steps

/-!
# Accounts of parses

All that a parser does to a cursor is to move it and to add entries to its trace; the errors among
these entries are what the sink receives. An account (`Account`) is the outcome of a parse together
with the location where it ended and the entries it added. It does not mention the sink, nor what
the trace held before, so that parses can be compared that start from different sinks.

`Account.replyTo` turns an account into the reply of a parser, and the lemmas of this module say how
the accounts of composed parsers come from those of their parts.
-/

namespace Backtrack

variable {L S α β : Type}

/-! ## Entries and their reports -/

/-- What an entry of a trace reports to the sink. -/
def TraceEntry.report? : TraceEntry L → Option (Report L Terminal)
  | .raised report => some report
  | .rewound .. => none
  | .failed .. => none

/-- The reports among entries, oldest first. -/
def reportsOf (entries : List (TraceEntry L)) : List (Report L Terminal) :=
  entries.filterMap TraceEntry.report?

@[simp] theorem reportsOf_nil : reportsOf ([] : List (TraceEntry L)) = [] := rfl

@[simp] theorem reportsOf_append (es es' : List (TraceEntry L)) :
    reportsOf (es ++ es') = reportsOf es ++ reportsOf es' := by
  simp [reportsOf]

/-- The report of an error, with the terminal at its location. -/
def Source.reportOf (source : Source L) (error : Error L) : Report L Terminal :=
  { error, found := source.found error.location }

/-- The entries of raising an error. -/
def Source.raised (source : Source L) (error : Error L) : List (TraceEntry L) :=
  [.raised (source.reportOf error)]

@[simp] theorem reportsOf_raised (source : Source L) (error : Error L) :
    reportsOf (source.raised error) = [source.reportOf error] := rfl

@[simp] theorem reportsOf_rewound (l m : L) (rule : String) :
    reportsOf [.rewound l m rule] = [] := rfl

/-- The entries of going back from one location to another; there is none where the cursor did not
move. -/
def backtrack [DecidableEq L] (rule : String) (source target : L) : List (TraceEntry L) :=
  if source = target then [] else [.rewound source target rule]

@[simp] theorem reportsOf_backtrack [DecidableEq L] (rule : String) (l m : L) :
    reportsOf (backtrack rule l m) = [] := by
  unfold backtrack
  split <;> rfl

/-! ## What entries do to a cursor -/

namespace Cursor

/-- Moves the cursor, adds entries to the trace, and makes the reports among them. -/
def record [Sink S L Terminal] (cursor : Cursor L S) (location : L)
    (entries : List (TraceEntry L)) : Cursor L S where
  location
  sink := Sink.reportAll cursor.sink (reportsOf entries)
  trace := cursor.trace ++ entries.toArray

variable [Sink S L Terminal] (cursor : Cursor L S)

@[simp] theorem record_location (l : L) (es : List (TraceEntry L)) :
    (cursor.record l es).location = l := rfl

@[simp] theorem record_nil : cursor.record cursor.location [] = cursor := by
  simp [record, Sink.reportAll]

theorem record_move (l : L) : { cursor with location := l } = cursor.record l [] := by
  simp [record, Sink.reportAll]

@[simp] theorem record_record (l m : L) (es es' : List (TraceEntry L)) :
    (cursor.record l es).record m es' = cursor.record m (es ++ es') := by
  simp [record, Sink.reportAll, List.foldl_append]

theorem raise_eq_record (source : Source L) (error : Error L) :
    cursor.raise source error = cursor.record cursor.location (source.raised error) := by
  simp [record, raise, Sink.reportAll, Source.raised, Source.reportOf, Source.found, reportsOf,
    TraceEntry.report?]

theorem record_rewound (l m : L) (rule : String) :
    { cursor with location := m, trace := cursor.trace.push (.rewound l m rule) }
      = cursor.record m [.rewound l m rule] := by
  simp [record, Sink.reportAll]

/-- The trace tells the entries apart. -/
theorem record_inj {l m : L} {es es' : List (TraceEntry L)}
    (h : cursor.record l es = cursor.record m es') : l = m ∧ es = es' := by
  have htrace := congrArg (·.trace.toList) h
  have hlocation := congrArg (·.location) h
  exact ⟨hlocation, by simpa [record] using htrace⟩

end Cursor

/-! ## Accounts -/

/-- The cursor after a parse that came to an end. -/
def Reply.cursor? : Reply L S α → Option (Cursor L S)
  | .ok _ cursor => some cursor
  | .fail _ cursor => some cursor
  | .unfinished => none

/-- What a parser that finished did. -/
structure Account (L α : Type) where
  outcome : Except (Error L) α
  location : L
  entries : List (TraceEntry L)

namespace Account

/-- The error of a parse that failed. -/
def error? (a : Account L α) : Option (Error L) :=
  match a.outcome with
  | .ok _ => none
  | .error error => some error

/-- The reports that were made, oldest first. -/
def reports (a : Account L α) : List (Report L Terminal) :=
  reportsOf a.entries

/-- The reply to a cursor. -/
def replyTo [Sink S L Terminal] (a : Account L α) (cursor : Cursor L S) : Reply L S α :=
  match a.outcome with
  | .ok value => .ok value (cursor.record a.location a.entries)
  | .error error => .fail error (cursor.record a.location a.entries)

/-- The account of a parse that went on after these entries. -/
def after (entries : List (TraceEntry L)) (a : Account L α) : Account L α :=
  { a with entries := entries ++ a.entries }

/-- The account of an attempt of a rule: where the rule fails, the cursor goes back to where it
was. -/
def rewind [DecidableEq L] (rule : String) (start : L) (a : Account L α) : Account L α :=
  match a.outcome with
  | .ok _ => a
  | .error error =>
    { outcome := .error error, location := start,
      entries := a.entries ++ backtrack rule a.location start }

/-- The account of an optional attempt, from that of the attempt. -/
def optional (a : Account L α) : Account L (Option α) :=
  match a.outcome with
  | .ok value => { a with outcome := .ok (some value) }
  | .error error => { a with outcome := if error.recoverable then .ok none else .error error }

/-- The account that tells besides the value whether the cursor moved. -/
def moving [DecidableEq L] (start : L) (a : Account L α) : Account L (α × Bool) :=
  { a with outcome := a.outcome.map (·, decide (a.location ≠ start)) }

theorem error?_eq_some {a : Account L α} {error : Error L} :
    a.error? = some error ↔ a.outcome = .error error := by
  unfold error?
  split <;> simp_all

@[simp] theorem reports_after (es : List (TraceEntry L)) (a : Account L α) :
    (a.after es).reports = reportsOf es ++ a.reports := by
  simp [reports, after]

@[simp] theorem reports_optional (a : Account L α) : a.optional.reports = a.reports := by
  obtain ⟨outcome, m, es⟩ := a
  cases outcome <;> rfl

section

variable [DecidableEq L]

@[simp] theorem reports_rewind (rule : String) (l : L) (a : Account L α) :
    (a.rewind rule l).reports = a.reports := by
  obtain ⟨outcome, m, es⟩ := a
  cases outcome <;> simp [rewind, reports]

/-- Which rule it is that goes back matters to the trace alone. -/
theorem rewind_outcome (rule : String) (l : L) (a : Account L α) :
    (a.rewind rule l).outcome = a.outcome := by
  obtain ⟨outcome, m, es⟩ := a
  cases outcome <;> rfl

theorem rewind_location (rule : String) (l : L) (a : Account L α) :
    (a.rewind rule l).location
      = match a.outcome with
        | .ok _ => a.location
        | .error _ => l := by
  obtain ⟨outcome, m, es⟩ := a
  cases outcome <;> rfl

@[simp] theorem reports_moving (l : L) (a : Account L α) : (a.moving l).reports = a.reports := rfl

end

variable [Sink S L Terminal] {cursor : Cursor L S}

theorem replyTo_ne_unfinished (a : Account L α) : a.replyTo cursor ≠ .unfinished := by
  unfold replyTo
  split <;> simp

/-- A reply has one account. -/
theorem replyTo_inj {a b : Account L α} (h : a.replyTo cursor = b.replyTo cursor) : a = b := by
  obtain ⟨outcome, l, es⟩ := a
  obtain ⟨outcome', l', es'⟩ := b
  cases outcome <;> cases outcome' <;> simp only [replyTo, reduceCtorEq, Reply.ok.injEq,
    Reply.fail.injEq] at h
  all_goals
    obtain ⟨rfl, hrecord⟩ := h
    obtain ⟨rfl, rfl⟩ := cursor.record_inj hrecord
    rfl

/-- A match tells its account. -/
theorem eq_of_replyTo_ok {a : Account L α} {after : Cursor L S} {value : α}
    (h : a.replyTo cursor = .ok value after) : ∃ es, a = ⟨.ok value, after.location, es⟩ := by
  obtain ⟨outcome, m, es⟩ := a
  cases outcome with
  | error error => exact absurd h nofun
  | ok value' =>
    obtain ⟨rfl, rfl⟩ := Reply.ok.inj h
    exact ⟨es, rfl⟩

/-- So does a failure. -/
theorem eq_of_replyTo_fail {a : Account L α} {after : Cursor L S} {error : Error L}
    (h : a.replyTo cursor = .fail error after) : ∃ es, a = ⟨.error error, after.location, es⟩ := by
  obtain ⟨outcome, m, es⟩ := a
  cases outcome with
  | ok value => exact absurd h nofun
  | error error' =>
    obtain ⟨rfl, rfl⟩ := Reply.fail.inj h
    exact ⟨es, rfl⟩

end Account

/-! ## Accounts of composed parsers -/

namespace Parser

variable {cursor : Cursor L S} {p : Parser L S α} {f : α → Parser L S β}

theorem bind_unfinished (h : p cursor = .unfinished) : (p >>= f) cursor = .unfinished := by
  simp [bind_apply, h]

variable [Sink S L Terminal]

theorem bind_account_error {error : Error L} {l : L} {es : List (TraceEntry L)}
    (h : p cursor = Account.replyTo ⟨.error error, l, es⟩ cursor) :
    (p >>= f) cursor = Account.replyTo ⟨.error error, l, es⟩ cursor := by
  simp [bind_apply, h, Account.replyTo]

theorem bind_account_ok {value : α} {l : L} {es : List (TraceEntry L)}
    (h : p cursor = Account.replyTo ⟨.ok value, l, es⟩ cursor) :
    (p >>= f) cursor = f value (cursor.record l es) := by
  simp [bind_apply, h, Account.replyTo]

/-- A parser that goes on after another adds its entries to those of the first. -/
theorem replyTo_record (a : Account L α) (l : L) (es : List (TraceEntry L)) :
    a.replyTo (cursor.record l es) = (a.after es).replyTo cursor := by
  obtain ⟨outcome, m, es'⟩ := a
  cases outcome <;> simp [Account.replyTo, Account.after]

end Parser

namespace Scope

variable [DecidableEq L] {cursor : Cursor L S} {p : Parser L S α} (scope : Scope L) (rule : Rule)

theorem attempt_unfinished (h : p cursor = .unfinished) :
    scope.attempt rule p cursor = .unfinished := by
  simp [attempt, h]

theorem attempt_eq_unfinished {scope : Scope L} {rule : Rule} :
    scope.attempt rule p cursor = .unfinished ↔ p cursor = .unfinished := by
  unfold attempt
  cases p cursor with
  | ok value after => simp
  | fail error after =>
    simp only [reduceCtorEq, iff_false]
    split <;> simp
  | unfinished => simp

theorem attemptOptional_unfinished (h : p cursor = .unfinished) :
    scope.attemptOptional rule p cursor = .unfinished := by
  simp [attemptOptional, scope.attempt_unfinished rule h]

variable [Sink S L Terminal]

theorem attempt_account {a : Account L α} (h : p cursor = a.replyTo cursor) :
    scope.attempt rule p cursor
      = (a.rewind (rule.identity scope.naming) cursor.location).replyTo cursor := by
  obtain ⟨outcome, m, es⟩ := a
  cases outcome with
  | ok value => simp [attempt, h, Account.replyTo, Account.rewind]
  | error error =>
    by_cases hm : m = cursor.location
    · subst hm
      simp [attempt, h, Account.replyTo, Account.rewind, backtrack]
    · simp only [attempt, h, Account.replyTo, Account.rewind, backtrack, if_neg hm,
        Cursor.record_location, Cursor.record_rewound, Cursor.record_record]

theorem attemptOptional_account {a : Account L α} (h : p cursor = a.replyTo cursor) :
    scope.attemptOptional rule p cursor
      = (a.rewind (rule.identity scope.naming) cursor.location).optional.replyTo cursor := by
  rw [attemptOptional, scope.attempt_account rule h]
  obtain ⟨outcome, m, es⟩ := a
  cases outcome with
  | ok value => simp [Account.replyTo, Account.rewind, Account.optional]
  | error error => cases error <;> simp [Account.replyTo, Account.rewind, Account.optional,
      Error.recoverable]

end Scope

/-! ## Accounts of the parsers that rules are put together from

Each of these accounts is told by the source at the location alone. -/

section

variable [Sink S L Terminal] (scope : Scope L) (cursor : Cursor L S)

namespace Account

/-- A value, and nothing done. -/
def done (value : α) (l : L) : Account L α where
  outcome := .ok value
  location := l
  entries := []

/-- An error raised by a cursor that stands at the location. -/
def raised (source : Source L) (error : Error L) (l : L) : Account L α where
  outcome := .error error
  location := l
  entries := source.raised error

/-- One terminal consumed, and a value made of it. -/
def reading (scope : Scope L) (rule : Rule) (accept : Terminal → Option α) (l : L) : Account L α :=
  let absent := .expected (rule.identity scope.naming) l
  match scope.source.terminalAt l with
  | none => raised scope.source absent l
  | some (t, next) =>
    match accept t with
    | some value => done value next
    | none => raised scope.source absent next

theorem reading_location (scope : Scope L) (rule : Rule) (accept : Terminal → Option α) (l : L) :
    (reading scope rule accept l).location = l ∨
      ∃ t, scope.source.terminalAt l = some (t, (reading scope rule accept l).location) := by
  unfold reading
  cases scope.source.terminalAt l with
  | none => exact .inl rfl
  | some read =>
    obtain ⟨t, next⟩ := read
    refine .inr ⟨t, ?_⟩
    simp only
    cases accept t <;> rfl

/-- A value is made of the terminal at the location, and of no more. -/
theorem reading_some [DecidableEq L] {scope : Scope L} {rule : Rule} {accept : Terminal → Option α}
    {name : String} {l m : L} {value : α} {es : List (TraceEntry L)}
    (h : ((reading scope rule accept l).rewind name l).optional = ⟨.ok (some value), m, es⟩) :
    ∃ t, scope.source.terminalAt l = some (t, m) ∧ es = [] := by
  unfold reading at h
  cases here : scope.source.terminalAt l with
  | none => simp [here, rewind, optional, raised, Error.recoverable] at h
  | some read =>
    obtain ⟨t, next⟩ := read
    cases ha : accept t with
    | none => simp [here, ha, rewind, optional, raised, Error.recoverable] at h
    | some value =>
      simp only [here, ha, rewind, optional, done, mk.injEq] at h
      exact ⟨t, by rw [h.2.1], h.2.2.symm⟩

/-- The terminal at the cursor consumed, if there is one. -/
def advancing (source : Source L) (l : L) : Account L (Option Terminal) :=
  match source.terminalAt l with
  | none => done none l
  | some (t, next) => done (some t) next

/-- The end of the input looked for. -/
def ending (scope : Scope L) (l : L) : Account L Value :=
  match scope.source.terminalAt l with
  | none => done .unit l
  | some _ => raised scope.source (.expected (Rule.endOfInput.identity scope.naming) l) l

/-- A digit that was read from the location, if there was one, combined with the numeral before
it. -/
def combining (source : Source L) (type : IntegerType) (combine : Int → Option Int) (l : L)
    (read : Account L (Option Int)) : Account L (Option Int) :=
  match read.outcome with
  | .error _ => read
  | .ok none => read
  | .ok (some digit) =>
    match combine digit with
    | some value => { read with outcome := .ok (some value) }
    | none => (raised source (.overflow type.name l) read.location).after read.entries

/-- One more digit read, if there is one, and combined with the numeral before it. -/
def nextDigit [DecidableEq L] (scope : Scope L) (alphabet : Digit) (type : IntegerType)
    (combine : Int → Option Int) (l : L) : Account L (Option Int) :=
  combining scope.source type combine l
    ((reading scope (.digit alphabet type) (alphabet.read? type) l).rewind
      ((Rule.digit alphabet type).identity scope.naming) l).optional

end Account

namespace Parser

theorem pure_account (value : α) :
    (pure value : Parser L S α) cursor = (Account.done value cursor.location).replyTo cursor := by
  simp [Account.replyTo, Account.done]

theorem raise_account (source : Source L) (error : Error L) :
    (Parser.raise source error : Parser L S α) cursor
      = (Account.raised source error cursor.location).replyTo cursor := by
  simp [Parser.raise, Account.replyTo, Account.raised, Cursor.raise_eq_record]

theorem absentHere_account (name : String) :
    (Parser.absentHere name : Parser L S α) cursor
      = Account.replyTo ⟨.error (.expected name cursor.location), cursor.location, []⟩ cursor := by
  simp [Parser.absentHere, bind_apply, Parser.location, Parser.fail, Account.replyTo]

theorem advance_account (source : Source L) :
    Parser.advance source cursor = (Account.advancing source cursor.location).replyTo cursor := by
  simp only [Parser.advance, Account.advancing]
  cases source.terminalAt cursor.location with
  | none => simp [Account.replyTo, Account.done]
  | some read => simp [Account.replyTo, Account.done, Cursor.record_move]

theorem moving_account [DecidableEq L] {p : Parser L S α} {a : Account L α}
    (h : p cursor = a.replyTo cursor) :
    p.moving cursor = (a.moving cursor.location).replyTo cursor := by
  obtain ⟨outcome, m, es⟩ := a
  cases outcome <;> simp only [Parser.moving, h, Account.replyTo] <;> rfl

end Parser

namespace Scope

theorem expectedHere_account (rule : Rule) :
    (scope.expectedHere rule : Parser L S α) cursor
      = (Account.raised scope.source (.expected (rule.identity scope.naming) cursor.location)
          cursor.location).replyTo cursor :=
  Parser.raise_account cursor _ _

theorem overflowHere_account (type : IntegerType) :
    (scope.overflowHere type : Parser L S α) cursor
      = (Account.raised scope.source (.overflow type.name cursor.location)
          cursor.location).replyTo cursor :=
  Parser.raise_account cursor _ _

theorem acceptTerminal_account (rule : Rule) (accept : Terminal → Option α) :
    scope.acceptTerminal rule accept cursor
      = (Account.reading scope rule accept cursor.location).replyTo cursor := by
  simp only [acceptTerminal, Parser.bind_apply, Parser.location, Parser.advance, Account.reading]
  cases scope.source.terminalAt cursor.location with
  | none => exact Parser.raise_account cursor _ _
  | some read =>
    obtain ⟨t, next⟩ := read
    cases h : accept t with
    | some value => simp [h, Account.replyTo, Account.done, Cursor.record_move]
    | none =>
      simp only [Option.bind_some, h, expected, Cursor.record_move, Parser.raise_account,
        Parser.replyTo_record]
      rfl

theorem ending_account :
    scope.ending cursor = (Account.ending scope cursor.location).replyTo cursor := by
  simp only [ending, Parser.bind_apply, Parser.peek, Cursor.peek, Account.ending]
  cases scope.source.terminalAt cursor.location with
  | none => exact Parser.pure_account cursor _
  | some read => exact scope.expectedHere_account cursor _

variable [DecidableEq L]

theorem nextDigit_account (alphabet : Digit) (type : IntegerType) (combine : Int → Option Int) :
    scope.nextDigit alphabet type combine cursor
      = (Account.nextDigit scope alphabet type combine cursor.location).replyTo cursor := by
  have hread := scope.attemptOptional_account (.digit alphabet type)
    (scope.acceptTerminal_account cursor (.digit alphabet type) (alphabet.read? type))
  rw [nextDigit, Parser.bind_apply, Account.nextDigit]
  generalize Account.optional _ = read at hread ⊢
  obtain ⟨outcome, m, es⟩ := read
  cases outcome with
  | error error => exact Parser.bind_account_error hread
  | ok digit =>
    refine (Parser.bind_account_ok hread).trans ?_
    cases digit with
    | none => rfl
    | some digit =>
      cases hc : combine digit with
      | some value => simp [Account.combining, hc, Account.replyTo]
      | none =>
        simp only [Account.combining, hc]
        exact (Parser.raise_account _ _ _).trans (Parser.replyTo_record _ _ _)

end Scope

end

end Backtrack
