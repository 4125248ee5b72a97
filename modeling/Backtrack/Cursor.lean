import Backtrack.Sink
import Backtrack.Source

/-!
# Cursors and parsers

A cursor is the moving part of a parse: the location reached, the sink that errors are reported to,
and the trace. A parser acts on a cursor and replies with a value, with an error, or, when it was
not given enough fuel, with neither. A parser that fails may leave the cursor anywhere.
-/

namespace Backtrack

/-- What happened in a parse, as a trace tells it. -/
inductive TraceEntry (L : Type) where
  /-- An error was raised. -/
  | raised (report : Report L Terminal)
  /-- The cursor went back after the failure of a rule. -/
  | rewound (source target : L) (rule : String)
  /-- The parse of a whole input failed. -/
  | failed (rule : String) (error : Error L)
  deriving DecidableEq, Repr

/-- The state of a parse. -/
structure Cursor (L S : Type) where
  location : L
  sink : S
  trace : Array (TraceEntry L)
  deriving Repr

/-- How a parser answers. -/
inductive Reply (L S α : Type) where
  /-- The parser matched. -/
  | ok (value : α) (cursor : Cursor L S)
  /-- The parser failed. -/
  | fail (error : Error L) (cursor : Cursor L S)
  /-- The fuel ran out before the parser had an answer. -/
  | unfinished

theorem Reply.ok_ne_unfinished {L S α : Type} {value : α} {after : Cursor L S} :
    Reply.ok value after ≠ .unfinished := by
  intro h
  cases h

theorem Reply.fail_ne_unfinished {L S α : Type} {error : Error L} {back : Cursor L S} :
    (Reply.fail error back : Reply L S α) ≠ .unfinished := by
  intro h
  cases h

/-- An action on a cursor. -/
def Parser (L S α : Type) := Cursor L S → Reply L S α

namespace Cursor

variable {L S : Type}

/-- A cursor at the start of a source. -/
def atStart (source : Source L) (sink : S) : Cursor L S where
  location := source.start
  sink
  trace := #[]

/-- The terminal at the cursor, absent at the end of the input. -/
def peek (source : Source L) (cursor : Cursor L S) : Option Terminal :=
  (source.terminalAt cursor.location).map (·.1)

/-- Whether no terminal is left. -/
def atEnd (source : Source L) (cursor : Cursor L S) : Bool :=
  (cursor.peek source).isNone

/-- Reports an error, with the terminal at its location. -/
def raise [Sink S L Terminal] (source : Source L) (error : Error L) (cursor : Cursor L S) :
    Cursor L S :=
  let report := { error, found := (source.terminalAt error.location).map (·.1) }
  { cursor with
    sink := Sink.report cursor.sink report
    trace := cursor.trace.push (.raised report) }

end Cursor

namespace Parser

variable {L S α β : Type}

/-- Matches and leaves the cursor as it is. -/
protected def pure (value : α) : Parser L S α :=
  fun cursor => .ok value cursor

/-- Continues with the value of a parser where that matches. -/
protected def bind (p : Parser L S α) (f : α → Parser L S β) : Parser L S β :=
  fun cursor =>
    match p cursor with
    | .ok value cursor => f value cursor
    | .fail error cursor => .fail error cursor
    | .unfinished => .unfinished

instance : Monad (Parser L S) where
  pure := Parser.pure
  bind := Parser.bind

instance : LawfulMonad (Parser L S) :=
  LawfulMonad.mk' (Parser L S)
    (fun p => by
      funext cursor
      show Parser.bind p _ cursor = p cursor
      unfold Parser.bind
      cases p cursor <;> rfl)
    (fun _ _ => rfl)
    (fun p f g => by
      funext cursor
      show Parser.bind (Parser.bind p f) g cursor = Parser.bind p _ cursor
      unfold Parser.bind
      cases p cursor <;> rfl)

@[simp] theorem pure_apply (value : α) (cursor : Cursor L S) :
    (pure value : Parser L S α) cursor = .ok value cursor := rfl

theorem bind_apply (p : Parser L S α) (f : α → Parser L S β) (cursor : Cursor L S) :
    (p >>= f) cursor =
      match p cursor with
      | .ok value cursor => f value cursor
      | .fail error cursor => .fail error cursor
      | .unfinished => .unfinished := rfl

/-- The parser that has run out of fuel. -/
def unfinished : Parser L S α :=
  fun _ => .unfinished

/-- Fails without a report. -/
def fail (error : Error L) : Parser L S α :=
  fun cursor => .fail error cursor

/-- The current location. -/
def location : Parser L S L :=
  fun cursor => .ok cursor.location cursor

/-- The terminal at the cursor. -/
def peek (source : Source L) : Parser L S (Option Terminal) :=
  fun cursor => .ok (cursor.peek source) cursor

/-- Consumes the terminal at the cursor. At the end of the input there is none, and the cursor
stays. -/
def advance (source : Source L) : Parser L S (Option Terminal) :=
  fun cursor =>
    match source.terminalAt cursor.location with
    | some (terminal, next) => .ok (some terminal) { cursor with location := next }
    | none => .ok none cursor

/-- Fails with a report of the error. -/
def raise [Sink S L Terminal] (source : Source L) (error : Error L) : Parser L S α :=
  fun cursor => .fail error (cursor.raise source error)

end Parser

end Backtrack
