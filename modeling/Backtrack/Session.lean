import Backtrack.Rule.Parse

/-!
# Sessions

A session applies the operations of a cursor one by one: looking at the input, consuming it, and
attempting rules. Failed operations leave the cursor usable, and the session goes on. One list is
kept for the whole session, which repeated attempts add to.
-/

namespace Backtrack

/-- An operation of a session. -/
inductive Command (L : Type) where
  /-- Looks at the terminal at the cursor. -/
  | peek
  /-- Consumes the terminal at the cursor. -/
  | advance
  /-- Asks whether no terminal is left. -/
  | atEnd
  /-- Looks at a location of the source. -/
  | lookUp (location : L)
  | attempt (rule : Rule)
  | attemptOptional (rule : Rule)
  | attemptMany (rule : Rule) (into : Container)
  /-- Adds the values of repeated matches to the list of the session. -/
  | attemptManyInto (rule : Rule)
  /-- Raises that a rule did not match at a location. -/
  | expected (rule : Rule) (location : L)
  /-- Raises that a value is too large for a type, which is told by its name. -/
  | overflow (type : String) (location : L)

/-- The answer to an operation. -/
inductive Answer (L : Type) where
  | terminal (found : Option Terminal)
  | flag (b : Bool)
  /-- The start of the source, and the terminal at the location asked for with the next one. -/
  | place (start : L) (found : Option (Terminal × L))
  | value (v : Value)
  | error (error : Error L)
  /-- The list of the session was added to, up to an error if there was one. -/
  | extended (error : Option (Error L))
  deriving Repr

/-- The state of a session. -/
structure Session (L S : Type) where
  cursor : Cursor L S
  gathered : Array Value

namespace Session

variable {L S : Type}

/-- A session at the start of a source. -/
def start (source : Source L) (sink : S) : Session L S where
  cursor := .atStart source sink
  gathered := #[]

/-- Runs a parser, and goes on where it leaves the cursor. There is no next state if the fuel ran
out. -/
def apply {α : Type} (session : Session L S) (p : Parser L S α) (answer : α → Answer L) :
    Option (Answer L × Session L S) :=
  match p session.cursor with
  | .ok value cursor => some (answer value, { session with cursor })
  | .fail error cursor => some (.error error, { session with cursor })
  | .unfinished => none

variable [DecidableEq L] [Sink S L Terminal]

/-- Performs one operation. -/
def step (scope : Scope L) (fuel : Nat) (session : Session L S) :
    Command L → Option (Answer L × Session L S)
  | .peek => session.apply (Parser.peek scope.source) .terminal
  | .advance => session.apply (Parser.advance scope.source) .terminal
  | .atEnd => some (.flag (session.cursor.atEnd scope.source), session)
  | .lookUp location => some (.place scope.source.start (scope.source.terminalAt location), session)
  | .attempt rule => session.apply (rule.attempt scope fuel) .value
  | .attemptOptional rule =>
    session.apply (rule.attemptOptional scope fuel) fun v => .value (.ofOption v)
  | .attemptMany rule into => session.apply (rule.attemptMany scope fuel into) .value
  | .attemptManyInto rule =>
    let ⟨cursor, gathered⟩ := session
    match rule.attemptManyInto scope fuel Array.push gathered cursor with
    | .ok (gathered, error) cursor => some (.extended error, { cursor, gathered })
    | .fail error cursor => some (.error error, { cursor, gathered })
    | .unfinished => none
  | .expected rule location =>
    session.apply (scope.expected rule location : Parser L S Unit) fun _ => .value .unit
  | .overflow type location =>
    session.apply (Parser.raise scope.source (.overflow type location) : Parser L S Unit)
      fun _ => .value .unit

/-- Performs operations in order. -/
def run (scope : Scope L) (fuel : Nat) (session : Session L S) :
    List (Command L) → Option (List (Answer L) × Session L S)
  | [] => some ([], session)
  | command :: commands => do
    let (answer, session) ← session.step scope fuel command
    let (answers, session) ← session.run scope fuel commands
    return (answer :: answers, session)

end Session

end Backtrack
