import Backtrack.Rule.Parse
import Backtrack.Sink.Furthest

/-!
# Parsing a whole input

A rule matches a prefix of the input. Parsing a whole input attempts the rule together with the end
of the input, so that text left over is a failure as well. What was reported on the way is handed
back with a failure and dropped with a success, where it only tells of alternatives given up.
-/

namespace Backtrack

/-- The failure of a whole input: the error that reached the top, and the sink with all that was
reported. -/
structure Failure (L S : Type) where
  error : Error L
  sink : S
  deriving Repr

namespace Failure

variable {L S : Type}

/-- The text of every failure; the error has a text of its own. -/
def message (_ : Failure L S) : String :=
  "failed to parse input"

/-- Where the error was raised. -/
def location (failure : Failure L S) : L :=
  failure.error.location

end Failure

/-- The outcome of parsing a whole input, with the trace. -/
inductive Verdict (L S : Type) where
  | accepted (value : Value) (trace : Array (TraceEntry L))
  | rejected (failure : Failure L S) (trace : Array (TraceEntry L))
  /-- The fuel ran out. -/
  | unfinished

namespace Rule

variable {L S : Type} [DecidableEq L] [Sink S L Terminal]

/-- Matches as `rule` does where the input ends after it. -/
def thenEnd (scope : Scope L) (fuel : Nat) (rule : Rule) : Parser L S Value :=
  scope.attempt (.seq [rule, .endOfInput]) do
    let value ← rule.attempt scope fuel
    let _ ← endOfInput.attempt scope fuel
    pure value

/-- Parses all of a source, reporting to `sink`. -/
def parseAll (scope : Scope L) (fuel : Nat) (rule : Rule) (sink : S) : Verdict L S :=
  match rule.thenEnd scope fuel (.atStart scope.source sink) with
  | .ok value cursor => .accepted value cursor.trace
  | .fail error cursor =>
    .rejected { error, sink := cursor.sink }
      (cursor.trace.push (.failed (rule.identity scope.naming) error))
  | .unfinished => .unfinished

section

variable {scope : Scope L} {fuel : Nat} {rule : Rule} {sink : S} {after : Cursor L S}

theorem parseAll_of_ok {value : Value}
    (h : rule.thenEnd scope fuel (.atStart scope.source sink) = .ok value after) :
    rule.parseAll scope fuel sink = .accepted value after.trace := by
  simp [parseAll, h]

theorem parseAll_of_fail {error : Error L}
    (h : rule.thenEnd scope fuel (.atStart scope.source sink) = .fail error after) :
    rule.parseAll scope fuel sink
      = .rejected { error, sink := after.sink }
          (after.trace.push (.failed (rule.identity scope.naming) error)) := by
  simp [parseAll, h]

theorem parseAll_of_unfinished
    (h : rule.thenEnd scope fuel (.atStart scope.source sink) = .unfinished) :
    rule.parseAll scope fuel sink = .unfinished := by
  simp [parseAll, h]

end

/-- Parses all characters of a text, keeping the furthest reports. -/
def parseText (definitions : String → Option Rule) (elided : Bool) (fuel : Nat) (rule : Rule)
    (text : String) : Verdict Nat (FurthestReports Nat Terminal) :=
  rule.parseAll
    { source := .ofText text, naming := .offsets .character elided, definitions } fuel .empty

/-- Parses all of a sequence of bytes, keeping the furthest reports. -/
def parseBytes (definitions : String → Option Rule) (elided : Bool) (fuel : Nat) (rule : Rule)
    (bytes : Array Terminal) : Verdict Nat (FurthestReports Nat Terminal) :=
  rule.parseAll
    { source := .ofArray bytes, naming := .offsets .byte elided, definitions } fuel .empty

end Rule

end Backtrack
