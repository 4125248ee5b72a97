import Backtrack.Cursor
import Backtrack.Rule.Identity

/-!
# Attempts

Rules are applied by attempts, which give back what a failed rule consumed. An attempt propagates
the failure; an optional attempt takes a recoverable failure for an absence; a repeated attempt goes
on to the first absence, or to the first match that consumes nothing, since the same rule would
match there in the same way for ever.

The rule of an attempt is named apart from the parser that reads it, because only the trace needs
the name.
-/

namespace Backtrack

/-- What rules are read against. -/
structure Scope (L : Type) where
  source : Source L
  naming : Naming
  /-- The rules that references stand for. -/
  definitions : String → Option Rule

namespace Scope

variable {L S α σ : Type}

/-- Fails at a location because `rule` did not match there. -/
def expected [Sink S L Terminal] (scope : Scope L) (rule : Rule) (location : L) : Parser L S α :=
  Parser.raise scope.source (.expected (rule.identity scope.naming) location)

variable [DecidableEq L]

/-- Applies the parser of a rule, and goes back if it fails. -/
def attempt (scope : Scope L) (rule : Rule) (p : Parser L S α) : Parser L S α :=
  fun cursor =>
    let saved := cursor.location
    match p cursor with
    | .ok value cursor => .ok value cursor
    | .fail error cursor =>
      if cursor.location = saved then .fail error cursor
      else
        let entry := .rewound cursor.location saved (rule.identity scope.naming)
        .fail error { cursor with location := saved, trace := cursor.trace.push entry }
    | .unfinished => .unfinished

/-- Applies the parser of a rule that may be absent. -/
def attemptOptional (scope : Scope L) (rule : Rule) (p : Parser L S α) : Parser L S (Option α) :=
  fun cursor =>
    match scope.attempt rule p cursor with
    | .ok value cursor => .ok (some value) cursor
    | .fail error cursor => if error.recoverable then .ok none cursor else .fail error cursor
    | .unfinished => .unfinished

/-- Applies the parser of a rule as often as it matches, and gathers the values. The result is what
has been gathered, together with the error that ended the repetition, if one did. -/
def attemptManyInto (scope : Scope L) (rule : Rule) (p : Parser L S α) (extend : σ → α → σ) :
    Nat → σ → Parser L S (σ × Option (Error L))
  | 0, _, _ => .unfinished
  | fuel + 1, gathered, cursor =>
    let before := cursor.location
    match scope.attemptOptional rule p cursor with
    | .ok (some value) cursor =>
      -- the match that did not move the cursor is kept, and is the last
      if cursor.location = before then .ok (extend gathered value, none) cursor
      else scope.attemptManyInto rule p extend fuel (extend gathered value) cursor
    | .ok none cursor => .ok (gathered, none) cursor
    | .fail error cursor => .ok (gathered, some error) cursor
    | .unfinished => .unfinished

/-- Applies the parser of a rule as often as it matches, and adds the values to a container. -/
def extendMany (scope : Scope L) (rule : Rule) (p : Parser L S α) (extend : σ → α → σ)
    (fuel : Nat) (gathered : σ) : Parser L S σ :=
  fun cursor =>
    match scope.attemptManyInto rule p extend fuel gathered cursor with
    | .ok (gathered, none) cursor => .ok gathered cursor
    | .ok (_, some error) cursor => .fail error cursor
    | .fail error cursor => .fail error cursor
    | .unfinished => .unfinished

end Scope

end Backtrack
