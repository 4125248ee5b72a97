import Backtrack.TerminalClass

/-!
# Grammar rules

A grammar is a tree of rules. The first group of rules is what grammars are composed of; the second
group is what authors of grammars add, under names that they choose. What a rule does to the input
is in `Backtrack.Rule.Parse`, how it is called in errors is in `Backtrack.Rule.Identity`.
-/

namespace Backtrack

/-- A grammar rule. -/
inductive Rule where
  /-- One terminal of a class. -/
  | terminal (accepted : TerminalClass)
  /-- Matches where no terminal is left, and consumes nothing. -/
  | endOfInput
  /-- Matches always; an absent `rule` consumes nothing. -/
  | optional (rule : Rule)
  /-- Matches as `rule` does and drops its value. -/
  | discard (rule : Rule)
  /-- Any number of matches. -/
  | many (rule : Rule) (into : Container)
  /-- One or more matches. -/
  | many1 (rule : Rule) (into : Container)
  /-- One or more matches, separated. A separator counts only together with the match after it. -/
  | sepBy1 (rule separator : Rule) (into : Container)
  /-- A match with any amount of padding before and after it. -/
  | padded (rule padding : Rule)
  /-- All rules in order. -/
  | seq (rules : List Rule)
  /-- A numeral: a digit of the first alphabet, followed by any number of digits of the other, read
  in the base of the latter. -/
  | numeral (first next : Digit) (type : IntegerType)
  /-- A numeral with an optional hyphen before it, which makes it negative. -/
  | signedNumeral (name : String) (digit : Digit) (type : IntegerType)
  /-- Exactly `n` terminals. -/
  | take (name : String) (n : Nat)
  /-- The first of several rules that is not absent. -/
  | choice (name : String) (rules : List Rule)
  /-- Matches as `rule` does, and is expected in its place where `rule` is absent. -/
  | label (name : String) (rule : Rule)
  /-- Matches as `rule` does, and is an overflow of `type` where `rule` is absent. -/
  | insist (name : String) (rule : Rule) (type : IntegerType)
  /-- Matches everywhere and consumes nothing. -/
  | nothing (name : String)
  /-- Fails everywhere, without a report. -/
  | silent (name : String)
  /-- The rule that `definition` stands for. -/
  | ref (name definition : String)
  /-- All rules in order, with a value built from theirs; `constructs` names its type. -/
  | assemble (name constructs : String) (rules : List Rule) (build : List Value → Value)
  /-- A rule under another name. -/
  | named (name : String) (rule : Rule)

namespace Rule

/-- One of the characters of a mark. -/
def mark (mark : Mark) : Rule :=
  .terminal (.mark mark)

/-- An ASCII letter. -/
def letter : Rule :=
  .terminal .letter

/-- One digit. -/
def digit (alphabet : Digit) (type : IntegerType) : Rule :=
  .terminal (.digit alphabet type)

/-- A numeral that allows leading zeros. -/
def literal (alphabet : Digit) (type : IntegerType) : Rule :=
  .numeral alphabet alphabet type

/-- A decimal numeral without leading zeros. -/
def naturalLiteral (type : IntegerType) : Rule :=
  .numeral .natural .decimal type

/-- Any amount of whitespace around a rule. -/
def spaced (rule : Rule) : Rule :=
  .padded rule (.mark .whitespace)

end Rule

end Backtrack
