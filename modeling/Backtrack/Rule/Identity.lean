import Backtrack.Rule

/-!
# Identities of rules

Errors and traces refer to a rule by its identity. The identity of a composed rule is the name of
its type, made of the names of its parts; authors of grammars choose the identities of their own
rules. The end of the input has a short identity of its own, which does not appear inside the names
of other rules.
-/

namespace Backtrack

/-- What identities depend on besides the rule. -/
structure Naming where
  /-- The name of the type of locations. -/
  location : String
  /-- The kind of the terminals. -/
  terminal : TerminalKind
  /-- Whether sequences are written without their members. -/
  elided : Bool
  deriving DecidableEq, Repr

namespace Naming

/-- The naming for inputs that are addressed by offset. -/
def offsets (terminal : TerminalKind) (elided : Bool) : Naming where
  location := "usize"
  terminal
  elided

/-- The naming for linked inputs. -/
def linked (elided : Bool) : Naming where
  location := "i64"
  terminal := .word32
  elided

end Naming

/-- A type name with arguments. -/
def appliedName (name : String) (arguments : List String) : String :=
  name ++ "<" ++ ", ".intercalate arguments ++ ">"

/-- The name of a mark. -/
def Mark.name : Mark → String
  | comma => "Comma"
  | colon => "Colon"
  | period => "Period"
  | hyphen => "Hyphen"
  | plus => "Plus"
  | space => "Space"
  | whitespace => "Whitespace"
  | parenthesisLeft => "ParenthesisLeft"
  | parenthesisRight => "ParenthesisRight"
  | bracketLeft => "BracketLeft"
  | bracketRight => "BracketRight"
  | braceLeft => "BraceLeft"
  | braceRight => "BraceRight"

/-- The name of an alphabet of digits. -/
def Digit.name : Digit → String
  | decimal => "DecimalDigit"
  | natural => "NaturalDecimalDigit"
  | hex => "HexDigit"
  | hexLowercase => "HexDigitLowercase"

/-- The name of a terminal class. -/
def TerminalClass.identity (naming : Naming) : TerminalClass → String
  | mark m =>
    appliedName ("gramma_core::ascii::" ++ m.name) [naming.location, naming.terminal.name]
  | letter => appliedName "gramma_core::ascii::Letter" [naming.location, naming.terminal.name]
  | digit d type =>
    appliedName ("gramma_core::digits::" ++ d.name)
      [naming.location, naming.terminal.name, type.name]
  | any name => name
  | exactly name _ => name

/-- The name of the type that a terminal class constructs. -/
def TerminalClass.constructs (naming : Naming) : TerminalClass → String
  | mark _ => "()"
  | letter => naming.terminal.name
  | digit _ type => type.name
  | any _ => naming.terminal.name
  | exactly _ _ => "()"

/-- The name of a container of elements of a type. -/
def Container.name : Container → String → String
  | vector, element => appliedName "alloc::vec::Vec" [element]
  | deque, element => appliedName "alloc::collections::vec_deque::VecDeque" [element]
  | set, element => appliedName "alloc::collections::btree::set::BTreeSet" [element]
  | text, _ => "alloc::string::String"
  | count, _ => "count"
  | unit, _ => "()"

/-- The name of the type of tuples with members of the given types. -/
def tupleName (members : List String) : String :=
  "(" ++ ", ".intercalate members ++ ")"

namespace Rule

mutual

/-- The name of the type that a rule constructs. -/
def constructs (naming : Naming) : Rule → String
  | terminal accepted => accepted.constructs naming
  | endOfInput => "()"
  | optional rule => appliedName "core::option::Option" [rule.constructs naming]
  | discard _ => "()"
  | many rule into => into.name (rule.constructs naming)
  | many1 rule into => into.name (rule.constructs naming)
  | sepBy1 rule _ into => into.name (rule.constructs naming)
  | padded rule _ => rule.constructs naming
  | seq rules => tupleName (constructsAll naming rules)
  | numeral _ _ type => type.name
  | signedNumeral _ _ type => type.name
  | take _ _ => Container.vector.name naming.terminal.name
  | choice _ rules => (constructsAll naming rules).headD "()"
  | label _ rule => rule.constructs naming
  | insist _ rule _ => rule.constructs naming
  | nothing _ => "()"
  | silent _ => "()"
  | ref name _ => name
  | assemble _ constructs _ _ => constructs
  | named _ rule => rule.constructs naming

/-- The names of the types that several rules construct. -/
def constructsAll (naming : Naming) : List Rule → List String
  | [] => []
  | rule :: rules => rule.constructs naming :: constructsAll naming rules

end

mutual

/-- The name of a rule as a part of another. -/
def typeName (naming : Naming) : Rule → String
  | terminal accepted => accepted.identity naming
  | endOfInput =>
    appliedName "gramma_core::combinators::End" [naming.location, naming.terminal.name]
  | optional rule => appliedName "gramma_core::rule::Optional" [rule.typeName naming]
  | discard rule => appliedName "gramma_core::combinators::Discard" [rule.typeName naming]
  | many rule into =>
    appliedName "gramma_core::combinators::Collect"
      [rule.typeName naming, into.name (rule.constructs naming)]
  | many1 rule into =>
    appliedName "gramma_core::combinators::Reduce"
      [rule.typeName naming, into.name (rule.constructs naming)]
  | sepBy1 rule separator into =>
    appliedName "gramma_core::combinators::Join"
      [rule.typeName naming, separator.typeName naming, into.name (rule.constructs naming)]
  | padded rule padding =>
    appliedName "gramma_core::combinators::Pad" [rule.typeName naming, padding.typeName naming]
  | seq rules => tupleName (typeNames naming rules)
  | numeral first next type =>
    appliedName "gramma_core::digits::NormalizedIntegerLiteral"
      [(TerminalClass.digit first type).identity naming,
        (TerminalClass.digit next type).identity naming]
  | signedNumeral name _ _ => name
  | take name _ => name
  | choice name _ => name
  | label name _ => name
  | insist name _ _ => name
  | nothing name => name
  | silent name => name
  | ref name _ => name
  | assemble name _ _ _ => name
  | named name _ => name

/-- The names of several rules. -/
def typeNames (naming : Naming) : List Rule → List String
  | [] => []
  | rule :: rules => rule.typeName naming :: typeNames naming rules

end

/-- The identity of a rule in errors and traces. -/
def identity (naming : Naming) : Rule → String
  | endOfInput => "end"
  | seq rules => if naming.elided then "(..)" else (seq rules).typeName naming
  | rule => rule.typeName naming

end Rule

end Backtrack
