import Backtrack.Rule

/-!
# Small grammars

Words, numbers and lists of them, composed of the premade rules.
-/

namespace Backtrack

namespace Grammar

/-- Letters separated by commas, such as `a,b,c`. -/
def letters : Rule :=
  .sepBy1 .letter (.mark .comma) .vector

/-- Any number of letters. -/
def word : Rule :=
  .many .letter .vector

/-- One or more letters. -/
def nonEmptyWord : Rule :=
  .many1 .letter .vector

/-- A decimal byte. -/
def byte : Rule :=
  .literal .decimal (.unsigned .w8)

/-- A hexadecimal numeral of 16 bits. -/
def hex16 : Rule :=
  .literal .hex (.unsigned .w16)

/-- A decimal numeral of 32 bits, with whitespace around it. -/
def paddedNumber : Rule :=
  .spaced (.literal .decimal (.unsigned .w32))

/-- Decimal bytes separated by commas, with whitespace around each. -/
def bytes : Rule :=
  .sepBy1 (.spaced byte) (.mark .comma) .vector

/-- A decimal integer of 32 bits with an optional sign, read from terminals of a kind. -/
def signedInteger (kind : TerminalKind) : Rule :=
  .signedNumeral ("gramma_shared_tests::grammars::SignedInteger<" ++ kind.name ++ ">") .decimal
    (.twosComplement .w32)

end Grammar

end Backtrack
