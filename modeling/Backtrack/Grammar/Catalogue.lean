import Backtrack.Grammar.Version

/-!
# A catalogue of grammars

The grammars of this library by name, and compositions of them.
-/

namespace Backtrack.Grammar

/-- A decimal literal of a type. -/
def decimal (type : IntegerType) : Rule :=
  .literal .decimal type

/-- Bytes in brackets, such as `[1, 2]`. -/
def bracketed : Rule :=
  .seq [.mark .bracketLeft, bytes, .mark .bracketRight]

/-- Lists of bytes in braces. -/
def matrix : Rule :=
  .seq [.mark .braceLeft, .optional (.sepBy1 bracketed (.spaced (.mark .comma)) .vector),
    .mark .braceRight]

/-- Words with numbers, such as `a: 1, b: 2`. -/
def pairs : Rule :=
  .sepBy1 (.seq [.spaced nonEmptyWord, .mark .colon, paddedNumber]) (.mark .comma) .vector

/-- A word applied to small numbers, such as `f(1, 2)`. -/
def call : Rule :=
  .seq [.many1 .letter .vector, .mark .parenthesisLeft,
    .optional (.sepBy1 (.spaced (.naturalLiteral (.twosComplement .w8))) (.mark .comma) .vector),
    .mark .parenthesisRight]

/-- Rows of numbers. -/
def rows : Rule :=
  .sepBy1 (.sepBy1 (.naturalLiteral (.unsigned .w16)) (.mark .comma) .vector) (.mark .colon) .vector

/-- Three hexadecimal bytes with colons between them and an optional one after them. -/
def hexTriple : Rule :=
  let part := Rule.literal .hexLowercase (.unsigned .w8)
  .seq [part, .mark .colon, part, .mark .colon, part, .optional (.mark .colon)]

/-- Optional signs, a number, an optional fraction and a unit that is dropped. -/
def offset : Rule :=
  .seq [.optional (.mark .plus), .optional (.mark .hyphen), decimal (.twosComplement .w64),
    .optional (.seq [.mark .period, decimal (.unsigned .w64)]), .discard word]

/-- The grammar of a name, for terminals of a kind. -/
def ofName? (kind : TerminalKind) : String → Option Rule
  | "letters" => some letters
  | "word" => some word
  | "non_empty_word" => some nonEmptyWord
  | "byte" => some byte
  | "hex16" => some hex16
  | "padded_number" => some paddedNumber
  | "bytes" => some bytes
  | "signed_integer" => some (signedInteger kind)
  | "version_component" => some (versionComponent kind)
  | "version_triple" => some (version kind)
  | "version_triple_end" => some (.seq [version kind, .endOfInput])
  | "letters_end" => some (.seq [letters, .endOfInput])
  | "optional_byte" => some (.optional byte)
  | "optional_version" => some (.optional (version kind))
  | "discard_byte" => some (.discard byte)
  | "spaced_bytes" => some (.many (.spaced byte) .vector)
  | "spaced_bytes1" => some (.many1 (.spaced byte) .vector)
  | "signed_list" => some (.sepBy1 (.spaced (signedInteger kind)) (.mark .comma) .deque)
  | "version_list" => some (.sepBy1 (version kind) (.mark .comma) .vector)
  | "byte_set" => some (.sepBy1 byte (.mark .comma) .set)
  | "bracketed" => some bracketed
  | "matrix" => some matrix
  | "pairs" => some pairs
  | "pairs_end" => some (.seq [pairs, .endOfInput])
  | "call" => some call
  | "optional_letters" => some (.many (.optional .letter) .vector)
  | "optional_letters1" => some (.many1 (.optional .letter) .vector)
  | "words" => some (.sepBy1 word (.many (.mark .space) .unit) .vector)
  | "nested_collect" => some (.many word .vector)
  | "rows" => some rows
  | "double_pad" => some (.spaced (.padded (decimal (.twosComplement .w16)) (.mark .space)))
  | "mac" => some hexTriple
  | "offset" => some offset
  | "u128" => some (decimal (.unsigned .w128))
  | "i128_hex" => some (.literal .hex (.twosComplement .w128))
  | "isize_hex" => some (.literal .hexLowercase (.twosComplement .size))
  | "usize" => some (.naturalLiteral (.unsigned .size))
  | "string" => some (.many .letter .text)
  | "string_list" =>
    some (.sepBy1 (.many1 .letter .text) (.spaced (.mark .comma)) .vector)
  | _ => none

end Backtrack.Grammar
