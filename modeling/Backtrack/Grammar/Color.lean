import Backtrack.Grammar.Sample
import Backtrack.Rule.Parse

/-!
# Colors

A color is written in hexadecimal, such as `#ff8000`, or by its decimal channels, such as
`rgb(255, 128, 0)`. The two forms differ in their first character, so that the failure of the one
never hides a match of the other.
-/

namespace Backtrack

/-- A color of three channels of 8 bits. -/
structure Color where
  red : UInt8
  green : UInt8
  blue : UInt8
  deriving DecidableEq, Repr

namespace Color

/-- The value that stands for a color. -/
def toValue (color : Color) : Value :=
  .record "color" [.integer color.red.toNat, .integer color.green.toNat, .integer color.blue.toNat]

/-- The color of three channels. -/
def ofChannels (red green blue : Int) : Value :=
  toValue { red := .ofNat red.toNat, green := .ofNat green.toNat, blue := .ofNat blue.toNat }

/-- The channel of its two hexadecimal digits. -/
def channelOfMembers : List Value → Value
  | [.tuple [.integer high, .integer low]] => .integer (high * 16 + low)
  | members => .tuple members

/-- The color of the parts of its hexadecimal form. -/
def ofHexMembers : List Value → Value
  | [.tuple [_, .integer red, .integer green, .integer blue]] => ofChannels red green blue
  | members => .tuple members

/-- The color of the parts of its decimal form. -/
def ofDecimalMembers : List Value → Value
  | [_, .tuple [.integer red, _, .integer green, _, .integer blue], _] => ofChannels red green blue
  | members => .tuple members

end Color

namespace Grammar

/-- One ASCII character. -/
def character (c : Char) : Rule :=
  .terminal (.exactly ("stack_only::Is<" ++ toString c.toNat ++ ">") c.toNat)

/-- Two hexadecimal digits. -/
def hexChannel : Rule :=
  .assemble "stack_only::HexChannel" (IntegerType.unsigned .w8).name
    [.seq [.digit .hex (.unsigned .w8), .digit .hex (.unsigned .w8)]] Color.channelOfMembers

/-- The hexadecimal form. -/
def hexColor : Rule :=
  .assemble "stack_only::HexColor" "stack_only::Color"
    [.seq [character '#', hexChannel, hexChannel, hexChannel]] Color.ofHexMembers

/-- The decimal form. -/
def rgbColor : Rule :=
  .assemble "stack_only::RgbColor" "stack_only::Color"
    [.seq [character 'r', character 'g', character 'b', .mark .parenthesisLeft],
      .seq [.spaced byte, .mark .comma, .spaced byte, .mark .comma, .spaced byte],
      .mark .parenthesisRight]
    Color.ofDecimalMembers

/-- Either form. -/
def color : Rule :=
  .choice "stack_only::AnyColor" [hexColor, rgbColor]

end Grammar

/-- Reads a color that is all of a sequence of bytes, keeping the last report. -/
def Color.read (fuel : Nat) (bytes : Array Terminal) :
    Reply Nat (LastReport Nat Terminal) Value :=
  let source := Source.ofArray bytes
  let scope : Scope Nat :=
    { source, naming := .offsets .byte false, definitions := fun _ => none }
  Rule.attempt scope fuel (.seq [Grammar.color, .endOfInput]) (.atStart source .empty)

end Backtrack
