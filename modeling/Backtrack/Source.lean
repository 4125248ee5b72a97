import Backtrack.Terminal

/-!
# Sources

A source is an immutable sequence of terminals that is addressed by locations. Nothing is assumed
of `terminalAt`: a source may repeat a location or lead back to an earlier one. The sources of this
module are sequences indexed by element, texts addressed by byte offset, and linked cells.
-/

namespace Backtrack

/-- An addressable sequence of terminals. -/
structure Source (L : Type) where
  /-- The location of the first terminal. -/
  start : L
  /-- The terminal at a location and the location just after it, absent where there is none. -/
  terminalAt : L → Option (Terminal × L)

namespace Source

/-! ## Sequences indexed by element -/

/-- The source of a sequence of terminals; the location of a terminal is its index. -/
def ofArray (terminals : Array Terminal) : Source Nat where
  start := 0
  terminalAt location := terminals[location]?.map fun terminal => (terminal, location + 1)

/-! ## Texts -/

/-- One cell for each byte of the UTF-8 encoding: a character stands in the cell of its first byte
and leaves the others empty. -/
def textCells (chars : List Char) : List (Option Char) :=
  chars.flatMap fun c => some c :: List.replicate (c.utf8Size - 1) none

/-- The source of a table of text cells. -/
def ofTextCells (cells : Array (Option Char)) : Source Nat where
  start := 0
  terminalAt location := cells[location]?.join.map fun c => (c.toNat, location + c.utf8Size)

/-- The source of a text; the location of a character is the offset of its first byte, and there is
no terminal inside a character. -/
def ofText (text : String) : Source Nat :=
  ofTextCells (textCells text.toList).toArray

/-- The source of a text in terminals of a kind: characters are addressed by byte offset, bytes and
words by index. -/
def ofEncoded : TerminalKind → String → Source Nat
  | .character, text => ofText text
  | kind, text => ofArray (kind.encode text).toArray

/-! ## Linked cells -/

/-- A terminal with its own location and that of its successor. -/
structure Link where
  location : Int
  terminal : Terminal
  next : Int
  deriving DecidableEq, Repr

/-- The source of linked cells; of several cells at one location the first counts. -/
def ofLinks (start : Int) (links : List Link) : Source Int where
  start
  terminalAt location :=
    (links.find? (·.location = location)).map fun link => (link.terminal, link.next)

end Source

end Backtrack
