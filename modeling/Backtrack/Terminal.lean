/-!
# Terminals

The input of a grammar is a sequence of terminals. A terminal is known by its scalar value alone,
so that one grammar reads bytes, characters and code units alike; what kind of element the value
stands for matters only for cutting a text into terminals and for names.
-/

namespace Backtrack

/-- A terminal is its scalar value: the value of a byte or code unit, or the code point of a
character. -/
abbrev Terminal := Nat

/-- The value of a terminal as an ASCII byte, absent outside the ASCII range. -/
def Terminal.ascii? (t : Terminal) : Option Nat :=
  if t < 128 then some t else none

theorem Terminal.ascii?_of_lt {t : Terminal} (h : t < 128) : t.ascii? = some t :=
  if_pos h

theorem Terminal.ascii?_of_le {t : Terminal} (h : 128 ≤ t) : t.ascii? = none :=
  if_neg (Nat.not_lt.2 h)

/-- What the terminals of an input are. -/
inductive TerminalKind where
  /-- Bytes; a text is read as its UTF-8 encoding. -/
  | byte
  /-- Characters. -/
  | character
  /-- Words of 16 bits; a text is read as its UTF-16 encoding. -/
  | word16
  /-- Words of 32 bits; a text is read as its scalar values. -/
  | word32
  deriving DecidableEq, Repr

namespace TerminalKind

/-- The name under which the kind appears in the identities of rules. -/
def name : TerminalKind → String
  | byte => "u8"
  | character => "char"
  | word16 => "u16"
  | word32 => "u32"

/-- The values that a terminal of the kind can have. Surrogates are no characters. -/
def Holds : TerminalKind → Nat → Prop
  | byte, n => n < 0x100
  | character, n => n.isValidChar
  | word16, n => n < 0x10000
  | word32, n => n < 0x100000000

instance : (kind : TerminalKind) → (n : Nat) → Decidable (kind.Holds n)
  | byte, n => inferInstanceAs (Decidable (n < 0x100))
  | character, n => inferInstanceAs (Decidable n.isValidChar)
  | word16, n => inferInstanceAs (Decidable (n < 0x10000))
  | word32, n => inferInstanceAs (Decidable (n < 0x100000000))

end TerminalKind

/-- The UTF-16 encoding of a character: itself below 2^16, a surrogate pair from there on. -/
def utf16Units (c : Char) : List Nat :=
  if c.toNat < 0x10000 then [c.toNat]
  else [0xD800 + (c.toNat - 0x10000) / 0x400, 0xDC00 + (c.toNat - 0x10000) % 0x400]

namespace TerminalKind

/-- The terminals of one character. -/
def encodeChar : TerminalKind → Char → List Terminal
  | byte, c => (String.utf8EncodeChar c).map UInt8.toNat
  | character, c => [c.toNat]
  | word16, c => utf16Units c
  | word32, c => [c.toNat]

/-- The terminals of a text, character by character. -/
def encode (kind : TerminalKind) (text : String) : List Terminal :=
  text.toList.flatMap kind.encodeChar

end TerminalKind

end Backtrack
