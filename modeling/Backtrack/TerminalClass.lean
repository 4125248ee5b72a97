import Backtrack.Integer
import Backtrack.Value

/-!
# Classes of terminals

A terminal class tells which terminals it accepts and what is constructed from them. Marks, letters
and digits are ASCII only, whatever the kind of the terminals: a large value never passes for a
small one.
-/

namespace Backtrack

/-- Punctuation marks and blanks. -/
inductive Mark where
  | comma | colon | period | hyphen | plus | space | whitespace
  | parenthesisLeft | parenthesisRight | bracketLeft | bracketRight | braceLeft | braceRight
  deriving DecidableEq, Repr

namespace Mark

/-- The characters of a mark. -/
def chars : Mark → List Char
  | comma => [',']
  | colon => [':']
  | period => ['.']
  | hyphen => ['-']
  | plus => ['+']
  | space => [' ']
  | whitespace => [' ', '\t', '\r', '\n']
  | parenthesisLeft => ['(']
  | parenthesisRight => [')']
  | bracketLeft => ['[']
  | bracketRight => [']']
  | braceLeft => ['{']
  | braceRight => ['}']

/-- Whether the terminal is one of the characters of the mark. -/
def accepts (mark : Mark) (t : Terminal) : Bool :=
  t.ascii?.any fun byte => mark.chars.any (·.toNat = byte)

theorem chars_ascii (mark : Mark) : ∀ c ∈ mark.chars, c.toNat < 128 := by
  cases mark <;> simp [chars]

/-- Since marks are ASCII, a terminal beyond it is no character of theirs in any case. -/
theorem accepts_eq (mark : Mark) (t : Terminal) :
    mark.accepts t = mark.chars.any (·.toNat = t) := by
  unfold accepts
  by_cases ht : t < 128
  · rw [Terminal.ascii?_of_lt ht, Option.any_some]
  · have ht : 128 ≤ t := Nat.not_lt.1 ht
    rw [Terminal.ascii?_of_le ht, Option.any_none, eq_comm, List.any_eq_false]
    intro c hc
    rw [decide_eq_true_eq]
    exact Nat.ne_of_lt (Nat.lt_of_lt_of_le (mark.chars_ascii c hc) ht)

end Mark

/-- Whether the terminal is ASCII and lies between two characters, both included. -/
def Terminal.between (low high : Char) (t : Terminal) : Bool :=
  t.ascii?.any fun byte => low.toNat ≤ byte && byte ≤ high.toNat

/-- Up to an ASCII character, no terminal lies beyond ASCII. -/
theorem Terminal.between_eq {low high : Char} (hhigh : high.toNat < 128) (t : Terminal) :
    t.between low high = (decide (low.toNat ≤ t) && decide (t ≤ high.toNat)) := by
  unfold between
  by_cases ht : t < 128
  · rw [ascii?_of_lt ht, Option.any_some]
  · have ht : 128 ≤ t := Nat.not_lt.1 ht
    rw [ascii?_of_le ht, Option.any_none, eq_comm, Bool.and_eq_false_iff]
    exact .inr (decide_eq_false (Nat.not_le.2 (Nat.lt_of_lt_of_le hhigh ht)))

/-- Whether the terminal is an ASCII letter. -/
def Terminal.isLetter (t : Terminal) : Bool :=
  t.between 'a' 'z' || t.between 'A' 'Z'

/-- The alphabets of digits. -/
inductive Digit where
  /-- `0` to `9`. -/
  | decimal
  /-- `1` to `9`, for numerals without leading zeros. -/
  | natural
  /-- `0` to `9` and `a` to `f` in either case. -/
  | hex
  /-- `0` to `9` and `a` to `f` in lower case. -/
  | hexLowercase
  deriving DecidableEq, Repr

namespace Digit

/-- The base in which a sequence of the digits is read. -/
def radix : Digit → Nat
  | decimal => 10
  | natural => 10
  | hex => 16
  | hexLowercase => 16

/-- The value of a terminal as a digit, absent if it is none. -/
def value? : Digit → Terminal → Option Nat
  | decimal, t => if t.between '0' '9' then some (t - '0'.toNat) else none
  | natural, t => if t.between '1' '9' then some (t - '0'.toNat) else none
  | hex, t =>
    if t.between '0' '9' then some (t - '0'.toNat)
    else if t.between 'a' 'f' then some (t - 'a'.toNat + 10)
    else if t.between 'A' 'F' then some (t - 'A'.toNat + 10)
    else none
  | hexLowercase, t =>
    if t.between '0' '9' then some (t - '0'.toNat)
    else if t.between 'a' 'f' then some (t - 'a'.toNat + 10)
    else none

/-- The value of a terminal as a digit of an integer type. -/
def read? (digit : Digit) (type : IntegerType) (t : Terminal) : Option Int :=
  (digit.value? t).map type.ofDigit

end Digit

/-- A class of terminals that a rule can match. -/
inductive TerminalClass where
  | mark (mark : Mark)
  | letter
  | digit (digit : Digit) (type : IntegerType)
  /-- Any terminal at all; the name is chosen by the author of the grammar. -/
  | any (name : String)
  /-- The terminal `t` alone; the name is chosen by the author of the grammar. -/
  | exactly (name : String) (t : Terminal)
  deriving DecidableEq, Repr

/-- What is constructed from a terminal, absent if the class does not accept it. -/
def TerminalClass.accept : TerminalClass → Terminal → Option Value
  | mark m, t => if m.accepts t then some .unit else none
  | letter, t => if t.isLetter then some (.terminal t) else none
  | digit d type, t => (d.read? type t).map .integer
  | any _, t => some (.terminal t)
  | exactly _ expected, t => if t = expected then some .unit else none

end Backtrack
