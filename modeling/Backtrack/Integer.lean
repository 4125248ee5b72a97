/-!
# Bounded integers

The integer types that numerals are read into. Arithmetic is exact and then checked against the
bounds of the type, so that overflow is an absent result and never a wrapped one.
-/

namespace Backtrack

/-- The widths of the integer types; `size` is the width of an address. -/
inductive Width where
  | w8 | w16 | w32 | w64 | w128 | size
  deriving DecidableEq, Repr

/-- The number of bits of a width. Addresses have 64 bits. -/
def Width.bits : Width → Nat
  | w8 => 8
  | w16 => 16
  | w32 => 32
  | w64 => 64
  | w128 => 128
  | size => 64

/-- How a width is spelled in the name of a type. -/
def Width.name : Width → String
  | w8 => "8"
  | w16 => "16"
  | w32 => "32"
  | w64 => "64"
  | w128 => "128"
  | size => "size"

/-- An integer type of fixed width. -/
structure IntegerType where
  /-- Whether negative values are included. -/
  signed : Bool
  width : Width
  deriving DecidableEq, Repr

namespace IntegerType

/-- The unsigned type of a width. -/
def unsigned (width : Width) : IntegerType where
  signed := false
  width

/-- The signed type of a width, in two's complement. -/
def twosComplement (width : Width) : IntegerType where
  signed := true
  width

/-- The name of a type is its signedness followed by its width. -/
def name (type : IntegerType) : String :=
  (if type.signed then "i" else "u") ++ type.width.name

/-- All integer types, unsigned before signed. -/
def all : List IntegerType :=
  [unsigned, twosComplement].flatMap [Width.w8, .w16, .w32, .w64, .w128, .size].map

/-- The type of a name. -/
def ofName? (name : String) : Option IntegerType :=
  all.find? (·.name = name)

/-- The least value of a type. -/
def min (type : IntegerType) : Int :=
  if type.signed then -Int.pow 2 (type.width.bits - 1) else 0

/-- The greatest value of a type. -/
def max (type : IntegerType) : Int :=
  if type.signed then Int.pow 2 (type.width.bits - 1) - 1 else Int.pow 2 type.width.bits - 1

/-- A value that lies within the bounds of the type. -/
def checked (type : IntegerType) (n : Int) : Option Int :=
  if type.min ≤ n ∧ n ≤ type.max then some n else none

/-- The product, absent on overflow. -/
def checkedMul (type : IntegerType) (a b : Int) : Option Int :=
  type.checked (a * b)

/-- The sum, absent on overflow. -/
def checkedAdd (type : IntegerType) (a b : Int) : Option Int :=
  type.checked (a + b)

/-- The difference, absent on overflow. -/
def checkedSub (type : IntegerType) (a b : Int) : Option Int :=
  type.checked (a - b)

/-- The value of a digit in the type: its residue modulo the size of the type, which for digits
below 36 is the digit itself. -/
def ofDigit (type : IntegerType) (digit : Nat) : Int :=
  if type.signed then Int.bmod digit (Nat.pow 2 type.width.bits)
  else digit % Int.pow 2 type.width.bits

theorem checked_eq_some {type : IntegerType} {n m : Int} :
    type.checked n = some m ↔ n = m ∧ type.min ≤ n ∧ n ≤ type.max := by
  by_cases h : type.min ≤ n ∧ n ≤ type.max <;> simp [checked, h]

theorem checked_eq_none {type : IntegerType} {n : Int} :
    type.checked n = none ↔ n < type.min ∨ type.max < n := by
  simp only [checked, ite_eq_right_iff, reduceCtorEq, imp_false]
  omega

/-- The names of the types tell them apart. -/
theorem ofName?_name (type : IntegerType) : ofName? type.name = some type := by
  rcases type with ⟨signed, width⟩
  cases signed <;> cases width <;> decide +kernel

end IntegerType

end Backtrack
