/-!
# Errors

Applying a rule fails in one of two ways: the rule did not match, or a numeral was well formed but
does not fit its type. Only the first may be taken for an absence by an optional or repeated rule.
-/

namespace Backtrack

/-- Why a rule failed, and where. -/
inductive Error (L : Type) where
  /-- The rule of this identity did not match at `location`. -/
  | expected (rule : String) (location : L)
  /-- The digit at `location` takes a numeral beyond the bounds of the integer type. -/
  | overflow (type : String) (location : L)
  deriving DecidableEq, Repr

namespace Error

variable {L : Type}

/-- Where the error was raised. -/
def location : Error L → L
  | expected _ location => location
  | overflow _ location => location

/-- The rule that did not match, or the integer type that was too small. -/
def subject : Error L → String
  | expected rule _ => rule
  | overflow type _ => type

/-- Whether an optional or repeated rule takes the error for an absence. -/
def recoverable : Error L → Bool
  | expected .. => true
  | overflow .. => false

/-- The text of the error; it does not tell the location. -/
def message : Error L → String
  | expected rule _ => "expected `" ++ rule ++ "`"
  | overflow type _ => "integer overflow for type `" ++ type ++ "`"

end Error

end Backtrack
