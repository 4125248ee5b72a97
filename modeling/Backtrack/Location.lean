/-!
# Two-dimensional locations

Locations need only an order that tells which of two is further along. Besides offsets, an input
can be addressed by row and column.
-/

namespace Backtrack

/-- A place in an input that is laid out in rows. -/
structure Coordinates where
  row : Int
  column : Int
  deriving DecidableEq, Repr

namespace Coordinates

/-- Rows come first, columns count within one row. -/
instance : LT Coordinates where
  lt a b := a.row < b.row ∨ a.row = b.row ∧ a.column < b.column

theorem lt_iff {a b : Coordinates} :
    a < b ↔ a.row < b.row ∨ a.row = b.row ∧ a.column < b.column := Iff.rfl

instance (a b : Coordinates) : Decidable (a < b) :=
  decidable_of_iff _ lt_iff.symm

end Coordinates

end Backtrack
