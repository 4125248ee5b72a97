import Backtrack.Sink

/-!
# The furthest reports

The furthest place at which any rule failed is usually where the input left the grammar, even when
the error that reaches the top is raised elsewhere. The sink of this module keeps the errors of
that place, each once, in the order in which they were first reported.
-/

namespace Backtrack

/-- Keeps the reports at the furthest location. -/
inductive FurthestReports (L T : Type) where
  /-- No report has been made. -/
  | empty
  /-- The furthest location, the distinct errors there, and the terminal that the first of them
  found. -/
  | reached (location : L) (errors : List (Error L)) (found : Option T)
  deriving DecidableEq, Repr

namespace FurthestReports

variable {L T : Type}

/-- The furthest location of any report. -/
def location? : FurthestReports L T → Option L
  | empty => none
  | reached location .. => some location

/-- The errors at the furthest location. -/
def errors : FurthestReports L T → List (Error L)
  | empty => []
  | reached _ errors _ => errors

/-- The rules that were expected, and the integer types that were too small, at the furthest
location. -/
def expected (sink : FurthestReports L T) : List String :=
  sink.errors.map Error.subject

/-- The terminal found at the furthest location. -/
def found : FurthestReports L T → Option T
  | empty => none
  | reached _ _ found => found

variable [LT L] [DecidableLT L] [DecidableEq L]

/-- An earlier report is ignored, one at the furthest location adds its error unless that is kept
already, and a later one replaces what was kept. -/
def report : FurthestReports L T → Report L T → FurthestReports L T
  | empty, new => reached new.error.location [new.error] new.found
  | reached location errors found, new =>
    if new.error.location < location then reached location errors found
    else if new.error.location = location then
      if new.error ∈ errors then reached location errors found
      else reached location (errors ++ [new.error]) found
    else reached new.error.location [new.error] new.found

instance : Sink (FurthestReports L T) L T where
  report := report

end FurthestReports

end Backtrack
