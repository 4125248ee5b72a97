import Backtrack.Error

/-!
# Sinks

Every error that is raised is reported to a sink, together with the terminal found where it was
raised, also when an optional or repeated rule takes the error for an absence later. A sink decides
what it keeps of the reports. This module has the sinks that keep nothing, the last report, or all
of them, and sinks that are lent; the one that keeps the reports furthest along is in
`Backtrack.Sink.Furthest`.
-/

namespace Backtrack

/-- An error with the terminal found at its location, absent at the end of the input. -/
structure Report (L T : Type) where
  error : Error L
  found : Option T
  deriving DecidableEq, Repr

/-- What reports are made to. -/
class Sink (S : Type) (L T : outParam Type) where
  /-- The sink after one more report. -/
  report : S → Report L T → S

/-- The sink after several reports, oldest first. -/
def Sink.reportAll {S L T : Type} [Sink S L T] (sink : S) (reports : List (Report L T)) : S :=
  reports.foldl Sink.report sink

@[simp] theorem Sink.reportAll_nil {S L T : Type} [Sink S L T] (sink : S) :
    Sink.reportAll sink ([] : List (Report L T)) = sink := rfl

@[simp] theorem Sink.reportAll_cons {S L T : Type} [Sink S L T] (sink : S) (report : Report L T)
    (reports : List (Report L T)) :
    Sink.reportAll sink (report :: reports)
      = Sink.reportAll (Sink.report sink report) reports := rfl

theorem Sink.reportAll_concat {S L T : Type} [Sink S L T] (sink : S) (reports : List (Report L T))
    (report : Report L T) :
    Sink.reportAll sink (reports ++ [report])
      = Sink.report (Sink.reportAll sink reports) report := by
  simp [Sink.reportAll]

/-- A sink that is lent: reports are passed on to it, and its owner keeps what it has become. -/
structure Lent (S : Type) where
  sink : S
  deriving DecidableEq, Repr

instance {S L T : Type} [Sink S L T] : Sink (Lent S) L T where
  report lent report := { sink := Sink.report lent.sink report }

/-- The owner of a lent sink finds what its own reports would have made of it. -/
theorem Lent.reportAll {S L T : Type} [Sink S L T] (sink : S) (reports : List (Report L T)) :
    Sink.reportAll (Lent.mk sink) reports = ⟨Sink.reportAll sink reports⟩ := by
  induction reports generalizing sink with
  | nil => rfl
  | cons report reports ih => exact ih (Sink.report sink report)

/-- Keeps nothing. -/
structure NoReports (L T : Type) where
  deriving DecidableEq, Repr

instance {L T : Type} : Sink (NoReports L T) L T where
  report sink _ := sink

/-- Keeps the last report and the number of all. -/
structure LastReport (L T : Type) where
  last : Option (Report L T)
  count : Nat
  deriving DecidableEq, Repr

namespace LastReport

variable {L T : Type}

/-- No report has been made. -/
def empty : LastReport L T where
  last := none
  count := 0

instance : Sink (LastReport L T) L T where
  report sink report := { last := some report, count := sink.count + 1 }

/-- The last of a series of reports is kept, and all of them are counted. -/
theorem reportAll (sink : LastReport L T) (reports : List (Report L T)) :
    Sink.reportAll sink reports
      = { last := reports.getLast? <|> sink.last, count := sink.count + reports.length } := by
  induction reports generalizing sink with
  | nil => rfl
  | cons report reports ih =>
    rw [Sink.reportAll_cons, ih, List.getLast?_cons]
    simp only [Sink.report, List.length_cons]
    congr 1
    · cases reports.getLast? <;> rfl
    · omega

end LastReport

/-- Keeps every report, oldest first. -/
structure ReportLog (L T : Type) where
  reports : Array (Report L T)
  deriving DecidableEq, Repr

namespace ReportLog

variable {L T : Type}

/-- No report has been made. -/
def empty : ReportLog L T where
  reports := #[]

/-- The most recent report. -/
def last? (log : ReportLog L T) : Option (Report L T) :=
  log.reports.back?

instance : Sink (ReportLog L T) L T where
  report log report := { reports := log.reports.push report }

/-- A log keeps every report of a series, in order. -/
theorem reportAll (log : ReportLog L T) (reports : List (Report L T)) :
    Sink.reportAll log reports = { reports := log.reports ++ reports } := by
  induction reports generalizing log with
  | nil => simp
  | cons report reports ih =>
    rw [Sink.reportAll_cons, ih]
    simp [Sink.report]

end ReportLog

end Backtrack
