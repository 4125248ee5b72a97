import Backtrack.Grammar.Sample
import Backtrack.Proofs.Furthest
import Backtrack.Proofs.Trail

/-!
# Where errors are raised

A rule raises errors only on its trail: at places that whole terminals lead to from where it was
attempted. On sequences and texts these places lie between there and the end of the input, and the
terminal told with an error is missing exactly at the end (`Rule.attempt_errors_ahead`). The sink of
the furthest reports, which has its location from one of the errors, points to such a place as well.
-/

namespace Backtrack

variable {S : Type}

/-! ## Places of an input -/

/-- A place of an input that ends at `size`, seen from a location: whole terminals lead there, it
does not lie before the location nor beyond the end, and in a text it lies between characters. -/
structure Source.Ahead (source : Source Nat) (size l m : Nat) : Prop where
  reaches : source.Reaches l m
  le : l ≤ m
  le_size : m ≤ size
  between : ∀ text, source = .ofText text → String.Pos.Raw.IsValid text ⟨m⟩

/-- The furthest reports are those at a place of the input, and no terminal was found there exactly
if it is the end. -/
def FurthestReports.Placed (source : Source Nat) (size : Nat)
    (sink : FurthestReports Nat Terminal) : Prop :=
  ∃ f, sink.location? = some f ∧ source.Ahead size source.start f ∧ (sink.found = none ↔ f = size)

section

variable {source : Source Nat} {size l : Nat} (addressed : source.Addressed size)
  (reached : source.Reaches source.start l)
include addressed reached

theorem Source.Addressed.ahead {m : Nat} (h : source.Reaches l m) : source.Ahead size l m := by
  have hstart := reached.trans h
  obtain ⟨-, -, hle, -⟩ := addressed.spells hstart
  refine ⟨h, addressed.le_of_reaches h, hle, ?_⟩
  rintro text rfl
  exact Source.isValid_of_reaches hstart

/-- The reports of a trail tell of places ahead of its start. -/
theorem Account.OnTrail.reports_ahead {α : Type} {quiet : Prop} {a : Account Nat α}
    (h : a.OnTrail source quiet l) :
    ∀ report ∈ a.reports, source.Ahead size l report.error.location ∧
      (report.found = none ↔ report.error.location = size) := by
  intro report hreport
  obtain ⟨hreaches, hfound⟩ := h.report_reaches report hreport
  refine ⟨addressed.ahead reached hreaches, ?_⟩
  rw [hfound]
  exact addressed.found_eq_none_iff (reached.trans hreaches)

end

/-- After a trail from the start with any reports, the furthest of them are at a place of the
input. -/
theorem Account.OnTrail.furthest_placed {α : Type} {source : Source Nat} {size : Nat} {quiet : Prop}
    {a : Account Nat α} (addressed : source.Addressed size)
    (h : a.OnTrail source quiet source.start) (some_report : a.reports ≠ []) :
    (Sink.reportAll FurthestReports.empty a.reports).Placed source size := by
  obtain ⟨f, hf⟩ := FurthestReports.location?_reportAll_isSome .empty some_report
  have start : source.Reaches source.start source.start := .refl _ _
  rcases FurthestReports.reported_at_location? hf with hempty | ⟨report, hreport, rfl⟩
  · cases hempty
  · have finds : (Sink.reportAll FurthestReports.empty a.reports).Finds source.found :=
      .reportAll nofun fun report hreport => (h.report_reaches report hreport).2
    obtain ⟨ahead, -⟩ := h.reports_ahead addressed start report hreport
    refine ⟨_, hf, ahead, ?_⟩
    rw [finds _ hf]
    exact addressed.found_eq_none_iff ahead.reaches

namespace Rule

/-- **Errors are raised at places ahead**, on sequences and texts that end at `size`.

* Where an attempt from a place of the input comes to an end, the errors that it reported, and the
  one that it failed with, are at places ahead of it, and a report tells no terminal exactly at the
  end of the input.
* If anything is reported while a whole input is parsed, whether the parse succeeds or not, the
  sink of the furthest reports tells a place of the input, and no terminal found exactly at its
  end. A rejection hands back that sink. -/
theorem attempt_errors_ahead {scope : Scope Nat} {size : Nat}
    (addressed : scope.source.Addressed size) (fuel : Nat) (rule : Rule) :
    (∀ {S : Type} [Sink S Nat Terminal] (cursor : Cursor Nat S),
      scope.source.Reaches scope.source.start cursor.location →
        rule.attempt scope fuel cursor = .unfinished ∨
          ∃ a : Account Nat Value, rule.attempt scope fuel cursor = a.replyTo cursor ∧
            (∀ error, a.outcome = .error error →
              scope.source.Ahead size cursor.location error.location) ∧
            ∀ report ∈ a.reports,
              scope.source.Ahead size cursor.location report.error.location ∧
                (report.found = none ↔ report.error.location = size)) ∧
    let start : Cursor Nat (FurthestReports Nat Terminal) := .atStart scope.source .empty
    rule.thenEnd scope fuel start = .unfinished ∨
      ∃ a : Account Nat Value, rule.thenEnd scope fuel start = a.replyTo start ∧
        (a.reports ≠ [] → (Sink.reportAll start.sink a.reports).Placed scope.source size) ∧
        ∀ failure trace, rule.parseAll scope fuel start.sink = .rejected failure trace →
          failure.sink = Sink.reportAll start.sink a.reports := by
  constructor
  · intro S _ cursor reached
    have follows := rule.attempt_follows (S := S) scope True fuel (.of_forall fun _ => .inl trivial)
    rcases follows cursor with h | ⟨a, h, trail⟩
    · exact .inl h
    refine .inr ⟨a, h, ?_, trail.reports_ahead addressed reached⟩
    intro error herror
    exact addressed.ahead reached (trail.error_reaches (a.error?_eq_some.2 herror))
  · intro start
    have follows : (rule.thenEnd scope fuel :
        Parser Nat (FurthestReports Nat Terminal) Value).Follows scope.source True :=
      (related_follows scope True).thenEnd rfl fuel (.of_forall fun _ => .inl trivial)
        (.of_forall fun _ => .inl trivial)
    rcases follows start with h | ⟨⟨outcome, m, es⟩, h, trail⟩
    · exact .inl h
    refine .inr ⟨_, h, trail.furthest_placed addressed, ?_⟩
    intro failure trace hreject
    cases outcome with
    | ok value => cases (parseAll_of_ok h).symm.trans hreject
    | error error =>
      cases (parseAll_of_fail h).symm.trans hreject
      rfl

/-- In `a,é` a letter is expected behind the comma, where no letter but a terminal is found. -/
theorem attempt_errors_ahead_letters :
    let scope : Scope Nat :=
      { source := .ofText "a,é", naming := .offsets .character true, definitions := fun _ => none }
    let start : Cursor Nat (FurthestReports Nat Terminal) := .atStart scope.source .empty
    ∃ failure trace, Grammar.letters.parseAll scope 3 start.sink = .rejected failure trace ∧
      failure.sink.location? = some 2 ∧ failure.sink.found = some 233 ∧
      failure.sink.Placed scope.source 4 := by
  intro scope start
  have addressed : scope.source.Addressed 4 := .text "a,é"
  obtain ⟨failure, trace, hreject, hlocation, hfound⟩ :
      ∃ failure trace, Grammar.letters.parseAll scope 3 start.sink = .rejected failure trace ∧
        failure.sink.location? = some 2 ∧ failure.sink.found = some 233 := ⟨_, _, rfl, rfl, rfl⟩
  rcases (attempt_errors_ahead addressed 3 Grammar.letters).2 with h | ⟨a, -, placed, hsink⟩
  · cases h
  · have hfailure := hsink failure trace hreject
    have some_report : a.reports ≠ [] := by
      intro hnone
      rw [hfailure, hnone] at hlocation
      cases hlocation
    exact ⟨failure, trace, hreject, hlocation, hfound, hfailure ▸ placed some_report⟩

end Rule

end Backtrack
