import Backtrack.Proofs.Trail

/-!
# Overflows end a parse

Optional, repeated and alternative rules take a recoverable error for an absence, and go on. An
overflow is not recoverable: the first one that is reported ends everything around it, so that it is
the last report and the error of the whole attempt. A truncated numeral is never accepted.
-/

namespace Backtrack

variable {L S : Type}

/-- Among the reports of a run that ended with the error, an overflow is only found last, and is the
error. -/
def OverflowLast (error? : Option (Error L)) (reports : List (Report L Terminal)) : Prop :=
  match error? with
  | some (.overflow type l) =>
    ∃ earlier found, reports = earlier ++ [⟨.overflow type l, found⟩] ∧
      ∀ report ∈ earlier, report.error.recoverable
  | _ => ∀ report ∈ reports, report.error.recoverable

namespace OverflowLast

variable {error? : Option (Error L)} {reports earlier : List (Report L Terminal)}

theorem single (error : Error L) (found : Option Terminal) :
    OverflowLast (some error) [⟨error, found⟩] := by
  cases error with
  | expected rule l => simp [OverflowLast, Error.recoverable]
  | overflow type l => exact ⟨[], found, by simp⟩

/-- Nothing but recoverable reports may come before. -/
theorem append (hearlier : OverflowLast none earlier) (h : OverflowLast error? reports) :
    OverflowLast error? (earlier ++ reports) := by
  have hall (rest : List (Report L Terminal)) (hrest : ∀ report ∈ rest, report.error.recoverable) :
      ∀ report ∈ earlier ++ rest, report.error.recoverable := by
    intro report hreport
    rcases List.mem_append.1 hreport with hreport | hreport
    · exact hearlier report hreport
    · exact hrest report hreport
  match error? with
  | none => exact hall reports h
  | some (.expected rule l) => exact hall reports h
  | some (.overflow type l) =>
    obtain ⟨middle, found, rfl, hmiddle⟩ := h
    exact ⟨earlier ++ middle, found, (List.append_assoc ..).symm, hall middle hmiddle⟩

/-- A recoverable error leaves no overflow behind. -/
theorem absorb {error : Error L} (h : OverflowLast (some error) reports)
    (recoverable : error.recoverable) : OverflowLast none reports := by
  cases error with
  | expected rule l => exact h
  | overflow type l => simp [Error.recoverable] at recoverable

theorem recoverable (h : OverflowLast error? reports)
    (herror : ∀ error, error? = some error → error.recoverable) :
    ∀ report ∈ reports, report.error.recoverable := by
  match error? with
  | none => exact h
  | some (.expected rule l) => exact h
  | some (.overflow type l) => simpa [Error.recoverable] using herror _ rfl

theorem last (h : OverflowLast error? reports) {report : Report L Terminal}
    (hreport : report ∈ reports) (hard : ¬ report.error.recoverable) :
    error? = some report.error ∧
      ∃ earlier, reports = earlier ++ [report] ∧
        ∀ before ∈ earlier, before.error.recoverable := by
  match error? with
  | none => exact absurd (h report hreport) hard
  | some (.expected rule l) => exact absurd (h report hreport) hard
  | some (.overflow type l) =>
    obtain ⟨earlier, found, rfl, hearlier⟩ := h
    rcases List.mem_append.1 hreport with hmem | hmem
    · exact absurd (hearlier report hmem) hard
    · obtain rfl := List.mem_singleton.1 hmem
      exact ⟨rfl, earlier, rfl, hearlier⟩

end OverflowLast

theorem Source.Trail.overflowLast {source : Source L} {quiet : Prop} {l m : L}
    {error? : Option (Error L)} {es : List (TraceEntry L)}
    (h : source.Trail quiet l error? m es) : OverflowLast error? (reportsOf es) := by
  induction h with
  | stay => simp [OverflowLast]
  | advance => simp [OverflowLast]
  | append _ _ first rest =>
    rw [reportsOf_append]
    exact first.append rest
  | raise error => exact .single error _
  | reject error => exact .single error _
  | rewind _ _ _ failed => simpa using failed
  | absorb _ recoverable failed => exact failed.absorb recoverable
  | silent => simp [OverflowLast]

variable [DecidableEq L] [Sink S L Terminal]

/-- **Overflows are never absorbed**: where an attempt comes to an end, whatever the rule, its sink
has received reports such that

* after a match or a recoverable error, none of them is an overflow;
* an overflow among them is the error of the attempt, the only overflow and the last report. -/
theorem Rule.attempt_overflow_last (scope : Scope L) (fuel : Nat) (rule : Rule)
    (cursor : Cursor L S) :
    rule.attempt scope fuel cursor = .unfinished ∨
      ∃ a : Account L Value, rule.attempt scope fuel cursor = a.replyTo cursor ∧
        ((∀ error, a.outcome = .error error → error.recoverable) →
          ∀ report ∈ a.reports, report.error.recoverable) ∧
        ∀ report ∈ a.reports, ¬ report.error.recoverable →
          a.outcome = .error report.error ∧
            ∃ earlier, a.reports = earlier ++ [report] ∧
              ∀ before ∈ earlier, before.error.recoverable := by
  have follows := rule.attempt_follows (S := S) scope True fuel (.of_forall fun _ => .inl trivial)
  rcases follows cursor with h | ⟨a, h, trail⟩
  · exact .inl h
  refine .inr ⟨a, h, ?_⟩
  have hlast : OverflowLast a.error? a.reports := trail.overflowLast
  refine ⟨?_, ?_⟩
  · intro recoverable
    apply hlast.recoverable
    intro error herror
    exact recoverable error (a.error?_eq_some.1 herror)
  · intro report hreport hard
    obtain ⟨herror, hearlier⟩ := hlast.last hreport hard
    exact ⟨a.error?_eq_some.1 herror, hearlier⟩

end Backtrack
