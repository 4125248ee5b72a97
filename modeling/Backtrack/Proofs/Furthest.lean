import Backtrack.Sink.Furthest
import Mathlib.Order.MinMax

/-!
# The furthest location of a series of reports

Of two reports that are not equally far along, the sink of the furthest reports keeps the further
one (`FurthestReports.location?_report`). After a series of reports its location is therefore as far
along as that of any of them.
-/

namespace Backtrack.FurthestReports

variable {L T : Type} [LinearOrder L]

/-! ## One report, by where it is made -/

section

variable {l : L} {errors : List (Error L)} {found : Option T} {new : Report L T}

theorem report_earlier (h : new.error.location < l) :
    (reached l errors found).report new = reached l errors found := by
  simp [report, h]

/-- A tie only adds the error, unless it is kept already. -/
theorem report_here (h : new.error.location = l) :
    (reached l errors found).report new
      = reached l (if new.error ∈ errors then errors else errors ++ [new.error]) found := by
  simp only [report, h, lt_irrefl, if_false, if_true]
  split <;> rfl

/-- After a tie the error is kept besides those before. -/
theorem report_tie (h : new.error.location = l) :
    ∃ kept, (reached l errors found).report new = reached l kept found ∧
      ∀ error, error ∈ kept ↔ error ∈ errors ∨ error = new.error := by
  refine ⟨_, report_here h, ?_⟩
  intro error
  split
  · next hmem =>
    constructor
    · exact .inl
    · rintro (herror | rfl)
      · exact herror
      · exact hmem
  · simp

theorem report_further (h : l < new.error.location) :
    (reached l errors found).report new = reached new.error.location [new.error] new.found := by
  simp [report, not_lt_of_gt h, ne_of_gt h]

end

/-- **One report** takes the furthest location to its own where that is further. -/
theorem location?_report (sink : FurthestReports L T) (new : Report L T) :
    (sink.report new).location?
      = some (sink.location?.elim new.error.location (max · new.error.location)) := by
  cases sink with
  | empty => rfl
  | reached l errors found =>
    show _ = some (max l new.error.location)
    rcases lt_trichotomy new.error.location l with h | h | h
    · rw [report_earlier h, max_eq_left (le_of_lt h)]
      rfl
    · obtain ⟨kept, hreport, -⟩ := report_tie h
      rw [hreport, h, max_self]
      rfl
    · rw [report_further h, max_eq_right (le_of_lt h)]
      rfl

/-! ## A series of reports -/

/-- No report of a series is further along than the location that the series leads to. -/
theorem le_of_reportAll {sink : FurthestReports L T} {reports : List (Report L T)} {f : L}
    (h : (Sink.reportAll sink reports).location? = some f) :
    (∀ l, sink.location? = some l → l ≤ f) ∧
      ∀ report ∈ reports, report.error.location ≤ f := by
  induction reports generalizing sink with
  | nil =>
    refine ⟨?_, by simp⟩
    intro l hl
    obtain rfl : l = f := Option.some.inj (hl.symm.trans h)
    exact le_refl l
  | cons new reports ih =>
    obtain ⟨hfirst, hrest⟩ := ih h
    have hnew := hfirst _ (sink.location?_report new)
    cases hl : sink.location? with
    | none =>
      simp only [hl, Option.elim_none] at hnew
      exact ⟨nofun, by simpa using ⟨hnew, hrest⟩⟩
    | some l =>
      simp only [hl, Option.elim_some, max_le_iff] at hnew
      exact ⟨by simpa using hnew.1, by simpa using ⟨hnew.2, hrest⟩⟩

/-- After any report there is a furthest location. -/
theorem location?_reportAll_isSome (sink : FurthestReports L T) {reports : List (Report L T)}
    (h : reports ≠ []) : ∃ l, (Sink.reportAll sink reports).location? = some l := by
  have grows (sink : FurthestReports L T) (reports : List (Report L T)) {l : L}
      (hl : sink.location? = some l) : ∃ m, (Sink.reportAll sink reports).location? = some m := by
    induction reports generalizing sink l with
    | nil => exact ⟨l, hl⟩
    | cons new reports ih => exact ih _ (sink.location?_report new)
  cases reports with
  | nil => exact absurd rfl h
  | cons new reports => exact grows _ reports (sink.location?_report new)

/-- The furthest location is that of a report. -/
theorem reported_at_location? {sink : FurthestReports L T} {reports : List (Report L T)} {f : L}
    (h : (Sink.reportAll sink reports).location? = some f) :
    sink.location? = some f ∨ ∃ report ∈ reports, report.error.location = f := by
  induction reports generalizing sink with
  | nil => exact .inl h
  | cons new reports ih =>
    rcases ih h with hf | ⟨report, hreport, hf⟩
    · have hnew := (sink.location?_report new).symm.trans hf
      cases hl : sink.location? with
      | none =>
        simp only [hl, Option.elim_none, Option.some.injEq] at hnew
        exact .inr ⟨new, by simp, hnew⟩
      | some l =>
        simp only [hl, Option.elim_some, Option.some.injEq] at hnew
        rcases max_choice l new.error.location with hmax | hmax
        · exact .inl (congrArg some (hmax.symm.trans hnew))
        · exact .inr ⟨new, by simp, hmax.symm.trans hnew⟩
    · exact .inr ⟨report, by simp [hreport], hf⟩

/-- What is reported at the furthest location is kept among the errors. -/
theorem mem_errors_report {sink : FurthestReports L T} {new : Report L T}
    (h : (sink.report new).location? = some new.error.location) :
    new.error ∈ (sink.report new).errors := by
  cases sink with
  | empty => exact List.mem_singleton.2 rfl
  | reached l errors found =>
    rcases lt_trichotomy new.error.location l with hlt | heq | hgt
    · rw [report_earlier hlt] at h
      exact absurd (Option.some.inj h) (ne_of_gt hlt)
    · obtain ⟨kept, hreport, hkept⟩ := report_tie heq
      rw [hreport]
      exact (hkept new.error).2 (.inr rfl)
    · rw [report_further hgt]
      exact List.mem_singleton.2 rfl

/-! ## What is found there -/

/-- The terminal kept is the one at the location kept, which `find` tells. -/
def Finds (find : L → Option T) (sink : FurthestReports L T) : Prop :=
  ∀ l, sink.location? = some l → sink.found = find l

variable {find : L → Option T} {sink : FurthestReports L T}

/-- The terminal is replaced together with the location, and both stay on a tie. -/
theorem Finds.report (h : sink.Finds find) {new : Report L T}
    (hnew : new.found = find new.error.location) : (sink.report new).Finds find := by
  cases sink with
  | empty =>
    rintro l ⟨⟩
    exact hnew
  | reached l errors found =>
    rcases lt_trichotomy new.error.location l with hlt | heq | hgt
    · rw [report_earlier hlt]
      exact h
    · obtain ⟨kept, hreport, -⟩ := report_tie heq
      rw [hreport]
      exact h
    · rw [report_further hgt]
      rintro m ⟨⟩
      exact hnew

theorem Finds.reportAll (h : sink.Finds find) {reports : List (Report L T)}
    (hreports : ∀ report ∈ reports, report.found = find report.error.location) :
    (Sink.reportAll sink reports).Finds find := by
  induction reports generalizing sink with
  | nil => exact h
  | cons new reports ih =>
    obtain ⟨hnew, hrest⟩ := List.forall_mem_cons.1 hreports
    exact ih (h.report hnew) hrest

end Backtrack.FurthestReports
