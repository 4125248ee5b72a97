import Backtrack.Proofs.Furthest
import Backtrack.Terminal
import Mathlib.Data.List.Induction
import Mathlib.Data.List.Nodup

/-!
# The furthest reports summarise a series of reports

The sink of the furthest reports is told what it keeps report by report. Of a whole series it keeps
what can be said without the order of its steps (`FurthestReports.Summarises`): the greatest
location, the distinct errors reported there in the order in which each came first, and the terminal
of the first report there. One report takes such a summary to that of the longer series, so that a
series from the empty sink is summarised.

The names of these errors are another matter. Errors are kept apart by their kind as well, so a name
that is both that of an expected rule and that of a type that was too small is listed twice
(`FurthestReports.expected_nodup_iff`).
-/

namespace Backtrack

/-! ## First occurrences in a list -/

section

variable {α β : Type} [DecidableEq α] [DecidableEq β]

theorem eraseDups_concat (as : List α) (a : α) :
    (as ++ [a]).eraseDups = if a ∈ as then as.eraseDups else as.eraseDups ++ [a] := by
  rw [List.eraseDups_append]
  by_cases h : a ∈ as <;> simp [List.removeAll, h, List.eraseDups_cons]

theorem nodup_eraseDups (as : List α) : as.eraseDups.Nodup := by
  induction as using List.reverseRecOn with
  | nil => simp
  | append_singleton as a ih =>
    rw [eraseDups_concat]
    split
    · exact ih
    · next h =>
      rw [← List.concat_eq_append]
      exact ih.concat (mt List.mem_eraseDups.1 h)

theorem eraseDups_of_nodup {as : List α} (h : as.Nodup) : as.eraseDups = as := by
  induction as using List.reverseRecOn with
  | nil => simp
  | append_singleton as a ih =>
    obtain ⟨has, -, hdisjoint⟩ := List.nodup_append.1 h
    have hmem : a ∉ as := fun hmem => hdisjoint a hmem a (by simp) rfl
    rw [eraseDups_concat, if_neg hmem, ih has]

/-- Repetitions that are dropped before a function is applied would be dropped after it. -/
theorem eraseDups_map_eraseDups (f : α → β) (as : List α) :
    (as.eraseDups.map f).eraseDups = (as.map f).eraseDups := by
  induction as using List.reverseRecOn with
  | nil => simp
  | append_singleton as a ih =>
    rw [eraseDups_concat, List.map_append, List.map_singleton, eraseDups_concat]
    by_cases h : a ∈ as
    · rw [if_pos h, if_pos (List.mem_map_of_mem h), ih]
    · have hmem : f a ∈ as.eraseDups.map f ↔ f a ∈ as.map f := by simp
      rw [if_neg h, List.map_append, List.map_singleton, eraseDups_concat, ih]
      exact if_congr hmem rfl rfl

end

/-! ## The reports at one location -/

/-- Errors of one location that name the same are equal, or one is of a rule and the other of a
type. -/
theorem Error.eq_or_clash {L : Type} {a b : Error L} (hlocation : a.location = b.location)
    (hsubject : a.subject = b.subject) :
    a = b ∨ ∃ name, (a = .expected name a.location ∧ b = .overflow name a.location) ∨
      (b = .expected name a.location ∧ a = .overflow name a.location) := by
  cases a <;> cases b <;> simp_all [Error.location, Error.subject]

section

variable {L T : Type} [DecidableEq L] {l : L} {reports : List (Report L T)} {new : Report L T}

/-- The reports that are located there, oldest first. -/
def reportsAt (l : L) (reports : List (Report L T)) : List (Report L T) :=
  reports.filter (·.error.location = l)

/-- The distinct errors that are located there, in the order in which each was first reported. -/
def errorsAt (l : L) (reports : List (Report L T)) : List (Error L) :=
  ((reportsAt l reports).map (·.error)).eraseDups

theorem mem_reportsAt {report : Report L T} :
    report ∈ reportsAt l reports ↔ report ∈ reports ∧ report.error.location = l := by
  simp [reportsAt]

theorem mem_errorsAt {error : Error L} :
    error ∈ errorsAt l reports ↔ error.location = l ∧ ∃ report ∈ reports, report.error = error := by
  simp only [errorsAt, List.mem_eraseDups, List.mem_map, mem_reportsAt]
  constructor
  · rintro ⟨report, ⟨hreport, hl⟩, rfl⟩
    exact ⟨hl, report, hreport, rfl⟩
  · rintro ⟨hl, report, hreport, rfl⟩
    exact ⟨report, ⟨hreport, hl⟩, rfl⟩

theorem reportsAt_concat_here (h : new.error.location = l) :
    reportsAt l (reports ++ [new]) = reportsAt l reports ++ [new] := by
  simp [reportsAt, h]

theorem reportsAt_concat_elsewhere (h : new.error.location ≠ l) :
    reportsAt l (reports ++ [new]) = reportsAt l reports := by
  simp [reportsAt, h]

theorem errorsAt_concat_here (h : new.error.location = l) :
    errorsAt l (reports ++ [new])
      = if new.error ∈ errorsAt l reports then errorsAt l reports
        else errorsAt l reports ++ [new.error] := by
  rw [errorsAt, reportsAt_concat_here h, List.map_append, List.map_singleton, eraseDups_concat]
  exact if_congr List.mem_eraseDups.symm rfl rfl

theorem errorsAt_concat_elsewhere (h : new.error.location ≠ l) :
    errorsAt l (reports ++ [new]) = errorsAt l reports := by
  rw [errorsAt, reportsAt_concat_elsewhere h, errorsAt]

end

/-! ## Summaries -/

namespace FurthestReports

variable {L T : Type} [LinearOrder L] {sink : FurthestReports L T} {reports : List (Report L T)}

/-- What the sink keeps is told by the reports, whatever the order of locations in which they
came. -/
inductive Summarises : FurthestReports L T → List (Report L T) → Prop where
  | empty : Summarises empty []
  | reached {l : L} {reports : List (Report L T)} {first : Report L T}
      (greatest : ∀ report ∈ reports, report.error.location ≤ l)
      (there : (reportsAt l reports).head? = some first) :
      Summarises (reached l (errorsAt l reports) first.found) reports

namespace Summarises

/-- A report that is the first of its location, and further along than all before it. -/
theorem new_location {new : Report L T}
    (further : ∀ report ∈ reports, report.error.location < new.error.location) :
    (FurthestReports.reached new.error.location [new.error] new.found).Summarises
      (reports ++ [new]) := by
  have nothing : reportsAt new.error.location reports = [] := by
    refine List.filter_eq_nil_iff.2 fun report hreport => ?_
    simpa using ne_of_lt (further report hreport)
  have there : reportsAt new.error.location (reports ++ [new]) = [new] := by
    rw [reportsAt_concat_here rfl, nothing, List.nil_append]
  have errors : errorsAt new.error.location (reports ++ [new]) = [new.error] := by
    rw [errorsAt, there, List.map_singleton, List.eraseDups_cons]
    rfl
  rw [← errors]
  refine .reached ?_ (by rw [there, List.head?_cons])
  simpa [or_imp, forall_and] using fun report hreport => le_of_lt (further report hreport)

/-- **One more report** leads to the summary of one more report. -/
theorem report (h : sink.Summarises reports) (new : Report L T) :
    (sink.report new).Summarises (reports ++ [new]) := by
  cases h with
  | empty => exact new_location (by simp)
  | @reached l _ first greatest there =>
    -- before the furthest location, at it, or further along: nothing, one error, or all changes
    rcases lt_trichotomy new.error.location l with hlt | heq | hgt
    · rw [report_earlier hlt, ← errorsAt_concat_elsewhere (ne_of_lt hlt)]
      refine .reached ?_ (by rw [reportsAt_concat_elsewhere (ne_of_lt hlt), there])
      simpa [or_imp, forall_and] using ⟨greatest, le_of_lt hlt⟩
    · rw [report_here heq, ← errorsAt_concat_here heq]
      refine .reached ?_ (by simp [reportsAt_concat_here heq, there])
      simpa [or_imp, forall_and] using ⟨greatest, le_of_eq heq⟩
    · rw [report_further hgt]
      exact new_location fun report hreport => lt_of_le_of_lt (greatest report hreport) hgt

/-- **A series of reports** is summarised together with those before it. -/
theorem reportAll (h : sink.Summarises reports) (more : List (Report L T)) :
    (Sink.reportAll sink more).Summarises (reports ++ more) := by
  induction more generalizing sink reports with
  | nil => simpa using h
  | cons new more ih =>
    rw [List.append_cons]
    exact ih (h.report new)

/-- The location is the greatest of all. -/
theorem location?_eq_some (h : sink.Summarises reports) {l : L} :
    sink.location? = some l ↔
      (∃ report ∈ reports, report.error.location = l) ∧
        ∀ report ∈ reports, report.error.location ≤ l := by
  cases h with
  | empty => simp [location?]
  | @reached m _ first greatest there =>
    obtain ⟨hfirst, hm⟩ := mem_reportsAt.1 (List.mem_of_head? there)
    show some m = some l ↔ _
    constructor
    · rintro ⟨⟩
      exact ⟨⟨first, hfirst, hm⟩, greatest⟩
    · rintro ⟨⟨report, hreport, rfl⟩, hl⟩
      exact congrArg some (le_antisymm (hm ▸ hl first hfirst) (greatest report hreport))

/-- With no report made there is nothing to keep. -/
theorem eq_empty (h : sink.Summarises []) : sink = FurthestReports.empty := by
  cases h with
  | empty => rfl
  | reached _ there => cases there

theorem location?_eq_none (h : sink.Summarises reports) :
    sink.location? = none ↔ reports = [] := by
  constructor
  · intro hl
    cases h with
    | empty => rfl
    | reached => cases hl
  · rintro rfl
    rw [h.eq_empty]
    rfl

/-- The errors are those that were reported there, each once and in the order of its first
report. -/
theorem errors_eq (h : sink.Summarises reports) {l : L} (hl : sink.location? = some l) :
    sink.errors = errorsAt l reports := by
  cases h with
  | empty => cases hl
  | reached =>
    cases hl
    rfl

/-- The terminal is that of the first report there. -/
theorem found_eq (h : sink.Summarises reports) {l : L} (hl : sink.location? = some l) :
    ∃ first, (reportsAt l reports).head? = some first ∧ sink.found = first.found := by
  cases h with
  | empty => cases hl
  | @reached _ _ first _ there =>
    cases hl
    exact ⟨first, there, rfl⟩

/-- An error is kept exactly where it was reported as far along as any. -/
theorem mem_errors (h : sink.Summarises reports) {error : Error L} :
    error ∈ sink.errors ↔
      sink.location? = some error.location ∧ ∃ report ∈ reports, report.error = error := by
  cases hl : sink.location? with
  | none =>
    cases sink with
    | empty => simp [errors]
    | reached => cases hl
  | some l =>
    rw [h.errors_eq hl, mem_errorsAt, Option.some.injEq]
    exact and_congr_left' eq_comm

/-! ### The order of the reports -/

section

variable {other : FurthestReports L T} {shuffled : List (Report L T)}

theorem location?_of_perm (h : sink.Summarises reports) (h' : other.Summarises shuffled)
    (perm : reports.Perm shuffled) : other.location? = sink.location? := by
  refine Option.ext fun l => ?_
  rw [h'.location?_eq_some, h.location?_eq_some]
  simp only [perm.mem_iff]

theorem mem_errors_of_perm (h : sink.Summarises reports) (h' : other.Summarises shuffled)
    (perm : reports.Perm shuffled) {error : Error L} :
    error ∈ other.errors ↔ error ∈ sink.errors := by
  rw [h'.mem_errors, h.mem_errors, h.location?_of_perm h' perm]
  simp only [perm.mem_iff]

/-- Which report comes first at the furthest location may change, and what it has found does not. -/
theorem found_of_perm (h : sink.Summarises reports) (h' : other.Summarises shuffled)
    (perm : reports.Perm shuffled)
    (same : ∀ r ∈ reports, ∀ r' ∈ reports, r.error.location = r'.error.location →
      r.found = r'.found) : other.found = sink.found := by
  cases hl : sink.location? with
  | none =>
    obtain rfl : reports = [] := h.location?_eq_none.1 hl
    obtain rfl : shuffled = [] := List.nil_perm.1 perm
    rw [h.eq_empty, h'.eq_empty]
  | some l =>
    obtain ⟨first, there, hfound⟩ := h.found_eq hl
    obtain ⟨first', there', hfound'⟩ := h'.found_eq ((h.location?_of_perm h' perm).trans hl)
    obtain ⟨hfirst, hat⟩ := mem_reportsAt.1 (List.mem_of_head? there)
    obtain ⟨hfirst', hat'⟩ := mem_reportsAt.1 (List.mem_of_head? there')
    rw [hfound, hfound']
    exact same first' (perm.mem_iff.2 hfirst') first hfirst (hat'.trans hat.symm)

end

end Summarises

/-- **The furthest reports of a series** that begins with no report made: a summary of it. -/
theorem summarises (reports : List (Report L T)) :
    (Sink.reportAll empty reports : FurthestReports L T).Summarises reports :=
  Summarises.empty.reportAll reports

/-- **A series of reports is summarised**, whatever the locations, and whatever was found where.

* With no report there is no location. Otherwise it is the greatest of those of the errors.
* The errors are the distinct ones that are located there, each once, in the order in which each
  was first reported.
* What was found is what the first report there has found.

So the order of the reports matters neither to the location nor to the set of errors. Where reports
of one location have found the same, it does not matter to what was found. -/
theorem reportAll_summary (reports : List (Report L T)) :
    let sink : FurthestReports L T := Sink.reportAll empty reports
    (sink.location? = none ↔ reports = []) ∧
    (∀ l, sink.location? = some l ↔
      (∃ report ∈ reports, report.error.location = l) ∧
        ∀ report ∈ reports, report.error.location ≤ l) ∧
    (∀ l, sink.location? = some l →
      sink.errors = ((reports.filter (·.error.location = l)).map (·.error)).eraseDups ∧
      sink.errors.Nodup ∧
      ∃ first, (reports.filter (·.error.location = l)).head? = some first ∧
        sink.found = first.found) ∧
    ∀ shuffled : List (Report L T), reports.Perm shuffled →
      let other : FurthestReports L T := Sink.reportAll empty shuffled
      other.location? = sink.location? ∧
      (∀ error, error ∈ other.errors ↔ error ∈ sink.errors) ∧
      ((∀ r ∈ reports, ∀ r' ∈ reports, r.error.location = r'.error.location → r.found = r'.found) →
        other.found = sink.found) := by
  intro sink
  have summary : sink.Summarises reports := summarises reports
  refine ⟨summary.location?_eq_none, fun l => summary.location?_eq_some, ?_, ?_⟩
  · intro l hl
    have herrors := summary.errors_eq hl
    exact ⟨herrors, herrors ▸ nodup_eraseDups _, summary.found_eq hl⟩
  · intro shuffled perm other
    have summary' : other.Summarises shuffled := summarises shuffled
    exact ⟨summary.location?_of_perm summary' perm,
      fun error => summary.mem_errors_of_perm summary' perm,
      summary.found_of_perm summary' perm⟩

/-- A tie adds to the errors, a repetition does not, and an earlier report is ignored. -/
example :
    (Sink.reportAll empty [⟨.expected "a" 1, some 120⟩, ⟨.expected "b" 3, some 121⟩,
      ⟨.expected "c" 3, some 122⟩, ⟨.expected "b" 3, none⟩, ⟨.expected "d" 2, none⟩] :
        FurthestReports Int Terminal)
      = reached 3 [.expected "b" 3, .expected "c" 3] (some 121) := by
  decide

/-! ## The names of what was expected -/

/-- Names tell the errors of one location apart, unless a name is that of a rule and of a type. -/
theorem subject_injOn_errorsAt {l : L} :
    (∀ a ∈ errorsAt l reports, ∀ b ∈ errorsAt l reports, a.subject = b.subject → a = b) ↔
      ¬ ∃ name, .expected name l ∈ errorsAt l reports ∧ .overflow name l ∈ errorsAt l reports := by
  constructor
  · rintro distinct ⟨name, hrule, htype⟩
    cases distinct _ hrule _ htype rfl
  · intro apart a ha b hb hsubject
    have hla : a.location = l := (mem_errorsAt.1 ha).1
    have hlb : b.location = l := (mem_errorsAt.1 hb).1
    rcases Error.eq_or_clash (hla.trans hlb.symm) hsubject with same | ⟨name, clash⟩
    · exact same
    · rw [hla] at clash
      rcases clash with ⟨rfl, rfl⟩ | ⟨rfl, rfl⟩
      · exact absurd ⟨name, ha, hb⟩ apart
      · exact absurd ⟨name, hb, ha⟩ apart

/-- **The names of what was expected** at the furthest location are those of the distinct errors
there, in order. Dropping what is repeated among them leaves the distinct names that were reported
there, in the order in which each came first; and nothing is repeated, so that they are these names,
exactly where no name is both that of an expected rule and that of a type that was too small. -/
theorem expected_nodup_iff (reports : List (Report L T)) :
    let sink : FurthestReports L T := Sink.reportAll empty reports
    (reports = [] → sink.expected = []) ∧
    ∀ l, sink.location? = some l →
      let here := reports.filter (·.error.location = l)
      let clash := ∃ name, (∃ report ∈ reports, report.error = .expected name l) ∧
        ∃ report ∈ reports, report.error = .overflow name l
      sink.expected = (here.map (·.error)).eraseDups.map Error.subject ∧
      sink.expected.eraseDups = (here.map (·.error.subject)).eraseDups ∧
      (sink.expected.Nodup ↔ ¬ clash) ∧
      (sink.expected = (here.map (·.error.subject)).eraseDups ↔ ¬ clash) := by
  intro sink
  refine ⟨?_, ?_⟩
  · rintro rfl
    rfl
  intro l hl here clash
  have herrors : sink.errors = (here.map (·.error)).eraseDups := (summarises reports).errors_eq hl
  have hexpected : sink.expected = (here.map (·.error)).eraseDups.map Error.subject := by
    rw [expected, herrors]
  have hnames : sink.expected.eraseDups = (here.map (·.error.subject)).eraseDups := by
    rw [hexpected, eraseDups_map_eraseDups, List.map_map]
    rfl
  -- the errors are distinct, so that only two of different kinds can share a name
  have hnodup : sink.expected.Nodup ↔ ¬ clash := by
    rw [hexpected, List.nodup_map_iff_inj_on (nodup_eraseDups _)]
    refine subject_injOn_errorsAt.trans (not_congr ?_)
    simp only [mem_errorsAt, Error.location, true_and]
    rfl
  refine ⟨hexpected, hnames, hnodup, ?_⟩
  rw [← hnodup, ← hnames]
  constructor
  · intro h
    rw [h]
    exact nodup_eraseDups _
  · exact fun h => (eraseDups_of_nodup h).symm

/-- A rule that is called `u8` may be expected where a number is too large for the type `u8`. Then
the name is listed twice. -/
theorem expected_repeats_name :
    let reports : List (Report Int Terminal) :=
      [⟨.expected "u8" 0, none⟩, ⟨.overflow "u8" 0, none⟩]
    let sink : FurthestReports Int Terminal := Sink.reportAll empty reports
    sink.expected = ["u8", "u8"] ∧ ¬ sink.expected.Nodup ∧
      (reports.map (·.error.subject)).eraseDups = ["u8"] := by
  decide

end FurthestReports

end Backtrack
