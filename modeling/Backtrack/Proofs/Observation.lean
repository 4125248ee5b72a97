import Backtrack.Proofs.Furthest
import Backtrack.Proofs.Parallel

/-!
# Sinks only observe

Attempts, parses of whole inputs and sessions are runs that start with a sink and mostly hand it
back (`Run`). Since what they do does not depend on the sink, they are observed alike by all sinks,
owned or lent and whatever they hold already (`Run.Observed`). Each sink ends as if the reports that
a log has kept had been made to it one by one, so that every sink is a summary of the log
(`Sink.runs_observed`).
-/

namespace Backtrack

variable {L S R α : Type}

/-! ## Runs -/

/-- What a run comes to from the sink it starts with: nothing if it comes to no end, or else its
result, with the sink if that is handed back. -/
abbrev Run (L R : Type) : Type 1 :=
  ∀ (S : Type) [Sink S L Terminal], S → Option (R × Option S)

/-- What a finished parser leaves to be seen: its outcome, the location and the trace, and its
sink. -/
def Reply.seen : Reply L S α → Option ((Except (Error L) α × L × Array (TraceEntry L)) × Option S)
  | .ok value cursor => some ((.ok value, cursor.location, cursor.trace), some cursor.sink)
  | .fail error cursor => some ((.error error, cursor.location, cursor.trace), some cursor.sink)
  | .unfinished => none

theorem Account.seen_replyTo [Sink S L Terminal] (a : Account L α) (cursor : Cursor L S) :
    (a.replyTo cursor).seen
      = some ((a.outcome, a.location, cursor.trace ++ a.entries.toArray),
          some (Sink.reportAll cursor.sink a.reports)) := by
  obtain ⟨outcome, m, es⟩ := a
  cases outcome <;> rfl

/-- What the parse of a whole input leaves to be seen; with a success the sink is dropped. -/
def Verdict.seen : Verdict L S → Option ((Except (Error L) Value × Array (TraceEntry L)) × Option S)
  | .accepted value trace => some ((.ok value, trace), none)
  | .rejected failure trace => some ((.error failure.error, trace), some failure.sink)
  | .unfinished => none

/-- What a session leaves to be seen: the answers, the location, the trace and the list gathered,
and its sink. -/
def Session.seen (result : Option (List (Answer L) × Session L S)) :
    Option ((List (Answer L) × L × Array (TraceEntry L) × Array Value) × Option S) :=
  result.map fun (answers, session) =>
    ((answers, session.cursor.location, session.cursor.trace, session.gathered),
      some session.cursor.sink)

namespace Run

variable {source : Source L} {run : Run L R}

/-- The run comes to no end, or to a result and a series of reports of what the source has, which
are made to the sink whatever it is. -/
def Reporting (source : Source L) (run : Run L R) : Prop :=
  (∀ (S : Type) [Sink S L Terminal] (sink : S), run S sink = none) ∨
    ∃ (result : R) (reports? : Option (List (Report L Terminal))),
      (∀ reports ∈ reports?, ∀ report ∈ reports,
        report.found = source.found report.error.location) ∧
      ∀ (S : Type) [Sink S L Terminal] (sink : S),
        run S sink = some (result, reports?.map (Sink.reportAll sink))

/-- All sinks observe the run alike. -/
structure Observed [LinearOrder L] (source : Source L) (run : Run L R) : Prop where
  /-- Whether the run comes to an end, and its result, depend neither on the sink nor on what the
  sink holds already. -/
  result : ∀ (S T : Type) [Sink S L Terminal] [Sink T L Terminal] (sink : S) (sink' : T),
    (run S sink).map (·.1) = (run T sink').map (·.1)
  /-- A sink that is lent is to its owner what it would be if it were handed over. -/
  lent : ∀ (S : Type) [Sink S L Terminal] (sink : S),
    run (Lent S) ⟨sink⟩ = (run S sink).map fun (result, sink?) => (result, sink?.map Lent.mk)
  /-- From any state a sink ends as if the reports in the log had been made to it one by one. -/
  summary : ∀ (S : Type) [Sink S L Terminal] (sink : S),
    run S sink = (run _ ReportLog.empty).map fun (result, log?) =>
      (result, log?.map fun log => Sink.reportAll sink log.reports.toList)
  /-- The sink of the last report holds the last of the log, and their number. -/
  last : ∀ result log, run _ ReportLog.empty = some (result, some log) →
    run _ LastReport.empty = some (result, some { last := log.last?, count := log.reports.size })
  /-- The sink of the furthest reports holds the terminal of the source at its location. -/
  furthest : ∀ result log, run _ ReportLog.empty = some (result, some log) → log.reports ≠ #[] →
    ∃ sink l, run _ FurthestReports.empty = some (result, some sink) ∧
      sink.location? = some l ∧ sink.found = source.found l

/-- A run that makes the same reports to every sink is observed alike by all of them. -/
theorem Reporting.observed [LinearOrder L] (h : run.Reporting source) : run.Observed source := by
  rcases h with h | ⟨result, reports?, faithful, h⟩
  · constructor <;> simp [h]
  constructor
  case result =>
    intro S T _ _ sink sink'
    rw [h, h]
    rfl
  case lent =>
    intro S _ sink
    rw [h, h]
    cases reports? with
    | none => rfl
    | some reports => simp [Lent.reportAll]
  case summary =>
    intro S _ sink
    rw [h, h]
    cases reports? with
    | none => rfl
    | some reports => simp [ReportLog.reportAll, ReportLog.empty]
  case last =>
    intro result log hlog
    rw [h, Option.some.injEq, Prod.mk.injEq, Option.map_eq_some_iff] at hlog
    obtain ⟨rfl, reports, rfl, rfl⟩ := hlog
    rw [h]
    simp [LastReport.reportAll, LastReport.empty, ReportLog.reportAll, ReportLog.empty,
      ReportLog.last?]
  case furthest =>
    intro result log hlog some_report
    rw [h, Option.some.injEq, Prod.mk.injEq, Option.map_eq_some_iff] at hlog
    obtain ⟨rfl, reports, rfl, rfl⟩ := hlog
    have hreports : reports ≠ [] := by
      simpa [ReportLog.reportAll, ReportLog.empty] using some_report
    obtain ⟨l, hl⟩ := FurthestReports.location?_reportAll_isSome .empty hreports
    have finds : (FurthestReports.empty : FurthestReports L Terminal).Finds source.found := nofun
    exact ⟨_, l, h .., hl, finds.reportAll (faithful reports rfl) l hl⟩

end Run

/-! ## What is done whatever the sink -/

section

variable {source : Source L}

/-- A parser that does the same with all sinks has one account at a location, or comes to no end
there. -/
theorem Parser.account_of_parallel (p : ∀ (S : Type) [Sink S L Terminal], Parser L S α)
    (parallel : ∀ (S T : Type) [Sink S L Terminal] [Sink T L Terminal],
      (p S).Parallel source (p T)) (l : L) :
    (∀ (S : Type) [Sink S L Terminal] (cursor : Cursor L S), cursor.location = l →
        p S cursor = .unfinished) ∨
      ∃ a : Account L α, source.Witnessed a.entries ∧
        ∀ (S : Type) [Sink S L Terminal] (cursor : Cursor L S), cursor.location = l →
          p S cursor = a.replyTo cursor := by
  let base : Cursor L (NoReports L Terminal) := ⟨l, {}, #[]⟩
  rcases parallel _ _ base base rfl with ⟨h, -⟩ | ⟨a, _, h, -, -, ha⟩
  · refine .inl fun S _ cursor hcursor => ?_
    rcases parallel _ S base cursor hcursor with ⟨-, h'⟩ | ⟨b, _, hb, -⟩
    · exact h'
    · exact absurd (hb.symm.trans h) b.replyTo_ne_unfinished
  · refine .inr ⟨a, ha, fun S _ cursor hcursor => ?_⟩
    rcases parallel _ S base cursor hcursor with ⟨h', -⟩ | ⟨b, _, hb, hb', rfl, -⟩
    · exact absurd (h.symm.trans h') a.replyTo_ne_unfinished
    · obtain rfl : a = b := Account.replyTo_inj (h.symm.trans hb)
      exact hb'

theorem Run.reporting_of_parallel (p : ∀ (S : Type) [Sink S L Terminal], Parser L S α)
    (parallel : ∀ (S T : Type) [Sink S L Terminal] [Sink T L Terminal],
      (p S).Parallel source (p T)) (l : L) (trace : Array (TraceEntry L)) :
    Run.Reporting source fun S _ sink => (p S ⟨l, sink, trace⟩).seen := by
  rcases Parser.account_of_parallel p parallel l with h | ⟨a, witnessed, h⟩
  · exact .inl fun S _ sink => congrArg Reply.seen (h S ⟨l, sink, trace⟩ rfl)
  · refine .inr ⟨(a.outcome, a.location, trace ++ a.entries.toArray), some a.reports, ?_, ?_⟩
    · rintro reports ⟨⟩
      exact witnessed
    · intro S _ sink
      exact (congrArg Reply.seen (h S ⟨l, sink, trace⟩ rfl)).trans (a.seen_replyTo _)

end

section

variable [DecidableEq L] (scope : Scope L) (fuel : Nat) (rule : Rule)

theorem Rule.parseAll_reporting :
    Run.Reporting scope.source fun S _ sink =>
      (rule.parseAll scope fuel sink : Verdict L S).seen := by
  rcases Parser.account_of_parallel (fun _ _ => (rule.thenEnd scope fuel : Parser L _ Value))
    (fun _ _ _ _ => rule.thenEnd_parallel scope fuel) scope.source.start with
    h | ⟨⟨outcome, m, es⟩, witnessed, h⟩
  · exact .inl fun S _ sink => congrArg Verdict.seen
      (parseAll_of_unfinished (h S (.atStart scope.source sink) rfl))
  cases outcome with
  | ok value =>
    refine .inr ⟨(.ok value, #[] ++ es.toArray), none, by simp, ?_⟩
    intro S _ sink
    exact congrArg Verdict.seen (parseAll_of_ok (h S (.atStart scope.source sink) rfl))
  | error error =>
    let failed := TraceEntry.failed (rule.identity scope.naming) error
    refine .inr ⟨(.error error, (#[] ++ es.toArray).push failed), some (reportsOf es), ?_, ?_⟩
    · rintro reports ⟨⟩
      exact witnessed
    · intro S _ sink
      exact congrArg Verdict.seen (parseAll_of_fail (h S (.atStart scope.source sink) rfl))

theorem Session.run_reporting (commands : List (Command L)) :
    Run.Reporting scope.source fun S _ sink =>
      seen ((start scope.source sink : Session L S).run scope fuel commands) := by
  let base : Session L (NoReports L Terminal) := .start scope.source {}
  have alongside (S : Type) [Sink S L Terminal] (sink : S) :
      Parallel scope.source base (.start scope.source sink) (base.run scope fuel commands)
        ((start scope.source sink).run scope fuel commands) := by
    apply run_parallel
    · rfl
    · rfl
  rcases alongside (NoReports L Terminal) {} with
    ⟨hbase, -⟩ | ⟨answers, m, es, values, witnessed, hbase, -⟩
  · refine .inl fun S _ sink => ?_
    rcases alongside S sink with ⟨-, h⟩ | ⟨_, _, _, _, -, h, -⟩
    · exact congrArg seen h
    · cases hbase.symm.trans h
  · refine .inr ⟨(answers, m, #[] ++ es.toArray, values), some (reportsOf es), ?_, ?_⟩
    · rintro reports ⟨⟩
      exact witnessed
    · intro S _ sink
      rcases alongside S sink with ⟨h, -⟩ | ⟨answers', m', es', values', -, h, hrun⟩
      · cases hbase.symm.trans h
      · have same := hbase.symm.trans h
        simp only [Option.some.injEq, Prod.mk.injEq, record, Session.mk.injEq] at same
        obtain ⟨rfl, hrecord, rfl⟩ := same
        obtain ⟨rfl, rfl⟩ := base.cursor.record_inj hrecord
        exact congrArg seen hrun

end

/-- **Sinks only observe, and each of them is a summary of the log**: so are

* the attempt of any rule, from any location and trace;
* the parse of a whole input, also where the sink is looked at after a success;
* any series of operations of a session, and thus what each of them leaves behind. -/
theorem Sink.runs_observed [LinearOrder L] (scope : Scope L) (fuel : Nat) :
    (∀ (rule : Rule) (l : L) (trace : Array (TraceEntry L)),
      Run.Observed scope.source fun S _ sink =>
        (rule.attempt scope fuel (⟨l, sink, trace⟩ : Cursor L S)).seen) ∧
    (∀ rule : Rule,
      (Run.Observed scope.source fun S _ sink =>
        (rule.parseAll scope fuel sink : Verdict L S).seen) ∧
      Run.Observed scope.source fun S _ sink =>
        (rule.thenEnd scope fuel (.atStart scope.source sink : Cursor L S)).seen) ∧
    ∀ commands : List (Command L), Run.Observed scope.source fun S _ sink =>
      Session.seen ((Session.start scope.source sink : Session L S).run scope fuel commands) := by
  refine ⟨fun rule l trace => ?_, fun rule => ⟨?_, ?_⟩, fun commands => ?_⟩
  · exact (Run.reporting_of_parallel (fun _ _ => (rule.attempt scope fuel : Parser L _ Value))
      (fun _ _ _ _ => (rule.parse_parallel scope fuel).attempt scope rule) l trace).observed
  · exact (rule.parseAll_reporting scope fuel).observed
  · exact (Run.reporting_of_parallel (fun _ _ => (rule.thenEnd scope fuel : Parser L _ Value))
      (fun _ _ _ _ => rule.thenEnd_parallel scope fuel) scope.source.start #[]).observed
  · exact (Session.run_reporting scope fuel commands).observed

end Backtrack
