import Backtrack.Session
import Backtrack.Proofs.Lockstep
import Backtrack.Proofs.Trail

/-!
# Runs side by side

What a rule does depends on the source and on the location, and on nothing that a sink holds: from
the same location, two runs with different sinks have the same account (`Parser.Parallel`,
`related_parallel`). Sessions that stand at the same location go on with the same answers and the
same entries (`Session.step_parallel`, `Session.run_parallel`).
-/

namespace Backtrack

variable {L S T α β σ : Type}

/-! ## Reports of what is there -/

/-- Each report among the entries tells the terminal at its location. -/
def Source.Witnessed (source : Source L) (entries : List (TraceEntry L)) : Prop :=
  ∀ report ∈ reportsOf entries, report.found = source.found report.error.location

namespace Source.Witnessed

variable {source : Source L} {es es' : List (TraceEntry L)}

theorem nil (source : Source L) : source.Witnessed [] := by
  simp [Witnessed]

theorem raised (source : Source L) (error : Error L) :
    source.Witnessed (source.raised error) := by
  simp [Witnessed, reportOf]

theorem append (h : source.Witnessed es) (h' : source.Witnessed es') :
    source.Witnessed (es ++ es') := by
  intro report hreport
  rw [reportsOf_append, List.mem_append] at hreport
  exact hreport.elim (h report) (h' report)

/-- Only the reports among the entries matter. -/
theorem of_eq (h : source.Witnessed es) (same : reportsOf es' = reportsOf es) :
    source.Witnessed es' := by
  unfold Witnessed
  rw [same]
  exact h

theorem of_trail {l : L} {a : Account L α} (h : a.OnTrail source True l) :
    source.Witnessed a.entries :=
  fun report hreport => (h.report_reaches report hreport).2

end Source.Witnessed

/-! ## Parsers that do the same -/

/-- The same account, whose reports tell what is there. -/
def Source.SameAccount (source : Source L) (a a' : Account L α) : Prop :=
  a = a' ∧ source.Witnessed a.entries

theorem Source.SameAccount.goesOn {source : Source L} {a a' : Account L α}
    (h : source.SameAccount a a') :
    a.GoesOn (fun l l' => l' = l) (source.SameAccount : Account L β → Account L β → Prop) a' := by
  obtain ⟨rfl, witnessed⟩ := h
  obtain ⟨_ | value, m, es⟩ := a
  · exact .error ⟨rfl, witnessed⟩
  · exact .ok value rfl fun ⟨same, later⟩ => ⟨congrArg _ same, witnessed.append later⟩

/-- From the same location both parsers do the same, or neither comes to an end. -/
abbrev Parser.Parallel [Sink S L Terminal] [Sink T L Terminal] (source : Source L)
    (p : Parser L S α) (p' : Parser L T α) : Prop :=
  p.Lockstep (fun l l' => l' = l) source.SameAccount p'

namespace Parser.Parallel

variable [Sink S L Terminal] [Sink T L Terminal] {source : Source L} {p : Parser L S α}
  {p' : Parser L T α}

/-- A parser whose account is told by the location. -/
theorem leaf (account : L → Account L α) (witnessed : ∀ l, source.Witnessed (account l).entries)
    (hp : ∀ cursor, p cursor = (account cursor.location).replyTo cursor)
    (hp' : ∀ cursor, p' cursor = (account cursor.location).replyTo cursor) :
    Parallel source p p' :=
  Lockstep.leaf account account (fun same => ⟨by rw [same], witnessed _⟩) hp hp'

/-- What changes only the account of a run, and not its reports, keeps parsers in parallel. -/
theorem changed {q : Parser L S β} {q' : Parser L T β} (hp : Parallel source p p')
    (change : L → Account L α → Account L β)
    (unfinished : ∀ cursor, p cursor = .unfinished → q cursor = .unfinished)
    (unfinished' : ∀ cursor, p' cursor = .unfinished → q' cursor = .unfinished)
    (hq : ∀ cursor (a : Account L α), p cursor = a.replyTo cursor →
      q cursor = (change cursor.location a).replyTo cursor)
    (hq' : ∀ cursor (a : Account L α), p' cursor = a.replyTo cursor →
      q' cursor = (change cursor.location a).replyTo cursor)
    (reports : ∀ l a, (change l a).reports = a.reports) : Parallel source q q' := by
  refine Lockstep.changed hp change change unfinished unfinished' hq hq' ?_
  rintro _ l a _ rfl ⟨rfl, witnessed⟩
  exact ⟨rfl, witnessed.of_eq (reports l a)⟩

section

variable [DecidableEq L] (scope : Scope L) (rule : Rule)

theorem attempt (hp : Parallel source p p') :
    Parallel source (scope.attempt rule p) (scope.attempt rule p') :=
  hp.changed (fun l a => a.rewind (rule.identity scope.naming) l)
    (fun _ => scope.attempt_unfinished rule) (fun _ => scope.attempt_unfinished rule)
    (fun _ _ => scope.attempt_account rule) (fun _ _ => scope.attempt_account rule)
    fun _ _ => Account.reports_rewind ..

theorem attemptOptional (hp : Parallel source p p') :
    Parallel source (scope.attemptOptional rule p) (scope.attemptOptional rule p') :=
  hp.changed (fun l a => (a.rewind (rule.identity scope.naming) l).optional)
    (fun _ => scope.attemptOptional_unfinished rule)
    (fun _ => scope.attemptOptional_unfinished rule)
    (fun _ _ => scope.attemptOptional_account rule)
    (fun _ _ => scope.attemptOptional_account rule)
    fun _ _ => (Account.reports_optional _).trans (Account.reports_rewind ..)

theorem attemptManyInto (hp : Parallel source p p') (extend : σ → α → σ) (fuel : Nat)
    (gathered : σ) :
    Parallel source (scope.attemptManyInto rule p extend fuel gathered)
      (scope.attemptManyInto rule p' extend fuel gathered) := by
  -- turn by turn; what ends the repetition ends it on both sides
  induction fuel generalizing gathered with
  | zero => exact fun _ _ _ => .inl ⟨rfl, rfl⟩
  | succ fuel ih =>
    intro cursor cursor' same
    rcases Parallel.attemptOptional scope rule hp cursor cursor' same with
      ⟨h, h'⟩ | ⟨⟨outcome, m, es⟩, _, h, h', rfl, hes⟩
    · exact .inl ⟨Scope.attemptManyInto_unfinished h, Scope.attemptManyInto_unfinished h'⟩
    match outcome with
    | .error error =>
      exact .inr ⟨⟨.ok (gathered, some error), m, es⟩, _, Scope.attemptManyInto_error h,
        Scope.attemptManyInto_error h', rfl, hes⟩
    | .ok none =>
      exact .inr ⟨⟨.ok (gathered, none), m, es⟩, _, Scope.attemptManyInto_absent h,
        Scope.attemptManyInto_absent h', rfl, hes⟩
    | .ok (some value) =>
      by_cases hm : m = cursor.location
      · exact .inr ⟨⟨.ok (extend gathered value, none), m, es⟩, _,
          Scope.attemptManyInto_still h hm, Scope.attemptManyInto_still h' (hm.trans same.symm),
          rfl, hes⟩
      · have hm' : m ≠ cursor'.location := fun h => hm (h.trans same)
        rw [Scope.attemptManyInto_moved h hm, Scope.attemptManyInto_moved h' hm']
        rcases ih (extend gathered value) (cursor.record m es) (cursor'.record m es) rfl with
          hrest | ⟨b, _, hrest, hrest', rfl, hb⟩
        · exact .inl hrest
        · exact .inr ⟨b.after es, _, hrest.trans (replyTo_record b m es),
            hrest'.trans (replyTo_record b m es), rfl, hes.append hb⟩

end

end Parser.Parallel

section

variable [DecidableEq L] [Sink S L Terminal] [Sink T L Terminal]

/-- **Rules do the same with every sink**: all that they are put together from does. -/
theorem related_parallel (scope : Scope L) :
    Related scope scope (fun _ => True)
      fun {α} (p : Parser L S α) (p' : Parser L T α) => p.Parallel scope.source p' where
  unfinished _ _ _ := .inl ⟨rfl, rfl⟩
  pure value :=
    .leaf (.done value) (fun _ => .nil _) (fun cursor => Parser.pure_account cursor value)
      fun cursor => Parser.pure_account cursor value
  bind hp hf := hp.bind hf Source.SameAccount.goesOn
  moving hp :=
    hp.changed (fun l a => a.moving l) (fun _ h => by simp [Parser.moving, h])
      (fun _ h => by simp [Parser.moving, h]) (fun cursor _ => Parser.moving_account cursor)
      (fun cursor _ => Parser.moving_account cursor) fun _ _ => rfl
  attempt rule _ _ hp := hp.attempt scope rule
  attemptOptional rule _ _ hp := hp.attemptOptional scope rule
  terminal accepted _ accept _ :=
    .leaf (.reading scope (.terminal accepted) accept)
      (fun _ => .of_trail (.reading scope (.terminal accepted) accept))
      (fun cursor => scope.acceptTerminal_account cursor _ accept)
      fun cursor => scope.acceptTerminal_account cursor _ accept
  nextDigit alphabet type _ combine :=
    .leaf (.nextDigit scope alphabet type combine)
      (fun _ => .of_trail (.nextDigit scope alphabet type combine))
      (fun cursor => scope.nextDigit_account cursor alphabet type combine)
      fun cursor => scope.nextDigit_account cursor alphabet type combine
  ending _ :=
    .leaf (.ending scope) (fun _ => .of_trail (.ending scope))
      (fun cursor => scope.ending_account cursor) fun cursor => scope.ending_account cursor
  advance _ _ _ :=
    .leaf (.advancing scope.source) (fun _ => .of_trail .advancing)
      (fun cursor => Parser.advance_account cursor _) fun cursor => Parser.advance_account cursor _
  expectedHere rule :=
    .leaf (fun l => .raised scope.source (.expected (rule.identity scope.naming) l) l)
      (fun _ => .raised _ _) (fun cursor => scope.expectedHere_account cursor rule)
      fun cursor => scope.expectedHere_account cursor rule
  overflowHere type :=
    .leaf (fun l => .raised scope.source (.overflow type.name l) l) (fun _ => .raised _ _)
      (fun cursor => scope.overflowHere_account cursor type)
      fun cursor => scope.overflowHere_account cursor type
  silent name _ :=
    .leaf (fun l => ⟨.error (.expected name l), l, []⟩) (fun _ => .nil _)
      (fun cursor => Parser.absentHere_account cursor name)
      fun cursor => Parser.absentHere_account cursor name

variable (scope : Scope L) (fuel : Nat) (rule : Rule)

theorem Rule.parse_parallel :
    Parser.Parallel scope.source (rule.parse scope fuel : Parser L S Value)
      (rule.parse scope fuel : Parser L T Value) :=
  (related_parallel scope).parse rfl fuel (.of_forall fun _ => trivial)

theorem Rule.thenEnd_parallel :
    Parser.Parallel scope.source (rule.thenEnd scope fuel : Parser L S Value)
      (rule.thenEnd scope fuel : Parser L T Value) :=
  (related_parallel scope).thenEnd rfl fuel (.of_forall fun _ => trivial)
    (.of_forall fun _ => trivial)

end

/-! ## Sessions that go on alike -/

namespace Session

/-- The session further on, with these entries made on the way. -/
def record [Sink S L Terminal] (session : Session L S) (l : L) (entries : List (TraceEntry L))
    (gathered : Array Value) : Session L S where
  cursor := session.cursor.record l entries
  gathered

@[simp] theorem record_record [Sink S L Terminal] (session : Session L S) (l m : L)
    (es es' : List (TraceEntry L)) (values values' : Array Value) :
    (session.record l es values).record m es' values' = session.record m (es ++ es') values' := by
  simp [record]

/-- Both sessions go on from where they were with the same answer and the same entries, or neither
comes to an end. -/
def Parallel [Sink S L Terminal] [Sink T L Terminal] (source : Source L) (before : Session L S)
    (before' : Session L T) (result : Option (α × Session L S))
    (result' : Option (α × Session L T)) : Prop :=
  result = none ∧ result' = none ∨
    ∃ answer l es gathered, source.Witnessed es ∧
      result = some (answer, before.record l es gathered) ∧
        result' = some (answer, before'.record l es gathered)

variable [Sink S L Terminal] [Sink T L Terminal] {source : Source L} {before : Session L S}
  {before' : Session L T}
  (location : before'.cursor.location = before.cursor.location)
  (gathered : before'.gathered = before.gathered)
include location gathered

theorem parallel_refl (answer : α) :
    Parallel source before before' (some (answer, before)) (some (answer, before')) := by
  refine .inr ⟨answer, before.cursor.location, [], before.gathered, .nil _, ?_, ?_⟩
  · simp [record]
  · simp [record, ← location, ← gathered]

theorem apply_parallel {p : Parser L S α} {p' : Parser L T α} (hp : p.Parallel source p')
    (answer : α → Answer L) :
    Parallel source before before' (before.apply p answer) (before'.apply p' answer) := by
  unfold apply
  rcases hp before.cursor before'.cursor location with
    ⟨h, h'⟩ | ⟨⟨outcome, m, es⟩, _, h, h', rfl, hes⟩
  · exact .inl ⟨by rw [h], by rw [h']⟩
  refine .inr ?_
  rw [h, h']
  cases outcome with
  | ok value => exact ⟨answer value, m, es, before.gathered, hes, rfl, by rw [← gathered]; rfl⟩
  | error error => exact ⟨.error error, m, es, before.gathered, hes, rfl, by rw [← gathered]; rfl⟩

variable [DecidableEq L] (scope : Scope L) (fuel : Nat)

/-- **One operation** is answered alike, whatever the sinks of the two sessions. -/
theorem step_parallel (command : Command L) :
    Parallel scope.source before before' (before.step scope fuel command)
      (before'.step scope fuel command) := by
  have raise (error : Error L) : Parser.Parallel scope.source
      (Parser.raise scope.source error : Parser L S Unit)
      (Parser.raise scope.source error : Parser L T Unit) :=
    .leaf (.raised scope.source error) (fun _ => .raised _ error)
      (fun cursor => Parser.raise_account cursor _ error)
      fun cursor => Parser.raise_account cursor _ error
  have rules (rule : Rule) : Parser.Parallel scope.source
      (rule.parse scope fuel : Parser L S Value) (rule.parse scope fuel : Parser L T Value) :=
    rule.parse_parallel scope fuel
  cases command with
  | peek =>
    have found : before'.cursor.peek scope.source = before.cursor.peek scope.source := by
      simp only [Cursor.peek, location]
    simp only [step, apply, Parser.peek, found]
    exact parallel_refl location gathered _
  | advance =>
    refine apply_parallel location gathered ?_ _
    exact .leaf (.advancing scope.source)
      (fun _ => .of_trail .advancing)
      (fun cursor => Parser.advance_account cursor _)
      fun cursor => Parser.advance_account cursor _
  | atEnd =>
    have ended : before'.cursor.atEnd scope.source = before.cursor.atEnd scope.source := by
      simp only [Cursor.atEnd, Cursor.peek, location]
    simp only [step, ended]
    exact parallel_refl location gathered _
  | lookUp l => exact parallel_refl location gathered _
  | attempt rule => exact apply_parallel location gathered ((rules rule).attempt scope rule) _
  | attemptOptional rule =>
    exact apply_parallel location gathered ((rules rule).attemptOptional scope rule) _
  | attemptMany rule into =>
    refine apply_parallel location gathered ?_ _
    exact (related_parallel scope).ruleAttemptMany rfl fuel (.of_forall fun _ => trivial) into
  | attemptManyInto rule =>
    have hmany := (rules rule).attemptManyInto scope rule Array.push fuel
      before.gathered before.cursor before'.cursor location
    simp only [step, Rule.attemptManyInto, gathered]
    rcases hmany with ⟨h, h'⟩ | ⟨⟨outcome, m, es⟩, _, h, h', rfl, hes⟩
    · exact .inl ⟨by rw [h], by rw [h']⟩
    refine .inr ?_
    rw [h, h']
    cases outcome with
    | ok result => exact ⟨.extended result.2, m, es, result.1, hes, rfl, rfl⟩
    | error error => exact ⟨.error error, m, es, before.gathered, hes, rfl, rfl⟩
  | expected rule l => exact apply_parallel location gathered (raise _) fun _ => .value .unit
  | overflow type l => exact apply_parallel location gathered (raise _) fun _ => .value .unit

/-- **Sessions go on alike**, whatever their sinks. -/
theorem run_parallel (commands : List (Command L)) :
    Parallel scope.source before before' (before.run scope fuel commands)
      (before'.run scope fuel commands) := by
  induction commands generalizing before before' with
  | nil => exact parallel_refl location gathered []
  | cons command commands ih =>
    rcases step_parallel location gathered scope fuel command with
      ⟨h, h'⟩ | ⟨answer, m, es, values, hes, h, h'⟩
    · exact .inl ⟨by simp [run, h], by simp [run, h']⟩
    have rest : Parallel scope.source (before.record m es values) (before'.record m es values)
        ((before.record m es values).run scope fuel commands)
        ((before'.record m es values).run scope fuel commands) := ih rfl rfl
    rcases rest with ⟨hrest, hrest'⟩ | ⟨answers, k, es', values', hes', hrest, hrest'⟩
    · exact .inl ⟨by simp [run, h, hrest], by simp [run, h', hrest']⟩
    · refine .inr ⟨answer :: answers, k, es ++ es', values', hes.append hes', ?_, ?_⟩
      · simp [run, h, hrest]
      · simp [run, h', hrest']

end Session

end Backtrack
