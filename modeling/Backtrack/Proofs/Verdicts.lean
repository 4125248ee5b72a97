import Backtrack.Grammar.Sample
import Backtrack.Proofs.Furthest
import Backtrack.Proofs.Refinement
import Backtrack.Proofs.Sessions

/-!
# What the parse of a whole input comes to

A whole input is accepted where its rule matches and stops at the end. Otherwise it is rejected, for
the error of the rule or because the end was expected where the rule stopped
(`Rule.parseAll_result?`).

Nothing is reported between an error and its arrival at the top. The error that an attempt returns
is therefore the last that was reported, and this is what the sinks tell of it
(`Rule.parseAll_explained`). Rules that fail in silence are left out here.
-/

namespace Backtrack

variable {L S : Type}

/-! ## Verdicts and the rules behind them -/

/-- The value or the error that a verdict tells. -/
def Verdict.result? : Verdict L S → Option (Except (Error L) Value)
  | .accepted value _ => some (.ok value)
  | .rejected failure _ => some (.error failure.error)
  | .unfinished => none

theorem Verdict.result?_eq_ok {verdict : Verdict L S} {value : Value} :
    verdict.result? = some (.ok value) ↔ ∃ trace, verdict = .accepted value trace := by
  cases verdict <;> simp [result?]

theorem Verdict.result?_eq_error {verdict : Verdict L S} {error : Error L} :
    verdict.result? = some (.error error) ↔
      ∃ failure trace, verdict = .rejected failure trace ∧ failure.error = error := by
  cases verdict <;> simp [result?]

/-- What the reply of a rule makes of a whole input: a match has to stop at the end. -/
def Reply.judged (source : Source L) : Reply L S Value → Option (Except (Error L) Value)
  | .ok value stop =>
    some (if stop.atEnd source then .ok value else .error (.expected "end" stop.location))
  | .fail error _ => some (.error error)
  | .unfinished => none

section

variable {source : Source L} {reply : Reply L S Value}

theorem Reply.judged_eq_ok {value : Value} :
    reply.judged source = some (.ok value) ↔
      ∃ stop, reply = .ok value stop ∧ stop.atEnd source := by
  cases reply with
  | ok found stop =>
    by_cases h : stop.atEnd source
    · simp [judged, h, and_assoc]
    · simp only [judged, if_neg h, Option.some.injEq, reduceCtorEq, false_iff]
      rintro ⟨_, ⟨⟩, hend⟩
      exact h hend
  | fail error back => simp [judged]
  | unfinished => simp [judged]

theorem Reply.judged_eq_error {error : Error L} :
    reply.judged source = some (.error error) ↔
      (∃ back, reply = .fail error back) ∨
        ∃ value stop, reply = .ok value stop ∧ ¬ stop.atEnd source ∧
          error = .expected "end" stop.location := by
  cases reply with
  | ok found stop =>
    by_cases h : stop.atEnd source
    · simp [judged, h]
    · simp only [judged, if_neg h, Option.some.injEq, Except.error.injEq, reduceCtorEq,
        exists_false, false_or]
      constructor
      · rintro rfl
        exact ⟨found, stop, rfl, h, rfl⟩
      · rintro ⟨_, _, ⟨⟩, -, rfl⟩
        rfl
  | fail error back => simp [judged]
  | unfinished => simp [judged]

end

section

variable [DecidableEq L] [Sink S L Terminal] (scope : Scope L) (fuel : Nat) (rule : Rule)

/-- **The verdict on a whole input** is told by what its rule does at the start. -/
theorem Rule.parseAll_result? (sink : S) :
    (rule.parseAll scope fuel sink).result?
      = (rule.attempt scope fuel (.atStart scope.source sink)).judged scope.source := by
  let rest (value : Value) : Parser L S Value := do
    let _ ← endOfInput.attempt scope fuel
    pure value
  have hthen : rule.thenEnd scope fuel
      = scope.attempt (.seq [rule, .endOfInput]) (rule.attempt scope fuel >>= rest) := rfl
  cases h : rule.attempt scope fuel (.atStart scope.source sink) with
  | unfinished =>
    rw [parseAll_of_unfinished (scope.attempt_unfinished _ (Parser.bind_unfinished h))]
    rfl
  | fail error stop =>
    obtain ⟨back, hback⟩ := Scope.attempt_of_fail (Parser.bind_of_fail (f := rest) h)
    rw [parseAll_of_fail (hthen ▸ hback)]
    rfl
  | ok value stop =>
    -- a rule that came to an end had fuel, which is enough to look for the end of the input
    obtain ⟨n, rfl⟩ : ∃ n, fuel = n + 1 := by
      cases fuel with
      | zero => cases h
      | succ n => exact ⟨n, rfl⟩
    have hrest : (rule.attempt scope (n + 1) >>= rest) (.atStart scope.source sink)
        = rest value stop := by rw [Parser.bind_apply, h]
    have hend : endOfInput.attempt scope (n + 1) stop = _ := endOfInput_attempt
    cases here : scope.source.terminalAt stop.location with
    | none =>
      have hok : rest value stop = .ok value stop := by
        refine Parser.bind_eq_ok.2 ⟨.unit, stop, hend.trans ?_, rfl⟩
        simp [Account.ending, here, Account.done, Account.replyTo]
      rw [parseAll_of_ok (hthen ▸ Scope.attempt_eq_ok.2 (hrest.trans hok))]
      simp [Verdict.result?, Reply.judged, Cursor.atEnd, Cursor.peek, here]
    | some read =>
      let missing : Error L := .expected "end" stop.location
      have hleft : endOfInput.attempt scope (n + 1) stop
          = .fail missing (stop.raise scope.source missing) := by
        rw [hend, Account.ending, here, Cursor.raise_eq_record]
        rfl
      obtain ⟨back, hback⟩ := Scope.attempt_of_fail (hrest.trans (Parser.bind_of_fail hleft))
      rw [parseAll_of_fail (hthen ▸ hback)]
      simp [Verdict.result?, Reply.judged, Cursor.atEnd, Cursor.peek, here, missing]

end

/-- **The verdict on a whole input** is told by what its rule means there: a match has to be
followed by the end, and an error is located at its offset. -/
theorem Rule.parseAll_described [DecidableEq L] [Sink S L Terminal] {scope : Scope L} {fuel : Nat}
    {rule : Rule} {sink : S} {meaning : Meaning Value}
    (h : scope.source.Describes scope.source.start meaning
      (rule.attempt scope fuel (.atStart scope.source sink))) :
    match meaning with
    | .matched value n => ∃ m, scope.source.Steps n scope.source.start m ∧
        (rule.parseAll scope fuel sink).result?
          = some (if scope.source.found m = none then .ok value else .error (.expected "end" m))
    | .absent name k => ∃ m, scope.source.Steps k scope.source.start m ∧
        (rule.parseAll scope fuel sink).result? = some (.error (.expected name m))
    | .overflow type k => ∃ m, scope.source.Steps k scope.source.start m ∧
        (rule.parseAll scope fuel sink).result? = some (.error (.overflow type m)) := by
  simp only [parseAll_result?]
  cases meaning with
  | matched value n =>
    obtain ⟨after, hok, hn⟩ := h
    refine ⟨after.location, hn, ?_⟩
    rw [hok, Reply.judged]
    cases here : scope.source.terminalAt after.location with
    | none => simp [Cursor.atEnd, Cursor.peek, Source.found, here]
    | some read => simp [Cursor.atEnd, Cursor.peek, Source.found, here]
  | absent | overflow =>
    obtain ⟨m, after, hfail, hk⟩ := h
    exact ⟨m, hk, by rw [hfail, Reply.judged]⟩

/-- An input that is accepted comes to an end. -/
theorem Rule.spells_of_accepted [DecidableEq L] [Sink S L Terminal] {scope : Scope L} {fuel : Nat}
    {rule : Rule} {sink : S} {value : Value} {trace : Array (TraceEntry L)}
    (h : rule.parseAll scope fuel sink = .accepted value trace) :
    ∃ ts, scope.source.Spells scope.source.start ts := by
  have hok := Verdict.result?_eq_ok.2 ⟨trace, h⟩
  rw [parseAll_result?, Reply.judged_eq_ok] at hok
  obtain ⟨stop, hstop, ended⟩ := hok
  have follows : (rule.attempt scope fuel : Parser L S Value).Follows scope.source True :=
    rule.attempt_follows scope True fuel (.of_forall fun _ => .inl trivial)
  have hcursor : (rule.attempt scope fuel (.atStart scope.source sink)).cursor? = some stop := by
    rw [hstop]
    rfl
  have reached : scope.source.Reaches scope.source.start stop.location := follows.reaches hcursor
  exact reached.spells (by simpa [Cursor.atEnd, Cursor.peek] using ended)

/-! ## The last report -/

/-- The parser fails with the error that it reported last. -/
theorem Parser.Follows.last_report [Sink S L Terminal] {source : Source L} {p : Parser L S Value}
    (h : p.Follows source False) {error : Error L} {cursor after : Cursor L S}
    (hp : p cursor = .fail error after) :
    ∃ (a : Account L Value) (earlier : List (Report L Terminal)), p cursor = a.replyTo cursor ∧
      a.reports = earlier ++ [source.reportOf error] ∧
      after.sink = Sink.reportAll cursor.sink a.reports := by
  rcases h cursor with hu | ⟨⟨outcome, m, es⟩, ha, trail⟩
  · cases hu.symm.trans hp
  · cases outcome with
    | ok value => cases ha.symm.trans hp
    | error e =>
      cases ha.symm.trans hp
      obtain ⟨earlier, hearlier⟩ := trail.reported rfl
      exact ⟨_, earlier, ha, hearlier, rfl⟩

/-- What is told of an error that was reported last: a log has the report at its end, the sink of
the last report holds it, and the sink of the furthest reports is there or further along. -/
theorem Source.reportOf_kept [LinearOrder L] (source : Source L) (error : Error L)
    (earlier : List (Report L Terminal)) :
    (∀ log : ReportLog L Terminal,
      (Sink.reportAll log (earlier ++ [source.reportOf error])).last?
        = some (source.reportOf error)) ∧
    (∀ sink : LastReport L Terminal,
      (Sink.reportAll sink (earlier ++ [source.reportOf error])).last
        = some (source.reportOf error)) ∧
    ∀ sink : FurthestReports L Terminal,
      ∃ f, (Sink.reportAll sink (earlier ++ [source.reportOf error])).location? = some f ∧
        error.location ≤ f ∧
        (f = error.location →
          error ∈ (Sink.reportAll sink (earlier ++ [source.reportOf error])).errors) := by
  refine ⟨?_, ?_, ?_⟩
  · intro log
    rw [Sink.reportAll_concat]
    exact Array.back?_push
  · intro sink
    rw [Sink.reportAll_concat]
    rfl
  · intro sink
    obtain ⟨f, hf⟩ := sink.location?_reportAll_isSome
      (List.concat_ne_nil (source.reportOf error) earlier)
    refine ⟨f, hf, ?_, ?_⟩
    · exact (FurthestReports.le_of_reportAll hf).2 (source.reportOf error) (by simp)
    · rintro rfl
      rw [Sink.reportAll_concat] at hf ⊢
      exact FurthestReports.mem_errors_report hf

namespace Rule

/-- The failure of a whole input is the last that its sink has received. -/
theorem parseAll_last_report [DecidableEq L] [Sink S L Terminal] {scope : Scope L} {fuel : Nat}
    {rule : Rule} (loud : scope.Throughout Loud rule) {sink : S} {failure : Failure L S}
    {trace : Array (TraceEntry L)} (h : rule.parseAll scope fuel sink = .rejected failure trace) :
    ∃ earlier, failure.sink
      = Sink.reportAll sink (earlier ++ [scope.source.reportOf failure.error]) := by
  have follows : (rule.thenEnd scope fuel : Parser L S Value).Follows scope.source False :=
    (related_follows scope False).thenEnd rfl fuel (loud.mono fun _ => .inr)
      (.intro (.inr trivial) (by simp [parts]))
  unfold parseAll at h
  split at h <;> cases h
  next error stop hfail =>
    obtain ⟨a, earlier, -, hreports, hsink⟩ := follows.last_report hfail
    exact ⟨earlier, hsink.trans (by rw [hreports]; rfl)⟩

/-- **The error that is returned is the last that was reported**, for a rule none of whose parts
fails in silence.

* An attempt that fails has made reports, and the last of them is the error returned, with the
  terminal at its location.
* A whole input is accepted exactly where the rule matches and stops at the end.
* It is rejected for the error of the rule, or because the end was expected where the rule stopped.
* Whatever the sink, the error of a rejection is the last that it received. So it is what a log has
  at its end and what the sink of the last report holds, and the sink of the furthest reports is
  further along or has it among its errors. -/
theorem parseAll_explained [LinearOrder L] (scope : Scope L) (fuel : Nat) {rule : Rule}
    (loud : scope.Throughout Loud rule) :
    (∀ {S : Type} [Sink S L Terminal] (cursor after : Cursor L S) (error : Error L),
      rule.attempt scope fuel cursor = .fail error after →
        ∃ (a : Account L Value) (earlier : List (Report L Terminal)),
          rule.attempt scope fuel cursor = a.replyTo cursor ∧
            a.reports = earlier ++ [scope.source.reportOf error]) ∧
    (∀ {S : Type} [Sink S L Terminal] (sink : S) (value : Value),
      (∃ trace, rule.parseAll scope fuel sink = .accepted value trace) ↔
        ∃ stop, rule.attempt scope fuel (.atStart scope.source sink) = .ok value stop ∧
          stop.atEnd scope.source) ∧
    (∀ {S : Type} [Sink S L Terminal] (sink : S) (error : Error L),
      (∃ failure trace, rule.parseAll scope fuel sink = .rejected failure trace ∧
          failure.error = error) ↔
        (∃ back, rule.attempt scope fuel (.atStart scope.source sink) = .fail error back) ∨
          ∃ value stop, rule.attempt scope fuel (.atStart scope.source sink) = .ok value stop ∧
            ¬ stop.atEnd scope.source ∧ error = .expected "end" stop.location) ∧
    (∀ {S : Type} [Sink S L Terminal] (sink : S) (failure : Failure L S)
      (trace : Array (TraceEntry L)), rule.parseAll scope fuel sink = .rejected failure trace →
        ∃ earlier, failure.sink
          = Sink.reportAll sink (earlier ++ [scope.source.reportOf failure.error])) ∧
    (∀ (log : ReportLog L Terminal) failure trace,
      rule.parseAll scope fuel log = .rejected failure trace →
        failure.sink.last? = some (scope.source.reportOf failure.error)) ∧
    (∀ (sink : LastReport L Terminal) failure trace,
      rule.parseAll scope fuel sink = .rejected failure trace →
        failure.sink.last = some (scope.source.reportOf failure.error)) ∧
    ∀ (sink : FurthestReports L Terminal) failure trace,
      rule.parseAll scope fuel sink = .rejected failure trace →
        ∃ f, failure.sink.location? = some f ∧ failure.location ≤ f ∧
          (f = failure.location → failure.error ∈ failure.sink.errors) := by
  refine ⟨?_, ?_, ?_, ?_, ?_, ?_, ?_⟩
  · intro S _ cursor after error h
    have follows : (rule.attempt scope fuel : Parser L S Value).Follows scope.source False :=
      rule.attempt_follows scope False fuel (loud.mono fun _ => .inr)
    obtain ⟨a, earlier, ha, hreports, -⟩ := follows.last_report h
    exact ⟨a, earlier, ha, hreports⟩
  · intro S _ sink value
    rw [← Verdict.result?_eq_ok, parseAll_result?]
    exact Reply.judged_eq_ok
  · intro S _ sink error
    rw [← Verdict.result?_eq_error, parseAll_result?]
    exact Reply.judged_eq_error
  · intro S _ sink failure trace h
    exact parseAll_last_report loud h
  · intro log failure trace h
    obtain ⟨earlier, hsink⟩ := parseAll_last_report loud h
    rw [hsink]
    exact (scope.source.reportOf_kept failure.error earlier).1 log
  · intro sink failure trace h
    obtain ⟨earlier, hsink⟩ := parseAll_last_report loud h
    rw [hsink]
    exact (scope.source.reportOf_kept failure.error earlier).2.1 sink
  · intro sink failure trace h
    obtain ⟨earlier, hsink⟩ := parseAll_last_report loud h
    rw [hsink]
    exact (scope.source.reportOf_kept failure.error earlier).2.2 sink

/-- In `a,` the letters end before the comma, where the end is expected, although a letter was
expected further along. -/
theorem parseAll_explained_comma :
    let scope : Scope Nat :=
      { source := .ofArray #[97, 44], naming := .offsets .byte true, definitions := fun _ => none }
    let log : ReportLog Nat Terminal := .empty
    let furthest : FurthestReports Nat Terminal := .empty
    (∃ failure trace, Grammar.letters.parseAll scope 3 log = .rejected failure trace ∧
      failure.sink.last? = some ⟨.expected "end" 1, some 44⟩) ∧
    ∃ failure trace, Grammar.letters.parseAll scope 3 furthest = .rejected failure trace ∧
      ∃ f, failure.sink.location? = some f ∧ 1 ≤ f := by
  intro scope log furthest
  have loud : scope.Throughout Loud Grammar.letters :=
    Scope.throughout_sepBy1 trivial (Scope.throughout_terminal trivial)
      (Scope.throughout_terminal trivial)
  obtain ⟨-, -, -, -, hlog, -, hfurthest⟩ := parseAll_explained scope 3 loud
  refine ⟨⟨_, _, rfl, hlog log _ _ rfl⟩, ⟨_, _, rfl, ?_⟩⟩
  obtain ⟨f, hf, hle, -⟩ := hfurthest furthest _ _ rfl
  exact ⟨f, hf, hle⟩

end Rule

end Backtrack
