import Backtrack.Proofs.Parallel
import Backtrack.Proofs.Sessions

/-!
# Operations that leave no mark

The history of a session tells of each operation how it was answered, where it left the cursor and
the list of the session, and what it added to the trace (`Session.History`). Looking at the input,
raising an error and failing to match move neither the cursor nor the list
(`Session.step_idle`), and no later operation consults the sink or the trace. Such operations can
therefore be left out of a session, and every other one goes on as before
(`Session.run_leaving_out`).
-/

namespace Backtrack

variable {L S α : Type}

/-! ## Histories -/

/-- An operation that was performed, and all that it did. -/
structure Performed (L : Type) where
  command : Command L
  answer : Answer L
  /-- Where the cursor stands afterwards. -/
  location : L
  /-- The list of the session afterwards. -/
  gathered : Array Value
  /-- What the operation added to the trace. -/
  entries : List (TraceEntry L)

/-- The reports that the operation made, oldest first. -/
def Performed.reports (performed : Performed L) : List (Report L Terminal) :=
  reportsOf performed.entries

/-- The operation left the cursor where it was. -/
def Performed.Idle (performed : Performed L) : Prop :=
  performed.command.Stays performed.answer

/-- The session after an operation that was performed: cursor and list are as told, the entries are
added to the trace, and the reports among them have been made to the sink. -/
def Session.perform [Sink S L Terminal] (session : Session L S) (performed : Performed L) :
    Session L S :=
  session.record performed.location performed.entries performed.gathered

/-- The second history is the first one without some of its idle operations. -/
inductive LeavesOut : List (Performed L) → List (Performed L) → Prop where
  | nil : LeavesOut [] []
  | keep (performed : Performed L) {history kept : List (Performed L)}
      (rest : LeavesOut history kept) : LeavesOut (performed :: history) (performed :: kept)
  | leave {performed : Performed L} {history kept : List (Performed L)} (idle : performed.Idle)
      (rest : LeavesOut history kept) : LeavesOut (performed :: history) kept

namespace Session

/-- What one state of a session holds that the next operation depends on. -/
def SamePlace (session session' : Session L S) : Prop :=
  session'.location = session.location ∧ session'.gathered = session.gathered

variable [DecidableEq L] [Sink S L Terminal] {scope : Scope L} {fuel : Nat}

/-- The operations of the history lead from one state of a session to another, and each of them does
what is told of it. -/
inductive History (scope : Scope L) (fuel : Nat) :
    Session L S → List (Performed L) → Session L S → Prop where
  | nil (session : Session L S) : History scope fuel session [] session
  | cons {before after : Session L S} {performed : Performed L} {history : List (Performed L)}
      (here : before.step scope fuel performed.command
        = some (performed.answer, before.perform performed))
      (rest : History scope fuel (before.perform performed) history after) :
      History scope fuel before (performed :: history) after

variable {before before' after : Session L S} {command : Command L} {answer : Answer L}
  {commands : List (Command L)} {answers : List (Answer L)} {history kept : List (Performed L)}

omit [DecidableEq L] in
theorem record_inj {l m : L} {es es' : List (TraceEntry L)} {values values' : Array Value}
    (h : before.record l es values = before.record m es' values') :
    l = m ∧ es = es' ∧ values = values' := by
  simp only [record, Session.mk.injEq] at h
  obtain ⟨hl, hes⟩ := before.cursor.record_inj h.1
  exact ⟨hl, hes, h.2⟩

/-- Every operation that comes to an end was performed in some way. -/
theorem exists_performed (h : before.step scope fuel command = some (answer, after)) :
    ∃ performed : Performed L, performed.command = command ∧ performed.answer = answer ∧
      after = before.perform performed := by
  have parallel : Parallel scope.source before before (before.step scope fuel command)
      (before.step scope fuel command) := step_parallel rfl rfl scope fuel command
  rcases parallel with ⟨hnone, -⟩ | ⟨answer', l, es, values, -, hstep, -⟩
  · cases hnone.symm.trans h
  · cases hstep.symm.trans h
    exact ⟨⟨command, answer, l, values, es⟩, rfl, rfl, rfl⟩

/-- Every run that comes to an end has a history. -/
theorem exists_history (h : before.run scope fuel commands = some (answers, after)) :
    ∃ history : List (Performed L), History scope fuel before history after ∧
      history.map (·.command) = commands ∧ history.map (·.answer) = answers := by
  induction commands generalizing before answers with
  | nil =>
    cases h
    exact ⟨[], .nil _, rfl, rfl⟩
  | cons command commands ih =>
    obtain ⟨answer, middle, rest, hstep, hrest, rfl⟩ := run_cons_eq_some.1 h
    obtain ⟨performed, rfl, rfl, rfl⟩ := exists_performed hstep
    obtain ⟨history, hhistory, rfl, rfl⟩ := ih hrest
    exact ⟨performed :: history, .cons hstep hhistory, rfl, rfl⟩

namespace History

theorem run (h : History scope fuel before history after) :
    before.run scope fuel (history.map (·.command)) = some (history.map (·.answer), after) := by
  induction h with
  | nil => rfl
  | cons here _ ih => exact run_cons_eq_some.2 ⟨_, _, _, here, ih, rfl⟩

/-- The trace and the sink hold what the operations made, one after the other. -/
theorem after_eq (h : History scope fuel before history after) :
    after = before.record after.location (history.flatMap (·.entries)) after.gathered := by
  induction h with
  | nil session => simp [record, location]
  | @cons first _ performed _ _ _ ih =>
    rw [List.flatMap_cons, ← first.record_record performed.location _ _ _ performed.gathered]
    exact ih

theorem sink_eq (h : History scope fuel before history after) :
    after.cursor.sink = Sink.reportAll before.cursor.sink (history.flatMap (·.reports)) := by
  have hsink := congrArg (·.cursor.sink) h.after_eq
  have hreports : reportsOf (history.flatMap (·.entries)) = history.flatMap (·.reports) := by
    simp [reportsOf, Performed.reports, List.filterMap_flatMap]
  rw [← hreports]
  exact hsink

end History

/-! ## Idle operations -/

omit [DecidableEq L] [Sink S L Terminal] in
theorem apply_gathered {p : Parser L S α} {f : α → Answer L}
    (h : before.apply p f = some (answer, after)) : after.gathered = before.gathered := by
  unfold apply at h
  split at h <;> cases h <;> rfl

/-- **An idle operation** moves neither the cursor nor the list of the session. -/
theorem step_idle (h : before.step scope fuel command = some (answer, after))
    (idle : command.Stays answer) : before.SamePlace after := by
  refine ⟨(step_moves h).stays idle, ?_⟩
  cases idle with
  | attempt => exact apply_gathered h
  | attemptOptional => exact apply_gathered h
  | absent => exact apply_gathered h
  | peek | atEnd | lookUp | expected | overflow =>
    cases h
    rfl

/-- From the same place, an operation does the same. -/
theorem step_samePlace {performed : Performed L} (same : before.SamePlace before')
    (h : before.step scope fuel performed.command
      = some (performed.answer, before.perform performed)) :
    before'.step scope fuel performed.command
      = some (performed.answer, before'.perform performed) := by
  rcases step_parallel same.1 same.2 scope fuel performed.command with
    ⟨hnone, -⟩ | ⟨answer, l, es, values, -, hstep, hstep'⟩
  · cases hnone.symm.trans h
  · have hsame := hstep.symm.trans h
    simp only [Option.some.injEq, Prod.mk.injEq] at hsame
    obtain ⟨rfl, hrecord⟩ := hsame
    obtain ⟨rfl, rfl, rfl⟩ := record_inj hrecord
    exact hstep'

/-- What is kept of a history goes on from the same place to the same place. -/
theorem History.leavingOut (h : History scope fuel before history after)
    (out : LeavesOut history kept) (same : before.SamePlace before') :
    ∃ last, History scope fuel before' kept last ∧ after.SamePlace last := by
  -- the two sessions stand at the same place before each operation that is kept
  induction out generalizing before before' with
  | nil =>
    cases h
    exact ⟨before', .nil before', same⟩
  | keep performed _ ih =>
    cases h with
    | cons here rest =>
      have arrived : (before.perform performed).SamePlace (before'.perform performed) := ⟨rfl, rfl⟩
      obtain ⟨last, hlast, hplace⟩ := ih rest arrived
      exact ⟨last, .cons (step_samePlace same here) hlast, hplace⟩
  | leave idle _ ih =>
    cases h with
    | cons here rest =>
      have hidle := step_idle here idle
      exact ih rest ⟨same.1.trans hidle.1.symm, same.2.trans hidle.2.symm⟩

/-- **Failed operations leave no mark but their reports.** A run of operations that comes to an end
has a history. Leave out of it any operations that looked at the input, raised an error, or
attempted a rule that failed or was absent. Then the operations that are kept, performed alone,

* have the history that is kept: each of them is answered as before, leaves the cursor and the list
  of the session as before, and adds the same entries to the trace;
* lead to the same place;
* make exactly the reports that they made before, so that of all reports only those of the
  operations left out are missing. -/
theorem run_leaving_out (h : before.run scope fuel commands = some (answers, after)) :
    ∃ history : List (Performed L), History scope fuel before history after ∧
      history.map (·.command) = commands ∧ history.map (·.answer) = answers ∧
      after.cursor.sink = Sink.reportAll before.cursor.sink (history.flatMap (·.reports)) ∧
      ∀ kept, LeavesOut history kept →
        ∃ last, before.run scope fuel (kept.map (·.command)) = some (kept.map (·.answer), last) ∧
          History scope fuel before kept last ∧
          last.location = after.location ∧ last.gathered = after.gathered ∧
          last.cursor.trace = before.cursor.trace ++ (kept.flatMap (·.entries)).toArray ∧
          last.cursor.sink
            = Sink.reportAll before.cursor.sink (kept.flatMap (·.reports)) := by
  obtain ⟨history, hhistory, hcommands, hanswers⟩ := exists_history h
  refine ⟨history, hhistory, hcommands, hanswers, hhistory.sink_eq, ?_⟩
  intro kept out
  obtain ⟨last, hlast, hlocation, hgathered⟩ := hhistory.leavingOut out ⟨rfl, rfl⟩
  exact ⟨last, hlast.run, hlast, hlocation, hgathered,
    congrArg (·.cursor.trace) hlast.after_eq, hlast.sink_eq⟩

/-- Between a letter and a digit, the attempt of another letter and a look at the digit can be left
out. -/
theorem run_leaving_out_letter :
    let scope : Scope Nat :=
      { source := .ofArray #[97, 49], naming := .offsets .byte true, definitions := fun _ => none }
    let before : Session Nat (ReportLog Nat Terminal) := .start scope.source .empty
    let one := Rule.digit .decimal (.unsigned .w8)
    let missing := Error.expected (Rule.letter.identity scope.naming) 1
    ∃ after last : Session Nat (ReportLog Nat Terminal),
      before.run scope 1 [.attempt .letter, .attempt .letter, .peek, .attempt one]
          = some ([.value (.terminal 97), .error missing, .terminal (some 49),
              .value (.integer 1)], after) ∧
        before.run scope 1 [.attempt .letter, .attempt one]
          = some ([.value (.terminal 97), .value (.integer 1)], last) ∧
        last.location = after.location := by
  intro scope before one missing
  have hrun : before.run scope 1 [.attempt .letter, .attempt .letter, .peek, .attempt one]
      = some ([.value (.terminal 97), .error missing, .terminal (some 49), .value (.integer 1)],
          _) := rfl
  obtain ⟨history, -, hcommands, hanswers, -, hkept⟩ := run_leaving_out hrun
  simp only [List.map_eq_cons_iff, List.map_eq_nil_iff] at hcommands
  obtain ⟨first, _, rfl, hfirst, again, _, rfl, hagain, look, _, rfl, hlook, digit, _, rfl, hdigit,
    rfl⟩ := hcommands
  simp only [List.map_cons, List.map_nil, List.cons.injEq] at hanswers
  have idle_again : again.Idle := by
    rw [Performed.Idle, hagain, hanswers.2.1]
    exact .attempt ..
  have idle_look : look.Idle := by
    rw [Performed.Idle, hlook]
    exact .peek _
  obtain ⟨last, hlast, -, hlocation, -⟩ :=
    hkept [first, digit] (.keep _ (.leave idle_again (.leave idle_look (.keep _ .nil))))
  simp only [List.map_cons, List.map_nil, hfirst, hdigit, hanswers] at hlast
  exact ⟨_, last, hrun, hlast, hlocation⟩

end Session

end Backtrack
