import Backtrack.Proofs.Furthest
import Backtrack.Proofs.Lockstep
import Mathlib.Data.List.Forall2

/-!
# Inputs read in step

Two inputs can say the same in terminals of different kinds. If some places of the one stand for
places of the other, and the terminals there are the same wherever they are ASCII
(`Alignment`), then rules that look for ASCII terminals only (`Rule.Ascii`) go through both inputs
in step: with the same values, at places that stand for each other, and with the same reports
(`Alignment.related`).

Nothing is asked of what lies between two places. A terminal that is rejected may end at none, but
the attempt of the rule goes back from there.
-/

namespace Backtrack

/-! ## Rules for ASCII terminals -/

/-- The class accepts ASCII terminals only. -/
def TerminalClass.Ascii : TerminalClass → Prop
  | .any _ => False
  | .exactly _ t => t < 128
  | _ => True

/-- The rule is not one that consumes terminals beyond ASCII itself. -/
def Rule.Ascii : Rule → Prop
  | .terminal accepted => accepted.Ascii
  | .take .. => False
  | _ => True

theorem Terminal.not_between (low high : Char) {t : Terminal} (ht : 128 ≤ t) :
    t.between low high = false := by
  rw [between, ascii?_of_le ht, Option.any_none]

theorem Mark.not_accepts (mark : Mark) {t : Terminal} (ht : 128 ≤ t) :
    mark.accepts t = false := by
  rw [accepts, Terminal.ascii?_of_le ht, Option.any_none]

theorem Digit.value?_eq_none (digit : Digit) {t : Terminal} (ht : 128 ≤ t) :
    digit.value? t = none := by
  cases digit <;> simp [value?, Terminal.not_between _ _ ht]

/-- What lies beyond ASCII is not accepted. -/
theorem TerminalClass.Ascii.accept_eq_none {accepted : TerminalClass} (h : accepted.Ascii)
    {t : Terminal} (ht : 128 ≤ t) : accepted.accept t = none := by
  cases accepted with
  | mark mark => simp [accept, mark.not_accepts ht]
  | letter => simp [accept, Terminal.isLetter, Terminal.not_between _ _ ht]
  | digit digit type => simp [accept, Digit.read?, digit.value?_eq_none ht]
  | any name => exact h.elim
  | exactly name expected =>
    have hne : t ≠ expected := Nat.ne_of_gt (Nat.lt_of_lt_of_le h ht)
    simp [accept, hne]

/-! ## Alignments -/

/-- What stands at two places: no terminal at both, the same terminal, or two beyond ASCII. Behind
the same terminal there are places again. -/
inductive ReadsAlike (place : Nat → Nat → Prop) :
    Option (Terminal × Nat) → Option (Terminal × Nat) → Prop where
  | ended : ReadsAlike place none none
  | same {t : Terminal} {next next' : Nat} (there : place next next') :
      ReadsAlike place (some (t, next)) (some (t, next'))
  | beyond {t t' : Terminal} {next next' : Nat} (ht : 128 ≤ t) (ht' : 128 ≤ t') :
      ReadsAlike place (some (t, next)) (some (t', next'))

/-- Two inputs that say the same, under the same definitions: some locations of the one stand for
locations of the other. -/
structure Alignment where
  scope : Scope Nat
  scope' : Scope Nat
  definitions : scope'.definitions = scope.definitions
  /-- The location of the second input that a location of the first stands for. -/
  place : Nat → Nat → Prop
  start : place scope.source.start scope'.source.start
  lt_iff : ∀ {l l' m m' : Nat}, place l l' → place m m' → (l < m ↔ l' < m')
  reads : ∀ {l l' : Nat}, place l l' →
    ReadsAlike place (scope.source.terminalAt l) (scope'.source.terminalAt l')

namespace Alignment

variable {S T α β : Type} (A : Alignment) {l l' m m' : Nat}

/-- Places are told apart alike. -/
theorem eq_iff (h : A.place l l') (h' : A.place m m') : l = m ↔ l' = m' := by
  have hlt := A.lt_iff h h'
  have hgt := A.lt_iff h' h
  omega

/-! ### The same outcome -/

/-- Errors of the same kind, for the same rule or type, at one place. The rule is named by each
input in its own way. -/
inductive SameError : Error Nat → Error Nat → Prop where
  | expected (rule : Rule) {l l' : Nat} (here : A.place l l') :
      SameError (.expected (rule.identity A.scope.naming) l)
        (.expected (rule.identity A.scope'.naming) l')
  | overflow (type : String) {l l' : Nat} (here : A.place l l') :
      SameError (.overflow type l) (.overflow type l')

/-- Reports of the same error, each with what its own input has there. -/
def SameReport (report report' : Report Nat Terminal) : Prop :=
  ∃ error error', A.SameError error error' ∧ report = A.scope.source.reportOf error ∧
    report' = A.scope'.source.reportOf error'

/-- The same value at one place or the same error, after the same reports. Where a failed parser
stands does not matter. -/
inductive SameAccount : Account Nat α → Account Nat α → Prop where
  | ok (value : α) {m m' : Nat} {es es' : List (TraceEntry Nat)} (there : A.place m m')
      (reports : List.Forall₂ A.SameReport (reportsOf es) (reportsOf es')) :
      SameAccount ⟨.ok value, m, es⟩ ⟨.ok value, m', es'⟩
  | error {error error' : Error Nat} {m m' : Nat} {es es' : List (TraceEntry Nat)}
      (same : A.SameError error error')
      (reports : List.Forall₂ A.SameReport (reportsOf es) (reportsOf es')) :
      SameAccount ⟨.error error, m, es⟩ ⟨.error error', m', es'⟩

variable {A}

theorem SameError.place {error error' : Error Nat} (h : A.SameError error error') :
    A.place error.location error'.location := by
  cases h with
  | expected rule here => exact here
  | overflow type here => exact here

theorem SameError.recoverable {error error' : Error Nat} (h : A.SameError error error') :
    error'.recoverable = error.recoverable := by
  -- evaluated on each side, since the two names of a rule are not to be compared
  cases h <;> simp only [Error.recoverable]

/-! ### Composed accounts -/

namespace SameAccount

variable {a a' : Account Nat α}

theorem done (value : α) (here : A.place l l') :
    A.SameAccount (.done value l) (.done value l') :=
  .ok value here .nil

theorem raised {error error' : Error Nat} (same : A.SameError error error') :
    A.SameAccount (.raised A.scope.source error m : Account Nat α)
      (.raised A.scope'.source error' m') :=
  .error same (.cons ⟨error, error', same, rfl, rfl⟩ .nil)

theorem after {es es' : List (TraceEntry Nat)} (h : A.SameAccount a a')
    (before : List.Forall₂ A.SameReport (reportsOf es) (reportsOf es')) :
    A.SameAccount (a.after es) (a'.after es') := by
  cases h with
  | ok value there reports =>
    refine .ok value there ?_
    simpa using List.rel_append before reports
  | error same reports =>
    refine .error same ?_
    simpa using List.rel_append before reports

/-- What follows a match goes on from one place, after the same reports. -/
theorem goesOn (h : A.SameAccount a a') :
    a.GoesOn A.place (A.SameAccount : Account Nat β → Account Nat β → Prop) a' := by
  cases h with
  | ok value there reports => exact .ok value there fun same => same.after reports
  | error same reports => exact .error (.error same reports)

/-- After an attempt, both parsers are at one place, whatever the outcome. -/
theorem rewind (h : A.SameAccount a a') (here : A.place l l') (name name' : String) :
    A.SameAccount (a.rewind name l) (a'.rewind name' l') ∧
      A.place (a.rewind name l).location (a'.rewind name' l').location := by
  cases h with
  | ok value there reports => exact ⟨.ok value there reports, there⟩
  | error same reports => exact ⟨.error same (by simpa using reports), here⟩

theorem optional (h : A.SameAccount a a') (there : A.place a.location a'.location) :
    A.SameAccount a.optional a'.optional := by
  cases h with
  | ok value there reports => exact .ok (some value) there reports
  | @error error error' m m' es es' same reports =>
    simp only [Account.optional, same.recoverable]
    cases error.recoverable with
    | true => exact .ok none there reports
    | false => exact .error same reports

theorem moving (h : A.SameAccount a a') (here : A.place l l') :
    A.SameAccount (a.moving l) (a'.moving l') := by
  cases h with
  | @ok value m m' es es' there reports =>
    have hmoved : decide (m' ≠ l') = decide (m ≠ l) :=
      decide_eq_decide.2 (not_congr (A.eq_iff there here).symm)
    show A.SameAccount (⟨.ok (value, decide (m ≠ l)), m, es⟩ : Account Nat (α × Bool))
      ⟨.ok (value, decide (m' ≠ l')), m', es'⟩
    rw [hmoved]
    exact .ok _ there reports
  | error same reports => exact .error same reports

/-- A terminal that is accepted is ASCII, and so is the one at the other place. -/
theorem reading {accepted : TerminalClass} (ascii : accepted.Ascii) {accept : Terminal → Option α}
    (same : ∀ t, (accept t).isSome = (accepted.accept t).isSome) (here : A.place l l') :
    A.SameAccount (.reading A.scope (.terminal accepted) accept l)
      (.reading A.scope' (.terminal accepted) accept l') := by
  have rejected {t : Terminal} (ht : 128 ≤ t) : accept t = none := by
    have hnone := same t
    rw [ascii.accept_eq_none ht] at hnone
    exact Option.isNone_iff_eq_none.1 (by simpa using hnone)
  let missing : Error Nat := .expected ((Rule.terminal accepted).identity A.scope.naming) l
  let missing' : Error Nat := .expected ((Rule.terminal accepted).identity A.scope'.naming) l'
  have absent (m m' : Nat) : A.SameAccount (.raised A.scope.source missing m : Account Nat α)
      (.raised A.scope'.source missing' m') := raised (.expected (.terminal accepted) here)
  have hread := A.reads here
  unfold Account.reading
  generalize A.scope.source.terminalAt l = read, A.scope'.source.terminalAt l' = read' at hread
  cases hread with
  | ended => exact absent l l'
  | @same t next next' there =>
    simp only
    cases accept t with
    | none => exact absent next next'
    | some value => exact done value there
  | @beyond t t' next next' ht ht' =>
    simp only [rejected ht, rejected ht']
    exact absent next next'

theorem ending (here : A.place l l') :
    A.SameAccount (.ending A.scope l) (.ending A.scope' l') := by
  have hread := A.reads here
  unfold Account.ending
  generalize A.scope.source.terminalAt l = read, A.scope'.source.terminalAt l' = read' at hread
  cases hread with
  | ended => exact done Value.unit here
  | same | beyond => exact raised (.expected .endOfInput here)

theorem combining {read read' : Account Nat (Option Int)} (h : A.SameAccount read read')
    (here : A.place l l') (type : IntegerType) (combine : Int → Option Int) :
    A.SameAccount (.combining A.scope.source type combine l read)
      (.combining A.scope'.source type combine l' read') := by
  cases h with
  | error same reports => exact .error same reports
  | ok digit there reports =>
    cases digit with
    | none => exact .ok none there reports
    | some digit =>
      simp only [Account.combining]
      cases combine digit with
      | some value => exact .ok (some value) there reports
      | none => exact (raised (.overflow type.name here)).after reports

theorem nextDigit {alphabet : Digit} {type : IntegerType} (here : A.place l l')
    (combine : Int → Option Int) :
    A.SameAccount (.nextDigit A.scope alphabet type combine l)
      (.nextDigit A.scope' alphabet type combine l') := by
  have ascii : (TerminalClass.digit alphabet type).Ascii := trivial
  have hread : A.SameAccount (.reading A.scope (.digit alphabet type) (alphabet.read? type) l)
      (.reading A.scope' (.digit alphabet type) (alphabet.read? type) l') :=
    reading ascii (fun t => by simp [TerminalClass.accept]) here
  obtain ⟨hback, hplace⟩ := hread.rewind here ((Rule.digit alphabet type).identity A.scope.naming)
    ((Rule.digit alphabet type).identity A.scope'.naming)
  exact (hback.optional hplace).combining here type combine

end SameAccount

/-! ### Parsers in step -/

section

variable (A) [Sink S Nat Terminal] [Sink T Nat Terminal]

/-- From places that stand for each other both parsers do the same, or neither comes to an end. -/
abbrev InStep (p : Parser Nat S α) (p' : Parser Nat T α) : Prop :=
  p.Lockstep A.place A.SameAccount p'

/-- **Rules for ASCII terminals go in step**: all that they are put together from does. -/
theorem related : Related A.scope A.scope' Rule.Ascii
    fun {α} (p : Parser Nat S α) (p' : Parser Nat T α) => A.InStep p p' where
  unfinished _ _ _ := .inl ⟨rfl, rfl⟩
  pure value :=
    .leaf (.done value) (.done value) (.done value)
      (fun cursor => Parser.pure_account cursor value)
      fun cursor => Parser.pure_account cursor value
  bind hp hf := hp.bind hf SameAccount.goesOn
  moving hp :=
    hp.changed (fun l a => a.moving l) (fun l a => a.moving l)
      (fun _ h => by simp [Parser.moving, h]) (fun _ h => by simp [Parser.moving, h])
      (fun cursor _ => Parser.moving_account cursor)
      (fun cursor _ => Parser.moving_account cursor) fun here same => same.moving here
  attempt rule _ _ hp :=
    hp.changed (fun l a => a.rewind (rule.identity A.scope.naming) l)
      (fun l a => a.rewind (rule.identity A.scope'.naming) l)
      (fun _ => A.scope.attempt_unfinished rule) (fun _ => A.scope'.attempt_unfinished rule)
      (fun _ _ => A.scope.attempt_account rule) (fun _ _ => A.scope'.attempt_account rule)
      fun here same => (same.rewind here _ _).1
  attemptOptional rule _ _ hp :=
    hp.changed (fun l a => (a.rewind (rule.identity A.scope.naming) l).optional)
      (fun l a => (a.rewind (rule.identity A.scope'.naming) l).optional)
      (fun _ => A.scope.attemptOptional_unfinished rule)
      (fun _ => A.scope'.attemptOptional_unfinished rule)
      (fun _ _ => A.scope.attemptOptional_account rule)
      (fun _ _ => A.scope'.attemptOptional_account rule)
      fun here same => (same.rewind here _ _).1.optional (same.rewind here _ _).2
  terminal accepted ascii accept same :=
    .leaf (.reading A.scope (.terminal accepted) accept)
      (.reading A.scope' (.terminal accepted) accept) (.reading ascii same)
      (fun cursor => A.scope.acceptTerminal_account cursor _ accept)
      fun cursor => A.scope'.acceptTerminal_account cursor _ accept
  nextDigit alphabet type _ combine :=
    .leaf (.nextDigit A.scope alphabet type combine) (.nextDigit A.scope' alphabet type combine)
      (fun here => .nextDigit here combine)
      (fun cursor => A.scope.nextDigit_account cursor alphabet type combine)
      fun cursor => A.scope'.nextDigit_account cursor alphabet type combine
  ending _ :=
    .leaf (.ending A.scope) (.ending A.scope') .ending
      (fun cursor => A.scope.ending_account cursor) fun cursor => A.scope'.ending_account cursor
  advance _ _ impossible := impossible.elim
  expectedHere rule :=
    .leaf (fun l => .raised A.scope.source (.expected (rule.identity A.scope.naming) l) l)
      (fun l => .raised A.scope'.source (.expected (rule.identity A.scope'.naming) l) l)
      (fun here => .raised (.expected rule here))
      (fun cursor => A.scope.expectedHere_account cursor rule)
      fun cursor => A.scope'.expectedHere_account cursor rule
  overflowHere type :=
    .leaf (fun l => .raised A.scope.source (.overflow type.name l) l)
      (fun l => .raised A.scope'.source (.overflow type.name l) l)
      (fun here => .raised (.overflow type.name here))
      (fun cursor => A.scope.overflowHere_account cursor type)
      fun cursor => A.scope'.overflowHere_account cursor type
  silent name _ :=
    .leaf (fun l => ⟨.error (.expected name l), l, []⟩)
      (fun l => ⟨.error (.expected name l), l, []⟩)
      (fun here => .error (.expected (.silent name) here) .nil)
      (fun cursor => Parser.absentHere_account cursor name)
      fun cursor => Parser.absentHere_account cursor name

end

/-! ### Attempts and whole inputs -/

section

variable (A) [Sink S Nat Terminal] [Sink T Nat Terminal] (fuel : Nat) {rule : Rule}
  (ascii : A.scope.Throughout Rule.Ascii rule)
include ascii

/-- **Attempts end alike**, and leave the cursors at one place whatever the outcome. -/
theorem attempt_same {cursor : Cursor Nat S} {cursor' : Cursor Nat T}
    (here : A.place cursor.location cursor'.location) :
    rule.attempt A.scope fuel cursor = .unfinished ∧
        rule.attempt A.scope' fuel cursor' = .unfinished ∨
      ∃ a a' : Account Nat Value, rule.attempt A.scope fuel cursor = a.replyTo cursor ∧
        rule.attempt A.scope' fuel cursor' = a'.replyTo cursor' ∧ A.SameAccount a a' ∧
          A.place a.location a'.location := by
  have hparse : A.InStep (rule.parse A.scope fuel : Parser Nat S Value)
      (rule.parse A.scope' fuel : Parser Nat T Value) :=
    A.related.parse A.definitions fuel ascii
  rcases hparse cursor cursor' here with ⟨h, h'⟩ | ⟨a, a', h, h', same⟩
  · exact .inl ⟨A.scope.attempt_unfinished rule h, A.scope'.attempt_unfinished rule h'⟩
  · obtain ⟨hback, hplace⟩ := same.rewind here (rule.identity A.scope.naming)
      (rule.identity A.scope'.naming)
    exact .inr ⟨_, _, A.scope.attempt_account rule h, A.scope'.attempt_account rule h', hback,
      hplace⟩

end

variable (A)

/-- The same errors kept at one place, with what each input has there. Names may fall together in
one input that are told apart in the other, so that the errors need not be as many. -/
inductive SameFurthest : FurthestReports Nat Terminal → FurthestReports Nat Terminal → Prop where
  | empty : SameFurthest .empty .empty
  | reached {l l' : Nat} {errors errors' : List (Error Nat)} (here : A.place l l')
      (kept : ∀ error ∈ errors, ∃ error' ∈ errors', A.SameError error error')
      (kept' : ∀ error' ∈ errors', ∃ error ∈ errors, A.SameError error error') :
      SameFurthest (.reached l errors (A.scope.source.found l))
        (.reached l' errors' (A.scope'.source.found l'))

variable {A}

theorem SameFurthest.single {error error' : Error Nat} (same : A.SameError error error') :
    A.SameFurthest (.reached error.location [error] (A.scope.source.found error.location))
      (.reached error'.location [error'] (A.scope'.source.found error'.location)) :=
  .reached same.place (by simpa using same) (by simpa using same)

/-- One report is kept, dropped or preferred alike. -/
theorem SameFurthest.report {sink sink' : FurthestReports Nat Terminal}
    (h : A.SameFurthest sink sink') {new new' : Report Nat Terminal}
    (hnew : A.SameReport new new') : A.SameFurthest (sink.report new) (sink'.report new') := by
  obtain ⟨error, error', same, rfl, rfl⟩ := hnew
  cases h with
  | empty => exact .single same
  | @reached l l' errors errors' here kept kept' =>
    have hlt := A.lt_iff same.place here
    have hgt := A.lt_iff here same.place
    rcases lt_trichotomy error.location l with h | h | h
    · rw [FurthestReports.report_earlier h, FurthestReports.report_earlier (hlt.1 h)]
      exact .reached here kept kept'
    · have h' : error'.location = l' := (A.eq_iff same.place here).1 h
      have tie {source : Source Nat} {e : Error Nat} {m : Nat} (errors : List (Error Nat))
          (he : e.location = m) : ∃ all,
            (FurthestReports.reached m errors (source.found m)).report (source.reportOf e)
                = .reached m all (source.found m) ∧
              ∀ x, x ∈ all ↔ x ∈ errors ∨ x = e := FurthestReports.report_tie he
      obtain ⟨all, hreport, hall⟩ := tie errors h
      obtain ⟨all', hreport', hall'⟩ := tie errors' h'
      rw [hreport, hreport']
      refine .reached here ?_ ?_
      · intro e he
        rcases (hall e).1 he with he | rfl
        · obtain ⟨e', he', hsame⟩ := kept e he
          exact ⟨e', (hall' e').2 (.inl he'), hsame⟩
        · exact ⟨error', (hall' error').2 (.inr rfl), same⟩
      · intro e' he'
        rcases (hall' e').1 he' with he' | rfl
        · obtain ⟨e, he, hsame⟩ := kept' e' he'
          exact ⟨e, (hall e).2 (.inl he), hsame⟩
        · exact ⟨error, (hall error).2 (.inr rfl), same⟩
    · rw [FurthestReports.report_further h, FurthestReports.report_further (hgt.1 h)]
      exact .single same

theorem SameFurthest.reportAll {reports reports' : List (Report Nat Terminal)}
    (same : List.Forall₂ A.SameReport reports reports') {sink sink' : FurthestReports Nat Terminal}
    (h : A.SameFurthest sink sink') :
    A.SameFurthest (Sink.reportAll sink reports) (Sink.reportAll sink' reports') := by
  induction same generalizing sink sink' with
  | nil => exact h
  | cons hnew _ ih => exact ih (h.report hnew)

variable (A)

/-- The same verdict on two whole inputs: with the same value, or with the same error and the same
reports kept. -/
inductive SameVerdict : Verdict Nat (FurthestReports Nat Terminal) →
    Verdict Nat (FurthestReports Nat Terminal) → Prop where
  | unfinished : SameVerdict .unfinished .unfinished
  | accepted (value : Value) (trace trace' : Array (TraceEntry Nat)) :
      SameVerdict (.accepted value trace) (.accepted value trace')
  | rejected {failure failure' : Failure Nat (FurthestReports Nat Terminal)}
      (same : A.SameError failure.error failure'.error)
      (kept : A.SameFurthest failure.sink failure'.sink) (trace trace' : Array (TraceEntry Nat)) :
      SameVerdict (.rejected failure trace) (.rejected failure' trace')

/-- **Whole inputs are judged alike.** -/
theorem parseAll_same (fuel : Nat) {rule : Rule} (ascii : A.scope.Throughout Rule.Ascii rule) :
    A.SameVerdict (rule.parseAll A.scope fuel .empty) (rule.parseAll A.scope' fuel .empty) := by
  have hend : A.scope.Throughout Rule.Ascii .endOfInput := .intro trivial (by simp [Rule.parts])
  have hthen : A.InStep
      (rule.thenEnd A.scope fuel : Parser Nat (FurthestReports Nat Terminal) Value)
      (rule.thenEnd A.scope' fuel : Parser Nat (FurthestReports Nat Terminal) Value) :=
    A.related.thenEnd A.definitions fuel ascii hend
  rcases hthen (.atStart A.scope.source .empty) (.atStart A.scope'.source .empty) A.start with
    ⟨h, h'⟩ | ⟨a, a', h, h', same⟩
  · rw [Rule.parseAll_of_unfinished h, Rule.parseAll_of_unfinished h']
    exact .unfinished
  cases same with
  | ok value there reports =>
    rw [Rule.parseAll_of_ok h, Rule.parseAll_of_ok h']
    exact .accepted value _ _
  | error same reports =>
    rw [Rule.parseAll_of_fail h, Rule.parseAll_of_fail h']
    exact .rejected same (.reportAll reports .empty) _ _

end Alignment

end Backtrack
