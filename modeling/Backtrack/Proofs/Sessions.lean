import Backtrack.Grammar.Sample
import Backtrack.Proofs.Trail
import Backtrack.Session
import Mathlib.Tactic

/-!
# Where sessions lead

Whatever operations a session performs, its cursor only moves over whole terminals, and only
forward (`Session.step_moves`). What a failed attempt consumed is given back, and a repetition that
fails stops where its last element was tried. On sequences and texts the cursor therefore never
leaves the input, never stands inside a character, and is done exactly at the end
(`Session.visits_whole_terminals`).
-/

namespace Backtrack

variable {L S α σ : Type}

/-! ## Repeated attempts -/

namespace Scope

variable [DecidableEq L] {scope : Scope L} {rule : Rule} {p : Parser L S α} {extend : σ → α → σ}
  {fuel : Nat} {gathered result : σ} {cursor after : Cursor L S}

/-- A repetition goes over whole terminals. Where an error ends it, the element that failed was
tried where it stops. -/
theorem attemptManyInto_stops [Sink S L Terminal] (hp : p.Follows scope.source True)
    {error? : Option (Error L)}
    (h : scope.attemptManyInto rule p extend fuel gathered cursor = .ok (result, error?) after) :
    scope.source.Reaches cursor.location after.location ∧
      ∀ error, error? = some error →
        ∃ tried : Cursor L S, tried.location = after.location ∧
          scope.attempt rule p tried = .fail error after := by
  -- turn by turn, until one ends the repetition
  induction fuel generalizing gathered cursor with
  | zero => simp [attemptManyInto] at h
  | succ fuel ih =>
    simp only [attemptManyInto] at h
    cases hc : scope.attemptOptional rule p cursor with
    | ok value c =>
      have here : scope.source.Reaches cursor.location c.location :=
        (hp.attemptOptional rule).reaches (by rw [hc]; rfl)
      cases value with
      | none =>
        simp only [hc] at h
        cases h
        exact ⟨here, by simp⟩
      | some value =>
        simp only [hc] at h
        split at h
        · cases h
          exact ⟨here, by simp⟩
        · obtain ⟨rest, tried⟩ := ih h
          exact ⟨here.trans rest, tried⟩
    | fail error c =>
      simp only [hc] at h
      cases h
      have hattempt := attemptOptional_fail hc
      have hback := attempt_fail_location hattempt
      refine ⟨hback ▸ .refl _ _, ?_⟩
      intro error herror
      cases herror
      exact ⟨cursor, hback.symm, hattempt⟩
    | unfinished => simp [hc] at h

end Scope

/-! ## One operation -/

/-- The error that an operation ended with. -/
def Answer.error? : Answer L → Option (Error L)
  | .error e => some e
  | .extended e => e
  | _ => none

/-- The rule that an operation repeats. -/
def Command.repeated? : Command L → Option Rule
  | .attemptMany rule _ => some rule
  | .attemptManyInto rule => some rule
  | _ => none

/-- With this answer the operation has not moved the cursor. -/
inductive Command.Stays : Command L → Answer L → Prop where
  | peek (answer : Answer L) : Stays .peek answer
  | atEnd (answer : Answer L) : Stays .atEnd answer
  | lookUp (location : L) (answer : Answer L) : Stays (.lookUp location) answer
  | attempt (rule : Rule) (error : Error L) : Stays (.attempt rule) (.error error)
  | attemptOptional (rule : Rule) (error : Error L) : Stays (.attemptOptional rule) (.error error)
  | absent (rule : Rule) : Stays (.attemptOptional rule) (.value .absent)
  | expected (rule : Rule) (location : L) (answer : Answer L) :
      Stays (.expected rule location) answer
  | overflow (type : String) (location : L) (answer : Answer L) :
      Stays (.overflow type location) answer

namespace Session

/-- Where the session has come to. -/
def location (session : Session L S) : L :=
  session.cursor.location

variable {scope : Scope L} {fuel : Nat} {command : Command L} {answer : Answer L}
  {before after : Session L S}

theorem apply_eq_some {p : Parser L S α} {f : α → Answer L}
    (h : before.apply p f = some (answer, after)) :
    (∃ value, p before.cursor = .ok value after.cursor ∧ answer = f value) ∨
      ∃ error, p before.cursor = .fail error after.cursor ∧ answer = .error error := by
  unfold apply at h
  split at h
  · next value cursor hp =>
    cases h
    exact .inl ⟨value, hp, rfl⟩
  · next error cursor hp =>
    cases h
    exact .inr ⟨error, hp, rfl⟩
  · cases h

variable [Sink S L Terminal]

theorem apply_reaches {p : Parser L S α} {f : α → Answer L} {source : Source L}
    (hp : p.Follows source True) (h : before.apply p f = some (answer, after)) :
    source.Reaches before.location after.location := by
  refine hp.reaches ?_
  rcases apply_eq_some h with ⟨value, h, -⟩ | ⟨error, h, -⟩
  · rw [h]
    rfl
  · rw [h]
    rfl

variable [DecidableEq L]

/-- What one operation does to the location. -/
structure Moves (scope : Scope L) (fuel : Nat) (command : Command L) (answer : Answer L)
    (before after : Session L S) : Prop where
  reaches : scope.source.Reaches before.location after.location
  stays : command.Stays answer → after.location = before.location
  /-- A repetition that fails stops where the element that failed was tried. -/
  tried : ∀ rule error, command.repeated? = some rule → answer.error? = some error →
    ∃ tried : Cursor L S, tried.location = after.location ∧
      rule.attempt scope fuel tried = .fail error after.cursor

theorem Moves.of_eq (h : after.location = before.location) (once : command.repeated? = none) :
    Moves scope fuel command answer before after where
  reaches := h ▸ .refl _ _
  stays _ := h
  tried := by simp [once]

/-- **One operation** leads over whole terminals, gives back what failed, and stops a failing
repetition where its element failed. -/
theorem step_moves (h : before.step scope fuel command = some (answer, after)) :
    Moves scope fuel command answer before after := by
  have follows (rule : Rule) :
      (rule.parse scope fuel : Parser L S Value).Follows scope.source True :=
    rule.parse_follows_any scope fuel
  cases command with
  | peek =>
    cases h
    exact .of_eq rfl rfl
  | atEnd =>
    cases h
    exact .of_eq rfl rfl
  | lookUp location =>
    cases h
    exact .of_eq rfl rfl
  | expected rule location =>
    cases h
    exact .of_eq rfl rfl
  | overflow type location =>
    cases h
    exact .of_eq rfl rfl
  | advance =>
    refine ⟨apply_reaches ?_ h, ?_, by simp [Command.repeated?]⟩
    · intro cursor
      exact .inr ⟨_, Parser.advance_account cursor scope.source, .advancing⟩
    · intro hstays
      cases hstays
  | attempt rule =>
    refine ⟨apply_reaches ((follows rule).attempt rule) h, ?_, by simp [Command.repeated?]⟩
    intro hstays
    cases hstays
    rcases apply_eq_some h with ⟨value, -, hvalue⟩ | ⟨error, hfail, -⟩
    · cases hvalue
    · exact Scope.attempt_fail_location hfail
  | attemptOptional rule =>
    refine ⟨apply_reaches ((follows rule).attemptOptional rule) h, ?_,
      by simp [Command.repeated?]⟩
    intro hstays
    rcases apply_eq_some h with ⟨value, hvalue, hanswer⟩ | ⟨error, hfail, -⟩
    · cases value with
      | none => exact Scope.attemptOptional_none_location hvalue
      | some value =>
        subst hanswer
        cases hstays
    · exact Scope.attempt_fail_location (Scope.attemptOptional_fail hfail)
  | attemptMany rule into =>
    rcases apply_eq_some h with ⟨value, hvalue, rfl⟩ | ⟨error, hfail, rfl⟩
    · obtain ⟨reaches, -⟩ := Scope.attemptManyInto_stops (follows rule) (Scope.extendMany_ok hvalue)
      exact ⟨reaches, nofun, nofun⟩
    · obtain ⟨result, hfail⟩ := Scope.extendMany_fail hfail
      obtain ⟨reaches, tried⟩ := Scope.attemptManyInto_stops (follows rule) hfail
      refine ⟨reaches, nofun, ?_⟩
      intro rule error hrepeated herror
      cases hrepeated
      cases herror
      exact tried error rfl
  | attemptManyInto rule =>
    simp only [step] at h
    split at h <;> cases h
    · next error hstop =>
      obtain ⟨reaches, tried⟩ := Scope.attemptManyInto_stops (follows rule) hstop
      refine ⟨reaches, nofun, ?_⟩
      intro rule e hrepeated herror
      cases hrepeated
      exact tried e herror
    · next hfail => exact absurd hfail Scope.attemptManyInto_ne_fail

/-! ## Whole sessions -/

/-- A session begun at the start of the source comes to this state by some operations. -/
def Visits (scope : Scope L) (fuel : Nat) (sink : S) (session : Session L S) : Prop :=
  ∃ commands answers, (start scope.source sink).run scope fuel commands = some (answers, session)

variable {commands : List (Command L)} {answers : List (Answer L)}

theorem run_cons_eq_some {first : Command L} :
    before.run scope fuel (first :: commands) = some (answers, after) ↔
      ∃ answer middle rest, before.step scope fuel first = some (answer, middle) ∧
        middle.run scope fuel commands = some (rest, after) ∧ answers = answer :: rest := by
  simp only [run, Option.bind_eq_bind, Option.bind_eq_some_iff, Option.pure_def,
    Option.some.injEq, Prod.mk.injEq, Prod.exists]
  constructor
  · rintro ⟨answer, middle, hfirst, rest, last, hrest, rfl, rfl⟩
    exact ⟨answer, middle, rest, hfirst, hrest, rfl⟩
  · rintro ⟨answer, middle, rest, hfirst, hrest, rfl⟩
    exact ⟨answer, middle, hfirst, rest, after, hrest, rfl, rfl⟩

/-- A run of operations ends with one more. -/
theorem run_concat (hrun : before.run scope fuel commands = some (answers, after))
    {last : Session L S} (hstep : after.step scope fuel command = some (answer, last)) :
    before.run scope fuel (commands ++ [command]) = some (answers ++ [answer], last) := by
  induction commands generalizing before answers with
  | nil =>
    cases hrun
    simp [run, hstep]
  | cons first commands ih =>
    obtain ⟨answer, middle, rest, hfirst, hrest, rfl⟩ := run_cons_eq_some.1 hrun
    exact run_cons_eq_some.2 ⟨answer, middle, _, hfirst, ih hrest, rfl⟩

theorem run_reaches (hrun : before.run scope fuel commands = some (answers, after)) :
    scope.source.Reaches before.location after.location := by
  induction commands generalizing before answers with
  | nil =>
    cases hrun
    exact .refl _ _
  | cons first commands ih =>
    obtain ⟨answer, middle, rest, hfirst, hrest, rfl⟩ := run_cons_eq_some.1 hrun
    exact (step_moves hfirst).reaches.trans (ih hrest)

variable {sink : S}

theorem Visits.step (h : Visits scope fuel sink before)
    (hstep : before.step scope fuel command = some (answer, after)) :
    Visits scope fuel sink after := by
  obtain ⟨commands, answers, hrun⟩ := h
  exact ⟨_, _, run_concat hrun hstep⟩

theorem Visits.reaches (h : Visits scope fuel sink before) :
    scope.source.Reaches scope.source.start before.location := by
  obtain ⟨commands, answers, hrun⟩ := h
  exact run_reaches hrun

end Session

/-! ## The end of the input -/

namespace Rule

variable [DecidableEq L] [Sink S L Terminal] {scope : Scope L} {fuel : Nat} {value : Value}
  {cursor after : Cursor L S}

/-- Looking for the end does not move the cursor, so that its attempt has nothing to give back. -/
theorem endOfInput_attempt :
    endOfInput.attempt scope (fuel + 1) cursor
      = (Account.ending scope cursor.location).replyTo cursor := by
  refine (scope.attempt_account .endOfInput (scope.ending_account cursor)).trans ?_
  congr 1
  unfold Account.ending
  cases scope.source.terminalAt cursor.location with
  | none => rfl
  | some read => simp [Account.raised, Account.rewind, backtrack]

theorem endOfInput_attempt_ok (h : endOfInput.attempt scope fuel cursor = .ok value after) :
    scope.source.found cursor.location = none ∧ after = cursor := by
  cases fuel with
  | zero => cases h
  | succ fuel =>
    rw [endOfInput_attempt, Account.ending] at h
    cases here : scope.source.terminalAt cursor.location with
    | none =>
      simp only [here, Account.done, Account.replyTo, Cursor.record_nil] at h
      cases h
      exact ⟨Source.found_eq_none.2 here, rfl⟩
    | some read => simp [here, Account.raised, Account.replyTo] at h

/-- A rule that matches a whole input stops where no terminal is left. -/
theorem thenEnd_ok {rule : Rule} (h : rule.thenEnd scope fuel cursor = .ok value after) :
    rule.attempt scope fuel cursor = .ok value after ∧
      scope.source.found after.location = none := by
  obtain ⟨first, middle, hrule, hrest⟩ := Parser.bind_eq_ok.1 (Scope.attempt_eq_ok.1 h)
  have hrest : (endOfInput.attempt scope fuel >>= fun _ => pure first) middle = .ok value after :=
    hrest
  obtain ⟨_, last, hend, hpure⟩ := Parser.bind_eq_ok.1 hrest
  obtain ⟨hnone, rfl⟩ := endOfInput_attempt_ok hend
  cases hpure
  exact ⟨hrule, hnone⟩

end Rule

/-- **Only whole terminals, and only forward**, in three parts.

* On every source, each state of a session lies whole terminals after the start, and each operation
  goes on from there over whole terminals; what failed is given back.
* On a sequence or a text, the location never decreases, lies within the input, on a character
  boundary if it is a text, and the input has ended exactly at its size. The rule for the end of the
  input matches only there.
* A whole input is accepted only if its rule stops at its size. -/
theorem Session.visits_whole_terminals :
    (∀ {L S : Type} [DecidableEq L] [Sink S L Terminal] (scope : Scope L) (fuel : Nat) (sink : S)
      (before : Session L S), Visits scope fuel sink before →
        scope.source.Reaches scope.source.start before.location ∧
        ∀ command answer after, before.step scope fuel command = some (answer, after) →
          Visits scope fuel sink after ∧ Moves scope fuel command answer before after) ∧
    (∀ {S : Type} [Sink S Nat Terminal] (scope : Scope Nat) (size fuel : Nat) (sink : S)
      (before : Session Nat S), scope.source.Addressed size → Visits scope fuel sink before →
        before.location ≤ size ∧
        (∀ text, scope.source = .ofText text →
          String.Pos.Raw.IsValid text ⟨before.location⟩) ∧
        (before.cursor.atEnd scope.source ↔ before.location = size) ∧
        (∀ command answer after, before.step scope fuel command = some (answer, after) →
          before.location ≤ after.location) ∧
        ∀ value after, Rule.endOfInput.attempt scope fuel before.cursor = .ok value after →
          before.location = size) ∧
    ∀ {S : Type} [Sink S Nat Terminal] (scope : Scope Nat) (size fuel : Nat) (sink : S)
      (rule : Rule) (value : Value) (trace : Array (TraceEntry Nat)),
      scope.source.Addressed size → rule.parseAll scope fuel sink = .accepted value trace →
        ∃ stop, rule.attempt scope fuel (.atStart scope.source sink) = .ok value stop ∧
          stop.location = size := by
  refine ⟨?_, ?_, ?_⟩
  · intro L S _ _ scope fuel sink before h
    refine ⟨h.reaches, fun command answer after hstep => ⟨h.step hstep, step_moves hstep⟩⟩
  · intro S _ scope size fuel sink before haddressed h
    obtain ⟨ts, -, hle, -⟩ := haddressed.spells h.reaches
    refine ⟨hle, ?_, ?_, ?_, ?_⟩
    · intro text htext
      have hreaches := h.reaches
      rw [htext] at hreaches
      exact Source.isValid_of_reaches hreaches
    · rw [← haddressed.found_eq_none_iff h.reaches, Cursor.atEnd, Option.isNone_iff_eq_none]
      rfl
    · intro command answer after hstep
      exact haddressed.le_of_reaches (step_moves hstep).reaches
    · intro value after hend
      exact (haddressed.found_eq_none_iff h.reaches).1 (Rule.endOfInput_attempt_ok hend).1
  · intro S _ scope size fuel sink rule value trace haddressed h
    unfold Rule.parseAll at h
    split at h <;> cases h
    · next stop hend =>
      obtain ⟨hrule, hnone⟩ := Rule.thenEnd_ok hend
      have follows := rule.attempt_follows (S := S) scope True fuel
        (.of_forall fun _ => .inl trivial)
      have hreaches : scope.source.Reaches scope.source.start stop.location :=
        follows.reaches (by rw [hrule]; rfl)
      exact ⟨stop, hrule, (haddressed.found_eq_none_iff hreaches).1 hnone⟩

/-- In `7 256`, the letter that is missing behind the first byte takes the session back to the
start. Read again with whitespace around it, this byte is kept; the next one overflows, and the
session stops in front of it, before the end. As a byte and a numeral of 16 bits, the input is read
to its end. -/
theorem Session.visits_whole_terminals_bytes :
    let scope : Scope Nat :=
      { source := .ofArray #[55, 32, 50, 53, 54], naming := .offsets .byte true,
        definitions := fun _ => none }
    let spaced : Rule := .spaced Grammar.byte
    let missing : Error Nat := .expected (Rule.letter.identity scope.naming) 1
    let overflow : Error Nat := .overflow "u8" 4
    let session : Session Nat (NoReports Nat Terminal) := .start scope.source {}
    (∃ back stopped,
      session.step scope 6 (.attempt (.seq [Grammar.byte, .letter]))
          = some (.error missing, back) ∧
        back.location = session.location ∧
      back.step scope 6 (.attemptManyInto spaced) = some (.extended (some overflow), stopped) ∧
        scope.source.Reaches back.location stopped.location ∧
        (∃ tried : Cursor Nat (NoReports Nat Terminal), tried.location = stopped.location ∧
          spaced.attempt scope 6 tried = .fail overflow stopped.cursor) ∧
      stopped.Visits scope 6 {} ∧ stopped.location = 2 ∧ ¬ stopped.cursor.atEnd scope.source) ∧
    ∃ stop : Cursor Nat (NoReports Nat Terminal),
      (Rule.seq [spaced, .literal .decimal (.unsigned .w16)]).attempt scope 6
          (.atStart scope.source {}) = .ok (.tuple [.integer 7, .integer 256]) stop ∧
        stop.location = 5 := by
  intro scope spaced missing overflow session
  obtain ⟨onward, within, whole⟩ := visits_whole_terminals
  have addressed : scope.source.Addressed 5 := .sequence #[55, 32, 50, 53, 54]
  constructor
  · obtain ⟨back, stopped, hback, hstopped, location⟩ : ∃ back stopped,
        session.step scope 6 (.attempt (.seq [Grammar.byte, .letter]))
            = some (.error missing, back) ∧
          back.step scope 6 (.attemptManyInto spaced)
            = some (.extended (some overflow), stopped) ∧
          stopped.location = 2 := ⟨_, _, by cbv, by cbv, rfl⟩
    have started : session.Visits scope 6 {} := ⟨[], [], rfl⟩
    obtain ⟨visits, moves⟩ := (onward scope 6 {} session started).2 _ _ _ hback
    obtain ⟨visits', moves'⟩ := (onward scope 6 {} back visits).2 _ _ _ hstopped
    obtain ⟨-, -, ended, -, -⟩ := within scope 5 6 {} stopped addressed visits'
    refine ⟨back, stopped, hback, moves.stays (.attempt _ _), hstopped, moves'.reaches,
      moves'.tried _ _ rfl rfl, visits', location, ?_⟩
    rw [ended, location]
    decide
  · obtain ⟨trace, haccepted⟩ : ∃ trace,
        (Rule.seq [spaced, .literal .decimal (.unsigned .w16)]).parseAll scope 6
            (NoReports.mk : NoReports Nat Terminal)
          = .accepted (.tuple [.integer 7, .integer 256]) trace := ⟨_, by cbv⟩
    exact whole (S := NoReports Nat Terminal) scope 5 6 .mk _ _ trace addressed haccepted

end Backtrack
