import Backtrack.Grammar.Sample
import Backtrack.Proofs.Parallel
import Backtrack.Rule.Fuel

/-!
# Sequences inside sequences

Rules may be nested into sequences in many ways (`Nesting`). Each nesting saves and restores the
location at places of its own, but this is all that they differ in: two nestings of the same rules
in the same order match in the same place, with the same values differently arranged, or fail with
the same error, and what they report is the same (`Nesting.bracketing_agrees`).

Every nesting is compared with the row of its rules, attempted one after the other
(`Nesting.in_row`). What nestings have more than the row are entries of going back.
-/

namespace Backtrack

variable {L S α : Type}

/-! ## Nestings -/

/-- A way to nest rules into sequences. -/
inductive Nesting where
  /-- A rule by itself. -/
  | single (rule : Rule)
  /-- A sequence of nestings. -/
  | tuple (members : List Nesting)

namespace Nesting

mutual

/-- The rule of a nesting. -/
def rule : Nesting → Rule
  | single rule => rule
  | tuple members => .seq (rules members)

/-- The rules of several nestings. -/
def rules : List Nesting → List Rule
  | [] => []
  | member :: members => member.rule :: rules members

end

mutual

/-- The rules that are nested, in order. -/
def leaves : Nesting → List Rule
  | single rule => [rule]
  | tuple members => leavesOf members

/-- The rules that are nested in several nestings, in order. -/
def leavesOf : List Nesting → List Rule
  | [] => []
  | member :: members => member.leaves ++ leavesOf members

end

mutual

/-- How deep the sequences are inside each other. -/
def depth : Nesting → Nat
  | single _ => 0
  | tuple members => depthOf members + 1

/-- How deep the sequences of several nestings are inside each other. -/
def depthOf : List Nesting → Nat
  | [] => 0
  | member :: members => max member.depth (depthOf members)

end

mutual

/-- The value is put together from these, as the rules are nested. -/
inductive Arranges : Nesting → List Value → Value → Prop where
  | single (rule : Rule) (value : Value) : Arranges (.single rule) [value] value
  | tuple {members : List Nesting} {values parts : List Value}
      (all : ArrangesAll members values parts) : Arranges (.tuple members) values (.tuple parts)

/-- The values of several nestings are put together from these, one nesting after the other. -/
inductive ArrangesAll : List Nesting → List Value → List Value → Prop where
  | nil : ArrangesAll [] [] []
  | cons {member : Nesting} {members : List Nesting} {values values' parts : List Value}
      {part : Value} (first : Arranges member values part)
      (rest : ArrangesAll members values' parts) :
      ArrangesAll (member :: members) (values ++ values') (part :: parts)

end

/-! ## What nestings do -/

section

variable [DecidableEq L] (scope : Scope L) (run : Rule → Parser L S Value)

mutual

/-- What a nesting does to a cursor, given the parsers of the rules that are nested. -/
def parse : Nesting → Parser L S Value
  | single rule => run rule
  | tuple members => do
    return .tuple (← parseMembers members)

/-- Attempts several nestings in order. -/
def parseMembers : List Nesting → Parser L S (List Value)
  | [] => pure []
  | member :: members => do
    let part ← scope.attempt member.rule (parse member)
    let parts ← parseMembers members
    pure (part :: parts)

end

end

section

variable [DecidableEq L] [Sink S L Terminal] (scope : Scope L)

mutual

/-- The rule of a nesting does what the nesting does, with enough fuel for the rules in it. -/
theorem rule_finishesAs {k m : Nat} (hkm : k ≤ m) : (n : Nesting) →
    (n.rule.parse scope k : Parser L S Value).FinishesAs (n.parse scope (Rule.parse scope m))
  | single rule => by
    rw [Nesting.rule, parse]
    exact rule.parse_finishesAs scope hkm
  | tuple members => by
    rw [Nesting.rule, parse]
    cases k with
    | zero => exact fun _ => .inl rfl
    | succ k => exact .bind (rules_finishesAs (Nat.le_of_succ_le hkm) members) fun _ => .refl _

theorem rules_finishesAs {k m : Nat} (hkm : k ≤ m) : (members : List Nesting) →
    (scope.sequence (Rule.parse scope k) (rules members) : Parser L S (List Value)).FinishesAs
      (parseMembers scope (Rule.parse scope m) members)
  | [] => by
    rw [rules, parseMembers]
    exact .refl _
  | member :: members => by
    rw [rules, parseMembers]
    exact .bind ((rule_finishesAs hkm member).attempt scope _) fun _ =>
      .bind (rules_finishesAs hkm members) fun _ => .refl _

end

mutual

/-- A nesting does what its rule does, with fuel for the sequences inside each other as well. -/
theorem finishesAs_rule {k m : Nat} : (n : Nesting) → (hkm : k + n.depth ≤ m) →
    (n.parse scope (Rule.parse scope k) : Parser L S Value).FinishesAs (n.rule.parse scope m)
  | single rule, hkm => by
    rw [Nesting.rule, parse]
    exact rule.parse_finishesAs scope (by simpa [depth] using hkm)
  | tuple members, hkm => by
    rw [depth] at hkm
    obtain ⟨m, rfl⟩ : ∃ i, m = i + 1 := ⟨m - 1, by omega⟩
    rw [Nesting.rule, parse]
    exact .bind (finishesAs_rules members (by omega)) fun _ => .refl _

theorem finishesAs_rules {k m : Nat} : (members : List Nesting) →
    (hkm : k + depthOf members ≤ m) →
    (parseMembers scope (Rule.parse scope k) members : Parser L S (List Value)).FinishesAs
      (scope.sequence (Rule.parse scope m) (rules members))
  | [], _ => by
    rw [rules, parseMembers]
    exact .refl _
  | member :: members, hkm => by
    rw [depthOf] at hkm
    rw [rules, parseMembers]
    exact .bind ((finishesAs_rule member (by omega)).attempt scope _) fun _ =>
      .bind (finishesAs_rules members (by omega)) fun _ => .refl _

end

end

end Nesting

/-! ## The row of the rules -/

/-- How the account of a row of rules compares with that of a nesting of them: where the one has
these values, the other has what they are arranged to, and the reports are the same. The location of
a failure is that of an attempt to come. -/
inductive Account.Arranged (arranges : List Value → α → Prop) :
    Account L (List Value) → Account L α → Prop where
  | matched {values : List Value} {result : α} {m : L} {es es' : List (TraceEntry L)}
      (arranged : arranges values result) (reports : reportsOf es' = reportsOf es) :
      Arranged arranges ⟨.ok values, m, es⟩ ⟨.ok result, m, es'⟩
  | failed {error : Error L} {m m' : L} {es es' : List (TraceEntry L)}
      (reports : reportsOf es' = reportsOf es) :
      Arranged arranges ⟨.error error, m, es⟩ ⟨.error error, m', es'⟩

/-- From one location the row of rules and the nesting both come to an end, with accounts that
compare, or neither does. -/
def Parser.RowOf [Sink S L Terminal] (row : Parser L S (List Value)) (p : Parser L S α)
    (arranges : List Value → α → Prop) : Prop :=
  ∀ cursor cursor' : Cursor L S, cursor'.location = cursor.location →
    row cursor = .unfinished ∧ p cursor' = .unfinished ∨
      ∃ a a', row cursor = Account.replyTo a cursor ∧ p cursor' = Account.replyTo a' cursor' ∧
        a.Arranged arranges a'

namespace Scope

variable [DecidableEq L] (scope : Scope L) (run : Rule → Parser L S Value)

/-- Rules in a row are attempted as the first of them and then the others. -/
theorem sequence_append (rules rules' : List Rule) :
    scope.sequence run (rules ++ rules') = (do
      let values ← scope.sequence run rules
      let values' ← scope.sequence run rules'
      pure (values ++ values')) := by
  induction rules with
  | nil => simp [sequence]
  | cons rule rules ih => simp [sequence, ih, bind_assoc]

end Scope

namespace Parser.RowOf

variable [Sink S L Terminal] {row row' : Parser L S (List Value)} {p : Parser L S Value}
  {ps : Parser L S (List Value)}

/-- What goes back where it fails compares as before. -/
theorem attempt [DecidableEq L] {arranges : List Value → Value → Prop} (h : row.RowOf p arranges)
    (scope : Scope L) (rule : Rule) : row.RowOf (scope.attempt rule p) arranges := by
  intro cursor cursor' same
  rcases h cursor cursor' same with ⟨hrow, hp⟩ | ⟨a, a', hrow, hp, compares⟩
  · exact .inl ⟨hrow, scope.attempt_unfinished rule hp⟩
  refine .inr ⟨a, _, hrow, scope.attempt_account rule hp, ?_⟩
  cases compares with
  | matched arranged reports => exact .matched arranged reports
  | failed reports => exact .failed (by simpa using reports)

/-- A row and then another one compare with a member and the other members. -/
theorem cons {member : Nesting} {members : List Nesting} (h : row.RowOf p member.Arranges)
    (h' : row'.RowOf ps (Nesting.ArrangesAll members)) :
    (do
      let values ← row
      let values' ← row'
      pure (values ++ values') : Parser L S (List Value)).RowOf (do
        let part ← p
        let parts ← ps
        pure (part :: parts)) (Nesting.ArrangesAll (member :: members)) := by
  intro cursor cursor' same
  rcases h cursor cursor' same with ⟨hrow, hp⟩ | ⟨a, a', hrow, hp, compares⟩
  · exact .inl ⟨bind_unfinished hrow, bind_unfinished hp⟩
  cases compares with
  | failed reports =>
    exact .inr ⟨_, _, bind_account_error hrow, bind_account_error hp, .failed reports⟩
  | @matched values part m es es' arranged reports =>
    rw [bind_account_ok hrow, bind_account_ok hp]
    rcases h' (cursor.record m es) (cursor'.record m es') rfl with
      ⟨hrow', hps⟩ | ⟨b, b', hrow', hps, compares'⟩
    · exact .inl ⟨bind_unfinished hrow', bind_unfinished hps⟩
    cases compares' with
    | @failed error k k' fs fs' reports' =>
      refine .inr ⟨⟨.error error, k, es ++ fs⟩, ⟨.error error, k', es' ++ fs'⟩, ?_, ?_, .failed ?_⟩
      · exact (bind_account_error hrow').trans (replyTo_record ..)
      · exact (bind_account_error hps).trans (replyTo_record ..)
      · rw [reportsOf_append, reportsOf_append, reports, reports']
    | @matched values' parts k fs fs' arranged' reports' =>
      refine .inr ⟨⟨.ok (values ++ values'), k, es ++ fs⟩, ⟨.ok (part :: parts), k, es' ++ fs'⟩,
        ?_, ?_, .matched (.cons arranged arranged') ?_⟩
      · rw [bind_account_ok hrow', Cursor.record_record]
        rfl
      · rw [bind_account_ok hps, Cursor.record_record]
        rfl
      · rw [reportsOf_append, reportsOf_append, reports, reports']

/-- Members are put together in one value. -/
theorem tuple {members : List Nesting} (h : row.RowOf ps (Nesting.ArrangesAll members)) :
    row.RowOf (do return .tuple (← ps)) (Nesting.tuple members).Arranges := by
  intro cursor cursor' same
  rcases h cursor cursor' same with ⟨hrow, hps⟩ | ⟨a, a', hrow, hps, compares⟩
  · exact .inl ⟨hrow, bind_unfinished hps⟩
  cases compares with
  | failed reports => exact .inr ⟨_, _, hrow, bind_account_error hps, .failed reports⟩
  | matched arranged reports =>
    exact .inr ⟨_, _, hrow, bind_account_ok hps, .matched (.tuple arranged) reports⟩

end Parser.RowOf

namespace Nesting

section

variable [DecidableEq L] [Sink S L Terminal] (scope : Scope L) {run : Rule → Parser L S Value}

/-- A rule by itself is a row of one. -/
theorem single_in_row {rule : Rule} (hrule : (run rule).Parallel scope.source (run rule)) :
    (scope.sequence run [rule]).RowOf (scope.attempt rule (run rule))
      (Nesting.single rule).Arranges := by
  intro cursor cursor' same
  simp only [Scope.sequence, pure_bind]
  rcases hrule.attempt scope rule cursor cursor' same with
    ⟨h, h'⟩ | ⟨⟨outcome, m, es⟩, _, h, h', rfl, -⟩
  · exact .inl ⟨Parser.bind_unfinished h, h'⟩
  cases outcome with
  | error error => exact .inr ⟨_, _, Parser.bind_account_error h, h', .failed rfl⟩
  | ok value =>
    exact .inr ⟨⟨.ok [value], m, es⟩, _, Parser.bind_account_ok h, h',
      .matched (.single rule value) rfl⟩

mutual

/-- **A nesting does what the row of its rules does**, apart from going back. -/
theorem in_row (hrun : ∀ rule, (run rule).Parallel scope.source (run rule)) : (n : Nesting) →
    (scope.sequence run n.leaves).RowOf (scope.attempt n.rule (n.parse scope run)) n.Arranges
  | single rule => by
    rw [leaves, Nesting.rule, parse]
    exact single_in_row scope (hrun rule)
  | tuple members => by
    rw [leaves, parse]
    exact (members_in_row hrun members).tuple.attempt scope _

theorem members_in_row (hrun : ∀ rule, (run rule).Parallel scope.source (run rule)) :
    (members : List Nesting) →
      (scope.sequence run (leavesOf members)).RowOf (parseMembers scope run members)
        (ArrangesAll members)
  | [] => by
    rw [leavesOf, parseMembers, Scope.sequence]
    intro cursor cursor' same
    have hrow : (pure [] : Parser L S (List Value)) cursor
        = Account.replyTo ⟨.ok [], cursor.location, []⟩ cursor := Parser.pure_account cursor []
    have hnone : (pure [] : Parser L S (List Value)) cursor'
        = Account.replyTo ⟨.ok [], cursor.location, []⟩ cursor' :=
      same ▸ Parser.pure_account cursor' []
    exact .inr ⟨_, _, hrow, hnone, .matched ArrangesAll.nil rfl⟩
  | member :: members => by
    rw [leavesOf, parseMembers, scope.sequence_append]
    exact (in_row hrun member).cons (members_in_row hrun members)

end

end

section

variable [DecidableEq L] [Sink S L Terminal] {scope : Scope L} {cursor : Cursor L S}

/-- Where a nesting comes to an end, it is told by the row of its rules. -/
theorem attempt_in_row {n : Nesting} {k m : Nat} (hkm : k ≤ m)
    (ended : n.rule.attempt scope k cursor ≠ .unfinished) :
    ∃ a b, scope.sequence (Rule.parse scope m) n.leaves cursor = Account.replyTo a cursor ∧
      n.rule.attempt scope k cursor = Account.replyTo b cursor ∧ a.Arranged n.Arranges b := by
  have longer := (rule_finishesAs (S := S) scope hkm n).attempt scope n.rule
  have same := (longer cursor).resolve_left ended
  rw [Rule.attempt, same] at ended ⊢
  have row := in_row scope (fun rule => rule.parse_parallel (S := S) (T := S) scope m) n
  exact (row cursor cursor rfl).resolve_left fun h => ended h.2

/-- A nesting comes to an end where the row of its rules does. -/
theorem ends_iff (n : Nesting) :
    (∃ k, n.rule.attempt scope k cursor ≠ .unfinished) ↔
      ∃ k, scope.sequence (Rule.parse scope k) n.leaves cursor ≠ .unfinished := by
  constructor
  · rintro ⟨k, ended⟩
    obtain ⟨a, b, hrow, -, -⟩ := attempt_in_row (Nat.le_refl k) ended
    exact ⟨k, hrow ▸ a.replyTo_ne_unfinished⟩
  · rintro ⟨k, ended⟩
    have row := in_row scope (fun rule => rule.parse_parallel (S := S) (T := S) scope k) n
    obtain ⟨a, b, -, hn, -⟩ := (row cursor cursor rfl).resolve_left fun h => ended h.1
    have longer :=
      (finishesAs_rule (S := S) scope n (Nat.le_refl (k + n.depth))).attempt scope n.rule
    exact ⟨k + n.depth, longer.ne_unfinished (hn ▸ b.replyTo_ne_unfinished)⟩

/-- **Bracketing does not matter**: two nestings of the same rules in the same order, with any
number of members in each sequence and at any depth, do the same on every source, at every location
and whatever the sink. Where both come to an end they make the same reports and stop at the same
location. Both match, with the same values arranged as each is nested, or both fail with the same
error and are back where they began. One comes to an end where the other does. -/
theorem bracketing_agrees {n n' : Nesting} (same : n.leaves = n'.leaves) (scope : Scope L)
    (cursor : Cursor L S) :
    (∀ k k', n.rule.attempt scope k cursor ≠ .unfinished →
      n'.rule.attempt scope k' cursor ≠ .unfinished →
        ∃ a b : Account L Value, n.rule.attempt scope k cursor = a.replyTo cursor ∧
          n'.rule.attempt scope k' cursor = b.replyTo cursor ∧
          a.reports = b.reports ∧ a.location = b.location ∧
          ((∃ values v w, n.Arranges values v ∧ n'.Arranges values w ∧
              a.outcome = .ok v ∧ b.outcome = .ok w) ∨
            ∃ error, a.outcome = .error error ∧ b.outcome = .error error ∧
              a.location = cursor.location)) ∧
    ((∃ k, n.rule.attempt scope k cursor ≠ .unfinished) ↔
      ∃ k, n'.rule.attempt scope k cursor ≠ .unfinished) := by
  refine ⟨?_, by rw [ends_iff, ends_iff, same]⟩
  intro k k' ended ended'
  obtain ⟨row, a, hrow, ha, compares⟩ := attempt_in_row (Nat.le_max_left k k') ended
  obtain ⟨row', b, hrow', hb, compares'⟩ := attempt_in_row (Nat.le_max_right k k') ended'
  rw [same] at hrow
  obtain rfl := Account.replyTo_inj (hrow.symm.trans hrow')
  refine ⟨a, b, ha, hb, ?_⟩
  cases compares with
  | @matched values v m es es₁ arranged reports =>
    cases compares' with
    | @matched _ w _ _ es₂ arranged' reports' =>
      exact ⟨reports.trans reports'.symm, rfl, .inl ⟨values, v, w, arranged, arranged', rfl, rfl⟩⟩
  | @failed error m m₁ es es₁ reports =>
    cases compares' with
    | @failed _ _ m₂ _ es₂ reports' =>
      -- a failed attempt is back at the start, wherever it failed
      obtain rfl : m₁ = cursor.location := Scope.attempt_fail_location ha
      obtain rfl : m₂ = cursor.location := Scope.attempt_fail_location hb
      exact ⟨reports.trans reports'.symm, rfl, .inr ⟨error, rfl, rfl, rfl⟩⟩

/-- In `a,7` a letter, a comma and a byte are read alike, whichever two of them are put together. -/
theorem bracketing_agrees_letter :
    let scope : Scope Nat :=
      { source := .ofArray #[97, 44, 55], naming := .offsets .byte true,
        definitions := fun _ => none }
    let front : Nesting :=
      .tuple [.tuple [.single .letter, .single (.mark .comma)], .single Grammar.byte]
    let back : Nesting :=
      .tuple [.single .letter, .tuple [.single (.mark .comma), .single Grammar.byte]]
    let start : Cursor Nat (NoReports Nat Terminal) := .atStart scope.source {}
    front.leaves = back.leaves ∧
      ∃ a b : Account Nat Value, front.rule.attempt scope 5 start = a.replyTo start ∧
        back.rule.attempt scope 5 start = b.replyTo start ∧ a.reports = b.reports ∧
        a.location = b.location ∧
        a.outcome = .ok (.tuple [.tuple [.terminal 97, .unit], .integer 7]) ∧
        b.outcome = .ok (.tuple [.terminal 97, .tuple [.unit, .integer 7]]) := by
  intro scope front back start
  have same : front.leaves = back.leaves := rfl
  obtain ⟨after, hfront⟩ : ∃ after, front.rule.attempt scope 5 start
      = .ok (.tuple [.tuple [.terminal 97, .unit], .integer 7]) after := ⟨_, rfl⟩
  obtain ⟨after', hback⟩ : ∃ after, back.rule.attempt scope 5 start
      = .ok (.tuple [.terminal 97, .tuple [.unit, .integer 7]]) after := ⟨_, rfl⟩
  obtain ⟨a, b, ha, hb, reports, location, -⟩ :=
    (bracketing_agrees same scope start).1 5 5 (hfront ▸ Reply.ok_ne_unfinished)
      (hback ▸ Reply.ok_ne_unfinished)
  obtain ⟨es, rfl⟩ := Account.eq_of_replyTo_ok (ha.symm.trans hfront)
  obtain ⟨es', rfl⟩ := Account.eq_of_replyTo_ok (hb.symm.trans hback)
  exact ⟨same, _, _, ha, hb, reports, location, rfl, rfl⟩

end

end Nesting

end Backtrack
