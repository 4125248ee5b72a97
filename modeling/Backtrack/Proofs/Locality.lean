import Backtrack.Grammar.Sample
import Backtrack.Proofs.Furthest
import Backtrack.Proofs.Relocation
import Backtrack.Proofs.Trail

/-!
# How far a parse looks

Rules whose every failure is reported look at no terminal beyond the furthest report and the
location where they stop, and at none before the location where they start. Two inputs that agree in
between are therefore parsed alike, with all locations shifted by the distance of the starts
(`Rule.attempt_local`).

The invariant of the induction, `Parser.Local`, is about one function that shifts the locations of
the whole run, so that the parts of a rule need not be related to starts of their own.
-/

namespace Backtrack

variable {S T α β : Type}

/-! ## Inputs that agree -/

namespace Source

/-- Both sources are sequences, or both are texts. -/
inductive SameKind : Source Nat → Source Nat → Prop where
  | sequences (terminals terminals' : Array Terminal) :
      SameKind (ofArray terminals) (ofArray terminals')
  | texts (text text' : String) : SameKind (ofText text) (ofText text')

theorem SameKind.measured {source source' : Source Nat} (h : SameKind source source') :
    ∃ width, source.Measured width ∧ source'.Measured width := by
  cases h with
  | sequences terminals terminals' =>
    exact ⟨_, measured_ofArray terminals, measured_ofArray terminals'⟩
  | texts text text' => exact ⟨_, measured_ofText text, measured_ofText text'⟩

/-- The location that lies after one start as another lies after its own. -/
def shifted (base base' l : Nat) : Nat :=
  base' + (l - base)

/-- From its own start, the second source reads as the first one does up to a location, which is
still read. -/
def AgreesUpTo (source source' : Source Nat) (base base' f : Nat) : Prop :=
  ∀ l, source.Reaches base l → l ≤ f → source'.found (shifted base base' l) = source.found l

variable {source source' : Source Nat} {width : Terminal → Nat} {base base' l m f : Nat}

theorem SameKind.start_eq {source source' : Source Nat} (h : SameKind source source') :
    source'.start = source.start := by
  cases h <;> rfl

/-- Shifting keeps apart what lies behind the start. -/
theorem Measured.eq_of_shifted (h : source.Measured width) (hl : source.Reaches base l)
    (hm : source.Reaches l m) (hshifted : shifted base base' m = shifted base base' l) : m = l := by
  have hbase := h.le_of_reaches hl
  have hle := h.le_of_reaches hm
  unfold shifted at hshifted
  omega

/-- Where a terminal of the same width is found, the next location is shifted alike. -/
theorem terminalAt_shifted (h : source.Measured width) (h' : source'.Measured width)
    (hl : source.Reaches base l)
    (same : source'.found (shifted base base' l) = source.found l) :
    source'.terminalAt (shifted base base' l)
      = (source.terminalAt l).map fun read => (read.1, shifted base base' read.2) := by
  cases here : source.terminalAt l with
  | none => exact found_eq_none.1 (same.trans (found_eq_none.2 here))
  | some read =>
    obtain ⟨t, next⟩ := read
    rw [found_eq_some here, found, Option.map_eq_some_iff] at same
    obtain ⟨⟨t', next'⟩, here', ht⟩ := same
    obtain rfl : t' = t := ht
    have hnext := (h _ _ _ here).1
    have hnext' := (h' _ _ _ here').1
    have hle := h.le_of_reaches hl
    simp only [here', Option.map_some, Option.some.injEq, Prod.mk.injEq, true_and]
    unfold shifted at hnext' ⊢
    omega

/-- Read terminal by terminal, the second source has from its start on the terminals that the first
one has, or the same lack of a terminal, up to a location of the first, which is still read. -/
def ReadsAs (source source' : Source Nat) (start start' f : Nat) : Prop :=
  ∀ n l l', source.Steps n start l → l ≤ f → source'.Steps n start' l' →
    source'.found l' = source.found l

/-- Sequences read alike as far as the same terminals are behind both starts. -/
theorem readsAs_ofArray {terminals terminals' : Array Terminal}
    (h : ∀ n ≤ f - base, terminals'[base' + n]? = terminals[base + n]?) :
    (ofArray terminals).ReadsAs (ofArray terminals') base base' f := by
  intro n l l' hl hf hl'
  obtain rfl := steps_ofArray hl
  obtain rfl := steps_ofArray hl'
  have hn : n ≤ f - base := by omega
  simp only [found, ofArray, Option.map_map, Function.comp_def, Option.map_id', h n hn]

theorem ReadsAs.agreesUpTo (same : source.ReadsAs source' base base' f)
    (h : source.Measured width) (h' : source'.Measured width) :
    source.AgreesUpTo source' base base' f := by
  -- the way to a location near enough leads to the shifted one in the other source
  have hsteps : ∀ n l, source.Steps n base l → l ≤ f →
      source'.Steps n base' (shifted base base' l) := by
    intro n
    induction n with
    | zero =>
      intro l hl _
      cases hl
      rw [shifted, Nat.sub_self]
      exact .zero base'
    | succ n ih =>
      intro l hl hf
      obtain ⟨m, hm, hlast⟩ := hl.split
      rcases hlast with - | ⟨here, ⟨⟩⟩
      have hwidth := h _ _ _ here
      have hm' := ih m hm (by omega)
      have here' := terminalAt_shifted h h' ⟨n, hm⟩ (same n _ _ hm (by omega) hm')
      rw [here] at here'
      exact hm'.trans (.one here')
  intro l ⟨n, hn⟩ hf
  exact same n _ _ hn hf (hsteps n l hn hf)

end Source

/-! ## Accounts within a part of the input -/

/-- All reports are made no later than the location, and so does a match stop. -/
def Account.Within (f : Nat) (a : Account Nat α) : Prop :=
  (∀ value, a.outcome = .ok value → a.location ≤ f) ∧
    ∀ report ∈ a.reports, report.error.location ≤ f

/-- A run without silent failures reports or stops at its start or after it. -/
theorem Account.OnTrail.le_of_within {source : Source Nat} {width : Terminal → Nat}
    {a : Account Nat α} {l f : Nat} (h : a.OnTrail source False l) (hw : source.Measured width)
    (within : a.Within f) : l ≤ f := by
  obtain ⟨outcome, m, es⟩ := a
  cases outcome with
  | ok value => exact Nat.le_trans (hw.le_of_reaches h.reaches) (within.1 value rfl)
  | error error =>
    obtain ⟨earlier, hreports⟩ := h.reported rfl
    have hle := hw.le_of_reaches (h.error_reaches rfl)
    refine Nat.le_trans hle (within.2 (source.reportOf error) ?_)
    rw [Account.reports, hreports]
    simp

/-! ## Parsers that look no further than they report -/

variable [Sink S Nat Terminal] [Sink T Nat Terminal]

/-- The second parser, on an input that agrees with the first one's as far as the first one reports
and stops, does what the first one does, at shifted locations. -/
def Parser.Local (source source' : Source Nat) (base base' : Nat) (p : Parser Nat S α)
    (p' : Parser Nat T α) : Prop :=
  ∀ cursor, source.Reaches base cursor.location → p cursor = .unfinished ∨
    ∃ a : Account Nat α, p cursor = a.replyTo cursor ∧ a.OnTrail source False cursor.location ∧
      ∀ f, a.Within f → source.AgreesUpTo source' base base' f → ∀ cursor' : Cursor Nat T,
        cursor'.location = Source.shifted base base' cursor.location →
          p' cursor' = (a.relocate (Source.shifted base base')).replyTo cursor'

namespace Parser.Local

variable {source source' : Source Nat} {width : Terminal → Nat} {base base' : Nat}
  {p : Parser Nat S α} {p' : Parser Nat T α}

/-- A parser that looks at one terminal at most. -/
theorem leaf (hw : source.Measured width) (hw' : source'.Measured width)
    (account account' : Nat → Account Nat α)
    (hp : ∀ cursor, p cursor = (account cursor.location).replyTo cursor)
    (hp' : ∀ cursor, p' cursor = (account' cursor.location).replyTo cursor)
    (trail : ∀ l, (account l).OnTrail source False l)
    (same : ∀ l, source.Reaches base l →
      source'.terminalAt (Source.shifted base base' l)
        = (source.terminalAt l).map (fun read => (read.1, Source.shifted base base' read.2)) →
      account' (Source.shifted base base' l)
        = (account l).relocate (Source.shifted base base')) :
    Local source source' base base' p p' := by
  intro cursor hreach
  refine .inr ⟨account cursor.location, hp cursor, trail cursor.location, ?_⟩
  intro f within agree cursor' hcursor'
  have hle := (trail cursor.location).le_of_within hw within
  have here := Source.terminalAt_shifted hw hw' hreach (agree cursor.location hreach hle)
  rw [hp' cursor', hcursor', same cursor.location hreach here]

theorem bind {f : α → Parser Nat S β} {f' : α → Parser Nat T β} (hw : source.Measured width)
    (hp : Local source source' base base' p p')
    (hf : ∀ value, Local source source' base base' (f value) (f' value)) :
    Local source source' base base' (p >>= f) (p' >>= f') := by
  intro cursor hreach
  rcases hp cursor hreach with hp | ⟨⟨outcome, m, es⟩, hp, htrail, hlocal⟩
  · exact .inl (Parser.bind_unfinished hp)
  cases outcome with
  | error error =>
    refine .inr ⟨_, Parser.bind_account_error hp, htrail, ?_⟩
    intro f within agree cursor' hcursor'
    exact Parser.bind_account_error (hlocal f ⟨nofun, within.2⟩ agree cursor' hcursor')
  | ok value =>
    rw [Parser.bind_account_ok hp]
    rcases hf value (cursor.record m es) (hreach.trans htrail.reaches) with hf | ⟨b, hf, hb, hrest⟩
    · exact .inl hf
    refine .inr ⟨b.after es, hf.trans (Parser.replyTo_record b m es), .after htrail hb, ?_⟩
    intro f within agree cursor' hcursor'
    have hbwithin : b.Within f := by
      refine ⟨within.1, fun report hreport => within.2 report ?_⟩
      simp only [Account.reports, Account.after, reportsOf_append, List.mem_append]
      exact .inr hreport
    -- the first parser stops where the second one starts, which is no further than that reports
    have hawithin : Account.Within f ⟨.ok value, m, es⟩ := by
      refine ⟨fun _ _ => hb.le_of_within hw hbwithin, fun report hreport => within.2 report ?_⟩
      simp only [Account.reports, Account.after, reportsOf_append, List.mem_append]
      exact .inl hreport
    have hfirst := hlocal f hawithin agree cursor' hcursor'
    rw [Parser.bind_account_ok hfirst, hrest f hbwithin agree _ rfl, Parser.replyTo_record,
      Account.relocate_after]

/-- What changes only the account of a run, and neither hides reports nor what lies behind a match,
respects locality. -/
theorem changed {q : Parser Nat S β} {q' : Parser Nat T β}
    (change : Nat → Account Nat α → Account Nat β)
    (unfinished : ∀ cursor, p cursor = .unfinished → q cursor = .unfinished)
    (hq : ∀ cursor (a : Account Nat α), p cursor = a.replyTo cursor →
      q cursor = (change cursor.location a).replyTo cursor)
    (hq' : ∀ cursor (a : Account Nat α), p' cursor = a.replyTo cursor →
      q' cursor = (change cursor.location a).replyTo cursor)
    (trail : ∀ l a, a.OnTrail source False l → (change l a).OnTrail source False l)
    (within : ∀ f l a, (change l a).Within f → a.Within f)
    (relocate : ∀ l a, source.Reaches base l → source.Reaches l a.location →
      (change l a).relocate (Source.shifted base base')
        = change (Source.shifted base base' l) (a.relocate (Source.shifted base base')))
    (hp : Local source source' base base' p p') : Local source source' base base' q q' := by
  intro cursor hreach
  rcases hp cursor hreach with hp | ⟨a, hp, htrail, hlocal⟩
  · exact .inl (unfinished cursor hp)
  refine .inr ⟨_, hq cursor a hp, trail cursor.location a htrail, ?_⟩
  intro f hwithin agree cursor' hcursor'
  have hp' := hlocal f (within f cursor.location a hwithin) agree cursor' hcursor'
  rw [hq' cursor' _ hp', hcursor', relocate cursor.location a hreach htrail.reaches]

end Parser.Local

namespace Account

variable {a : Account Nat α} {f l : Nat}

theorem within_of_moving (h : (a.moving l).Within f) : a.Within f := by
  obtain ⟨outcome, m, es⟩ := a
  refine ⟨?_, h.2⟩
  rintro value ⟨⟩
  exact h.1 _ rfl

theorem within_of_rewind {rule : String} (h : (a.rewind rule l).Within f) : a.Within f := by
  obtain ⟨outcome, m, es⟩ := a
  cases outcome with
  | ok value => exact h
  | error error => exact ⟨nofun, by simpa [rewind, reports] using h.2⟩

theorem within_of_optional (h : a.optional.Within f) : a.Within f := by
  obtain ⟨outcome, m, es⟩ := a
  cases outcome with
  | ok value => exact ⟨fun _ _ => h.1 _ rfl, h.2⟩
  | error error => exact ⟨nofun, h.2⟩

end Account

section

variable {scope : Scope Nat} {width : Terminal → Nat} (hw : scope.source.Measured width)
include hw

/-- **Rules respect locality**: all that they are put together from does. -/
theorem related_local {scope' : Scope Nat} (naming : scope'.naming = scope.naming)
    (hw' : scope'.source.Measured width) (base base' : Nat) :
    Related scope scope' Rule.Loud
      fun {α} (p : Parser Nat S α) (p' : Parser Nat T α) =>
        p.Local scope.source scope'.source base base' p' where
  unfinished _ _ := .inl rfl
  pure value :=
    .leaf hw hw' (.done value) (.done value) (fun cursor => Parser.pure_account cursor value)
      (fun cursor => Parser.pure_account cursor value) (fun _ => .done value) fun _ _ _ => rfl
  bind hp hf := .bind hw hp hf
  moving hp := by
    refine .changed (fun l a => a.moving l) (fun cursor h => by simp [Parser.moving, h])
      (fun cursor a h => Parser.moving_account cursor h)
      (fun cursor a h => Parser.moving_account cursor h) (fun l a h => h.moving)
      (fun f l a h => Account.within_of_moving h) (fun l a hl hm => ?_) hp
    exact Account.relocate_moving (hw.eq_of_shifted hl hm)
  attempt rule _ _ hp := by
    refine .changed (fun l a => a.rewind (rule.identity scope.naming) l)
      (fun cursor h => scope.attempt_unfinished rule h)
      (fun cursor a h => scope.attempt_account rule h)
      (fun cursor a h => naming ▸ scope'.attempt_account rule h) (fun l a h => h.rewind _)
      (fun f l a h => Account.within_of_rewind h) (fun l a hl hm => ?_) hp
    exact Account.relocate_rewind _ (hw.eq_of_shifted hl hm)
  attemptOptional rule _ _ hp := by
    refine .changed (fun l a => (a.rewind (rule.identity scope.naming) l).optional)
      (fun cursor h => scope.attemptOptional_unfinished rule h)
      (fun cursor a h => scope.attemptOptional_account rule h)
      (fun cursor a h => naming ▸ scope'.attemptOptional_account rule h)
      (fun l a h => h.optional _)
      (fun f l a h => Account.within_of_rewind (Account.within_of_optional h))
      (fun l a hl hm => ?_) hp
    rw [Account.relocate_optional, Account.relocate_rewind _ (hw.eq_of_shifted hl hm)]
  terminal accepted _ accept _ :=
    .leaf hw hw' _ _ (fun cursor => scope.acceptTerminal_account cursor _ accept)
      (fun cursor => scope'.acceptTerminal_account cursor _ accept)
      (fun _ => .reading scope _ accept) fun _ _ here =>
        Account.reading_relocate naming here _ accept
  nextDigit alphabet type _ combine :=
    .leaf hw hw' _ _ (fun cursor => scope.nextDigit_account cursor alphabet type combine)
      (fun cursor => scope'.nextDigit_account cursor alphabet type combine)
      (fun _ => .nextDigit scope alphabet type combine) fun _ hl here =>
        Account.nextDigit_relocate naming here alphabet type combine fun _ _ hnext =>
          hw.eq_of_shifted hl (.step hnext)
  ending _ :=
    .leaf hw hw' _ _ (fun cursor => scope.ending_account cursor)
      (fun cursor => scope'.ending_account cursor) (fun _ => .ending scope)
      fun _ _ here => Account.ending_relocate naming here
  advance _ _ _ :=
    .leaf hw hw' _ _ (fun cursor => Parser.advance_account cursor _)
      (fun cursor => Parser.advance_account cursor _) (fun _ => .advancing)
      fun _ _ here => Account.advancing_relocate here
  expectedHere rule := by
    refine .leaf hw hw' (fun l => .raised scope.source (.expected (rule.identity scope.naming) l) l)
      (fun l => .raised scope'.source (.expected (rule.identity scope.naming) l) l)
      (fun cursor => scope.expectedHere_account cursor rule)
      (fun cursor => naming ▸ scope'.expectedHere_account cursor rule)
      (fun l => .raised (.expected _ l)) fun l _ here => ?_
    rw [Account.relocate_raised (Account.found_relocate here)]
    rfl
  overflowHere type := by
    refine .leaf hw hw' (fun l => .raised scope.source (.overflow type.name l) l)
      (fun l => .raised scope'.source (.overflow type.name l) l)
      (fun cursor => scope.overflowHere_account cursor type)
      (fun cursor => scope'.overflowHere_account cursor type)
      (fun l => .raised (.overflow type.name l)) fun l _ here => ?_
    rw [Account.relocate_raised (Account.found_relocate here)]
    rfl
  silent _ impossible := impossible.elim

end

namespace Account

/-- The largest of the location where the run stopped and those of its reports. -/
def furthest (a : Account Nat α) : Nat :=
  (a.reports.map (·.error.location)).foldr max a.location

theorem le_foldr_max (l : Nat) (ls : List Nat) :
    l ≤ ls.foldr max l ∧ ∀ m ∈ ls, m ≤ ls.foldr max l := by
  induction ls with
  | nil => simp
  | cons k ls ih =>
    rw [List.foldr_cons, List.forall_mem_cons]
    refine ⟨le_trans ih.1 (le_max_right _ _), le_max_left _ _, ?_⟩
    intro m hm
    exact le_trans (ih.2 m hm) (le_max_right _ _)

theorem within_furthest (a : Account Nat α) : a.Within a.furthest := by
  obtain ⟨hl, hreports⟩ := le_foldr_max a.location (a.reports.map (·.error.location))
  exact ⟨fun _ _ => hl, fun report hreport => hreports _ (List.mem_map_of_mem hreport)⟩

end Account

/-- The parsers of a rule, related for all starts, do the same wherever the inputs agree. -/
theorem Parser.Local.replyTo {source source' : Source Nat} {p : Parser Nat S α}
    {p' : Parser Nat T α} (cursor : Cursor Nat S) (cursor' : Cursor Nat T)
    (h : Local source source' cursor.location cursor'.location p p') {a : Account Nat α}
    (ha : p cursor = a.replyTo cursor) {f : Nat} (within : a.Within f)
    (agree : source.AgreesUpTo source' cursor.location cursor'.location f) :
    p' cursor'
      = (a.relocate (Source.shifted cursor.location cursor'.location)).replyTo cursor' := by
  rcases h cursor (.refl source cursor.location) with hu | ⟨b, hb, -, hlocal⟩
  · exact absurd (ha.symm.trans hu) a.replyTo_ne_unfinished
  · obtain rfl : a = b := Account.replyTo_inj (ha.symm.trans hb)
    exact hlocal f within agree cursor' (by simp [Source.shifted])

section

variable {scope : Scope Nat} (scope' : Scope Nat) {rule : Rule} (fuel : Nat)
  (kind : scope.source.SameKind scope'.source) (naming : scope'.naming = scope.naming)
  (defs : scope'.definitions = scope.definitions) (loud : scope.Throughout Rule.Loud rule)
include kind naming defs loud

theorem Rule.attempt_elsewhere {cursor : Cursor Nat S} {a : Account Nat Value}
    (ha : rule.attempt scope fuel cursor = a.replyTo cursor) {cursor' : Cursor Nat T}
    (same : scope.source.ReadsAs scope'.source cursor.location cursor'.location a.furthest) :
    rule.attempt scope' fuel cursor'
      = (a.relocate (Source.shifted cursor.location cursor'.location)).replyTo cursor' := by
  obtain ⟨width, hw, hw'⟩ := kind.measured
  have hlocal : Parser.Local scope.source scope'.source cursor.location cursor'.location
      (rule.attempt scope fuel : Parser Nat S Value)
      (rule.attempt scope' fuel : Parser Nat T Value) :=
    (related_local hw naming hw' _ _).ruleAttempt defs fuel loud
  exact hlocal.replyTo cursor cursor' ha a.within_furthest (same.agreesUpTo hw hw')

/-- Read from the starts, inputs that agree are rejected alike. -/
theorem Rule.parseAll_elsewhere (start : scope.source.start = 0)
    {failure : Failure Nat (FurthestReports Nat Terminal)} {trace : Array (TraceEntry Nat)}
    {f : Nat} (hreject : rule.parseAll scope fuel .empty = .rejected failure trace)
    (hf : failure.sink.location? = some f)
    (same : scope.source.ReadsAs scope'.source scope.source.start scope'.source.start f) :
    rule.parseAll scope' fuel .empty = .rejected failure trace := by
  obtain ⟨width, hw, hw'⟩ := kind.measured
  let cursor : Cursor Nat (FurthestReports Nat Terminal) := .atStart scope.source .empty
  let cursor' : Cursor Nat (FurthestReports Nat Terminal) := .atStart scope'.source .empty
  have hend : scope.Throughout Loud .endOfInput := .intro trivial (by simp [parts])
  have hlocal : Parser.Local scope.source scope'.source scope.source.start scope'.source.start
      (rule.thenEnd scope fuel : Parser Nat (FurthestReports Nat Terminal) Value)
      (rule.thenEnd scope' fuel : Parser Nat (FurthestReports Nat Terminal) Value) :=
    (related_local hw naming hw' _ _).thenEnd defs fuel loud hend
  have hstart : cursor' = cursor := by
    simp [cursor, cursor', Cursor.atStart, kind.start_eq]
  have hshift (l : Nat) : Source.shifted cursor.location cursor'.location l = l := by
    simp [Source.shifted, hstart, cursor, Cursor.atStart, start]
  rcases hlocal cursor (.refl _ _) with hu | ⟨⟨outcome, m, es⟩, ha, -⟩
  · simp [parseAll, cursor, hu] at hreject
  cases outcome with
  | ok value => simp [parseAll, cursor, ha, Account.replyTo] at hreject
  | error error =>
    have hsink : failure.sink = Sink.reportAll FurthestReports.empty (reportsOf es) := by
      simp only [parseAll, cursor, ha, Account.replyTo, Verdict.rejected.injEq] at hreject
      rw [← hreject.1]
      rfl
    have hwithin : Account.Within f (⟨.error error, m, es⟩ : Account Nat Value) :=
      ⟨by simp, (FurthestReports.le_of_reportAll (hsink ▸ hf)).2⟩
    have hsame : rule.thenEnd scope' fuel cursor = rule.thenEnd scope fuel cursor := by
      have helsewhere := hlocal.replyTo cursor cursor' ha hwithin (same.agreesUpTo hw hw')
      rwa [Account.relocate_of_eq hshift, hstart, ← ha] at helsewhere
    rw [parseAll, show Cursor.atStart scope'.source FurthestReports.empty = cursor from hstart,
      hsame, naming]
    exact hreject

end

/-- **Nothing beyond the furthest report matters, nor anything before the start**, for rules whose
every failure is reported, on sequences and on texts.

* An attempt that comes to an end has an account, with no location before its start, such that on
  every other input that reads the same from some start up to the furthest location of the account,
  the attempt there does the same, with all locations shifted.
* If a whole input is rejected, so is every other one that reads the same up to the furthest report,
  with the same error, the same reports kept and the same trace. -/
theorem Rule.attempt_local {scope : Scope Nat} {size : Nat}
    (addressed : scope.source.Addressed size) {rule : Rule} (loud : scope.Throughout Loud rule)
    (fuel : Nat) :
    (∀ cursor : Cursor Nat S, rule.attempt scope fuel cursor = .unfinished ∨
      ∃ a : Account Nat Value, rule.attempt scope fuel cursor = a.replyTo cursor ∧
        cursor.location ≤ a.location ∧
        (∀ report ∈ a.reports, cursor.location ≤ report.error.location) ∧
        ∀ (source' : Source Nat) (cursor' : Cursor Nat T), scope.source.SameKind source' →
          scope.source.ReadsAs source' cursor.location cursor'.location a.furthest →
            rule.attempt { scope with source := source' } fuel cursor'
              = (a.relocate fun l => cursor'.location + (l - cursor.location)).replyTo cursor') ∧
    ∀ (failure : Failure Nat (FurthestReports Nat Terminal)) (trace : Array (TraceEntry Nat))
      (f : Nat), rule.parseAll scope fuel .empty = .rejected failure trace →
        failure.sink.location? = some f →
        ∀ source' : Source Nat, scope.source.SameKind source' →
          scope.source.ReadsAs source' scope.source.start source'.start f →
            rule.parseAll { scope with source := source' } fuel .empty
              = .rejected failure trace := by
  constructor
  · intro cursor
    have follows := rule.attempt_follows (S := S) scope False fuel (loud.mono fun _ => .inr)
    rcases follows cursor with h | ⟨a, h, trail⟩
    · exact .inl h
    obtain ⟨width, hwidth⟩ := addressed.measured
    refine .inr ⟨a, h, hwidth.le_of_reaches trail.reaches, ?_, ?_⟩
    · intro report hreport
      exact hwidth.le_of_reaches (trail.report_reaches report hreport).1
    · intro source' cursor' kind same
      exact attempt_elsewhere { scope with source := source' } fuel kind rfl rfl loud h same
  · intro failure trace f hreject hf source' kind same
    exact parseAll_elsewhere { scope with source := source' } fuel kind rfl rfl loud
      addressed.start_eq hreject hf same

/-- In `a,1` the comma is given back, with a report behind it. Where other terminals surround these,
the letter is read one place further on, with the same report. As a whole input `a,1` is rejected at
the comma, and so is `a,1,b`. -/
theorem Rule.attempt_local_letters :
    let scope : Scope Nat :=
      { source := .ofArray #[97, 44, 49], naming := .offsets .byte true,
        definitions := fun _ => none }
    let further : Scope Nat := { scope with source := .ofArray #[48, 97, 44, 49, 59] }
    let longer : Scope Nat := { scope with source := .ofArray #[97, 44, 49, 44, 98] }
    let start (l : Nat) : Cursor Nat (ReportLog Nat Terminal) := ⟨l, .empty, #[]⟩
    let missing (l : Nat) : Report Nat Terminal :=
      { error := .expected (Rule.letter.identity scope.naming) l, found := some 49 }
    (∃ after after' : Cursor Nat (ReportLog Nat Terminal),
      Grammar.letters.attempt scope 3 (start 0) = .ok (.list #[.terminal 97]) after ∧
        after.location = 1 ∧ after.sink.reports = #[missing 2] ∧
      Grammar.letters.attempt further 3 (start 1) = .ok (.list #[.terminal 97]) after' ∧
        after'.location = 2 ∧ after'.sink.reports = #[missing 3]) ∧
    ∃ (failure : Failure Nat (FurthestReports Nat Terminal)) (trace : Array (TraceEntry Nat)),
      Grammar.letters.parseAll scope 3 .empty = .rejected failure trace ∧
        failure.error = .expected "end" 1 ∧ failure.sink.location? = some 2 ∧
      Grammar.letters.parseAll longer 3 .empty = .rejected failure trace := by
  intro scope further longer start missing
  have loud : scope.Throughout Loud Grammar.letters :=
    Scope.throughout_sepBy1 trivial (Scope.throughout_terminal trivial)
      (Scope.throughout_terminal trivial)
  obtain ⟨elsewhere, rejected⟩ := attempt_local (S := ReportLog Nat Terminal)
    (T := ReportLog Nat Terminal) (.sequence #[97, 44, 49] : scope.source.Addressed 3) loud 3
  constructor
  · let account : Account Nat Value := ⟨.ok (.list #[.terminal 97]), 1, [.raised (missing 2),
      .rewound 3 2 (Rule.letter.identity scope.naming), .rewound 2 1 "(..)"]⟩
    have here : Grammar.letters.attempt scope 3 (start 0) = account.replyTo (start 0) := rfl
    rcases elsewhere (start 0) with hu | ⟨a, ha, -, -, same⟩
    · exact absurd (here.symm.trans hu) account.replyTo_ne_unfinished
    · obtain rfl : a = account := Account.replyTo_inj (ha.symm.trans here)
      have reads : scope.source.ReadsAs further.source 0 1 2 :=
        Source.readsAs_ofArray (by decide)
      exact ⟨_, _, here, rfl, rfl, same _ (start 1) (.sequences _ _) reads, rfl, rfl⟩
  · obtain ⟨failure, trace, hreject, herror, hlocation⟩ : ∃ failure trace,
        Grammar.letters.parseAll scope 3 FurthestReports.empty = .rejected failure trace ∧
          failure.error = .expected "end" 1 ∧ failure.sink.location? = some 2 :=
      ⟨_, _, rfl, rfl, rfl⟩
    have reads : scope.source.ReadsAs longer.source 0 0 2 := Source.readsAs_ofArray (by decide)
    exact ⟨failure, trace, hreject, herror, hlocation,
      rejected failure trace 2 hreject hlocation longer.source (.sequences _ _) reads⟩

end Backtrack
