import Backtrack.Input
import Backtrack.Proofs.Attempts

/-!
# Rules as compositions of parsers

Every rule is put together from the same few parsers: reading one terminal or one digit, looking for
the end of the input, raising an error where the cursor stands, sequencing, and attempts. A relation
between parsers that respects these (`Related`) therefore holds between the parsers of any rule over
two scopes (`Related.parse`), whatever loops and references the rule has. All that later modules
show of every rule, of one run or of two runs side by side, is an instance.

Rules that have no part of some kind, such as rules without silent parts, are described by
`Scope.Throughout`.
-/

namespace Backtrack

variable {L S α σ : Type}

/-! ## The parsers that rules are put together from -/

/-- Tells besides the value whether the cursor moved. -/
def Parser.moving [DecidableEq L] (p : Parser L S α) : Parser L S (α × Bool) :=
  fun cursor =>
    match p cursor with
    | .ok value moved => .ok (value, decide (moved.location ≠ cursor.location)) moved
    | .fail error moved => .fail error moved
    | .unfinished => .unfinished

theorem Parser.moving_eq_ok [DecidableEq L] {p : Parser L S α} {value : α} {moved : Bool}
    {cursor after : Cursor L S} :
    p.moving cursor = .ok (value, moved) after ↔
      p cursor = .ok value after ∧ moved = decide (after.location ≠ cursor.location) := by
  unfold moving
  cases p cursor with
  | ok found c =>
    simp only [Reply.ok.injEq, Prod.mk.injEq]
    constructor
    · rintro ⟨⟨rfl, rfl⟩, rfl⟩
      exact ⟨⟨rfl, rfl⟩, rfl⟩
    · rintro ⟨⟨rfl, rfl⟩, rfl⟩
      exact ⟨⟨rfl, rfl⟩, rfl⟩
  | fail error c => simp
  | unfinished => simp

/-- Fails where the cursor stands, and reports nothing. -/
def Parser.absentHere (name : String) : Parser L S α := do
  Parser.fail (.expected name (← Parser.location))

namespace Scope

section

variable [Sink S L Terminal] (scope : Scope L)

/-- Fails where the cursor stands, because `rule` did not match there. -/
def expectedHere (rule : Rule) : Parser L S α := do
  scope.expected rule (← Parser.location)

/-- Fails where the cursor stands, because a value is too large for the type. -/
def overflowHere (type : IntegerType) : Parser L S α := do
  Parser.raise scope.source (.overflow type.name (← Parser.location))

/-- Matches only where no terminal is left. -/
def ending : Parser L S Value := do
  match ← Parser.peek scope.source with
  | none => pure .unit
  | some _ => scope.expectedHere .endOfInput

/-- One more digit, combined with the numeral before it, if there is a digit. -/
def nextDigit [DecidableEq L] (alphabet : Digit) (type : IntegerType)
    (combine : Int → Option Int) : Parser L S (Option Int) := do
  let start ← Parser.location
  match ← scope.attemptOptional (.terminal (.digit alphabet type)) (scope.digit alphabet type) with
  | none => pure none
  | some digit =>
    match combine digit with
    | some value => pure (some value)
    | none => Parser.raise scope.source (.overflow type.name start)

end

/-! ## Loops, one turn at a time -/

variable [DecidableEq L] {scope : Scope L} {rule : Rule} {p : Parser L S α} {extend : σ → α → σ}
  {fuel : Nat} {gathered : σ} {cursor after : Cursor L S}

/-- A turn of a repetition: go on after a match that moved the cursor. -/
theorem extendMany_succ :
    scope.extendMany rule p extend (fuel + 1) gathered = (do
      let turn ← (scope.attemptOptional rule p).moving
      match turn.1 with
      | none => pure gathered
      | some value =>
        if turn.2 then scope.extendMany rule p extend fuel (extend gathered value)
        else pure (extend gathered value)) := by
  funext cursor
  rw [Parser.bind_apply, Parser.moving]
  cases h : scope.attemptOptional rule p cursor with
  | ok value c =>
    cases value with
    | none => exact extendMany_absent h
    | some value =>
      by_cases hc : c.location = cursor.location
      · simp [extendMany_still h hc, hc]
      · simp [extendMany_moved h hc, hc]
  | fail error c => exact extendMany_error h
  | unfinished => exact extendMany_unfinished h

variable [Sink S L Terminal] {alphabet : Digit} {type : IntegerType}
  {combine : Int → Int → Option Int} {value : Int}

theorem digitsAfter_absent
    (h : scope.attemptOptional (.digit alphabet type) (scope.digit alphabet type) cursor
      = .ok none after) :
    scope.digitsAfter alphabet type combine (fuel + 1) value cursor = .ok value after := by
  simp only [Rule.digit] at h
  simp [digitsAfter, h]

theorem digitsAfter_digit {digit next : Int}
    (h : scope.attemptOptional (.digit alphabet type) (scope.digit alphabet type) cursor
      = .ok (some digit) after) (hnext : combine value digit = some next) :
    scope.digitsAfter alphabet type combine (fuel + 1) value cursor
      = scope.digitsAfter alphabet type combine fuel next after := by
  simp only [Rule.digit] at h
  simp [digitsAfter, h, hnext]

theorem digitsAfter_overflow {digit : Int}
    (h : scope.attemptOptional (.digit alphabet type) (scope.digit alphabet type) cursor
      = .ok (some digit) after) (hnext : combine value digit = none) :
    scope.digitsAfter alphabet type combine (fuel + 1) value cursor
      = Parser.raise scope.source (.overflow type.name cursor.location) after := by
  simp only [Rule.digit] at h
  simp [digitsAfter, h, hnext]

/-- A turn of reading a numeral: go on after a digit. -/
theorem digitsAfter_succ :
    (scope.digitsAfter alphabet type combine (fuel + 1) value : Parser L S Int) = (do
      match ← scope.nextDigit alphabet type (combine value) with
      | none => pure value
      | some value => scope.digitsAfter alphabet type combine fuel value) := by
  funext cursor
  simp only [digitsAfter, nextDigit, Parser.bind_apply, Parser.location]
  cases scope.attemptOptional (.terminal (.digit alphabet type)) (scope.digit alphabet type)
      cursor with
  | ok digit c =>
    cases digit with
    | none => rfl
    | some digit =>
      simp only
      cases combine value digit <;> rfl
  | fail error c => rfl
  | unfinished => rfl

/-! ## Rules that look back at where they started -/

variable (scope) (fuel) (run : Rule → Parser L S Value)

omit [Sink S L Terminal] in
/-- Where a rule is absent the cursor is back at the start, which need not be remembered. -/
theorem attemptOptional_else (rule : Rule) (p : Parser L S Value)
    (otherwise : L → Parser L S Value) :
    (do
      let start ← Parser.location
      match ← scope.attemptOptional rule p with
      | some value => pure value
      | none => otherwise start) = (do
      match ← scope.attemptOptional rule p with
      | some value => pure value
      | none => otherwise (← Parser.location)) := by
  funext cursor
  simp only [Parser.bind_apply, Parser.location]
  cases h : scope.attemptOptional rule p cursor with
  | ok value c =>
    cases value with
    | none => simp [Parser.bind_apply, Parser.location, attemptOptional_none_location h]
    | some value => rfl
  | fail error c => rfl
  | unfinished => rfl

theorem parseRule_label (name : String) (rule : Rule) :
    scope.parseRule fuel run (.label name rule) = (do
      match ← scope.attemptOptional rule (run rule) with
      | some value => pure value
      | none => scope.expectedHere (.label name rule)) := by
  rw [parseRule]
  exact scope.attemptOptional_else rule (run rule) (scope.expected (.label name rule))

theorem parseRule_insist (name : String) (rule : Rule) (type : IntegerType) :
    scope.parseRule fuel run (.insist name rule type) = (do
      match ← scope.attemptOptional rule (run rule) with
      | some value => pure value
      | none => scope.overflowHere type) := by
  rw [parseRule]
  exact scope.attemptOptional_else rule (run rule) fun start =>
    Parser.raise scope.source (.overflow type.name start)

theorem parseRule_many1 (rule : Rule) (into : Container) :
    scope.parseRule fuel run (.many1 rule into) = (do
      let first ← (scope.attempt rule (run rule)).moving
      if first.2 then scope.repeated run fuel rule (Container.extend into.empty first.1)
      else pure (Container.extend into.empty first.1)) := by
  funext cursor
  simp only [parseRule, Parser.bind_apply, Parser.location, Parser.moving]
  cases scope.attempt rule (run rule) cursor with
  | ok value c =>
    by_cases hc : c.location = cursor.location
    · simp [hc]
    · simp [hc]
  | fail error c => rfl
  | unfinished => rfl

end Scope

/-! ## Parts of rules -/

/-- The rules that a rule applies, given what references stand for. -/
def Rule.parts (definitions : String → Option Rule) : Rule → List Rule
  | .terminal _ => []
  | .endOfInput => []
  | .optional rule => [rule]
  | .discard rule => [rule]
  | .many rule _ => [rule]
  | .many1 rule _ => [rule]
  | .sepBy1 rule separator _ => [rule, separator]
  | .padded rule padding => [rule, padding]
  | .seq rules => rules
  | .numeral first next type => [.digit first type, .digit next type]
  | .signedNumeral _ alphabet type => [.mark .hyphen, .digit alphabet type]
  | .take _ _ => []
  | .choice _ rules => rules
  | .label _ rule => [rule]
  | .insist _ rule _ => [rule]
  | .nothing _ => []
  | .silent _ => []
  | .ref _ definition => (definitions definition).toList
  | .assemble _ _ rules _ => rules
  | .named _ rule => [rule]

namespace Scope

/-- The first rule is the second or a part of it, at any depth and through references. -/
inductive PartOf (scope : Scope L) (part : Rule) : Rule → Prop where
  | refl : PartOf scope part part
  | step {rule inner : Rule} (mem : inner ∈ rule.parts scope.definitions)
      (rest : PartOf scope part inner) : PartOf scope part rule

/-- All parts of the rule are as told. -/
def Throughout (scope : Scope L) (ok : Rule → Prop) (rule : Rule) : Prop :=
  ∀ part, scope.PartOf part rule → ok part

variable {scope : Scope L} {ok : Rule → Prop} {rule : Rule}

theorem Throughout.self (h : scope.Throughout ok rule) : ok rule :=
  h rule .refl

theorem Throughout.part (h : scope.Throughout ok rule) {part : Rule}
    (mem : part ∈ rule.parts scope.definitions) : scope.Throughout ok part :=
  fun inner hinner => h inner (.step mem hinner)

theorem Throughout.intro (self : ok rule)
    (parts : ∀ part ∈ rule.parts scope.definitions, scope.Throughout ok part) :
    scope.Throughout ok rule := by
  intro part hpart
  cases hpart with
  | refl => exact self
  | step mem rest => exact parts _ mem part rest

theorem Throughout.of_forall (h : ∀ part, ok part) : scope.Throughout ok rule :=
  fun part _ => h part

theorem Throughout.mono (h : scope.Throughout ok rule) {ok' : Rule → Prop}
    (himp : ∀ part, ok part → ok' part) : scope.Throughout ok' rule :=
  fun part hpart => himp part (h part hpart)

/-- The parts of a rule depend on nothing but the definitions. -/
theorem PartOf.of_definitions {L' : Type} {scope' : Scope L'} {part : Rule}
    (h : scope'.PartOf part rule) (same : scope'.definitions = scope.definitions) :
    scope.PartOf part rule := by
  induction h with
  | refl => exact .refl
  | step mem _ ih => exact .step (same ▸ mem) ih

theorem Throughout.of_definitions {L' : Type} {scope' : Scope L'} (h : scope.Throughout ok rule)
    (same : scope'.definitions = scope.definitions) : scope'.Throughout ok rule :=
  fun part hpart => h part (hpart.of_definitions same)

theorem throughout_terminal {accepted : TerminalClass} (h : ok (.terminal accepted)) :
    scope.Throughout ok (.terminal accepted) :=
  .intro h (by simp [Rule.parts])

theorem throughout_many {into : Container} (self : ok (.many rule into))
    (hrule : scope.Throughout ok rule) : scope.Throughout ok (.many rule into) :=
  .intro self (by simp [Rule.parts, hrule])

theorem throughout_sepBy1 {separator : Rule} {into : Container}
    (self : ok (.sepBy1 rule separator into)) (hrule : scope.Throughout ok rule)
    (hseparator : scope.Throughout ok separator) :
    scope.Throughout ok (.sepBy1 rule separator into) :=
  .intro self (by simp [Rule.parts, hrule, hseparator])

theorem throughout_padded {padding : Rule} (self : ok (.padded rule padding))
    (hrule : scope.Throughout ok rule) (hpadding : scope.Throughout ok padding) :
    scope.Throughout ok (.padded rule padding) :=
  .intro self (by simp [Rule.parts, hrule, hpadding])

section

variable {rules : List Rule} (hrules : ∀ rule ∈ rules, scope.Throughout ok rule)
include hrules

theorem throughout_seq (self : ok (.seq rules)) : scope.Throughout ok (.seq rules) :=
  .intro self (by simpa [Rule.parts] using hrules)

theorem throughout_choice {name : String} (self : ok (.choice name rules)) :
    scope.Throughout ok (.choice name rules) :=
  .intro self (by simpa [Rule.parts] using hrules)

theorem throughout_assemble {name constructs : String} {build : List Value → Value}
    (self : ok (.assemble name constructs rules build)) :
    scope.Throughout ok (.assemble name constructs rules build) :=
  .intro self (by simpa [Rule.parts] using hrules)

end

end Scope

/-! ## Relations that rules respect -/

variable {L' S' : Type} [DecidableEq L] [DecidableEq L'] [Sink S L Terminal] [Sink S' L' Terminal]

/-- A relation between parsers over two scopes that is respected by everything rules are put
together from. Leaves are asked for only as far as `ok` admits them. -/
structure Related (scope : Scope L) (scope' : Scope L') (ok : Rule → Prop)
    (Rel : ∀ {α : Type}, Parser L S α → Parser L' S' α → Prop) : Prop where
  unfinished {α : Type} : Rel (Parser.unfinished (α := α)) Parser.unfinished
  pure {α : Type} (value : α) : Rel (Pure.pure value) (Pure.pure value)
  bind {α β : Type} {p : Parser L S α} {p' : Parser L' S' α} {f : α → Parser L S β}
    {f' : α → Parser L' S' β} (hp : Rel p p') (hf : ∀ value, Rel (f value) (f' value)) :
    Rel (p >>= f) (p' >>= f')
  moving {α : Type} {p : Parser L S α} {p' : Parser L' S' α} (hp : Rel p p') :
    Rel p.moving p'.moving
  attempt {α : Type} (rule : Rule) {p : Parser L S α} {p' : Parser L' S' α} (hp : Rel p p') :
    Rel (scope.attempt rule p) (scope'.attempt rule p')
  attemptOptional {α : Type} (rule : Rule) {p : Parser L S α} {p' : Parser L' S' α}
    (hp : Rel p p') : Rel (scope.attemptOptional rule p) (scope'.attemptOptional rule p')
  /-- What is made of a terminal may differ from the value of the class, as it does for the digits
  of a numeral. -/
  terminal {α : Type} (accepted : TerminalClass) (ha : ok (.terminal accepted))
    (accept : Terminal → Option α) (same : ∀ t, (accept t).isSome = (accepted.accept t).isSome) :
    Rel (scope.acceptTerminal (.terminal accepted) accept)
      (scope'.acceptTerminal (.terminal accepted) accept)
  nextDigit (alphabet : Digit) (type : IntegerType) (hd : ok (.digit alphabet type))
    (combine : Int → Option Int) :
    Rel (scope.nextDigit alphabet type combine) (scope'.nextDigit alphabet type combine)
  ending (he : ok .endOfInput) : Rel scope.ending scope'.ending
  advance (name : String) (n : Nat) (ht : ok (.take name n)) :
    Rel (Parser.advance scope.source) (Parser.advance scope'.source)
  expectedHere {α : Type} (rule : Rule) :
    Rel (scope.expectedHere (α := α) rule) (scope'.expectedHere rule)
  overflowHere {α : Type} (type : IntegerType) :
    Rel (scope.overflowHere (α := α) type) (scope'.overflowHere type)
  silent (name : String) (hs : ok (.silent name)) :
    Rel (Parser.absentHere (α := Value) name) (Parser.absentHere name)

namespace Related

variable {scope : Scope L} {scope' : Scope L'} {ok : Rule → Prop}
  {Rel : ∀ {α : Type}, Parser L S α → Parser L' S' α → Prop} (h : Related scope scope' ok Rel)
  {run : Rule → Parser L S Value} {run' : Rule → Parser L' S' Value}
include h

theorem extendMany {α σ : Type} (rule : Rule) {p : Parser L S α} {p' : Parser L' S' α}
    (hp : Rel p p') (extend : σ → α → σ) (fuel : Nat) (gathered : σ) :
    Rel (scope.extendMany rule p extend fuel gathered)
      (scope'.extendMany rule p' extend fuel gathered) := by
  induction fuel generalizing gathered with
  | zero => exact h.unfinished
  | succ fuel ih =>
    rw [Scope.extendMany_succ, Scope.extendMany_succ]
    apply h.bind (h.moving (h.attemptOptional rule hp))
    intro turn
    obtain ⟨value, moved⟩ := turn
    cases value with
    | none => exact h.pure _
    | some value =>
      cases moved with
      | false => exact h.pure _
      | true => exact ih _

theorem digitsAfter (alphabet : Digit) (type : IntegerType) (hd : ok (.digit alphabet type))
    (combine : Int → Int → Option Int) (fuel : Nat) (value : Int) :
    Rel (scope.digitsAfter alphabet type combine fuel value)
      (scope'.digitsAfter alphabet type combine fuel value) := by
  induction fuel generalizing value with
  | zero => exact h.unfinished
  | succ fuel ih =>
    rw [Scope.digitsAfter_succ, Scope.digitsAfter_succ]
    apply h.bind (h.nextDigit alphabet type hd _)
    intro next
    cases next with
    | none => exact h.pure _
    | some value => exact ih _

theorem digit (alphabet : Digit) (type : IntegerType) (hd : ok (.digit alphabet type)) :
    Rel (scope.digit alphabet type) (scope'.digit alphabet type) :=
  h.terminal _ hd _ fun t => by simp [TerminalClass.accept]

theorem takeTerminals (name : String) (count : Nat) (ht : ok (.take name count)) (n : Nat)
    (taken : Array Value) :
    Rel (scope.takeTerminals (.take name count) n taken)
      (scope'.takeTerminals (.take name count) n taken) := by
  induction n generalizing taken with
  | zero => exact h.pure _
  | succ n ih =>
    apply h.bind (h.advance name count ht)
    intro next
    cases next with
    | none => exact h.expectedHere _
    | some t => exact ih _

theorem sequence {rules : List Rule} (hrun : ∀ rule ∈ rules, Rel (run rule) (run' rule)) :
    Rel (scope.sequence run rules) (scope'.sequence run' rules) := by
  induction rules with
  | nil => exact h.pure _
  | cons rule rules ih =>
    apply h.bind (h.attempt rule (hrun rule (by simp)))
    intro value
    exact h.bind (ih fun rule hr => hrun rule (by simp [hr])) fun values => h.pure _

theorem firstPresent (self : Rule) {rules : List Rule}
    (hrun : ∀ rule ∈ rules, Rel (run rule) (run' rule)) :
    Rel (scope.firstPresent run self rules) (scope'.firstPresent run' self rules) := by
  induction rules with
  | nil => exact h.expectedHere self
  | cons rule rules ih =>
    have hrule := hrun rule (by simp)
    cases rules with
    | nil => exact h.attempt rule hrule
    | cons next rules =>
      apply h.bind (h.attemptOptional rule hrule)
      intro value
      cases value with
      | none => exact ih fun rule hr => hrun rule (List.mem_cons_of_mem _ hr)
      | some value => exact h.pure _

/-- **The parsers of a rule are related**: what the leaves, sequencing and attempts respect, every
rule respects, with any amount of fuel. -/
theorem parse (defs : scope'.definitions = scope.definitions) (fuel : Nat) {rule : Rule}
    (hrule : scope.Throughout ok rule) : Rel (rule.parse scope fuel) (rule.parse scope' fuel) := by
  -- the induction is on the fuel and not on the rule, which may refer to itself
  induction fuel generalizing rule with
  | zero => exact h.unfinished
  | succ fuel ih =>
    have run : ∀ part ∈ rule.parts scope.definitions,
        Rel (part.parse scope fuel) (part.parse scope' fuel) :=
      fun part mem => ih (hrule.part mem)
    have leaf : ∀ part ∈ rule.parts scope.definitions, ok part :=
      fun part mem => (hrule.part mem).self
    have self := hrule.self
    simp only [Rule.parse]
    cases rule with
    | terminal accepted => exact h.terminal accepted self _ fun _ => rfl
    | endOfInput => exact h.ending self
    | optional rule =>
      exact h.bind (h.attemptOptional rule (run rule (by simp [Rule.parts]))) fun _ => h.pure _
    | discard rule =>
      exact h.bind (h.attempt rule (run rule (by simp [Rule.parts]))) fun _ => h.pure _
    | many rule into => exact h.extendMany rule (run rule (by simp [Rule.parts])) _ _ _
    | many1 rule into =>
      have hrule := run rule (by simp [Rule.parts])
      rw [scope.parseRule_many1, scope'.parseRule_many1]
      apply h.bind (h.moving (h.attempt rule hrule))
      intro first
      obtain ⟨value, moved⟩ := first
      cases moved with
      | false => exact h.pure _
      | true => exact h.extendMany rule hrule _ _ _
    | sepBy1 rule separator into =>
      have hrule := h.attempt rule (run rule (by simp [Rule.parts]))
      have hseparator := h.attempt separator (run separator (by simp [Rule.parts]))
      apply h.bind hrule
      intro first
      exact h.extendMany _ (h.bind hseparator fun _ => hrule) _ _ _
    | padded rule padding =>
      have hrule := h.attempt rule (run rule (by simp [Rule.parts]))
      have hpadding := fun gathered => h.extendMany padding
        (run padding (by simp [Rule.parts])) Container.extend fuel gathered
      apply h.bind (hpadding _)
      intro _
      apply h.bind hrule
      intro value
      exact h.bind (hpadding _) fun _ => h.pure value
    | seq rules => exact h.bind (h.sequence run) fun _ => h.pure _
    | numeral first next type =>
      have hfirst := h.digit first type (leaf _ (by simp [Rule.parts]))
      refine h.bind (h.bind (h.attempt _ hfirst) fun value => ?_) fun _ => h.pure _
      exact h.digitsAfter next type (leaf _ (by simp [Rule.parts])) _ fuel value
    | signedNumeral name alphabet type =>
      have hhyphen := h.terminal (.mark .hyphen) (leaf _ (by simp [Rule.parts, Rule.mark])) _
        fun _ => rfl
      have hdigit := leaf (.digit alphabet type) (by simp [Rule.parts])
      refine h.bind (h.bind (h.attemptOptional _ hhyphen) fun sign => ?_) fun _ => h.pure _
      apply h.bind (h.attempt _ (h.digit alphabet type hdigit))
      intro first
      cases sign with
      | none => exact h.digitsAfter alphabet type hdigit _ fuel _
      | some sign => exact h.digitsAfter alphabet type hdigit _ fuel _
    | take name n => exact h.takeTerminals name n self n #[]
    | choice name rules => exact h.firstPresent _ run
    | label name rule =>
      rw [scope.parseRule_label, scope'.parseRule_label]
      apply h.bind (h.attemptOptional rule (run rule (by simp [Rule.parts])))
      intro value
      cases value with
      | none => exact h.expectedHere _
      | some value => exact h.pure _
    | insist name rule type =>
      rw [scope.parseRule_insist, scope'.parseRule_insist]
      apply h.bind (h.attemptOptional rule (run rule (by simp [Rule.parts])))
      intro value
      cases value with
      | none => exact h.overflowHere type
      | some value => exact h.pure _
    | nothing name => exact h.pure _
    | silent name => exact h.silent name self
    | ref name definition =>
      simp only [Scope.parseRule, defs]
      cases hd : scope.definitions definition with
      | none => exact h.expectedHere _
      | some rule => exact run rule (by simp [Rule.parts, hd])
    | assemble name constructs rules build => exact h.bind (h.sequence run) fun _ => h.pure _
    | named name rule => exact run rule (by simp [Rule.parts])

/-! ### The entries -/

variable (defs : scope'.definitions = scope.definitions) (fuel : Nat) {rule : Rule}
  (hrule : scope.Throughout ok rule)
include defs hrule

theorem ruleAttempt : Rel (rule.attempt scope fuel) (rule.attempt scope' fuel) :=
  h.attempt rule (h.parse defs fuel hrule)

theorem ruleAttemptMany (into : Container) :
    Rel (rule.attemptMany scope fuel into) (rule.attemptMany scope' fuel into) :=
  h.extendMany rule (h.parse defs fuel hrule) Container.extend fuel into.empty

theorem thenEnd (hend : scope.Throughout ok .endOfInput) :
    Rel (rule.thenEnd scope fuel) (rule.thenEnd scope' fuel) := by
  refine h.attempt _ (h.bind (h.ruleAttempt defs fuel hrule) fun value => ?_)
  exact h.bind (h.ruleAttempt defs fuel hend) fun _ => h.pure value

end Related

end Backtrack
