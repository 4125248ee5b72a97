import Backtrack.Grammar.Sample
import Backtrack.Proofs.Account
import Backtrack.Proofs.Meaning
import Mathlib.Data.List.Defs

/-!
# Rules do what they mean

On a source that spells a list of terminals, a rule without references comes to an end, and does
what its meaning tells about the list (`Rule.attempt_meaning`): it matches with the same value and
stops as many terminals further, or fails with the same error as many terminals further. Parsers are
related to readings (`Parser.Realizes`) along the structure of rules; the bound on the number of
terminals left is what the fuel of loops is measured against.
-/

namespace Backtrack

variable {L S α β σ : Type}

/-! ## Replies that a meaning describes -/

/-- The reply is the one that the meaning tells, for a parser that started at the location. -/
def Source.Describes (source : Source L) (l : L) (meaning : Meaning α) (reply : Reply L S α) :
    Prop :=
  match meaning with
  | .matched value n => ∃ after, reply = .ok value after ∧ source.Steps n l after.location
  | .absent rule k => ∃ m after, reply = .fail (.expected rule m) after ∧ source.Steps k l m
  | .overflow type k => ∃ m after, reply = .fail (.overflow type m) after ∧ source.Steps k l m

namespace Source.Describes

variable {source : Source L} {scope : Scope L} {cursor : Cursor L S} {p : Parser L S α}
  {r : Reading α} {ts : List Terminal}

/-- What is told of a parser behind some terminals is told from before them. -/
theorem after {l m : L} {meaning : Meaning α} {reply : Reply L S α}
    (h : source.Describes m meaning reply) {n : Nat} (hn : source.Steps n l m) :
    source.Describes l (meaning.after n) reply := by
  cases meaning with
  | matched value k =>
    obtain ⟨after, hreply, hk⟩ := h
    exact ⟨after, hreply, hn.trans hk⟩
  | absent | overflow =>
    obtain ⟨m, after, hreply, hk⟩ := h
    exact ⟨m, after, hreply, hn.trans hk⟩

theorem bind {f : α → Parser L S β} {g : α → Reading β}
    (h : source.Describes cursor.location (r ts) (p cursor))
    (hf : ∀ value n after, r ts = .matched value n →
      source.Steps n cursor.location after.location →
        source.Describes after.location (g value (ts.drop n)) (f value after)) :
    source.Describes cursor.location ((r >>= g) ts) ((p >>= f) cursor) := by
  rw [Parser.bind_apply, Reading.bind_apply]
  cases hr : r ts with
  | matched value n =>
    rw [hr] at h
    obtain ⟨after, hok, hn⟩ := h
    rw [hok]
    exact (hf value n after hr hn).after hn
  | absent | overflow =>
    rw [hr] at h
    obtain ⟨m, after, hfail, hk⟩ := h
    rw [hfail]
    exact ⟨m, after, rfl, hk⟩

/-- What one terminal is read as depends on no more than which one it is. -/
theorem acceptTerminal [Sink S L Terminal] (rule : Rule) (accept : Terminal → Option α)
    (seen : scope.source.found cursor.location = ts.head?) :
    scope.source.Describes cursor.location
      (Reading.terminal (rule.identity scope.naming) accept ts)
      (scope.acceptTerminal rule accept cursor) := by
  rw [scope.acceptTerminal_account, Account.reading]
  cases ts with
  | nil =>
    rw [found_eq_none.1 seen]
    exact ⟨cursor.location, _, rfl, .zero _⟩
  | cons t ts =>
    obtain ⟨⟨t', next⟩, here, ht⟩ := Option.map_eq_some_iff.1 seen
    obtain rfl : t' = t := ht
    rw [here, Reading.terminal]
    simp only
    cases accept t' with
    | none => exact ⟨cursor.location, _, rfl, .zero _⟩
    | some value => exact ⟨_, rfl, .one here⟩

variable [DecidableEq L]

theorem attempt {meaning : Meaning α} (h : source.Describes cursor.location meaning (p cursor))
    (rule : Rule) : source.Describes cursor.location meaning (scope.attempt rule p cursor) := by
  cases meaning with
  | matched value n =>
    obtain ⟨after, hok, hn⟩ := h
    exact ⟨after, Scope.attempt_eq_ok.2 hok, hn⟩
  | absent | overflow =>
    obtain ⟨m, after, hfail, hk⟩ := h
    obtain ⟨back, hattempt⟩ := Scope.attempt_of_fail hfail
    exact ⟨m, back, hattempt, hk⟩

theorem attemptOptional (h : source.Describes cursor.location (r ts) (p cursor)) (rule : Rule) :
    source.Describes cursor.location (r.optional ts) (scope.attemptOptional rule p cursor) := by
  have hp : source.Describes cursor.location (r ts) (scope.attempt rule p cursor) := h.attempt rule
  unfold Scope.attemptOptional Reading.optional
  cases hr : r ts with
  | matched value n =>
    rw [hr] at hp
    obtain ⟨after, hok, hn⟩ := hp
    exact ⟨after, by rw [hok], hn⟩
  | absent name k =>
    rw [hr] at hp
    obtain ⟨m, after, hfail, hk⟩ := hp
    refine ⟨after, by simp [hfail, Error.recoverable], ?_⟩
    rw [Scope.attempt_fail_location hfail]
    exact .zero _
  | overflow type k =>
    rw [hr] at hp
    obtain ⟨m, after, hfail, hk⟩ := hp
    exact ⟨m, after, by simp [hfail, Error.recoverable], hk⟩

/-- One turn of a run of digits, given what the turns after it do. -/
theorem digitsAfter [Sink S L Terminal] (alphabet : Digit) (type : IntegerType)
    (combine : Int → Int → Option Int) {fuel : Nat} {value : Int}
    (seen : scope.source.found cursor.location = ts.head?)
    (hrest : ∀ t us digit value' (after : Cursor L S), ts = t :: us →
      alphabet.read? type t = some digit → combine value digit = some value' →
        scope.source.Steps 1 cursor.location after.location →
          scope.source.Describes after.location
            (Reading.digitsAfter (alphabet.read? type) type combine value' us)
            (scope.digitsAfter alphabet type combine fuel value' after)) :
    scope.source.Describes cursor.location
      (Reading.digitsAfter (alphabet.read? type) type combine value ts)
      (scope.digitsAfter alphabet type combine (fuel + 1) value cursor) := by
  have hturn : scope.source.Describes cursor.location (Reading.optional (.terminal _ _) ts)
      (scope.attemptOptional (.digit alphabet type) (scope.digit alphabet type) cursor) :=
    (acceptTerminal (.digit alphabet type) (alphabet.read? type) seen).attemptOptional _
  unfold Reading.optional at hturn
  cases ts with
  | nil =>
    obtain ⟨after, hok, hn⟩ := hturn
    rw [Scope.digitsAfter_absent hok]
    exact ⟨after, rfl, hn⟩
  | cons t us =>
    rw [Reading.terminal] at hturn
    rw [Reading.digitsAfter]
    cases hread : alphabet.read? type t with
    | none =>
      simp only [hread] at hturn ⊢
      obtain ⟨after, hok, hn⟩ := hturn
      rw [Scope.digitsAfter_absent hok]
      exact ⟨after, rfl, hn⟩
    | some digit =>
      simp only [hread] at hturn ⊢
      obtain ⟨after, hok, hn⟩ := hturn
      cases hnext : combine value digit with
      | none =>
        simp only
        rw [Scope.digitsAfter_overflow hok hnext]
        exact ⟨cursor.location, _, rfl, .zero _⟩
      | some value' =>
        simp only
        rw [Scope.digitsAfter_digit hok hnext]
        exact (hrest t us digit value' after rfl hread hnext hn).after hn

end Source.Describes

/-! ## Readings that a parser realizes -/

/-- Wherever no more terminals than the bound are left, the parser does what the reading tells. -/
def Parser.Realizes (source : Source L) (bound : Nat) (p : Parser L S α) (r : Reading α) : Prop :=
  ∀ cursor ts, source.Spells cursor.location ts → ts.length ≤ bound →
    source.Describes cursor.location (r ts) (p cursor)

namespace Parser.Realizes

variable {source : Source L} {scope : Scope L} {bound : Nat} {p : Parser L S α} {r : Reading α}

theorem pure (value : α) :
    (Pure.pure value : Parser L S α).Realizes source bound (Pure.pure value) :=
  fun cursor _ _ _ => ⟨cursor, rfl, .zero _⟩

theorem bind {f : α → Parser L S β} {g : α → Reading β} (h : p.Realizes source bound r)
    (hf : ∀ value, (f value).Realizes source bound (g value)) :
    (p >>= f).Realizes source bound (r >>= g) := by
  intro cursor ts hs hlen
  refine (h cursor ts hs hlen).bind fun value n after _ hn => ?_
  obtain ⟨-, hrest⟩ := hs.after hn
  refine hf value after _ hrest ?_
  rw [List.length_drop]
  omega

/-! ## Leaves -/

section

variable [Sink S L Terminal]

theorem expectedHere (rule : Rule) :
    (scope.expectedHere rule : Parser L S α).Realizes scope.source bound
      (.absentHere (rule.identity scope.naming)) :=
  fun cursor _ _ _ => ⟨cursor.location, _, rfl, .zero _⟩

theorem overflowHere (type : IntegerType) :
    (scope.overflowHere type : Parser L S α).Realizes scope.source bound (.overflowHere type) :=
  fun cursor _ _ _ => ⟨cursor.location, _, rfl, .zero _⟩

theorem acceptTerminal (rule : Rule) (accept : Terminal → Option α) :
    (scope.acceptTerminal rule accept : Parser L S α).Realizes scope.source bound
      (.terminal (rule.identity scope.naming) accept) :=
  fun _ _ hs _ => .acceptTerminal rule accept hs.found_eq

theorem ending : (scope.ending : Parser L S Value).Realizes scope.source bound
    (.ending (Rule.endOfInput.identity scope.naming)) := by
  intro cursor ts hs _
  rw [scope.ending_account, Account.ending]
  cases hs with
  | nil here =>
    rw [here]
    exact ⟨_, rfl, .zero _⟩
  | cons here rest =>
    rw [here]
    exact ⟨cursor.location, _, rfl, .zero _⟩

theorem takeTerminals (name : String) (count n : Nat) (taken : Array Value) :
    (scope.takeTerminals (.take name count) n taken : Parser L S Value).Realizes scope.source bound
      (.exactly ((Rule.take name count).identity scope.naming) n taken) := by
  induction n generalizing taken with
  | zero => exact .pure _
  | succ n ih =>
    have hturn : (scope.takeTerminals (.take name count) (n + 1) taken : Parser L S Value) = (do
        let t ← scope.acceptTerminal (.take name count) some
        scope.takeTerminals (.take name count) n (taken.push (.terminal t))) := by
      funext cursor
      simp only [Scope.takeTerminals, Scope.acceptTerminal, Parser.bind_apply, Parser.location,
        Parser.advance]
      cases scope.source.terminalAt cursor.location <;> rfl
    rw [hturn]
    exact (acceptTerminal _ some).bind fun t => ih _

end

/-! ## Attempts and repetitions -/

variable [DecidableEq L]

theorem attempt (h : p.Realizes source bound r) (rule : Rule) :
    (scope.attempt rule p).Realizes source bound r :=
  fun cursor ts hs hlen => (h cursor ts hs hlen).attempt rule

theorem attemptOptional (h : p.Realizes source bound r) (rule : Rule) :
    (scope.attemptOptional rule p).Realizes source bound r.optional :=
  fun cursor ts hs hlen => (h cursor ts hs hlen).attemptOptional rule

theorem moving (h : p.Realizes source bound r) : p.moving.Realizes source bound r.moving := by
  intro cursor ts hs hlen
  have hp := h cursor ts hs hlen
  unfold Parser.moving Reading.moving
  cases hr : r ts with
  | matched value n =>
    rw [hr] at hp
    obtain ⟨after, hok, hn⟩ := hp
    exact ⟨after, by simp [hok, hs.eq_iff hn], hn⟩
  | absent | overflow =>
    rw [hr] at hp
    obtain ⟨m, after, hfail, hk⟩ := hp
    exact ⟨m, after, by rw [hfail], hk⟩

/-- One turn is left for the end of the repetition, besides one for each terminal. -/
theorem extendMany (h : p.Realizes source bound r) (rule : Rule) (extend : σ → α → σ)
    {fuel : Nat} (hfuel : bound < fuel) (gathered : σ) :
    (scope.extendMany rule p extend fuel gathered).Realizes source bound
      (r.many extend gathered) := by
  -- the induction is on the fuel, and each turn that goes on has fewer terminals left
  suffices ∀ cursor ts, source.Spells cursor.location ts → ts.length ≤ bound →
      ts.length < fuel → source.Describes cursor.location (r.many extend gathered ts)
        (scope.extendMany rule p extend fuel gathered cursor) by
    intro cursor ts hs hlen
    exact this cursor ts hs hlen (by omega)
  clear hfuel
  induction fuel generalizing gathered with
  | zero => omega
  | succ fuel ih =>
    intro cursor ts hs hlen hfuel
    have hturn : source.Describes cursor.location (r.optional ts)
        (scope.attemptOptional rule p cursor) := h.attemptOptional rule cursor ts hs hlen
    unfold Reading.optional at hturn
    rw [Reading.many]
    cases hr : r ts with
    | matched value n =>
      simp only [hr] at hturn ⊢
      obtain ⟨after, hok, hn⟩ := hturn
      obtain ⟨hle, hrest⟩ := hs.after hn
      by_cases hpos : 0 < n
      · rw [if_pos ⟨hpos, hle⟩, Scope.extendMany_moved hok (mt (hs.eq_iff hn).1 (by omega))]
        refine (ih _ after _ hrest ?_ ?_).after hn
        all_goals
          rw [List.length_drop]
          omega
      · have hstill : after.location = cursor.location := (hs.eq_iff hn).2 (by omega)
        rw [if_neg (fun hn => hpos hn.1), Scope.extendMany_still hok hstill]
        exact ⟨after, rfl, hn⟩
    | absent =>
      simp only [hr] at hturn ⊢
      obtain ⟨after, hok, hn⟩ := hturn
      exact ⟨after, Scope.extendMany_absent hok, hn⟩
    | overflow =>
      simp only [hr] at hturn ⊢
      obtain ⟨m, after, hfail, hk⟩ := hturn
      exact ⟨m, after, Scope.extendMany_error hfail, hk⟩

/-! ## Numerals -/

section

variable [Sink S L Terminal]

theorem digitsAfter (alphabet : Digit) (type : IntegerType) (combine : Int → Int → Option Int)
    {fuel : Nat} (hfuel : bound < fuel) (value : Int) :
    (scope.digitsAfter alphabet type combine fuel value : Parser L S Int).Realizes scope.source
      bound (.digitsAfter (alphabet.read? type) type combine value) := by
  suffices ∀ (cursor : Cursor L S) ts, scope.source.Spells cursor.location ts →
      ts.length < fuel → scope.source.Describes cursor.location
        (Reading.digitsAfter (alphabet.read? type) type combine value ts)
        (scope.digitsAfter alphabet type combine fuel value cursor) by
    intro cursor ts hs hlen
    exact this cursor ts hs (by omega)
  clear hfuel
  induction fuel generalizing value with
  | zero => omega
  | succ fuel ih =>
    intro cursor ts hs hfuel
    refine .digitsAfter alphabet type combine hs.found_eq ?_
    rintro t us digit value' after rfl - - hn
    obtain ⟨-, hrest⟩ := hs.after hn
    exact ih value' after us hrest (by simpa using hfuel)

theorem numeral {fuel : Nat} (hfuel : bound < fuel) (first next : Digit) (type : IntegerType) :
    (scope.numeral fuel first next type : Parser L S Int).Realizes scope.source bound
      (.numeral scope.naming first next type) := by
  apply (Realizes.attempt (acceptTerminal (.digit first type) _) _).bind
  intro value
  exact digitsAfter next type _ hfuel value

theorem signedNumeral {fuel : Nat} (hfuel : bound < fuel) (alphabet : Digit)
    (type : IntegerType) :
    (scope.signedNumeral fuel alphabet type : Parser L S Int).Realizes scope.source bound
      (.signedNumeral scope.naming alphabet type) := by
  apply (Realizes.attemptOptional (acceptTerminal (.mark .hyphen) _) _).bind
  intro sign
  apply (Realizes.attempt (acceptTerminal (.digit alphabet type) _) _).bind
  intro first
  cases sign with
  | none => exact digitsAfter alphabet type _ hfuel first
  | some sign => exact digitsAfter alphabet type _ hfuel (-first)

end

/-! ## Rules -/

variable {run : Rule → Parser L S Value}

theorem sequence {rules : List Rule}
    (hrun : ∀ rule ∈ rules, (run rule).Realizes scope.source bound (rule.meaning scope.naming)) :
    (scope.sequence run rules).Realizes scope.source bound
      (Rule.meanings scope.naming rules) := by
  induction rules with
  | nil => exact .pure _
  | cons rule rules ih =>
    apply ((hrun rule (by simp)).attempt rule).bind
    intro value
    exact (ih fun rule hr => hrun rule (by simp [hr])).bind fun values => .pure _

theorem firstPresent [Sink S L Terminal] (self : Rule) {rules : List Rule}
    (hrun : ∀ rule ∈ rules, (run rule).Realizes scope.source bound (rule.meaning scope.naming)) :
    (scope.firstPresent run self rules).Realizes scope.source bound
      (Rule.firstMeaning scope.naming (self.identity scope.naming) rules) := by
  induction rules with
  | nil => exact expectedHere self
  | cons rule rules ih =>
    have hrule := hrun rule (by simp)
    cases rules with
    | nil => exact hrule.attempt rule
    | cons next rules =>
      apply (hrule.attemptOptional rule).bind
      intro value
      cases value with
      | none => exact ih fun rule hr => hrun rule (List.mem_cons_of_mem _ hr)
      | some value => exact .pure _

end Parser.Realizes

namespace Rule

/-- The rule is not a reference. -/
def Direct : Rule → Prop
  | .ref .. => False
  | _ => True

variable [DecidableEq L] [Sink S L Terminal] {scope : Scope L}

/-- **Rules realize their meanings**, with fuel for each rule inside another and for each terminal
left. -/
theorem parse_realizes {rule : Rule} (direct : scope.Throughout Direct rule) {bound fuel : Nat}
    (hfuel : sizeOf rule + bound < fuel) :
    (rule.parse scope fuel : Parser L S Value).Realizes scope.source bound
      (rule.meaning scope.naming) := by
  -- the induction is on the fuel, which every part of the rule has one less of
  induction fuel generalizing rule with
  | zero => omega
  | succ fuel ih =>
    have run : ∀ part ∈ rule.parts scope.definitions, sizeOf part < sizeOf rule →
        (part.parse scope fuel : Parser L S Value).Realizes scope.source bound
          (part.meaning scope.naming) :=
      fun part mem hsize => ih (direct.part mem) (by omega)
    have hloop : bound < fuel := by
      have hsize : 0 < sizeOf rule := by
        cases rule <;> simp +arith
      omega
    simp only [Rule.parse]
    cases rule with
    | terminal accepted => exact .acceptTerminal (.terminal accepted) accepted.accept
    | endOfInput => exact .ending
    | optional rule =>
      have hrule := run rule (by simp [parts]) (by simp only [optional.sizeOf_spec]; omega)
      exact (hrule.attemptOptional rule).bind fun _ => .pure _
    | discard rule =>
      have hrule := run rule (by simp [parts]) (by simp only [discard.sizeOf_spec]; omega)
      exact (hrule.attempt rule).bind fun _ => .pure _
    | many rule into =>
      have hrule := run rule (by simp [parts]) (by simp only [many.sizeOf_spec]; omega)
      exact hrule.extendMany rule _ hloop _
    | many1 rule into =>
      have hrule := run rule (by simp [parts]) (by simp only [many1.sizeOf_spec]; omega)
      rw [Scope.parseRule_many1, meaning]
      apply (hrule.attempt rule).moving.bind
      intro first
      obtain ⟨value, moved⟩ := first
      cases moved with
      | false => exact .pure _
      | true => exact hrule.extendMany rule _ hloop _
    | sepBy1 rule separator into =>
      have hrule := run rule (by simp [parts]) (by simp only [sepBy1.sizeOf_spec]; omega)
      have hseparator := run separator (by simp [parts]) (by simp only [sepBy1.sizeOf_spec]; omega)
      rw [meaning]
      apply (hrule.attempt rule).bind
      intro first
      refine .extendMany ?_ _ _ hloop _
      exact (hseparator.attempt separator).bind fun _ => hrule.attempt rule
    | padded rule padding =>
      have hrule := run rule (by simp [parts]) (by simp only [padded.sizeOf_spec]; omega)
      have hpadding := run padding (by simp [parts]) (by simp only [padded.sizeOf_spec]; omega)
      rw [meaning]
      apply (hpadding.extendMany padding _ hloop _).bind
      intro _
      apply (hrule.attempt rule).bind
      intro value
      exact (hpadding.extendMany padding _ hloop _).bind fun _ => .pure value
    | seq rules =>
      rw [meaning]
      refine (Parser.Realizes.sequence fun rule hr => run rule hr ?_).bind fun _ => .pure _
      have hsize : sizeOf rule < sizeOf rules := List.sizeOf_lt_of_mem hr
      simp only [seq.sizeOf_spec]
      omega
    | numeral first next type =>
      rw [meaning]
      exact (Parser.Realizes.numeral hloop first next type).bind fun _ => .pure _
    | signedNumeral name alphabet type =>
      rw [meaning]
      exact (Parser.Realizes.signedNumeral hloop alphabet type).bind fun _ => .pure _
    | take name n => exact .takeTerminals name n n #[]
    | choice name rules =>
      rw [meaning]
      refine Parser.Realizes.firstPresent (.choice name rules) fun rule hr => run rule hr ?_
      have hsize : sizeOf rule < sizeOf rules := List.sizeOf_lt_of_mem hr
      simp only [choice.sizeOf_spec]
      omega
    | label name rule =>
      have hrule := run rule (by simp [parts]) (by simp only [label.sizeOf_spec]; omega)
      rw [Scope.parseRule_label, meaning]
      apply (hrule.attemptOptional rule).bind
      intro value
      cases value with
      | none => exact .expectedHere (.label name rule)
      | some value => exact .pure _
    | insist name rule type =>
      have hrule := run rule (by simp [parts]) (by simp only [insist.sizeOf_spec]; omega)
      rw [Scope.parseRule_insist, meaning]
      apply (hrule.attemptOptional rule).bind
      intro value
      cases value with
      | none => exact .overflowHere type
      | some value => exact .pure _
    | nothing name => exact .pure _
    | silent name => exact fun cursor _ _ _ => ⟨cursor.location, cursor, rfl, .zero _⟩
    | ref name definition => exact direct.self.elim
    | assemble name constructs rules build =>
      rw [meaning]
      refine (Parser.Realizes.sequence fun rule hr => run rule hr ?_).bind fun _ => .pure _
      have hsize : sizeOf rule < sizeOf rules := List.sizeOf_lt_of_mem hr
      simp only [assemble.sizeOf_spec]
      omega
    | named name rule => exact run rule (by simp [parts]) (by simp only [named.sizeOf_spec]; omega)

/-- What an attempt comes to is told by the meaning of the rule, with fuel for each terminal
left. -/
theorem attempt_describes {rule : Rule} (direct : scope.Throughout Direct rule)
    {cursor : Cursor L S} {ts : List Terminal} (left : scope.source.Spells cursor.location ts)
    {fuel : Nat} (hfuel : sizeOf rule + ts.length < fuel) :
    scope.source.Describes cursor.location (rule.meaning scope.naming ts)
      (rule.attempt scope fuel cursor) :=
  (parse_realizes direct hfuel).attempt rule cursor ts left (Nat.le_refl _)

/-- **Attempts do what rules mean**: at every location that whole terminals lead to from the start
of a sequence or a text, the attempt of a rule without references comes to an end with enough fuel.
Then it matches with the value that the rule means on the terminals left, and as many terminals
further, or it fails with the error that the rule means, at the location of its offset. -/
theorem attempt_meaning {scope : Scope Nat} {size l : Nat} [Sink S Nat Terminal]
    (addressed : scope.source.Addressed size)
    (reached : scope.source.Reaches scope.source.start l) {rule : Rule}
    (direct : scope.Throughout Direct rule) :
    ∃ ts, scope.source.Spells l ts ∧ ∃ enough, ∀ fuel, enough ≤ fuel →
      ∀ cursor : Cursor Nat S, cursor.location = l →
        scope.source.Describes l (rule.meaning scope.naming ts)
          (rule.attempt scope fuel cursor) := by
  obtain ⟨ts, hts, -, -⟩ := addressed.spells reached
  refine ⟨ts, hts, sizeOf rule + ts.length + 1, ?_⟩
  intro fuel hfuel cursor hcursor
  subst hcursor
  have hparse : (rule.parse scope fuel : Parser Nat S Value).Realizes scope.source ts.length _ :=
    parse_realizes direct (by omega)
  exact hparse.attempt rule cursor ts hts (Nat.le_refl _)

/-- In `1a,b,` the letters from the second byte on are the two before the last comma. -/
theorem attempt_meaning_letters :
    let scope : Scope Nat :=
      { source := .ofArray #[49, 97, 44, 98, 44], naming := .offsets .byte true,
        definitions := fun _ => none }
    ∃ enough, ∀ fuel, enough ≤ fuel → ∀ cursor : Cursor Nat (NoReports Nat Terminal),
      cursor.location = 1 → ∃ after,
        Grammar.letters.attempt scope fuel cursor
            = .ok (.list #[.terminal 97, .terminal 98]) after ∧
          after.location = 4 := by
  intro scope
  have direct : scope.Throughout Direct Grammar.letters := by
    refine .intro trivial ?_
    intro part mem
    simp only [Grammar.letters, parts, List.mem_cons, List.not_mem_nil, or_false] at mem
    rcases mem with rfl | rfl
    · exact Scope.throughout_terminal trivial
    · exact Scope.throughout_terminal trivial
  obtain ⟨ts, hts, enough, h⟩ := attempt_meaning (S := NoReports Nat Terminal)
    (Source.Addressed.sequence #[49, 97, 44, 98, 44]) (l := 1) (.step rfl) direct
  have hspells : scope.source.Spells 1 [97, 44, 98, 44] := Source.spells_ofArray _ (by decide)
  obtain rfl : ts = [97, 44, 98, 44] := hts.unique hspells
  have hmeaning : Grammar.letters.meaning (.offsets .byte true) [97, 44, 98, 44]
      = .matched (.list #[.terminal 97, .terminal 98]) 3 := by cbv
  refine ⟨enough, ?_⟩
  intro fuel hfuel cursor hcursor
  have hdescribes := h fuel hfuel cursor hcursor
  rw [hmeaning] at hdescribes
  obtain ⟨after, hok, hn⟩ := hdescribes
  exact ⟨after, hok, Source.steps_ofArray hn⟩

end Rule

end Backtrack
