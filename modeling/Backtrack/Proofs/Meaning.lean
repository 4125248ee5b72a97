import Backtrack.Rule.Parse

/-!
# The meaning of rules

What a rule means can be told without cursors, saved locations, sinks and fuel, on the list of the
terminals that are left: it matches and consumes some of them, or it is absent, or a value is too
large (`Rule.meaning`). Offsets count the terminals up to where a rule is absent or a value becomes
too large. A rule that is applied after another reads what that has left, alternatives and
repetitions take an absence for nothing consumed, and an overflow is the meaning of everything
around it.

References have no meaning here of their own: a rule that may refer to itself need not come to an
end. They are read as references to nothing.
-/

namespace Backtrack

variable {α β σ : Type}

/-! ## Meanings -/

/-- What is read from a list of terminals. -/
inductive Meaning (α : Type) where
  | matched (value : α) (consumed : Nat)
  /-- The rule of this identity does not match behind so many terminals. -/
  | absent (rule : String) (offset : Nat)
  /-- The terminal behind so many takes a value beyond the bounds of the type. -/
  | overflow (type : String) (offset : Nat)
  deriving DecidableEq, Repr

namespace Meaning

/-- The meaning of reading on behind `n` terminals. -/
def after (n : Nat) : Meaning α → Meaning α
  | matched value k => matched value (n + k)
  | absent rule k => absent rule (n + k)
  | overflow type k => overflow type (n + k)

/-- The meaning with another value in place of the one matched. -/
def map (f : α → β) : Meaning α → Meaning β
  | matched value k => matched (f value) k
  | absent rule k => absent rule k
  | overflow type k => overflow type k

theorem after_after (m n : Nat) (meaning : Meaning α) :
    (meaning.after n).after m = meaning.after (m + n) := by
  cases meaning <;> simp [after, Nat.add_assoc]

theorem after_zero (meaning : Meaning α) : meaning.after 0 = meaning := by
  cases meaning <;> simp [after]

theorem map_after (f : α → β) (n : Nat) (meaning : Meaning α) :
    (meaning.after n).map f = (meaning.map f).after n := by
  cases meaning <;> rfl

theorem map_map {γ : Type} (f : α → β) (g : β → γ) (meaning : Meaning α) :
    (meaning.map f).map g = meaning.map (g ∘ f) := by
  cases meaning <;> rfl

theorem after_eq_matched {meaning : Meaning α} {n k : Nat} {value : α} :
    meaning.after n = matched value k ↔ ∃ j, meaning = matched value j ∧ k = n + j := by
  cases meaning with
  | matched found j =>
    simp only [after, matched.injEq]
    grind
  | absent | overflow => simp [after]

end Meaning

/-- A way to read a list of terminals from its front. -/
def Reading (α : Type) := List Terminal → Meaning α

namespace Reading

instance : Monad Reading where
  pure value := fun _ => .matched value 0
  bind r f := fun ts =>
    match r ts with
    | .matched value n => (f value (ts.drop n)).after n
    | .absent rule k => .absent rule k
    | .overflow type k => .overflow type k

theorem pure_apply (value : α) (ts : List Terminal) :
    (pure value : Reading α) ts = .matched value 0 := rfl

theorem bind_apply (r : Reading α) (f : α → Reading β) (ts : List Terminal) :
    (r >>= f) ts =
      match r ts with
      | .matched value n => (f value (ts.drop n)).after n
      | .absent rule k => .absent rule k
      | .overflow type k => .overflow type k := rfl

theorem bind_pure_apply (r : Reading α) (f : α → β) (ts : List Terminal) :
    (r >>= fun value => pure (f value)) ts = (r ts).map f := by
  rw [bind_apply]
  cases r ts <;> rfl

/-! ## Readings of one terminal -/

/-- The rule of this identity is absent. -/
def absentHere (rule : String) : Reading α :=
  fun _ => .absent rule 0

/-- The next terminal takes a value beyond the bounds of the type. -/
def overflowHere (type : IntegerType) : Reading α :=
  fun _ => .overflow type.name 0

/-- One terminal, of which a value can be made. -/
def terminal (rule : String) (accept : Terminal → Option α) : Reading α
  | [] => .absent rule 0
  | t :: _ =>
    match accept t with
    | some value => .matched value 1
    | none => .absent rule 0

/-- No terminal is left. -/
def ending (rule : String) : Reading Value
  | [] => .matched .unit 0
  | _ :: _ => .absent rule 0

/-! ## Optional and repeated readings -/

/-- An absence consumes nothing. -/
def optional (r : Reading α) : Reading (Option α) :=
  fun ts =>
    match r ts with
    | .matched value n => .matched (some value) n
    | .absent .. => .matched none 0
    | .overflow type k => .overflow type k

/-- Tells besides the value whether anything was consumed. -/
def moving (r : Reading α) : Reading (α × Bool) :=
  fun ts =>
    match r ts with
    | .matched value n => .matched (value, decide (n ≠ 0)) n
    | .absent rule k => .absent rule k
    | .overflow type k => .overflow type k

/-- As many as there are, up to the first that consumes nothing, which still counts. -/
def many (r : Reading α) (extend : σ → α → σ) (gathered : σ) (ts : List Terminal) : Meaning σ :=
  match r ts with
  | .matched value n =>
    if 0 < n ∧ n ≤ ts.length then
      (r.many extend (extend gathered value) (ts.drop n)).after n
    else .matched (extend gathered value) n
  | .absent .. => .matched gathered 0
  | .overflow type k => .overflow type k
termination_by ts.length
decreasing_by
  simp only [List.length_drop]
  omega

/-- All digits that follow, each combined with the value so far. -/
def digitsAfter (read : Terminal → Option Int) (type : IntegerType)
    (combine : Int → Int → Option Int) (value : Int) : Reading Int
  | [] => .matched value 0
  | t :: ts =>
    match read t with
    | none => .matched value 0
    | some digit =>
      match combine value digit with
      | none => .overflow type.name 0
      | some value => (digitsAfter read type combine value ts).after 1

/-- A numeral without a sign. -/
def numeral (naming : Naming) (first next : Digit) (type : IntegerType) : Reading Int := do
  let value ← terminal ((Rule.digit first type).identity naming) (first.read? type)
  digitsAfter (next.read? type) type (Scope.numeral.appendDigit type next) value

/-- A numeral with an optional sign. -/
def signedNumeral (naming : Naming) (alphabet : Digit) (type : IntegerType) : Reading Int := do
  let hyphen := TerminalClass.mark .hyphen
  let sign ← (terminal ((Rule.terminal hyphen).identity naming) hyphen.accept).optional
  let first ← terminal ((Rule.digit alphabet type).identity naming) (alphabet.read? type)
  if sign.isSome then
    digitsAfter (alphabet.read? type) type (Scope.signedNumeral.subtractDigit type alphabet)
      (-first)
  else
    digitsAfter (alphabet.read? type) type (Scope.numeral.appendDigit type alphabet) first

/-- Exactly `n` terminals after those already taken. -/
def exactly (rule : String) : Nat → Array Value → Reading Value
  | 0, taken => pure (.list taken)
  | n + 1, taken => do
    let t ← terminal rule some
    exactly rule n (taken.push (.terminal t))

section

variable {r : Reading α} {extend : σ → α → σ} {gathered : σ} {ts : List Terminal}

theorem many_of_absent {rule : String} {k : Nat} (h : r ts = .absent rule k) :
    r.many extend gathered ts = .matched gathered 0 := by
  rw [many, h]

theorem many_of_overflow {type : String} {k : Nat} (h : r ts = .overflow type k) :
    r.many extend gathered ts = .overflow type k := by
  rw [many, h]

/-- Behind a match that consumes something, the repetition goes on. -/
theorem many_of_matched {value : α} {n : Nat} (h : r ts = .matched value n) (hpos : 0 < n)
    (hle : n ≤ ts.length) :
    r.many extend gathered ts
      = (r.many extend (extend gathered value) (ts.drop n)).after n := by
  rw [many, h]
  exact if_pos ⟨hpos, hle⟩

end

end Reading

/-! ## Rules -/

namespace Rule

mutual

/-- The meaning of a rule. -/
def meaning (naming : Naming) : Rule → Reading Value
  | terminal accepted => .terminal ((terminal accepted).identity naming) accepted.accept
  | endOfInput => .ending (endOfInput.identity naming)
  | optional rule => do
    return .ofOption (← (rule.meaning naming).optional)
  | discard rule => do
    let _ ← rule.meaning naming
    return .unit
  | many rule into => (rule.meaning naming).many Container.extend into.empty
  | many1 rule into => do
    let (first, moved) ← (rule.meaning naming).moving
    let gathered := Container.extend into.empty first
    if moved then (rule.meaning naming).many Container.extend gathered else pure gathered
  | sepBy1 rule separator into => do
    let first ← rule.meaning naming
    -- a separator without an element after it is not consumed
    let next := do
      let _ ← separator.meaning naming
      rule.meaning naming
    next.many Container.extend (Container.extend into.empty first)
  | padded rule padding => do
    let _ ← (padding.meaning naming).many Container.extend Container.unit.empty
    let value ← rule.meaning naming
    let _ ← (padding.meaning naming).many Container.extend Container.unit.empty
    pure value
  | seq rules => do
    return .tuple (← meanings naming rules)
  | numeral first next type => do
    return .integer (← .numeral naming first next type)
  | signedNumeral _ alphabet type => do
    return .integer (← .signedNumeral naming alphabet type)
  | take name n => .exactly ((take name n).identity naming) n #[]
  | choice name rules => firstMeaning naming ((choice name rules).identity naming) rules
  | label name rule => do
    match ← (rule.meaning naming).optional with
    | some value => pure value
    | none => .absentHere ((label name rule).identity naming)
  | insist _ rule type => do
    match ← (rule.meaning naming).optional with
    | some value => pure value
    | none => .overflowHere type
  | nothing _ => pure .unit
  | silent name => .absentHere name
  | ref name definition => .absentHere ((ref name definition).identity naming)
  | assemble _ _ rules build => do
    return build (← meanings naming rules)
  | named _ rule => rule.meaning naming

/-- All rules in order. -/
def meanings (naming : Naming) : List Rule → Reading (List Value)
  | [] => pure []
  | rule :: rules => do
    let value ← rule.meaning naming
    let values ← meanings naming rules
    pure (value :: values)

/-- The first of several rules that is not absent, or else the absence of the last. -/
def firstMeaning (naming : Naming) (self : String) : List Rule → Reading Value
  | [] => .absentHere self
  | [rule] => rule.meaning naming
  | rule :: rules => do
    match ← (rule.meaning naming).optional with
    | some value => pure value
    | none => firstMeaning naming self rules

end

section

variable {naming : Naming} {rule : Rule} {rules : List Rule} {ts : List Terminal}

theorem meaning_mark (naming : Naming) (mark : Mark) :
    (Rule.mark mark).meaning naming
      = .terminal ((Rule.mark mark).identity naming)
          fun t => if mark.accepts t then some .unit else none := by
  rw [Rule.mark, meaning]
  rfl

theorem meaning_seq : (seq rules).meaning naming ts = (meanings naming rules ts).map .tuple := by
  rw [meaning, Reading.bind_pure_apply]

theorem meaning_assemble {name constructs : String} {build : List Value → Value} :
    (assemble name constructs rules build).meaning naming ts
      = (meanings naming rules ts).map build := by
  rw [meaning, Reading.bind_pure_apply]

theorem meanings_singleton :
    meanings naming [rule] ts = (rule.meaning naming ts).map fun value => [value] := by
  rw [meanings, Reading.bind_apply]
  cases rule.meaning naming ts with
  | matched value n => rw [meanings]; rfl
  | absent | overflow => rfl

/-- The rules behind one that matches read on where it stops. -/
theorem meanings_of_matched {value : Value} {n : Nat}
    (h : rule.meaning naming ts = .matched value n) :
    meanings naming (rule :: rules) ts
      = ((meanings naming rules (ts.drop n)).map (value :: ·)).after n := by
  rw [meanings, Reading.bind_apply, h]
  exact congrArg (Meaning.after n) (Reading.bind_pure_apply _ _ _)

theorem meanings_of_absent {name : String} {k : Nat}
    (h : rule.meaning naming ts = .absent name k) :
    meanings naming (rule :: rules) ts = .absent name k := by
  rw [meanings, Reading.bind_apply, h]

theorem meanings_of_overflow {type : String} {k : Nat}
    (h : rule.meaning naming ts = .overflow type k) :
    meanings naming (rule :: rules) ts = .overflow type k := by
  rw [meanings, Reading.bind_apply, h]

/-- Of two rules the second is read where the first is absent. -/
theorem meaning_choice_pair {name : String} {rule' : Rule} :
    (choice name [rule, rule']).meaning naming ts
      = match rule.meaning naming ts with
        | .matched value k => .matched value k
        | .absent .. => rule'.meaning naming ts
        | .overflow type k => .overflow type k := by
  rw [meaning, firstMeaning, firstMeaning, Reading.bind_apply, Reading.optional]
  cases rule.meaning naming ts with
  | matched value k => rfl
  | absent => exact Meaning.after_zero _
  | overflow => rfl
  all_goals simp

/-- A rule and the end behind it match exactly where the rule takes all that is left. -/
theorem meaning_whole :
    (seq [rule, .endOfInput]).meaning naming ts
      = match rule.meaning naming ts with
        | .matched value k =>
          if ts.length ≤ k then .matched (.tuple [value, .unit]) k
          else .absent (endOfInput.identity naming) k
        | .absent name k => .absent name k
        | .overflow type k => .overflow type k := by
  rw [meaning_seq]
  cases h : rule.meaning naming ts with
  | matched value k =>
    rw [meanings_of_matched h, meanings_singleton, meaning]
    by_cases hle : ts.length ≤ k
    · rw [List.drop_eq_nil_of_le hle]
      exact (if_pos hle).symm
    · obtain ⟨t, rest, hrest⟩ := List.exists_cons_of_ne_nil (mt List.drop_eq_nil_iff.1 hle)
      rw [hrest]
      exact (if_neg hle).symm
  | absent => rw [meanings_of_absent h]; rfl
  | overflow => rw [meanings_of_overflow h]; rfl

end

end Rule

end Backtrack
