import Backtrack.Attempt

/-!
# Parsing with rules

`Rule.parse` is what each rule does to a cursor. Rules may refer to each other, and sources may lead
in circles, so a parse need not end; `fuel` bounds the depth to which rules are applied inside each
other and the length of each repetition. With too little of it the reply is `unfinished`, which no
rule takes for a failure.
-/

namespace Backtrack

namespace Scope

variable {L S α : Type} [DecidableEq L] [Sink S L Terminal]

/-! ## Terminals and numerals -/

/-- Consumes one terminal and constructs a value from it. A terminal that is not accepted is
consumed all the same; the attempt of the rule gives it back. -/
def acceptTerminal (scope : Scope L) (rule : Rule) (accept : Terminal → Option α) :
    Parser L S α := do
  let start ← Parser.location
  match (← Parser.advance scope.source).bind accept with
  | some value => pure value
  | none => scope.expected rule start

/-- One digit of an integer type. -/
def digit (scope : Scope L) (alphabet : Digit) (type : IntegerType) : Parser L S Int :=
  scope.acceptTerminal (.terminal (.digit alphabet type)) (alphabet.read? type)

/-- Reads on while there are digits, and combines each with the value so far. A value that does not
fit is an overflow at the digit that was read last. On a source that leads in circles, overflow is
all that ends a run of digits. -/
def digitsAfter (scope : Scope L) (alphabet : Digit) (type : IntegerType)
    (combine : Int → Int → Option Int) : Nat → Int → Parser L S Int
  | 0, _, _ => .unfinished
  | fuel + 1, value, cursor =>
    let start := cursor.location
    match scope.attemptOptional (.terminal (.digit alphabet type)) (scope.digit alphabet type)
        cursor with
    | .ok (some digit) cursor =>
      match combine value digit with
      | some value => scope.digitsAfter alphabet type combine fuel value cursor
      | none => Parser.raise scope.source (.overflow type.name start) cursor
    | .ok none cursor => .ok value cursor
    | .fail error cursor => .fail error cursor
    | .unfinished => .unfinished

/-- A numeral without a sign. -/
def numeral (scope : Scope L) (fuel : Nat) (first next : Digit) (type : IntegerType) :
    Parser L S Int := do
  let value ← scope.attempt (.terminal (.digit first type)) (scope.digit first type)
  scope.digitsAfter next type (appendDigit type next) fuel value
where
  /-- The numeral followed by one more digit. -/
  appendDigit (type : IntegerType) (alphabet : Digit) (value digit : Int) : Option Int := do
    type.checkedAdd (← type.checkedMul value (type.ofDigit alphabet.radix)) digit

/-- A numeral with an optional sign. A negative one is accumulated downward, so that the least value
of the type fits. -/
def signedNumeral (scope : Scope L) (fuel : Nat) (alphabet : Digit) (type : IntegerType) :
    Parser L S Int := do
  let hyphen := TerminalClass.mark .hyphen
  let sign ← scope.attemptOptional (.terminal hyphen)
    (scope.acceptTerminal (.terminal hyphen) hyphen.accept)
  let first ← scope.attempt (.terminal (.digit alphabet type)) (scope.digit alphabet type)
  if sign.isSome then
    scope.digitsAfter alphabet type (subtractDigit type alphabet) fuel (-first)
  else
    scope.digitsAfter alphabet type (numeral.appendDigit type alphabet) fuel first
where
  /-- The negative numeral followed by one more digit. -/
  subtractDigit (type : IntegerType) (alphabet : Digit) (value digit : Int) : Option Int := do
    type.checkedSub (← type.checkedMul value (type.ofDigit alphabet.radix)) digit

/-- Exactly `n` terminals after those already taken. Where one is missing, it is expected there. -/
def takeTerminals (scope : Scope L) (rule : Rule) : Nat → Array Value → Parser L S Value
  | 0, taken => pure (.list taken)
  | n + 1, taken => do
    match ← Parser.advance scope.source with
    | some terminal => scope.takeTerminals rule n (taken.push (.terminal terminal))
    | none => scope.expected rule (← Parser.location)

/-! ## Compositions, over the parser `run` of their parts -/

/-- Attempts all rules in order. -/
def sequence (scope : Scope L) (run : Rule → Parser L S Value) :
    List Rule → Parser L S (List Value)
  | [] => pure []
  | rule :: rules => do
    let value ← scope.attempt rule (run rule)
    let values ← scope.sequence run rules
    pure (value :: values)

/-- Attempts rules in order until one is not absent. The absence of the last is a failure. -/
def firstPresent (scope : Scope L) (run : Rule → Parser L S Value) (self : Rule) :
    List Rule → Parser L S Value
  | [] => do scope.expected self (← Parser.location)
  | [rule] => scope.attempt rule (run rule)
  | rule :: rules => do
    match ← scope.attemptOptional rule (run rule) with
    | some value => pure value
    | none => scope.firstPresent run self rules

/-- A separator and the element after it, of which the separator's value is dropped. -/
def separated (scope : Scope L) (run : Rule → Parser L S Value) (rule separator : Rule) :
    Parser L S Value := do
  let _ ← scope.attempt separator (run separator)
  scope.attempt rule (run rule)

/-- Repeated matches of a rule in a container. -/
def repeated (scope : Scope L) (run : Rule → Parser L S Value) (fuel : Nat) (rule : Rule)
    (gathered : Value) : Parser L S Value :=
  scope.extendMany rule (run rule) Container.extend fuel gathered

/-- What a rule does to a cursor, given the parser of the rules that it applies. -/
def parseRule (scope : Scope L) (fuel : Nat) (run : Rule → Parser L S Value) :
    Rule → Parser L S Value
  | .terminal accepted => scope.acceptTerminal (.terminal accepted) accepted.accept
  | .endOfInput => do
    match ← Parser.peek scope.source with
    | none => pure .unit
    | some _ => scope.expected .endOfInput (← Parser.location)
  | .optional rule => do
    return .ofOption (← scope.attemptOptional rule (run rule))
  | .discard rule => do
    let _ ← scope.attempt rule (run rule)
    return .unit
  | .many rule into => scope.repeated run fuel rule into.empty
  | .many1 rule into => do
    let start ← Parser.location
    let first ← scope.attempt rule (run rule)
    let gathered := Container.extend into.empty first
    -- a first match that consumed nothing would match for ever
    if (← Parser.location) = start then pure gathered
    else scope.repeated run fuel rule gathered
  | .sepBy1 rule separator into => do
    let first ← scope.attempt rule (run rule)
    scope.extendMany (.seq [separator, rule]) (scope.separated run rule separator)
      Container.extend fuel (Container.extend into.empty first)
  | .padded rule padding => do
    let _ ← scope.repeated run fuel padding Container.unit.empty
    let value ← scope.attempt rule (run rule)
    let _ ← scope.repeated run fuel padding Container.unit.empty
    pure value
  | .seq rules => do
    return .tuple (← scope.sequence run rules)
  | .numeral first next type => do
    return .integer (← scope.numeral fuel first next type)
  | .signedNumeral _ alphabet type => do
    return .integer (← scope.signedNumeral fuel alphabet type)
  | .take name n => scope.takeTerminals (.take name n) n #[]
  | .choice name rules => scope.firstPresent run (.choice name rules) rules
  | .label name rule => do
    let start ← Parser.location
    match ← scope.attemptOptional rule (run rule) with
    | some value => pure value
    | none => scope.expected (.label name rule) start
  | .insist _ rule type => do
    let start ← Parser.location
    match ← scope.attemptOptional rule (run rule) with
    | some value => pure value
    | none => Parser.raise scope.source (.overflow type.name start)
  | .nothing _ => pure .unit
  | .silent name => do
    Parser.fail (.expected name (← Parser.location))
  | .ref name definition =>
    match scope.definitions definition with
    | some rule => run rule
    | none => do scope.expected (.ref name definition) (← Parser.location)
  | .assemble _ _ rules build => do
    return build (← scope.sequence run rules)
  | .named _ rule => run rule

end Scope

namespace Rule

variable {L S : Type} [DecidableEq L] [Sink S L Terminal]

/-- What a rule does to a cursor. -/
def parse (scope : Scope L) : Nat → Rule → Parser L S Value
  | 0, _ => Parser.unfinished
  | fuel + 1, rule => scope.parseRule fuel (parse scope fuel) rule

/-- Applies a rule by an attempt. -/
def attempt (scope : Scope L) (fuel : Nat) (rule : Rule) : Parser L S Value :=
  scope.attempt rule (rule.parse scope fuel)

/-- Applies a rule by an optional attempt. -/
def attemptOptional (scope : Scope L) (fuel : Nat) (rule : Rule) : Parser L S (Option Value) :=
  scope.attemptOptional rule (rule.parse scope fuel)

/-- Applies a rule by repeated attempts, and gathers the values in a new container. -/
def attemptMany (scope : Scope L) (fuel : Nat) (rule : Rule) (into : Container) :
    Parser L S Value :=
  scope.extendMany rule (rule.parse scope fuel) Container.extend fuel into.empty

/-- Applies a rule by repeated attempts, and adds the values to what `extend` grows. -/
def attemptManyInto {σ : Type} (scope : Scope L) (fuel : Nat) (rule : Rule)
    (extend : σ → Value → σ) (gathered : σ) : Parser L S (σ × Option (Error L)) :=
  scope.attemptManyInto rule (rule.parse scope fuel) extend fuel gathered

end Rule

end Backtrack
