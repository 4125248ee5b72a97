import Backtrack.Proofs.Numerals

/-!
# Runs of digits on any source

A source need not come to an end, and neither need the digits on it: `Source.Digits` says which
digits of an alphabet lead from one location to another, wherever the source goes on from there. A
run of digits either ends at a location where none stands (`Source.NoDigit`), or it is longer than
any number (`Source.run_or_endless`).

A numeral with a sign is read digit by digit as long as it stays within the bound that the type has
on the side of its sign (`Scope.digitsAfter_digits`). All that can come of it follows: it ends where
the run does, it is an overflow at the first digit beyond the bound, or it never ends.
-/

namespace Backtrack

variable {L S α : Type}

/-! ## Digits from one location to another -/

namespace Source

/-- From the first location to the second the source has these digits of the alphabet. -/
inductive Digits (source : Source L) (alphabet : Digit) : L → List Nat → L → Prop where
  | nil (l : L) : Digits source alphabet l [] l
  | cons {l next stop : L} {t : Terminal} {d : Nat} {digits : List Nat}
      (here : source.terminalAt l = some (t, next)) (digit : alphabet.value? t = some d)
      (rest : Digits source alphabet next digits stop) :
      Digits source alphabet l (d :: digits) stop

/-- No digit of the alphabet stands at the location. -/
def NoDigit (source : Source L) (alphabet : Digit) (l : L) : Prop :=
  ∀ t ∈ source.found l, alphabet.value? t = none

variable {source : Source L} {alphabet : Digit} {l m stop : L} {digits : List Nat}

theorem Digits.steps (h : source.Digits alphabet l digits m) :
    source.Steps digits.length l m := by
  induction h with
  | nil l => exact .zero l
  | cons here _ _ ih => exact .succ here ih

theorem Digits.concat (h : source.Digits alphabet l digits m) {t : Terminal} {d : Nat}
    (here : source.terminalAt m = some (t, stop)) (digit : alphabet.value? t = some d) :
    source.Digits alphabet l (digits ++ [d]) stop := by
  induction h with
  | nil l => exact .cons here digit (.nil stop)
  | cons here' digit' _ ih => exact .cons here' digit' (ih here)

/-- The digits in front of one of them lead to where it stands. -/
theorem Digits.split (h : source.Digits alphabet l digits stop) {k : Nat} (hk : k < digits.length) :
    ∃ m next t, source.Digits alphabet l (digits.take k) m ∧
      source.terminalAt m = some (t, next) ∧ alphabet.value? t = some digits[k] := by
  induction h generalizing k with
  | nil l => exact absurd hk (Nat.not_lt_zero k)
  | @cons l next stop t d digits here digit rest ih =>
    cases k with
    | zero => exact ⟨l, next, t, .nil l, here, digit⟩
    | succ k =>
      obtain ⟨m, next', t', front, here', digit'⟩ := ih (Nat.lt_of_succ_lt_succ hk)
      exact ⟨m, next', t', .cons here digit front, here', digit'⟩

theorem noDigit_or_digit (source : Source L) (alphabet : Digit) (l : L) :
    source.NoDigit alphabet l ∨
      ∃ t next d, source.terminalAt l = some (t, next) ∧ alphabet.value? t = some d := by
  cases here : source.terminalAt l with
  | none =>
    left
    intro t found
    rw [found_eq_none.2 here] at found
    exact absurd found nofun
  | some read =>
    obtain ⟨t, next⟩ := read
    cases digit : alphabet.value? t with
    | some d => exact .inr ⟨t, next, d, rfl, digit⟩
    | none =>
      left
      intro t' found
      rw [found_eq_some here] at found
      exact Option.some.inj found ▸ digit

/-- The run of digits at a location ends somewhere, or it has any number of them. -/
theorem run_or_endless (source : Source L) (alphabet : Digit) (l : L) :
    (∃ digits stop, source.Digits alphabet l digits stop ∧ source.NoDigit alphabet stop) ∨
      ∀ n, ∃ digits m, digits.length = n ∧ source.Digits alphabet l digits m := by
  by_cases ends :
      ∃ digits stop, source.Digits alphabet l digits stop ∧ source.NoDigit alphabet stop
  · exact .inl ends
  right
  intro n
  induction n with
  | zero => exact ⟨[], l, rfl, .nil l⟩
  | succ n ih =>
    obtain ⟨digits, m, length, front⟩ := ih
    rcases source.noDigit_or_digit alphabet m with ended | ⟨t, next, d, here, digit⟩
    · exact absurd ⟨digits, m, front, ended⟩ ends
    · exact ⟨digits ++ [d], next, by simp [length], front.concat here digit⟩

end Source

/-! ## Numbers with a sign -/

/-- A number with its sign. -/
def Digit.signed (negative : Bool) (n : Int) : Int :=
  if negative then -n else n

namespace IntegerType

/-- The type has the value. -/
def Includes (type : IntegerType) (n : Int) : Prop :=
  type.min ≤ n ∧ n ≤ type.max

/-- How far from zero the values of a type go on the side of a sign. -/
def bound (type : IntegerType) (negative : Bool) : Int :=
  if negative then -type.min else type.max

variable (type : IntegerType)

theorem includes_signed {negative : Bool} {n : Nat} :
    type.Includes (Digit.signed negative n) ↔ n ≤ type.bound negative := by
  have hmin := type.min_le_zero
  have hmax := type.small_le_max (show 0 < 128 by decide)
  unfold Includes Digit.signed bound
  cases negative with
  | false =>
    simp only [Bool.false_eq_true, if_false]
    omega
  | true =>
    simp only [if_true]
    omega

/-- Every digit is within a type with a sign, on either side. -/
theorem small_le_bound (width : Width) (negative : Bool) {n : Nat} (h : n < 128) :
    n ≤ (twosComplement width).bound negative := by
  have hbound : 127 ≤ (twosComplement width).bound negative := by
    cases negative <;> cases width <;> decide
  omega

end IntegerType

namespace Scope

open Scope.numeral (appendDigit)
open Scope.signedNumeral (subtractDigit)

/-- A number with its sign, followed by one more digit. -/
def combineDigit (negative : Bool) (type : IntegerType) (alphabet : Digit) (value digit : Int) :
    Option Int :=
  if negative then subtractDigit type alphabet value digit
  else appendDigit type alphabet value digit

/-- Downward, one more digit is appended exactly where the number still fits. -/
theorem subtractDigit_eq (type : IntegerType) (alphabet : Digit) (value d : Nat) :
    subtractDigit type alphabet (-value) d
      = if ((value * alphabet.radix + d : Nat) : Int) ≤ -type.min
        then some (-((value * alphabet.radix + d : Nat) : Int)) else none := by
  have hmax := type.small_le_max (show 0 < 128 by decide)
  rw [subtractDigit, type.ofDigit_of_lt alphabet.radix_lt, IntegerType.checkedMul]
  have hproduct : -(value : Int) * (alphabet.radix : Nat)
      = -((value * alphabet.radix : Nat) : Int) := by
    rw [Int.neg_mul, Int.natCast_mul]
  rw [hproduct]
  by_cases hmul : ((value * alphabet.radix : Nat) : Int) ≤ -type.min
  · have hchecked : type.checked (-((value * alphabet.radix : Nat) : Int))
        = some (-((value * alphabet.radix : Nat) : Int)) :=
      IntegerType.checked_eq_some.2 ⟨rfl, by omega, by omega⟩
    rw [hchecked]
    show type.checked (-((value * alphabet.radix : Nat) : Int) - (d : Nat)) = _
    have hdifference : -((value * alphabet.radix : Nat) : Int) - (d : Nat)
        = -((value * alphabet.radix + d : Nat) : Int) := by
      omega
    rw [hdifference, IntegerType.checked]
    exact if_congr (by omega) rfl rfl
  · have hchecked : type.checked (-((value * alphabet.radix : Nat) : Int)) = none :=
      IntegerType.checked_eq_none.2 (.inl (by omega))
    rw [hchecked, if_neg (by omega)]
    rfl

/-- On either side of zero, one more digit is appended exactly where the number still fits. -/
theorem combineDigit_eq (negative : Bool) (type : IntegerType) (alphabet : Digit)
    (value d : Nat) :
    combineDigit negative type alphabet (Digit.signed negative value) d
      = if ((value * alphabet.radix + d : Nat) : Int) ≤ type.bound negative
        then some (Digit.signed negative (value * alphabet.radix + d : Nat)) else none := by
  cases negative with
  | false => exact Reading.appendDigit_eq type alphabet value d
  | true => exact subtractDigit_eq type alphabet value d

/-! ## Digits read one by one -/

variable [DecidableEq L] [Sink S L Terminal] {scope : Scope L} {alphabet : Digit}
  {type : IntegerType} {cursor : Cursor L S} {negative : Bool}

/-- A terminal that is accepted is consumed. -/
theorem attempt_accepted {rule : Rule} {accept : Terminal → Option α} {t : Terminal} {next : L}
    {value : α} (here : scope.source.terminalAt cursor.location = some (t, next))
    (accepted : accept t = some value) :
    scope.attempt rule (scope.acceptTerminal rule accept) cursor
      = .ok value (cursor.record next []) := by
  have account : scope.acceptTerminal rule accept cursor
      = (Account.done value next).replyTo cursor := by
    rw [acceptTerminal_account, Account.reading]
    simp only [here, accepted]
  exact scope.attempt_account rule account

/-- Where no terminal is accepted, the rule is expected. -/
theorem attempt_rejected {rule : Rule} {accept : Terminal → Option α}
    (rejected : ∀ t ∈ scope.source.found cursor.location, accept t = none) :
    ∃ back, scope.attempt rule (scope.acceptTerminal rule accept) cursor
      = .fail (.expected (rule.identity scope.naming) cursor.location) back := by
  have account := scope.acceptTerminal_account cursor rule accept
  rw [Account.reading] at account
  cases here : scope.source.terminalAt cursor.location with
  | none =>
    simp only [here] at account
    exact ⟨_, scope.attempt_account rule account⟩
  | some read =>
    obtain ⟨t, next⟩ := read
    simp only [here, rejected t (Source.found_eq_some here)] at account
    exact ⟨_, scope.attempt_account rule account⟩

theorem attempt_digit {t : Terminal} {next : L} {d : Nat}
    (here : scope.source.terminalAt cursor.location = some (t, next))
    (hd : alphabet.value? t = some d) :
    scope.attempt (.digit alphabet type) (scope.digit alphabet type) cursor
      = .ok (d : Int) (cursor.record next []) := by
  refine attempt_accepted here ?_
  rw [alphabet.read?_eq, hd]
  rfl

theorem attempt_noDigit (type : IntegerType)
    (ended : scope.source.NoDigit alphabet cursor.location) :
    ∃ back, scope.attempt (.digit alphabet type) (scope.digit alphabet type) cursor
      = .fail (.expected ((Rule.digit alphabet type).identity scope.naming) cursor.location)
          back := by
  refine attempt_rejected ?_
  intro t found
  rw [alphabet.read?_eq, ended t found]
  rfl

/-- **Digits are read one by one**, as long as the number stays within the bound on its side. -/
theorem digitsAfter_digits {l m : L} {digits : List Nat}
    (h : scope.source.Digits alphabet l digits m) {value : Nat}
    (fits : Digit.extended alphabet.radix value digits ≤ type.bound negative)
    (here : cursor.location = l) (fuel : Nat) :
    scope.digitsAfter alphabet type (combineDigit negative type alphabet) (digits.length + fuel)
        (Digit.signed negative value) cursor
      = scope.digitsAfter alphabet type (combineDigit negative type alphabet) fuel
          (Digit.signed negative (Digit.extended alphabet.radix value digits))
          (cursor.record m []) := by
  induction h generalizing value cursor with
  | nil l =>
    subst here
    rw [List.length_nil, Nat.zero_add, Digit.extended_nil, Cursor.record_nil]
  | @cons l next stop t d digits first hd rest ih =>
    subst here
    rw [Digit.extended_cons] at fits ⊢
    have hle := Digit.le_extended alphabet.radix_pos (value * alphabet.radix + d) digits
    have turn : scope.attemptOptional (.digit alphabet type) (scope.digit alphabet type) cursor
        = .ok (some (d : Int)) (cursor.record next []) := by
      rw [attemptOptional, attempt_digit first hd]
    have combined := combineDigit_eq negative type alphabet value d
    rw [if_pos (by omega)] at combined
    rw [List.length_cons, Nat.add_right_comm, digitsAfter_digit turn combined,
      ih fits rfl, Cursor.record_record, List.append_nil]

variable {l stop : L} {digits : List Nat} {value fuel : Nat}

/-- A run that stays within the bound is read to its end. -/
theorem digitsAfter_run (h : scope.source.Digits alphabet l digits stop)
    (ended : scope.source.NoDigit alphabet stop)
    (fits : Digit.extended alphabet.radix value digits ≤ type.bound negative)
    (here : cursor.location = l) (hfuel : digits.length < fuel) :
    ∃ after, scope.digitsAfter alphabet type (combineDigit negative type alphabet) fuel
        (Digit.signed negative value) cursor
      = .ok (Digit.signed negative (Digit.extended alphabet.radix value digits)) after ∧
        after.location = stop := by
  obtain ⟨extra, rfl⟩ : ∃ k, fuel = digits.length + (k + 1) := ⟨fuel - digits.length - 1, by omega⟩
  rw [digitsAfter_digits h fits here]
  have ended' : scope.source.NoDigit alphabet (cursor.record stop []).location := ended
  obtain ⟨back, absent⟩ := attempt_noDigit type ended'
  have turn : scope.attemptOptional (.digit alphabet type) (scope.digit alphabet type)
      (cursor.record stop []) = .ok none back := by
    rw [attemptOptional, absent]
    rfl
  exact ⟨back, digitsAfter_absent turn, attemptOptional_none_location turn⟩

/-- The first digit beyond the bound is the overflow, however the source goes on behind it. -/
theorem digitsAfter_excess {m : L} (h : scope.source.Digits alphabet l digits m)
    (fits : Digit.extended alphabet.radix value digits ≤ type.bound negative) {t : Terminal}
    {next : L} {d : Nat} (last : scope.source.terminalAt m = some (t, next))
    (hd : alphabet.value? t = some d)
    (exceeds : type.bound negative
      < (Digit.extended alphabet.radix value digits * alphabet.radix + d : Nat))
    (here : cursor.location = l) (hfuel : digits.length < fuel) :
    ∃ after, scope.digitsAfter alphabet type (combineDigit negative type alphabet) fuel
        (Digit.signed negative value) cursor
      = .fail (.overflow type.name m) after := by
  obtain ⟨extra, rfl⟩ : ∃ k, fuel = digits.length + (k + 1) := ⟨fuel - digits.length - 1, by omega⟩
  rw [digitsAfter_digits h fits here]
  have turn : scope.attemptOptional (.digit alphabet type) (scope.digit alphabet type)
      (cursor.record m []) = .ok (some (d : Int)) ((cursor.record m []).record next []) := by
    rw [attemptOptional, attempt_digit last hd]
  have combined := combineDigit_eq negative type alphabet
    (Digit.extended alphabet.radix value digits) d
  rw [if_neg (by omega)] at combined
  rw [digitsAfter_overflow turn combined]
  exact ⟨_, rfl⟩

/-- With no more fuel than digits within the bound, the run is not read to an end. -/
theorem digitsAfter_unfinished (h : scope.source.Digits alphabet l digits stop)
    (fits : Digit.extended alphabet.radix value digits ≤ type.bound negative)
    (here : cursor.location = l) :
    scope.digitsAfter alphabet type (combineDigit negative type alphabet) digits.length
      (Digit.signed negative value) cursor = .unfinished :=
  digitsAfter_digits h fits here 0

/-! ## A first digit and those that follow it -/

/-- A numeral behind its sign: a first digit, and then all digits that follow it. -/
def digitsFrom (scope : Scope L) (fuel : Nat) (first next : Digit) (type : IntegerType)
    (negative : Bool) : Parser L S Int := do
  let value ← scope.attempt (.digit first type) (scope.digit first type)
  scope.digitsAfter next type (combineDigit negative type next) fuel
    (Digit.signed negative value)

/-- The sign decides on which side of zero the digits count. -/
theorem signedNumeral_eq (scope : Scope L) (fuel : Nat) (alphabet : Digit) (type : IntegerType) :
    (scope.signedNumeral fuel alphabet type : Parser L S Int) = (do
      let sign ← scope.attemptOptional (.mark .hyphen)
        (scope.acceptTerminal (.mark .hyphen) (TerminalClass.mark .hyphen).accept)
      scope.digitsFrom fuel alphabet alphabet type sign.isSome) := by
  show (_ >>= _ : Parser L S Int) = _
  refine congrArg (scope.attemptOptional _ _ >>= ·) (funext fun sign => ?_)
  cases sign <;> rfl

section

variable {first next : Digit} {t : Terminal} {m : L} {d : Nat}

theorem digitsFrom_absent (type : IntegerType) (negative : Bool) (fuel : Nat)
    (ended : scope.source.NoDigit first cursor.location) :
    ∃ after, scope.digitsFrom fuel first next type negative cursor
      = .fail (.expected ((Rule.digit first type).identity scope.naming) cursor.location)
          after := by
  obtain ⟨back, absent⟩ := attempt_noDigit type ended
  exact ⟨back, Parser.bind_of_fail absent⟩

variable (here : scope.source.terminalAt cursor.location = some (t, m))
  (hd : first.value? t = some d)
include here hd

theorem digitsFrom_digit (fuel : Nat) :
    scope.digitsFrom fuel first next type negative cursor
      = scope.digitsAfter next type (combineDigit negative type next) fuel
          (Digit.signed negative d) (cursor.record m []) := by
  rw [digitsFrom, Parser.bind_apply, attempt_digit here hd]

theorem digitsFrom_run (h : scope.source.Digits next m digits stop)
    (ended : scope.source.NoDigit next stop)
    (fits : Digit.number next.radix (d :: digits) ≤ type.bound negative)
    (hfuel : digits.length < fuel) :
    ∃ after, scope.digitsFrom fuel first next type negative cursor
      = .ok (Digit.signed negative (Digit.number next.radix (d :: digits))) after ∧
        after.location = stop := by
  rw [digitsFrom_digit here hd, Digit.number_cons] at *
  exact digitsAfter_run h ended fits rfl hfuel

theorem digitsFrom_excess (h : scope.source.Digits next m digits stop)
    (one : d ≤ type.bound negative) {k : Nat}
    (excess : Digit.FirstExcess (type.bound negative) next.radix (d :: digits) k)
    (hfuel : digits.length < fuel) :
    ∃ place after, scope.source.Steps k cursor.location place ∧
      scope.digitsFrom fuel first next type negative cursor
        = .fail (.overflow type.name place) after := by
  obtain ⟨hk, exceeds, before⟩ := excess
  cases k with
  | zero =>
    -- the first digit fits by itself
    simp only [List.take_succ_cons, List.take_zero, Digit.number_cons, Digit.extended_nil]
      at exceeds
    omega
  | succ k =>
    have hk : k < digits.length := by simpa using hk
    have front := before k (Nat.lt_succ_self k)
    rw [List.take_succ_cons, Digit.number_cons] at front
    rw [List.take_succ_cons, List.take_succ_eq_append_getElem hk, ← List.cons_append,
      Digit.number_concat, Digit.number_cons] at exceeds
    obtain ⟨place, next', t', ahead, last, hlast⟩ := h.split hk
    have length : (digits.take k).length = k := List.length_take_of_le (Nat.le_of_lt hk)
    have hsteps : scope.source.Steps (k + 1) cursor.location place :=
      .succ here (length ▸ ahead.steps)
    have enough : (digits.take k).length < fuel := by omega
    obtain ⟨after, overflow⟩ := digitsAfter_excess ahead front last hlast exceeds
      (cursor.record_location m []) enough
    exact ⟨place, after, hsteps, (digitsFrom_digit here hd fuel).trans overflow⟩

theorem digitsFrom_unfinished (h : scope.source.Digits next m digits stop)
    (fits : Digit.number next.radix (d :: digits) ≤ type.bound negative) :
    scope.digitsFrom digits.length first next type negative cursor = .unfinished := by
  rw [digitsFrom_digit here hd, Digit.number_cons] at *
  exact digitsAfter_unfinished h fits rfl

end

end Scope

end Backtrack
