import Backtrack.Proofs.Decimals
import Backtrack.Proofs.DigitRuns
import Backtrack.Rule.Fuel
import Mathlib.Tactic.Choose
import Mathlib.Tactic.IntervalCases

/-!
# Numerals on sources without an end

A repetition stops after a match in place, and a numeral has no such rule: on a source that leads in
circles it goes on as long as there are digits. What ends it there is the number itself. From the
first digit that is not zero on, every digit makes the number larger, so that it goes beyond the
type at some digit. Zeros are all that a numeral reads for ever (`Rule.numeral_ends`).
-/

namespace Backtrack

variable {L S : Type}

/-! ## Digits without an end -/

namespace Digit

/-- The first of the digits of an endless row. -/
def upTo (digits : Nat → Nat) (n : Nat) : List Nat :=
  (List.range n).map digits

@[simp] theorem upTo_zero (digits : Nat → Nat) : upTo digits 0 = [] := rfl

theorem upTo_succ (digits : Nat → Nat) (n : Nat) :
    upTo digits (n + 1) = upTo digits n ++ [digits n] := by
  simp [upTo, List.range_succ]

@[simp] theorem length_upTo (digits : Nat → Nat) (n : Nat) : (upTo digits n).length = n := by
  simp [upTo]

variable {base d : Nat} {digits : Nat → Nat}

theorem number_upTo_zero (base d : Nat) (digits : Nat → Nat) :
    number base (d :: upTo digits 0) = d := by
  rw [upTo_zero, number_cons, extended_nil]

theorem number_upTo_succ (base d : Nat) (digits : Nat → Nat) (n : Nat) :
    number base (d :: upTo digits (n + 1))
      = number base (d :: upTo digits n) * base + digits n := by
  rw [upTo_succ, ← List.cons_append, number_concat]

/-- Zeros never make a number. -/
theorem number_zeros (base n : Nat) : number base (0 :: upTo (fun _ => 0) n) = 0 := by
  induction n with
  | zero => exact number_upTo_zero base 0 _
  | succ n ih => rw [number_upTo_succ, ih, Nat.zero_mul]

/-- Once a number is not zero, each digit behind it makes it larger. -/
theorem number_upTo_grows (hbase : 2 ≤ base) {n : Nat}
    (positive : 0 < number base (d :: upTo digits n)) (k : Nat) :
    k < number base (d :: upTo digits (n + k)) := by
  induction k with
  | zero => exact positive
  | succ k ih =>
    rw [← Nat.add_assoc, number_upTo_succ]
    have double := Nat.mul_le_mul_left (number base (d :: upTo digits (n + k))) hbase
    omega

/-- **Digits without an end that are not all zero** go beyond any bound, and one of them is the
first to do so. -/
theorem exists_first_beyond (hbase : 2 ≤ base) {bound : Int} (first : d ≤ bound)
    (nonzero : d ≠ 0 ∨ ∃ n, digits n ≠ 0) :
    ∃ k, bound < number base (d :: upTo digits (k + 1)) ∧
      ∀ j ≤ k, number base (d :: upTo digits j) ≤ bound := by
  have positive : ∃ n, 0 < number base (d :: upTo digits n) := by
    rcases nonzero with hd | ⟨n, hn⟩
    · refine ⟨0, ?_⟩
      rw [number_upTo_zero]
      exact Nat.pos_of_ne_zero hd
    · refine ⟨n + 1, ?_⟩
      rw [number_upTo_succ]
      exact Nat.lt_of_lt_of_le (Nat.pos_of_ne_zero hn) (Nat.le_add_left ..)
  obtain ⟨n, positive⟩ := positive
  have beyond : ∃ k, bound < number base (d :: upTo digits (k + 1)) := by
    have grows := number_upTo_grows hbase positive (bound.toNat + 1)
    rw [← Nat.add_assoc] at grows
    exact ⟨n + bound.toNat, by omega⟩
  classical
  refine ⟨Nat.find beyond, Nat.find_spec beyond, ?_⟩
  intro j hj
  cases j with
  | zero => rwa [number_upTo_zero]
  | succ j => exact Int.not_lt.1 (Nat.find_min beyond hj)

end Digit

namespace Source

/-- At each of the places a digit of the alphabet stands, and the next place is behind it. -/
def EndlessDigits (source : Source L) (alphabet : Digit) (place : Nat → L) (digits : Nat → Nat) :
    Prop :=
  ∀ n, ∃ t, source.terminalAt (place n) = some (t, place (n + 1)) ∧
    alphabet.value? t = some (digits n)

variable {source : Source L} {alphabet : Digit}

/-- The digits in front of a place lead to it. -/
theorem EndlessDigits.upTo {place : Nat → L} {digits : Nat → Nat}
    (h : source.EndlessDigits alphabet place digits) (n : Nat) :
    source.Digits alphabet (place 0) (Digit.upTo digits n) (place n) := by
  induction n with
  | zero => exact .nil (place 0)
  | succ n ih =>
    obtain ⟨t, here, digit⟩ := h n
    rw [Digit.upTo_succ]
    exact ih.concat here digit

/-- Where there is any number of digits, there are places of digits without an end. -/
theorem exists_endlessDigits {l : L}
    (h : ∀ n, ∃ digits m, digits.length = n ∧ source.Digits alphabet l digits m) :
    ∃ place digits, place 0 = l ∧ source.EndlessDigits alphabet place digits := by
  choose row place length run using h
  have steps (n : Nat) : source.Steps n l (place n) := by
    simpa only [length] using (run n).steps
  -- the digit at a place is the last of the longer row that ends behind it
  have next (n : Nat) : ∃ d t, source.terminalAt (place n) = some (t, place (n + 1)) ∧
      alphabet.value? t = some d := by
    have hn : n < (row (n + 1)).length := by
      rw [length]
      exact Nat.lt_succ_self n
    obtain ⟨m, m', t, front, here, digit⟩ := (run (n + 1)).split hn
    have hm : source.Steps n l m := by
      simpa [Nat.le_of_lt hn] using front.steps
    obtain rfl := hm.unique (steps n)
    obtain rfl : m' = place (n + 1) := (hm.trans (.one here)).unique (steps (n + 1))
    exact ⟨_, t, here, digit⟩
  choose digits h using next
  exact ⟨place, digits, (steps 0).unique (.zero l), h⟩

end Source

/-! ## Numerals on any source -/

namespace Rule

variable [DecidableEq L] {scope : Scope L} {first next : Digit} {type : IntegerType}

section

variable [Sink S L Terminal] {cursor after : Cursor L S} {fuel : Nat}

/-- A numeral is a first digit and those that follow it, with no sign in front. -/
theorem parse_numeral :
    (numeral first next type).parse scope (fuel + 1) cursor
      = (scope.digitsFrom fuel first next type false >>= fun n => pure (.integer n)) cursor := rfl

/-- A numeral comes to an end with the fuel with which its digits do. -/
theorem attempt_numeral_eq_unfinished :
    (numeral first next type).attempt scope (fuel + 1) cursor = .unfinished ↔
      scope.digitsFrom fuel first next type false cursor = .unfinished := by
  rw [attempt, Scope.attempt_eq_unfinished, parse_numeral, Parser.bind_apply]
  cases scope.digitsFrom fuel first next type false cursor <;> simp

theorem attempt_numeral_fail {error : Error L}
    (h : scope.digitsFrom fuel first next type false cursor = .fail error after) :
    ∃ back, (numeral first next type).attempt scope (fuel + 1) cursor = .fail error back ∧
      back.location = cursor.location :=
  Scope.attempt_goes_back (Parser.bind_of_fail h)

theorem never_ends_numeral :
    (∀ fuel, (numeral first next type).attempt scope fuel cursor = .unfinished) ↔
      ∀ fuel, scope.digitsFrom fuel first next type false cursor = .unfinished := by
  constructor
  · exact fun never fuel => attempt_numeral_eq_unfinished.1 (never (fuel + 1))
  · intro never fuel
    cases fuel with
    | zero => rfl
    | succ fuel => exact attempt_numeral_eq_unfinished.2 (never fuel)

/-- A run of digits that comes to an end is read to it, or is an overflow. -/
theorem digitsFrom_ends {t : Terminal} {m stop : L} {d : Nat} {digits : List Nat}
    (here : scope.source.terminalAt cursor.location = some (t, m)) (hd : first.value? t = some d)
    (run : scope.source.Digits next m digits stop) (ended : scope.source.NoDigit next stop) :
    scope.digitsFrom (digits.length + 1) first next type false cursor ≠ .unfinished := by
  have enough : digits.length < digits.length + 1 := Nat.lt_succ_self _
  have one : d ≤ type.bound false :=
    type.small_le_max (Nat.lt_trans (Digit.value?_lt_radix hd) first.radix_lt)
  by_cases fits : (Digit.number next.radix (d :: digits) : Int) ≤ type.max
  · obtain ⟨after, hok, -⟩ : ∃ after, scope.digitsFrom (digits.length + 1) first next type false
        cursor = .ok (Digit.signed false (Digit.number next.radix (d :: digits))) after ∧ _ :=
      Scope.digitsFrom_run here hd run ended fits enough
    rw [hok]
    exact Reply.ok_ne_unfinished
  · obtain ⟨k, excess⟩ := Digit.exists_firstExcess (List.cons_ne_nil d digits) (Int.not_le.1 fits)
    obtain ⟨place, after, -, hfail⟩ : ∃ place after, _ ∧
        scope.digitsFrom (digits.length + 1) first next type false cursor
          = .fail (.overflow type.name place) after :=
      Scope.digitsFrom_excess here hd run one excess enough
    rw [hfail]
    exact Reply.fail_ne_unfinished

end

/-- **Digits without an end that are not all zero** are an overflow, at the first of them that takes
the number beyond the type. -/
theorem numeral_endless {l : L} {t : Terminal} {d : Nat} {place : Nat → L} {digits : Nat → Nat}
    (here : scope.source.terminalAt l = some (t, place 0)) (hd : first.value? t = some d)
    (endless : scope.source.EndlessDigits next place digits)
    (nonzero : d ≠ 0 ∨ ∃ n, digits n ≠ 0) :
    ∃ k, type.max < Digit.number next.radix (d :: Digit.upTo digits (k + 1)) ∧
      (∀ j ≤ k, Digit.number next.radix (d :: Digit.upTo digits j) ≤ type.max) ∧
      (numeral first next type).FailsAt scope l (.overflow type.name (place k)) := by
  have one : d ≤ type.max :=
    type.small_le_max (Nat.lt_trans (Digit.value?_lt_radix hd) first.radix_lt)
  have base : 2 ≤ next.radix := by cases next <;> decide
  obtain ⟨k, beyond, before⟩ := Digit.exists_first_beyond base one nonzero
  refine ⟨k, beyond, before, k + 2, ?_⟩
  intro fuel enough S _ cursor hl
  subst hl
  obtain ⟨fuel, rfl⟩ : ∃ n, fuel = n + 1 := ⟨fuel - 1, by omega⟩
  obtain ⟨t', last, digit⟩ := endless k
  have fits := before k (Nat.le_refl k)
  rw [Digit.number_upTo_succ] at beyond
  rw [Digit.number_cons] at fits beyond
  have hfuel : (Digit.upTo digits k).length < fuel := by
    rw [Digit.length_upTo]
    omega
  obtain ⟨after, hfail⟩ : ∃ after, scope.digitsAfter next type (Scope.combineDigit false type next)
      fuel (Digit.signed false d) (cursor.record (place 0) [])
        = .fail (.overflow type.name (place k)) after :=
    Scope.digitsAfter_excess (endless.upTo k) fits last digit beyond rfl hfuel
  exact attempt_numeral_fail ((Scope.digitsFrom_digit here hd fuel).trans hfail)

/-- Digits are read for ever exactly where all of them are zeros. -/
theorem digitsFrom_never_ends [Sink S L Terminal] {cursor : Cursor L S} :
    (∀ fuel, scope.digitsFrom fuel first next type false cursor = .unfinished) ↔
      ∃ t place, scope.source.terminalAt cursor.location = some (t, place 0) ∧
        first.value? t = some 0 ∧ scope.source.EndlessDigits next place fun _ => 0 := by
  constructor
  · intro never
    rcases scope.source.noDigit_or_digit first cursor.location with
      ended | ⟨t, m, d, here, hd⟩
    · obtain ⟨after, absent⟩ := Scope.digitsFrom_absent type false 0 ended
      exact absurd ((never 0).symm.trans absent) nofun
    rcases scope.source.run_or_endless next m with ⟨digits, stop, run, ended⟩ | endless
    · exact absurd (never _) (digitsFrom_ends here hd run ended)
    obtain ⟨place, digits, rfl, places⟩ := Source.exists_endlessDigits endless
    by_cases nonzero : d ≠ 0 ∨ ∃ n, digits n ≠ 0
    · obtain ⟨k, -, -, enough, fails⟩ : ∃ k, _ ∧ _ ∧
          (numeral first next type).FailsAt scope cursor.location (.overflow type.name (place k)) :=
        numeral_endless here hd places nonzero
      obtain ⟨back, failed, -⟩ := fails enough (Nat.le_refl _) cursor rfl
      exact absurd ((never_ends_numeral.2 never enough).symm.trans failed) nofun
    · simp only [not_or, not_not, not_exists] at nonzero
      obtain ⟨rfl, zeros⟩ := nonzero
      obtain rfl : digits = fun _ => 0 := funext zeros
      exact ⟨t, place, here, hd, places⟩
  · rintro ⟨t, place, here, hd, endless⟩ fuel
    have fits : (Digit.number next.radix (0 :: Digit.upTo (fun _ => 0) fuel) : Int) ≤ type.max := by
      rw [Digit.number_zeros]
      exact type.small_le_max (by decide)
    have unfinished : scope.digitsFrom (Digit.upTo (fun _ => 0) fuel).length first next type false
        cursor = .unfinished := Scope.digitsFrom_unfinished here hd (endless.upTo fuel) fits
    rwa [Digit.length_upTo] at unfinished

/-- **A numeral comes to an end on any source**, unless it reads zeros for ever. On every source,
from every location, and for every type and both alphabets:

* It never ends exactly where the first digit is a zero and zeros of the other alphabet follow it
  without an end.
* Where digits without an end follow the first one and not all of these are zero, it is an overflow
  at the first digit that takes the number beyond the type, and goes back.
* So a numeral without leading zeros always comes to an end. -/
theorem numeral_ends (scope : Scope L) (first next : Digit) (type : IntegerType) (l : L) :
    (∀ {S : Type} [Sink S L Terminal] (cursor : Cursor L S), cursor.location = l →
      ((∀ fuel, (numeral first next type).attempt scope fuel cursor = .unfinished) ↔
        ∃ t place, scope.source.terminalAt l = some (t, place 0) ∧ first.value? t = some 0 ∧
          scope.source.EndlessDigits next place fun _ => 0)) ∧
    (∀ t d place digits, scope.source.terminalAt l = some (t, place 0) →
      first.value? t = some d → scope.source.EndlessDigits next place digits →
      (d ≠ 0 ∨ ∃ n, digits n ≠ 0) →
      ∃ k, type.max < Digit.number next.radix (d :: Digit.upTo digits (k + 1)) ∧
        (∀ j ≤ k, Digit.number next.radix (d :: Digit.upTo digits j) ≤ type.max) ∧
        (numeral first next type).FailsAt scope l (.overflow type.name (place k))) ∧
    ∀ {S : Type} [Sink S L Terminal] (cursor : Cursor L S), cursor.location = l →
      ∃ fuel, (numeral .natural next type).attempt scope fuel cursor ≠ .unfinished := by
  have never (first : Digit) {S : Type} [Sink S L Terminal] {cursor : Cursor L S}
      (hl : cursor.location = l) :
      (∀ fuel, (numeral first next type).attempt scope fuel cursor = .unfinished) ↔
        ∃ t place, scope.source.terminalAt l = some (t, place 0) ∧ first.value? t = some 0 ∧
          scope.source.EndlessDigits next place fun _ => 0 := by
    subst hl
    exact never_ends_numeral.trans digitsFrom_never_ends
  refine ⟨fun cursor => never first, fun t d place digits => numeral_endless, ?_⟩
  intro S _ cursor hl
  by_contra unfinished
  obtain ⟨t, place, -, zero, -⟩ := (never .natural hl).1 (by simpa using unfinished)
  exact absurd (Digit.natural_value?_eq_some.1 zero).2.1 (Nat.lt_irrefl 0)

/-- Behind a zero, the ones of two cells that lead to each other are too many for a byte at the
fourth of them. A zero on a cell that leads to itself is read for ever. -/
theorem numeral_ends_circle :
    let ones : Scope Int :=
      { source := .ofLinks 0 [⟨0, 48, 1⟩, ⟨1, 49, 2⟩, ⟨2, 49, 1⟩], naming := .linked true,
        definitions := fun _ => none }
    let zeros : Scope Int :=
      { source := .ofLinks 0 [⟨0, 48, 0⟩], naming := .linked true, definitions := fun _ => none }
    let byte := literal .decimal (.unsigned .w8)
    byte.FailsAt ones 0 (.overflow "u8" 2) ∧
      ∀ fuel,
        byte.attempt zeros fuel (.atStart zeros.source (NoReports.mk : NoReports Int Terminal))
          = .unfinished := by
  intro ones zeros byte
  constructor
  · let place (n : Nat) : Int := if n % 2 = 0 then 1 else 2
    have endless : ones.source.EndlessDigits .decimal place fun _ => 1 := by
      intro n
      refine ⟨49, ?_, rfl⟩
      rcases Nat.mod_two_eq_zero_or_one n with even | odd
      · simp only [place, even, Nat.succ_mod_two_eq_one_iff.2 even]
        rfl
      · simp only [place, odd, Nat.succ_mod_two_eq_zero_iff.2 odd]
        rfl
    obtain ⟨k, beyond, before, fails⟩ :=
      (numeral_ends ones .decimal .decimal (.unsigned .w8) 0).2.1 48 0 place _ rfl rfl endless
        (.inr ⟨0, by decide⟩)
    -- 111 is within a byte, and 1111 is not
    obtain rfl : k = 3 := by
      rcases Nat.lt_trichotomy k 3 with fewer | three | more
      · interval_cases k <;> exact absurd beyond (by decide)
      · exact three
      · exact absurd (before 4 more) (by decide)
    exact fails
  · have endless : zeros.source.EndlessDigits .decimal (fun _ => 0) fun _ => 0 :=
      fun _ => ⟨48, rfl, rfl⟩
    exact ((numeral_ends zeros .decimal .decimal (.unsigned .w8) 0).1 _ rfl).2
      ⟨48, fun _ => 0, rfl, rfl, endless⟩

end Rule

end Backtrack
