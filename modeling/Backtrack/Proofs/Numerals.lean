import Backtrack.Proofs.Refinement
import Mathlib.Data.Nat.Find

/-!
# Numerals are exact

A numeral denotes the number of its digits in the base of its alphabet (`Digit.number`). It is read
up to the last digit, however many there are, and then is that number; or the number is too large
for the type, and the numeral is an overflow at the digit that takes it beyond the greatest value
(`Digit.FirstExcess`). The checked arithmetic of the type loses nothing in between
(`Rule.numeral_exact`).
-/

namespace Backtrack

variable {L S : Type}

/-! ## Digits as values of a type -/

namespace IntegerType

variable (type : IntegerType) {n : Nat}

theorem min_le_zero : type.min ≤ 0 := by
  rcases type with ⟨signed, width⟩
  cases signed <;> cases width <;> decide

theorem small_le_max (h : n < 128) : n ≤ type.max := by
  have hmax : 127 ≤ type.max := by
    rcases type with ⟨signed, width⟩
    cases signed <;> cases width <;> decide
  omega

theorem ofDigit_of_lt (h : n < 128) : type.ofDigit n = n := by
  unfold ofDigit
  split
  · have hsize : 256 ≤ Nat.pow 2 type.width.bits := by cases type.width <;> decide
    exact Int.bmod_eq_of_le (by omega) (by omega)
  · have hsize : 256 ≤ Int.pow 2 type.width.bits := by cases type.width <;> decide
    exact Int.emod_eq_of_lt (by omega) (by omega)

end IntegerType

namespace Digit

theorem radix_pos (alphabet : Digit) : 0 < alphabet.radix := by
  cases alphabet <;> decide

theorem radix_lt (alphabet : Digit) : alphabet.radix < 128 := by
  cases alphabet <;> decide

theorem value?_lt_radix {alphabet : Digit} {t : Terminal} {d : Nat}
    (h : alphabet.value? t = some d) : d < alphabet.radix := by
  cases alphabet <;> simp (disch := decide) only [value?, Terminal.between_eq] at h <;>
    grind [radix]

/-- As a value of a type, a digit is still the digit. -/
theorem read?_eq (alphabet : Digit) (type : IntegerType) (t : Terminal) :
    alphabet.read? type t = (alphabet.value? t).map Nat.cast := by
  rw [read?]
  cases h : alphabet.value? t with
  | none => rfl
  | some d =>
    have hd := value?_lt_radix h
    have hradix := alphabet.radix_lt
    rw [Option.map_some, type.ofDigit_of_lt (by omega), Option.map_some]

/-! ## The number that digits denote -/

/-- A number with digits appended to it, one after the other. -/
def extended (base value : Nat) (digits : List Nat) : Nat :=
  digits.foldl (fun value digit => value * base + digit) value

/-- The number that digits denote in a base, the most significant digit first. -/
def number (base : Nat) (digits : List Nat) : Nat :=
  extended base 0 digits

/-- Of the numbers that the digits denote up to each of them, that of the digit at `k` is the first
to exceed the bound. -/
structure FirstExcess (bound : Int) (base : Nat) (digits : List Nat) (k : Nat) : Prop where
  lt_length : k < digits.length
  exceeds : bound < number base (digits.take (k + 1))
  before : ∀ j < k, number base (digits.take (j + 1)) ≤ bound

/-- The values of the digits at the front of a list of terminals, up to the first terminal that is
no digit of the alphabet. -/
def run (alphabet : Digit) : List Terminal → List Nat
  | [] => []
  | t :: ts =>
    match alphabet.value? t with
    | some d => d :: alphabet.run ts
    | none => []

@[simp] theorem extended_nil (base value : Nat) : extended base value [] = value := rfl

@[simp] theorem extended_cons (base value d : Nat) (digits : List Nat) :
    extended base value (d :: digits) = extended base (value * base + d) digits := rfl

theorem number_cons (base d : Nat) (digits : List Nat) :
    number base (d :: digits) = extended base d digits := by
  simp [number]

theorem number_concat (base d : Nat) (digits : List Nat) :
    number base (digits ++ [d]) = number base digits * base + d := by
  simp [number, extended]

/-- Zeros in front do not count. -/
theorem number_zeros_append (base zeros : Nat) (digits : List Nat) :
    number base (List.replicate zeros 0 ++ digits) = number base digits := by
  induction zeros with
  | zero => rfl
  | succ zeros ih => rw [List.replicate_succ, List.cons_append, number_cons, ← ih, number]

variable {base : Nat}

theorem le_extended (hbase : 0 < base) (value : Nat) (digits : List Nat) :
    value ≤ extended base value digits := by
  induction digits generalizing value with
  | nil => exact Nat.le_refl value
  | cons d digits ih =>
    have hvalue : value ≤ value * base := Nat.le_mul_of_pos_right value hbase
    exact Nat.le_trans (by omega) (ih (value * base + d))

/-- A number beyond the bound goes beyond it at some digit. -/
theorem exists_firstExcess {bound : Int} {digits : List Nat} (hdigits : digits ≠ [])
    (h : bound < number base digits) : ∃ k, FirstExcess bound base digits k := by
  classical
  have hpos := List.length_pos_iff.2 hdigits
  have hlast : bound < number base (digits.take (digits.length - 1 + 1)) := by
    rwa [Nat.sub_add_cancel hpos, List.take_length]
  let exceeding := fun k => bound < number base (digits.take (k + 1))
  have some_excess : ∃ k, exceeding k := ⟨_, hlast⟩
  refine ⟨Nat.find some_excess, ?_, Nat.find_spec some_excess, ?_⟩
  · have hle : Nat.find some_excess ≤ digits.length - 1 := Nat.find_min' some_excess hlast
    omega
  · intro j hj
    exact Int.not_lt.1 (Nat.find_min some_excess hj)

theorem FirstExcess.unique {bound : Int} {digits : List Nat} {j k : Nat}
    (hj : FirstExcess bound base digits j) (hk : FirstExcess bound base digits k) : j = k := by
  have hle := hj.exceeds
  have hle' := hk.exceeds
  rcases Nat.lt_trichotomy j k with hlt | heq | hgt
  · have hbefore := hk.before j hlt
    omega
  · exact heq
  · have hbefore := hj.before k hgt
    omega

/-- Digits behind the first that goes beyond the bound do not matter. -/
theorem FirstExcess.append {bound : Int} {digits : List Nat} {k : Nat}
    (h : FirstExcess bound base digits k) (more : List Nat) :
    FirstExcess bound base (digits ++ more) k := by
  have hlt := h.lt_length
  have hsame {j : Nat} (hj : j ≤ k) : (digits ++ more).take (j + 1) = digits.take (j + 1) :=
    List.take_append_of_le_length (by omega)
  refine ⟨by rw [List.length_append]; omega, ?_, ?_⟩
  · rw [hsame (Nat.le_refl k)]
    exact h.exceeds
  · intro j hj
    rw [hsame (Nat.le_of_lt hj)]
    exact h.before j hj

end Digit

/-! ## What is read of digits -/

namespace Reading

open Scope.numeral (appendDigit)

variable {naming : Naming} {type : IntegerType} {first next : Digit} {ts : List Terminal}
  {t d value : Nat}

/-- One more digit is appended exactly where the number still fits. -/
theorem appendDigit_eq (type : IntegerType) (next : Digit) (value d : Nat) :
    appendDigit type next value d
      = if ((value * next.radix + d : Nat) : Int) ≤ type.max
        then some ((value * next.radix + d : Nat) : Int) else none := by
  have hmin := type.min_le_zero
  rw [appendDigit, type.ofDigit_of_lt next.radix_lt, IntegerType.checkedMul]
  by_cases hmul : ((value * next.radix : Nat) : Int) ≤ type.max
  · have hchecked : type.checked ((value : Int) * (next.radix : Nat))
        = some ((value * next.radix : Nat) : Int) := by
      rw [← Int.natCast_mul]
      exact IntegerType.checked_eq_some.2 ⟨rfl, by omega, hmul⟩
    rw [hchecked]
    show type.checked (((value * next.radix : Nat) : Int) + (d : Nat)) = _
    rw [← Int.natCast_add, IntegerType.checked]
    exact if_congr (by omega) rfl rfl
  · have hchecked : type.checked ((value : Int) * (next.radix : Nat)) = none := by
      rw [← Int.natCast_mul]
      exact IntegerType.checked_eq_none.2 (.inr (by omega))
    rw [hchecked, if_neg (by omega)]
    rfl

/-- While the number fits, all digits are read. -/
theorem digitsAfter_fits (h : Digit.extended next.radix value (next.run ts) ≤ type.max) :
    digitsAfter (next.read? type) type (appendDigit type next) value ts
      = .matched (Digit.extended next.radix value (next.run ts)) (next.run ts).length := by
  induction ts generalizing value with
  | nil => rfl
  | cons t ts ih =>
    rw [digitsAfter, next.read?_eq]
    cases hread : next.value? t with
    | none => simp [Digit.run, hread]
    | some d =>
      simp only [Digit.run, hread, Digit.extended_cons, List.length_cons, Option.map_some] at h ⊢
      have hle := Digit.le_extended next.radix_pos (value * next.radix + d) (next.run ts)
      rw [appendDigit_eq, if_pos (by omega)]
      simp only
      rw [ih h, Meaning.after, Nat.add_comm 1]

/-- The first digit that takes the number beyond the greatest value is the overflow. -/
theorem digitsAfter_exceeds {k : Nat} (hk : k < (next.run ts).length)
    (hbefore : Digit.extended next.radix value ((next.run ts).take k) ≤ type.max)
    (hexceeds : type.max < Digit.extended next.radix value ((next.run ts).take (k + 1))) :
    digitsAfter (next.read? type) type (appendDigit type next) value ts
      = .overflow type.name k := by
  induction ts generalizing value k with
  | nil => simp [Digit.run] at hk
  | cons t ts ih =>
    rw [digitsAfter, next.read?_eq]
    cases hread : next.value? t with
    | none => simp [Digit.run, hread] at hk
    | some d =>
      simp only [Digit.run, hread, List.length_cons, List.take_succ_cons,
        Digit.extended_cons, Option.map_some] at hk hbefore hexceeds ⊢
      rw [appendDigit_eq]
      cases k with
      | zero =>
        simp only [List.take_zero, Digit.extended_nil] at hexceeds
        rw [if_neg (by omega)]
      | succ k =>
        simp only [List.take_succ_cons, Digit.extended_cons] at hbefore
        have hle := Digit.le_extended next.radix_pos (value * next.radix + d) ((next.run ts).take k)
        rw [if_pos (by omega)]
        simp only
        rw [ih (by omega) hbefore hexceeds, Meaning.after, Nat.add_comm 1]

theorem numeral_absent (h : ∀ t ∈ ts.head?, first.value? t = none) :
    numeral naming first next type ts = .absent ((Rule.digit first type).identity naming) 0 := by
  cases ts with
  | nil => rfl
  | cons t ts => simp [numeral, bind_apply, terminal, first.read?_eq, h t rfl]

/-- Behind its first digit, a numeral is what the digits after it make of that digit. -/
theorem numeral_cons (h : first.value? t = some d) :
    numeral naming first next type (t :: ts)
      = (digitsAfter (next.read? type) type (appendDigit type next) d ts).after 1 := by
  simp [numeral, bind_apply, terminal, first.read?_eq, h]

theorem numeral_fits (h : first.value? t = some d)
    (fits : Digit.number next.radix (d :: next.run ts) ≤ type.max) :
    numeral naming first next type (t :: ts)
      = .matched (Digit.number next.radix (d :: next.run ts)) (d :: next.run ts).length := by
  rw [Digit.number_cons] at fits ⊢
  rw [numeral_cons h, digitsAfter_fits fits, Meaning.after, List.length_cons, Nat.add_comm 1]

theorem numeral_exceeds (h : first.value? t = some d) {k : Nat}
    (excess : Digit.FirstExcess type.max next.radix (d :: next.run ts) k) :
    numeral naming first next type (t :: ts) = .overflow type.name k := by
  obtain ⟨hk, hexceeds, hbefore⟩ := excess
  cases k with
  | zero =>
    -- one digit always fits
    have hd := Digit.value?_lt_radix h
    have hfits := type.small_le_max (Nat.lt_trans hd first.radix_lt)
    simp only [List.take_succ_cons, List.take_zero, Digit.number_cons, Digit.extended_nil]
      at hexceeds
    omega
  | succ k =>
    have hprefix := hbefore k (Nat.lt_succ_self k)
    simp only [List.take_succ_cons, Digit.number_cons] at hprefix hexceeds
    have hk : k < (next.run ts).length := by simpa using hk
    rw [numeral_cons h, digitsAfter_exceeds hk hprefix hexceeds, Meaning.after, Nat.add_comm 1]

end Reading

/-! ## Numerals as rules -/

namespace Rule

section

variable {naming : Naming} {type : IntegerType} {first next : Digit} {ts : List Terminal}
  {t d : Nat}

theorem meaning_numeral_absent (h : ∀ t ∈ ts.head?, first.value? t = none) :
    (numeral first next type).meaning naming ts
      = .absent ((digit first type).identity naming) 0 := by
  rw [meaning, Reading.bind_apply, Reading.numeral_absent h]

theorem meaning_numeral_fits (h : first.value? t = some d)
    (fits : Digit.number next.radix (d :: next.run ts) ≤ type.max) :
    (numeral first next type).meaning naming (t :: ts)
      = .matched (.integer (Digit.number next.radix (d :: next.run ts)))
          (d :: next.run ts).length := by
  rw [meaning, Reading.bind_apply, Reading.numeral_fits h fits]
  rfl

theorem meaning_numeral_exceeds (h : first.value? t = some d) {k : Nat}
    (excess : Digit.FirstExcess type.max next.radix (d :: next.run ts) k) :
    (numeral first next type).meaning naming (t :: ts) = .overflow type.name k := by
  rw [meaning, Reading.bind_apply, Reading.numeral_exceeds h excess]

end

theorem throughout_direct_numeral {L : Type} (scope : Scope L) (first next : Digit)
    (type : IntegerType) : scope.Throughout Direct (numeral first next type) := by
  refine .intro trivial ?_
  intro part mem
  simp only [parts, List.mem_cons, List.not_mem_nil, or_false] at mem
  rcases mem with rfl | rfl
  · exact Scope.throughout_terminal trivial
  · exact Scope.throughout_terminal trivial

/-- **Numerals are exact**, at every location that whole terminals lead to from the start of a
sequence or a text, for every type and both alphabets.

* Where no digit of the first alphabet stands, that digit is expected.
* Otherwise the digits are that one and all of the other alphabet that follow. If their number is
  within the type, it is the value, and the cursor stops behind the last digit.
* If it is not, the numeral is an overflow of the type, located at the first digit that takes the
  number beyond the greatest value, and the cursor is back.

So no match stops before the last digit, no value is negative or beyond the type, and zeros in front
never lead to an overflow. -/
theorem numeral_exact {scope : Scope Nat} {size l : Nat} (addressed : scope.source.Addressed size)
    (reached : scope.source.Reaches scope.source.start l) (first next : Digit)
    (type : IntegerType) :
    ∃ ts, scope.source.Spells l ts ∧ ∃ enough, ∀ fuel, enough ≤ fuel →
      ∀ {S : Type} [Sink S Nat Terminal] (cursor : Cursor Nat S), cursor.location = l →
        let reply := (numeral first next type).attempt scope fuel cursor
        ((∀ t ∈ ts.head?, first.value? t = none) →
          ∃ back, reply = .fail (.expected ((digit first type).identity scope.naming) l) back ∧
            back.location = l) ∧
        ∀ t rest d, ts = t :: rest → first.value? t = some d →
          let digits := d :: next.run rest
          let value := Digit.number next.radix digits
          (value ≤ type.max → ∃ after, reply = .ok (.integer value) after ∧
            scope.source.Steps digits.length l after.location) ∧
          (type.max < value → ∃ k m back, Digit.FirstExcess type.max next.radix digits k ∧
            scope.source.Steps k l m ∧ reply = .fail (.overflow type.name m) back ∧
            back.location = l) ∧
          (∀ result after, reply = .ok result after →
            scope.source.Steps digits.length l after.location ∧
              ∃ n : Nat, result = .integer n ∧ n ≤ type.max) ∧
          ∀ zeros significant, digits = List.replicate zeros 0 ++ significant →
            Digit.number next.radix significant ≤ type.max →
              ∃ after, reply = .ok (.integer (Digit.number next.radix significant)) after := by
  obtain ⟨ts, left, -, -⟩ := addressed.spells reached
  refine ⟨ts, left, sizeOf (numeral first next type) + ts.length + 1, ?_⟩
  rintro fuel hfuel S _ cursor rfl reply
  have describes : scope.source.Describes cursor.location
      ((numeral first next type).meaning scope.naming ts) reply :=
    attempt_describes (throughout_direct_numeral scope first next type) left hfuel
  have back_home {error : Error Nat} {back : Cursor Nat S} (h : reply = .fail error back) :
      back.location = cursor.location := Scope.attempt_fail_location h
  constructor
  · intro no_digit
    rw [meaning_numeral_absent no_digit] at describes
    obtain ⟨m, back, hfail, hm⟩ := describes
    obtain rfl := hm.unique (.zero _)
    exact ⟨back, hfail, back_home hfail⟩
  rintro t rest d rfl hd digits value
  have fitting (fits : value ≤ type.max) : ∃ after, reply = .ok (.integer value) after ∧
      scope.source.Steps digits.length cursor.location after.location := by
    rwa [meaning_numeral_fits hd fits] at describes
  have exceeding (exceeds : type.max < value) :
      ∃ k m back, Digit.FirstExcess type.max next.radix digits k ∧
        scope.source.Steps k cursor.location m ∧ reply = .fail (.overflow type.name m) back ∧
        back.location = cursor.location := by
    obtain ⟨k, excess⟩ := Digit.exists_firstExcess (List.cons_ne_nil d (next.run rest)) exceeds
    rw [meaning_numeral_exceeds hd excess] at describes
    obtain ⟨m, back, hfail, hm⟩ := describes
    exact ⟨k, m, back, excess, hm, hfail, back_home hfail⟩
  refine ⟨fitting, exceeding, ?_, ?_⟩
  · intro result after hok
    by_cases fits : value ≤ type.max
    · obtain ⟨stop, hmatch, hsteps⟩ := fitting fits
      cases hok.symm.trans hmatch
      exact ⟨hsteps, value, rfl, fits⟩
    · obtain ⟨k, m, back, -, -, hfail, -⟩ := exceeding (by omega)
      cases hok.symm.trans hfail
  · intro zeros significant hdigits fits
    have hvalue : value = Digit.number next.radix significant := by
      rw [← Digit.number_zeros_append next.radix zeros significant, ← hdigits]
    obtain ⟨after, hok, -⟩ := fitting (hvalue ▸ fits)
    exact ⟨after, hvalue ▸ hok⟩

/-- In `x0256` the digits from the second byte on do not fit a byte, and the last of them is the one
too many. -/
theorem numeral_exact_byte :
    let scope : Scope Nat :=
      { source := .ofArray #[120, 48, 50, 53, 54], naming := .offsets .byte true,
        definitions := fun _ => none }
    ∃ enough, ∀ fuel, enough ≤ fuel → ∀ cursor : Cursor Nat (NoReports Nat Terminal),
      cursor.location = 1 → ∃ back,
        (literal .decimal (.unsigned .w8)).attempt scope fuel cursor
            = .fail (.overflow "u8" 4) back ∧
          back.location = 1 := by
  intro scope
  have addressed : scope.source.Addressed 5 := .sequence #[120, 48, 50, 53, 54]
  have reached : scope.source.Reaches scope.source.start 1 := .step rfl
  obtain ⟨ts, hts, enough, h⟩ :=
    numeral_exact addressed reached .decimal .decimal (.unsigned .w8)
  have hspells : scope.source.Spells 1 [48, 50, 53, 54] := Source.spells_ofArray _ (by decide)
  obtain rfl : ts = [48, 50, 53, 54] := hts.unique hspells
  refine ⟨enough, ?_⟩
  intro fuel hfuel cursor hcursor
  obtain ⟨-, exceeding, -, -⟩ :=
    (h fuel hfuel cursor hcursor).2 48 [50, 53, 54] 0 rfl (by decide)
  obtain ⟨k, m, back, excess, hsteps, hfail, hback⟩ := exceeding (by decide)
  have last : Digit.FirstExcess 255 10 [0, 2, 5, 6] 3 := ⟨by decide, by decide, by decide⟩
  obtain rfl := excess.unique last
  obtain rfl : m = 1 + 3 := Source.steps_ofArray hsteps
  exact ⟨back, hfail, hback⟩

end Rule

end Backtrack
