import Backtrack.Proofs.Decimals
import Backtrack.Proofs.DigitRuns
import Backtrack.Proofs.Lookahead
import Backtrack.Rule.Fuel

/-!
# Numerals with a sign are exact on both sides

A numeral with a sign is an optional hyphen (`Source.Sign`) and then a run of digits. Negative
numbers are accumulated downward and the others upward, so that the least value of a type is read as
well as the greatest. On any source, also on one that does not come to an end, the numeral is the
value of the whole run, or an overflow at the first digit beyond the bound on the side of the sign
(`Rule.signedInteger_exact`).
-/

namespace Backtrack

variable {L S : Type}

/-! ## Signs -/

/-- An optional hyphen leads from the first location to the second. -/
inductive Source.Sign (source : Source L) (l : L) : Bool → L → Prop where
  | hyphen {m : L} (here : source.terminalAt l = some ('-'.toNat, m)) : Sign source l true m
  | none (other : source.found l ≠ some '-'.toNat) : Sign source l false l

theorem Source.exists_sign (source : Source L) (l : L) :
    ∃ negative m, source.Sign l negative m := by
  by_cases hyphen : source.found l = some '-'.toNat
  · obtain ⟨⟨t, m⟩, here, ht⟩ := Option.map_eq_some_iff.1 hyphen
    obtain rfl : t = '-'.toNat := ht
    exact ⟨true, m, .hyphen here⟩
  · exact ⟨false, l, .none hyphen⟩

/-- A digit is no sign. -/
theorem Source.Digits.sign {source : Source L} {l stop : L} {d : Nat} {digits : List Nat}
    (h : source.Digits .decimal l (d :: digits) stop) : source.Sign l false l := by
  cases h with
  | cons here digit rest =>
    obtain ⟨rfl, -⟩ := Digit.decimal_value?_eq_some.1 digit
    refine .none ?_
    rw [found_eq_some here, Ne, Option.some.injEq]
    show ¬48 + d = 45
    omega

/-! ## Decimal texts with a sign -/

namespace Digit

/-- The decimal text of a value, with zeros in front of its digits. -/
def signedText (zeros : Nat) (n : Int) : String :=
  (if n < 0 then "-" else "") ++ String.ofList (List.replicate zeros '0') ++ toString n.natAbs

/-- Without zeros in front it is the text of the value. -/
theorem signedText_zero (n : Int) : signedText 0 n = toString n := by
  unfold signedText
  cases n with
  | ofNat n =>
    have h : ¬Int.ofNat n < 0 := Int.not_lt.2 (Int.natCast_nonneg n)
    rw [if_neg h, List.replicate_zero, String.ofList_nil, String.empty_append,
      String.empty_append]
    rfl
  | negSucc n =>
    have h : Int.negSucc n < 0 := Int.negSucc_lt_zero n
    rw [if_pos h, List.replicate_zero, String.ofList_nil, String.append_empty]
    rfl

theorem encode_signedText (kind : TerminalKind) (zeros : Nat) {n : Int} {digits : List Nat}
    (canonical : Canonical digits) (hn : number 10 digits = n.natAbs) :
    kind.encode (signedText zeros n)
      = (if n < 0 then ['-'.toNat] else []) ++ decimals (List.replicate zeros 0 ++ digits) := by
  have hhyphen : kind.encode "-" = ['-'.toNat] := by
    cases kind <;> decide
  have hzeros : kind.encode (String.ofList (List.replicate zeros '0'))
      = decimals (List.replicate zeros 0) := by
    rw [kind.encode_ascii]
    · simp [decimals]
    · simp
  have happend : decimals (List.replicate zeros 0 ++ digits)
      = decimals (List.replicate zeros 0) ++ decimals digits := List.map_append
  rw [signedText, kind.encode_append, kind.encode_append, hzeros, ← hn, canonical.encode_number,
    happend, List.append_assoc]
  by_cases h : n < 0
  · rw [if_pos h, if_pos h, hhyphen]
  · rw [if_neg h, if_neg h]
    rfl

theorem signed_natAbs (n : Int) : signed (n < 0) n.natAbs = n := by
  unfold signed
  by_cases h : n < 0
  · simp only [h, decide_true, if_true]
    omega
  · simp only [h, decide_false, Bool.false_eq_true, if_false]
    omega

end Digit

theorem Source.Begins.digits {source : Source L} {l : L} {digits : List Nat}
    (h : source.Begins l (Digit.decimals digits)) (small : ∀ d ∈ digits, d < 10) :
    ∃ stop, source.Digits .decimal l digits stop := by
  induction digits generalizing l with
  | nil => exact ⟨l, .nil l⟩
  | cons d digits ih =>
    rw [List.forall_mem_cons] at small
    cases h with
    | cons here rest =>
      obtain ⟨stop, run⟩ := ih rest small.2
      exact ⟨stop, .cons here (Digit.decimal_value?_eq_some.2 ⟨rfl, small.1⟩) run⟩

/-- The text of a value is its sign and a run of digits of its absolute value. -/
theorem Source.Begins.signedText {source : Source L} {l stop : L} {kind : TerminalKind}
    {zeros : Nat} {n : Int} (h : source.Begins l (kind.encode (Digit.signedText zeros n)))
    (hstop : source.Steps (kind.encode (Digit.signedText zeros n)).length l stop) :
    ∃ m digits, source.Sign l (n < 0) m ∧ source.Digits .decimal m digits stop ∧ digits ≠ [] ∧
      Digit.number 10 digits = n.natAbs := by
  obtain ⟨significant, canonical, hn⟩ := Digit.exists_canonical n.natAbs
  have some_digit : List.replicate zeros 0 ++ significant ≠ [] := by
    intro none
    cases canonical <;> simp at none
  have small : ∀ d ∈ List.replicate zeros 0 ++ significant, d < 10 := by
    intro d hd
    rcases List.mem_append.1 hd with zero | significant
    · rw [List.eq_of_mem_replicate zero]
      decide
    · exact canonical.small d significant
  have value : Digit.number 10 (List.replicate zeros 0 ++ significant) = n.natAbs := by
    rw [Digit.number_zeros_append, hn]
  rw [Digit.encode_signedText kind zeros canonical hn] at h hstop
  generalize List.replicate zeros 0 ++ significant = digits at *
  have reads {m : L} (begins : source.Begins m (Digit.decimals digits))
      (steps : source.Steps (Digit.decimals digits).length m stop) :
      source.Digits .decimal m digits stop := by
    obtain ⟨stop', run⟩ := begins.digits small
    rw [Digit.length_decimals] at steps
    exact steps.unique run.steps ▸ run
  by_cases hneg : n < 0
  · rw [if_pos hneg] at h hstop
    cases h with
    | cons here rest =>
      cases hstop with
      | succ here' steps =>
        obtain ⟨-, rfl⟩ := Prod.mk.inj (Option.some.inj (here.symm.trans here'))
        refine ⟨_, digits, ?_, reads rest steps, some_digit, value⟩
        simpa [hneg] using Source.Sign.hyphen here
  · rw [if_neg hneg] at h hstop
    have run := reads h hstop
    refine ⟨l, digits, ?_, run, some_digit, value⟩
    cases digits with
    | nil => exact absurd rfl some_digit
    | cons d digits => simpa [hneg] using run.sign

namespace Scope

variable [DecidableEq L] [Sink S L Terminal] {scope : Scope L} {cursor : Cursor L S}
  {negative : Bool} {m : L}

/-- Behind its sign, a numeral is a first digit and those that follow it. -/
theorem signedNumeral_sign (sign : scope.source.Sign cursor.location negative m) :
    ∃ after : Cursor L S, after.location = m ∧ ∀ fuel alphabet type,
      scope.signedNumeral fuel alphabet type cursor
        = scope.digitsFrom fuel alphabet alphabet type negative after := by
  have goes_on {sign? : Option Value} {after : Cursor L S}
      (h : scope.attemptOptional (.mark .hyphen) (scope.acceptTerminal (.mark .hyphen)
        (TerminalClass.mark .hyphen).accept) cursor = .ok sign? after) (fuel : Nat)
      (alphabet : Digit) (type : IntegerType) :
      scope.signedNumeral fuel alphabet type cursor
        = scope.digitsFrom fuel alphabet alphabet type sign?.isSome after := by
    rw [signedNumeral_eq, Parser.bind_apply, h]
  cases sign with
  | hyphen here =>
    have hyphen : (TerminalClass.mark .hyphen).accept '-'.toNat = some .unit := rfl
    have turn : scope.attemptOptional (.mark .hyphen) (scope.acceptTerminal (.mark .hyphen)
        (TerminalClass.mark .hyphen).accept) cursor = .ok (some .unit) (cursor.record m []) := by
      rw [attemptOptional, attempt_accepted here hyphen]
    exact ⟨_, rfl, goes_on turn⟩
  | none other =>
    have rejected : ∀ t ∈ scope.source.found cursor.location,
        (TerminalClass.mark .hyphen).accept t = none := by
      intro t found
      have hne : ¬45 = t := by
        intro heq
        subst heq
        exact other found
      simp [TerminalClass.accept, Mark.accepts_eq, Mark.chars, hne]
    obtain ⟨back, absent⟩ := attempt_rejected rejected
    have turn : scope.attemptOptional (.mark .hyphen) (scope.acceptTerminal (.mark .hyphen)
        (TerminalClass.mark .hyphen).accept) cursor = .ok none back := by
      rw [attemptOptional, absent]
      rfl
    exact ⟨back, attemptOptional_none_location turn, goes_on turn⟩

end Scope

/-! ## Numerals with a sign as rules -/

namespace Rule

section

variable [DecidableEq L] {scope : Scope L} {name : String} {alphabet : Digit} {width : Width}
  {negative : Bool} {l m stop : L} {digits : List Nat}

section

variable [Sink S L Terminal] {type : IntegerType} {fuel : Nat} {cursor after : Cursor L S}

theorem attempt_signedNumeral_ok {n : Int}
    (h : scope.signedNumeral fuel alphabet type cursor = .ok n after) :
    (signedNumeral name alphabet type).attempt scope (fuel + 1) cursor
      = .ok (.integer n) after := by
  refine Scope.attempt_eq_ok.2 ?_
  rw [parse, Scope.parseRule, Parser.bind_apply, h]
  rfl

theorem attempt_signedNumeral_unfinished
    (h : scope.signedNumeral fuel alphabet type cursor = .unfinished) :
    (signedNumeral name alphabet type).attempt scope (fuel + 1) cursor = .unfinished := by
  refine Scope.attempt_unfinished scope _ ?_
  rw [parse, Scope.parseRule]
  exact Parser.bind_unfinished h

theorem attempt_signedNumeral_fail {error : Error L}
    (h : scope.signedNumeral fuel alphabet type cursor = .fail error after) :
    ∃ back, (signedNumeral name alphabet type).attempt scope (fuel + 1) cursor = .fail error back ∧
      back.location = cursor.location :=
  Scope.attempt_goes_back (Parser.bind_of_fail h)

end

/-- Without a digit behind the sign, a digit is expected there. -/
theorem signedNumeral_absent (sign : scope.source.Sign l negative m)
    (ended : scope.source.NoDigit alphabet m) (type : IntegerType) :
    (signedNumeral name alphabet type).FailsAt scope l
      (.expected ((digit alphabet type).identity scope.naming) m) := by
  refine ⟨1, ?_⟩
  intro fuel enough S _ cursor here
  subst here
  obtain ⟨fuel, rfl⟩ : ∃ k, fuel = k + 1 := ⟨fuel - 1, by omega⟩
  obtain ⟨behind, rfl, goes_on⟩ := Scope.signedNumeral_sign sign
  obtain ⟨after, absent⟩ := Scope.digitsFrom_absent type negative fuel ended
  exact attempt_signedNumeral_fail ((goes_on fuel alphabet type).trans absent)

/-- A run of digits within the type is read to its end. -/
theorem signedNumeral_fits (sign : scope.source.Sign l negative m)
    (run : scope.source.Digits alphabet m digits stop) (some_digit : digits ≠ [])
    (ended : scope.source.NoDigit alphabet stop) {type : IntegerType}
    (fits : type.Includes (Digit.signed negative (Digit.number alphabet.radix digits))) :
    (signedNumeral name alphabet type).MatchesAt scope l
      (.integer (Digit.signed negative (Digit.number alphabet.radix digits))) stop := by
  refine ⟨digits.length + 1, ?_⟩
  intro fuel enough S _ cursor here
  subst here
  obtain ⟨fuel, rfl⟩ : ∃ k, fuel = k + 1 := ⟨fuel - 1, by omega⟩
  obtain ⟨behind, rfl, goes_on⟩ := Scope.signedNumeral_sign sign
  rw [type.includes_signed] at fits
  cases run with
  | nil => exact absurd rfl some_digit
  | cons here hd rest =>
    have hfuel : _ + 1 ≤ fuel := Nat.le_of_succ_le_succ enough
    obtain ⟨after, hok, hstop⟩ := Scope.digitsFrom_run here hd rest ended fits hfuel
    exact ⟨after, attempt_signedNumeral_ok ((goes_on fuel alphabet type).trans hok), hstop⟩

/-- The first digit beyond the bound is the overflow, whether or not the run of digits ends. -/
theorem signedNumeral_exceeds (sign : scope.source.Sign l negative m)
    (run : scope.source.Digits alphabet m digits stop) {k : Nat}
    (excess : Digit.FirstExcess ((IntegerType.twosComplement width).bound negative) alphabet.radix
      digits k) :
    ∃ place, scope.source.Steps k m place ∧
      (signedNumeral name alphabet (.twosComplement width)).FailsAt scope l
        (.overflow (IntegerType.twosComplement width).name place) := by
  obtain ⟨place, next, t, front, -, -⟩ := run.split excess.lt_length
  have hplace : scope.source.Steps k m place := by
    simpa [Nat.le_of_lt excess.lt_length] using front.steps
  refine ⟨place, hplace, digits.length + 1, ?_⟩
  intro fuel enough S _ cursor here
  subst here
  obtain ⟨fuel, rfl⟩ : ∃ k, fuel = k + 1 := ⟨fuel - 1, by omega⟩
  obtain ⟨behind, rfl, goes_on⟩ := Scope.signedNumeral_sign sign
  cases run with
  | nil => exact absurd excess.lt_length (Nat.not_lt_zero k)
  | cons here hd rest =>
    have one := IntegerType.small_le_bound width negative
      (Nat.lt_trans (Digit.value?_lt_radix hd) alphabet.radix_lt)
    have hfuel : _ + 1 ≤ fuel := Nat.le_of_succ_le_succ enough
    obtain ⟨place', after, hplace', hfail⟩ :=
      Scope.digitsFrom_excess here hd rest one excess hfuel
    obtain rfl := hplace.unique hplace'
    exact attempt_signedNumeral_fail ((goes_on fuel alphabet _).trans hfail)

/-- With no more fuel than digits within the bound, the numeral is not read to an end. -/
theorem signedNumeral_unfinished [Sink S L Terminal] {cursor : Cursor L S} {type : IntegerType}
    (sign : scope.source.Sign cursor.location negative m)
    (run : scope.source.Digits alphabet m digits stop)
    (fits : Digit.number alphabet.radix digits ≤ type.bound negative) :
    (signedNumeral name alphabet type).attempt scope digits.length cursor = .unfinished := by
  obtain ⟨behind, rfl, goes_on⟩ := Scope.signedNumeral_sign sign
  cases run with
  | nil => rfl
  | cons here hd rest =>
    have unfinished := Scope.digitsFrom_unfinished here hd rest fits
    exact attempt_signedNumeral_unfinished ((goes_on _ alphabet type).trans unfinished)

/-- **A match is the value of a whole run of digits** behind the sign, and is within the type. -/
theorem signedNumeral_matched [Sink S L Terminal] {cursor after : Cursor L S} {fuel : Nat}
    (sign : scope.source.Sign cursor.location negative m) {result : Value}
    (hok : (signedNumeral name alphabet (.twosComplement width)).attempt scope fuel cursor
      = .ok result after) :
    ∃ digits, digits ≠ [] ∧ scope.source.Digits alphabet m digits after.location ∧
      scope.source.NoDigit alphabet after.location ∧
      (IntegerType.twosComplement width).Includes
        (Digit.signed negative (Digit.number alphabet.radix digits)) ∧
      result = .integer (Digit.signed negative (Digit.number alphabet.radix digits)) := by
  have within {digits : List Nat} {stop : L} (run : scope.source.Digits alphabet m digits stop)
      (some_digit : digits ≠ []) :
      (IntegerType.twosComplement width).Includes
        (Digit.signed negative (Digit.number alphabet.radix digits)) := by
    rw [IntegerType.includes_signed]
    by_contra beyond
    obtain ⟨k, excess⟩ := Digit.exists_firstExcess some_digit (Int.not_le.1 beyond)
    obtain ⟨place, -, fails⟩ := signedNumeral_exceeds sign run excess
    exact fails.not_ok rfl hok
  rcases scope.source.run_or_endless alphabet m with ⟨digits, stop, run, ended⟩ | endless
  · by_cases some_digit : digits = []
    · subst some_digit
      cases run
      exact absurd hok ((signedNumeral_absent sign ended _).not_ok rfl)
    · have fits := within run some_digit
      obtain ⟨rfl, rfl⟩ := (signedNumeral_fits sign run some_digit ended fits).of_ok rfl hok
      exact ⟨digits, some_digit, run, ended, fits, rfl⟩
  · -- an endless run either goes beyond the type somewhere or is never read to an end
    obtain ⟨digits, stop, length, run⟩ := endless (fuel + 1)
    have some_digit : digits ≠ [] := List.ne_nil_of_length_eq_add_one length
    have fits := within run some_digit
    rw [IntegerType.includes_signed] at fits
    have unfinished : (signedNumeral name alphabet (.twosComplement width)).attempt scope
        digits.length cursor = .unfinished := signedNumeral_unfinished sign run fits
    have longer := attempt_eq_of_le hok Reply.ok_ne_unfinished (Nat.le_succ fuel)
    rw [length] at unfinished
    exact (Reply.ok_ne_unfinished (longer.symm.trans unfinished)).elim

/-- The first number beyond the type is the first that the digits make it of. -/
theorem firstExcess_iff {digits : List Nat} {base k : Nat} {type : IntegerType} :
    Digit.FirstExcess (type.bound negative) base digits k ↔
      k < digits.length ∧
      ¬type.Includes (Digit.signed negative (Digit.number base (digits.take (k + 1)))) ∧
      ∀ j < k, type.Includes (Digit.signed negative (Digit.number base (digits.take (j + 1)))) := by
  simp only [IntegerType.includes_signed, Int.not_le]
  exact ⟨fun ⟨hk, exceeds, before⟩ => ⟨hk, exceeds, before⟩,
    fun ⟨hk, exceeds, before⟩ => ⟨hk, exceeds, before⟩⟩

end

/-- **Integers with a sign are exact on both sides**, on every source and at every location. An
optional hyphen is read, and then a run of decimal digits.

* Without a digit behind the sign, a digit is expected there.
* If the value of a whole run is within the type, it is what is constructed, and the cursor stops
  behind the last digit.
* If the value of some digits is not within the type, whether or not there are more behind them, the
  numeral is an overflow at the first digit that takes it beyond.
* Whatever is matched is the value of a whole run and within the type, and every failure goes back.
* So the decimal text of each value is read back, with zeros in front of it or none. -/
theorem signedInteger_exact [DecidableEq L] (scope : Scope L) (kind : TerminalKind) (l : L) :
    let rule := Grammar.signedInteger kind
    let i32 := IntegerType.twosComplement .w32
    (∃ negative m, scope.source.Sign l negative m ∧
      (scope.source.NoDigit .decimal m →
        rule.FailsAt scope l (.expected ((digit .decimal i32).identity scope.naming) m)) ∧
      (∀ digits stop, scope.source.Digits .decimal m digits stop → digits ≠ [] →
        let value digits := Digit.signed negative (Digit.number 10 digits)
        (scope.source.NoDigit .decimal stop → i32.Includes (value digits) →
          rule.MatchesAt scope l (.integer (value digits)) stop) ∧
        (¬i32.Includes (value digits) → ∃ k place, k < digits.length ∧
          ¬i32.Includes (value (digits.take (k + 1))) ∧
          (∀ j < k, i32.Includes (value (digits.take (j + 1)))) ∧
          scope.source.Steps k m place ∧ rule.FailsAt scope l (.overflow "i32" place))) ∧
      ∀ {S : Type} [Sink S L Terminal] (fuel : Nat) (cursor : Cursor L S), cursor.location = l →
        (∀ result after, rule.attempt scope fuel cursor = .ok result after →
          ∃ digits, digits ≠ [] ∧ scope.source.Digits .decimal m digits after.location ∧
            scope.source.NoDigit .decimal after.location ∧
            i32.Includes (Digit.signed negative (Digit.number 10 digits)) ∧
            result = .integer (Digit.signed negative (Digit.number 10 digits))) ∧
        ∀ error back, rule.attempt scope fuel cursor = .fail error back → back.location = l) ∧
    ∀ (n : Int) (zeros : Nat) (stop : L), i32.Includes n →
      let text := kind.encode (Digit.signedText zeros n)
      scope.source.Begins l text → scope.source.Steps text.length l stop →
      scope.source.NoDigit .decimal stop → rule.MatchesAt scope l (.integer n) stop := by
  intro rule i32
  constructor
  · obtain ⟨negative, m, sign⟩ := scope.source.exists_sign l
    refine ⟨negative, m, sign, fun ended => signedNumeral_absent sign ended i32, ?_, ?_⟩
    · intro digits stop run some_digit value
      constructor
      · intro ended fits
        exact signedNumeral_fits sign run some_digit ended fits
      · intro beyond
        rw [IntegerType.includes_signed, Int.not_le] at beyond
        obtain ⟨k, excess⟩ := Digit.exists_firstExcess some_digit beyond
        obtain ⟨place, steps, fails⟩ := signedNumeral_exceeds sign run excess
        obtain ⟨hk, exceeds, before⟩ := firstExcess_iff.1 excess
        exact ⟨k, place, hk, exceeds, before, steps, fails⟩
    · intro S _ fuel cursor here
      subst here
      exact ⟨fun result after hok => signedNumeral_matched sign hok,
        fun error back => Scope.attempt_fail_location⟩
  · intro n zeros stop included text begins steps ended
    obtain ⟨m, digits, sign, run, some_digit, value⟩ := begins.signedText steps
    have signed : Digit.signed (n < 0) (Digit.number 10 digits) = n := by
      rw [value, Digit.signed_natAbs]
    rw [← signed] at included ⊢
    exact signedNumeral_fits sign run some_digit ended included

/-- In `-2147483648` the digits are the least value with the hyphen in front of them, and one too
much without it. -/
theorem signedInteger_exact_least :
    let scope : Scope Nat :=
      { source := .ofArray #[45, 50, 49, 52, 55, 52, 56, 51, 54, 52, 56],
        naming := .offsets .byte true, definitions := fun _ => none }
    (Grammar.signedInteger .byte).MatchesAt scope 0 (.integer (-2147483648)) 11 ∧
      (Grammar.signedInteger .byte).FailsAt scope 1 (.overflow "i32" 10) := by
  intro scope
  have spells : scope.source.Spells 1 (Digit.decimals [2, 1, 4, 7, 4, 8, 3, 6, 4, 8]) :=
    Source.spells_ofArray _ (by decide)
  obtain ⟨stop, run⟩ := spells.begins.digits (by decide)
  obtain rfl : stop = 1 + 10 := Source.steps_ofArray run.steps
  have ended : scope.source.NoDigit .decimal 11 := nofun
  constructor
  · obtain ⟨⟨negative, m, sign, -, reads, -⟩, -⟩ := signedInteger_exact scope .byte 0
    cases sign with
    | none other => exact absurd rfl other
    | hyphen here =>
      obtain rfl : 1 = m := congrArg Prod.snd (Option.some.inj here)
      exact (reads _ _ run (by decide)).1 ended ⟨by decide, by decide⟩
  · obtain ⟨⟨negative, m, sign, -, reads, -⟩, -⟩ := signedInteger_exact scope .byte 1
    cases sign with
    | hyphen here =>
      have wrong : (50 : Nat) = 45 := congrArg Prod.fst (Option.some.inj here)
      exact absurd wrong (by decide)
    | none other =>
      obtain ⟨k, place, hk, exceeds, before, steps, fails⟩ :=
        (reads _ _ run (by decide)).2 fun included => absurd included.2 (by decide)
      have excess : Digit.FirstExcess ((IntegerType.twosComplement .w32).bound false) 10 _ k :=
        firstExcess_iff.2 ⟨hk, exceeds, before⟩
      obtain rfl := excess.unique (k := 9) ⟨by decide, by decide, by decide⟩
      obtain rfl : place = 1 + 9 := Source.steps_ofArray steps
      exact fails

end Rule

end Backtrack
