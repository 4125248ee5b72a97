import Backtrack.Grammar.Sample
import Backtrack.Proofs.Decimals
import Backtrack.Proofs.Meaning

/-!
# Bytes with whitespace around them

A byte in decimal digits may have whitespace around it, and its digits may begin with zeros
(`PaddedByte`). Terminals begin with such a byte, or with digits beyond a byte (`PaddedExcess`), or
there is no digit behind the whitespace at their front (`LacksDigit`); the meaning of the rule is
told in each case.
-/

namespace Backtrack

/-- Whether the terminal is a space, a tab, a carriage return or a line feed. -/
def Terminal.isBlank (t : Terminal) : Bool :=
  [' ', '\t', '\r', '\n'].any (·.toNat = t)

/-- The text of a byte: decimal digits of a number within a byte, with whitespace around them. -/
inductive PaddedByte : List Terminal → Nat → Prop where
  | intro {before digits after : List Nat} (blank : ∀ t ∈ before, Terminal.isBlank t = true)
      (nonempty : digits ≠ []) (small : ∀ d ∈ digits, d < 10)
      (blank' : ∀ t ∈ after, Terminal.isBlank t = true) (fits : Digit.number 10 digits ≤ 255) :
      PaddedByte (before ++ Digit.decimals digits ++ after) (Digit.number 10 digits)

/-- The terminals begin with whitespace and with digits of a number beyond a byte; the one behind so
many terminals takes it there. -/
inductive PaddedExcess : List Terminal → Nat → Prop where
  | intro {before digits rest : List Nat} {k : Nat}
      (blank : ∀ t ∈ before, Terminal.isBlank t = true) (small : ∀ d ∈ digits, d < 10)
      (exceeds : Digit.FirstExcess 255 10 digits k) :
      PaddedExcess (before ++ Digit.decimals digits ++ rest) (before.length + k)

/-- No digit stands behind the whitespace at the front. -/
def LacksDigit (piece : List Terminal) : Prop :=
  ∀ t ∈ (piece.dropWhile Terminal.isBlank).head?, Digit.decimal.value? t = none

/-! ## Whitespace -/

namespace Terminal

theorem value?_of_isBlank {t : Terminal} (h : t.isBlank = true) :
    Digit.decimal.value? t = none := by
  simp only [isBlank, List.any_cons, List.any_nil, Bool.or_eq_true, decide_eq_true_eq] at h
  rcases h with rfl | rfl | rfl | rfl | ⟨⟨⟩⟩ <;> decide

theorem isBlank_of_value? {t : Terminal} {d : Nat} (h : Digit.decimal.value? t = some d) :
    t.isBlank = false := by
  cases hb : t.isBlank with
  | false => rfl
  | true =>
    rw [value?_of_isBlank hb] at h
    cases h

end Terminal

/-- Whitespace in front of anything else is all that is taken of it. -/
theorem takeWhile_isBlank {before rest : List Terminal}
    (blank : ∀ t ∈ before, t.isBlank = true) (stops : ∀ t ∈ rest.head?, t.isBlank = false) :
    (before ++ rest).takeWhile Terminal.isBlank = before := by
  rw [List.takeWhile_append_of_pos blank]
  cases rest with
  | nil => simp
  | cons t rest => simp [stops t rfl]

/-- The whitespace at the front is split off. -/
theorem exists_blank_front (ts : List Terminal) :
    ∃ before, ts = before ++ ts.dropWhile Terminal.isBlank ∧ (∀ t ∈ before, t.isBlank = true) ∧
      ∀ t ∈ (ts.dropWhile Terminal.isBlank).head?, t.isBlank = false := by
  refine ⟨ts.takeWhile Terminal.isBlank, List.takeWhile_append_dropWhile.symm,
    List.all_eq_true.1 List.all_takeWhile, ?_⟩
  intro t ht
  have hhead := List.head?_dropWhile_not Terminal.isBlank ts
  rwa [Option.mem_def.1 ht] at hhead

namespace Reading

/-- Any amount of whitespace. -/
def whitespace (naming : Naming) : Reading Value :=
  ((Rule.mark .whitespace).meaning naming).many Container.extend Container.unit.empty

/-- Whitespace is taken up to the first terminal that is none. -/
theorem whitespace_apply (naming : Naming) (ts : List Terminal) :
    whitespace naming ts = .matched .unit (ts.takeWhile Terminal.isBlank).length := by
  have hblank (t : Terminal) : Mark.whitespace.accepts t = t.isBlank :=
    Mark.whitespace.accepts_eq t
  rw [whitespace, Rule.meaning_mark]
  simp only [hblank]
  generalize (Rule.mark .whitespace).identity naming = name
  let blank : Reading Value := terminal name fun t => if t.isBlank then some .unit else none
  change blank.many Container.extend Container.unit.empty ts = _
  induction ts with
  | nil =>
    have hnone : blank [] = .absent name 0 := rfl
    exact many_of_absent hnone
  | cons t ts ih =>
    cases hb : t.isBlank with
    | false =>
      have hnone : blank (t :: ts) = .absent name 0 := by simp [blank, terminal, hb]
      rw [many_of_absent hnone, List.takeWhile_cons, hb]
      rfl
    | true =>
      have hone : blank (t :: ts) = .matched .unit 1 := by simp [blank, terminal, hb]
      rw [many_of_matched hone (by decide) (by simp), List.takeWhile_cons, hb]
      refine (congrArg (Meaning.after 1) ih).trans ?_
      rw [Meaning.after, Nat.add_comm]
      rfl

end Reading

theorem Rule.meaning_spaced (naming : Naming) (rule : Rule) :
    (spaced rule).meaning naming = (do
      let _ ← Reading.whitespace naming
      let value ← rule.meaning naming
      let _ ← Reading.whitespace naming
      return value) := by
  rw [spaced, meaning]
  rfl

/-- A spaced rule is read behind the whitespace at the front, and takes the whitespace behind it. -/
theorem Rule.meaning_spaced_append {naming : Naming} {rule : Rule} {before ts : List Terminal}
    (blank : ∀ t ∈ before, t.isBlank = true) (stops : ∀ t ∈ ts.head?, t.isBlank = false) :
    (spaced rule).meaning naming (before ++ ts)
      = match rule.meaning naming ts with
        | .matched value k => .matched value
            (before.length + (k + ((ts.drop k).takeWhile Terminal.isBlank).length))
        | .absent name k => .absent name (before.length + k)
        | .overflow type k => .overflow type (before.length + k) := by
  rw [meaning_spaced, Reading.bind_apply, Reading.whitespace_apply, takeWhile_isBlank blank stops]
  simp only [List.drop_left, Reading.bind_apply]
  cases rule.meaning naming ts with
  | matched value k =>
    simp only [Reading.whitespace_apply, Reading.pure_apply, Meaning.after, Nat.add_zero]
  | absent name k => rfl
  | overflow type k => rfl

/-! ## Bytes -/

section

variable (naming : Naming) {before after ts piece : List Terminal} {digits : List Nat} {k n : Nat}

theorem decimals_stop (nonempty : digits ≠ []) (small : ∀ d ∈ digits, d < 10) (ts : List Terminal) :
    ∀ t ∈ (Digit.decimals digits ++ ts).head?, t.isBlank = false := by
  cases digits with
  | nil => exact absurd rfl nonempty
  | cons d digits =>
    rintro t ⟨⟩
    exact Terminal.isBlank_of_value? (Digit.decimal_value?_eq_some.2 ⟨rfl, small d (by simp)⟩)

/-- Digits are read to the last of them, and then the whitespace behind them. -/
theorem meaning_digits (blank : ∀ t ∈ before, t.isBlank = true) (nonempty : digits ≠ [])
    (small : ∀ d ∈ digits, d < 10) (fits : Digit.number 10 digits ≤ 255)
    (behind : ∀ t ∈ ts.head?, Digit.decimal.value? t = none) :
    (Rule.spaced Grammar.byte).meaning naming (before ++ (Digit.decimals digits ++ ts))
      = .matched (.integer (Digit.number 10 digits))
          (before.length + (digits.length + (ts.takeWhile Terminal.isBlank).length)) := by
  rw [Rule.meaning_spaced_append blank (decimals_stop nonempty small ts)]
  cases digits with
  | nil => exact absurd rfl nonempty
  | cons d digits =>
    rw [List.forall_mem_cons] at small
    have hdigit : Digit.decimal.value? (48 + d) = some d :=
      Digit.decimal_value?_eq_some.2 ⟨rfl, small.1⟩
    have hrun : Digit.decimal.run (Digit.decimals digits ++ ts) = digits := by
      rw [Digit.run_decimals_append small.2, Digit.run_eq_nil behind, List.append_nil]
    have hfits : (Digit.number Digit.decimal.radix
        (d :: Digit.decimal.run (Digit.decimals digits ++ ts)) : Int)
          ≤ (IntegerType.unsigned .w8).max := by
      rw [hrun]
      show (Digit.number 10 (d :: digits) : Int) ≤ 255
      omega
    have hbyte : Grammar.byte.meaning naming ((48 + d) :: (Digit.decimals digits ++ ts)) = _ :=
      Rule.meaning_numeral_fits hdigit hfits
    rw [hrun] at hbyte
    rw [Digit.decimals_cons, List.cons_append, hbyte]
    simp [Digit.radix]

/-- **A byte** is read with the whitespace around it, up to anything that is neither whitespace nor
a digit. -/
theorem PaddedByte.meaning (h : PaddedByte piece n)
    (stops : ∀ t ∈ ts.head?, t.isBlank = false ∧ Digit.decimal.value? t = none) :
    (Rule.spaced Grammar.byte).meaning naming (piece ++ ts)
      = .matched (.integer n) piece.length := by
  obtain @⟨before, digits, after, blank, nonempty, small, blank', fits⟩ := h
  have behind : ∀ t ∈ (after ++ ts).head?, Digit.decimal.value? t = none := by
    cases after with
    | nil => exact fun t ht => (stops t ht).2
    | cons t after =>
      rintro _ ⟨⟩
      exact Terminal.value?_of_isBlank (blank' t (by simp))
  rw [List.append_assoc, List.append_assoc, meaning_digits naming blank nonempty small fits behind,
    takeWhile_isBlank blank' fun t ht => (stops t ht).1]
  simp

/-- **Digits beyond a byte** are an overflow at the first of them that goes there. -/
theorem PaddedExcess.meaning (h : PaddedExcess piece k) (ts : List Terminal) :
    (Rule.spaced Grammar.byte).meaning naming (piece ++ ts) = .overflow "u8" k := by
  obtain @⟨before, digits, rest, k, blank, small, exceeds⟩ := h
  cases digits with
  | nil => exact absurd exceeds.lt_length (Nat.not_lt_zero k)
  | cons d digits =>
    have nonempty : d :: digits ≠ [] := List.cons_ne_nil d digits
    rw [List.append_assoc, List.append_assoc,
      Rule.meaning_spaced_append blank (decimals_stop nonempty small (rest ++ ts))]
    rw [List.forall_mem_cons] at small
    have hdigit : Digit.decimal.value? (48 + d) = some d :=
      Digit.decimal_value?_eq_some.2 ⟨rfl, small.1⟩
    have hexceeds : Digit.FirstExcess (IntegerType.unsigned .w8).max 10
        (d :: Digit.decimal.run (Digit.decimals digits ++ (rest ++ ts))) k := by
      rw [Digit.run_decimals_append small.2, ← List.cons_append]
      exact exceeds.append _
    have hbyte : Grammar.byte.meaning naming
        ((48 + d) :: (Digit.decimals digits ++ (rest ++ ts))) = _ :=
      Rule.meaning_numeral_exceeds hdigit hexceeds
    rw [Digit.decimals_cons, List.cons_append, hbyte]
    rfl

theorem PaddedExcess.not_paddedByte (h : PaddedExcess piece k) : ¬ ∃ n, PaddedByte piece n := by
  rintro ⟨n, byte⟩
  let naming : Naming := .offsets .byte true
  have stops : ∀ t ∈ ([] : List Terminal).head?,
      t.isBlank = false ∧ Digit.decimal.value? t = none := by simp
  cases (h.meaning naming []).symm.trans (byte.meaning naming stops)

/-- **Without a digit** behind the whitespace, a byte is absent. -/
theorem LacksDigit.meaning (h : LacksDigit piece)
    (stops : ∀ t ∈ ts.head?, t.isBlank = false ∧ Digit.decimal.value? t = none) :
    ∃ name k, (Rule.spaced Grammar.byte).meaning naming (piece ++ ts) = .absent name k := by
  obtain ⟨before, hpiece, blank, hhead⟩ := exists_blank_front piece
  rw [LacksDigit] at h
  generalize piece.dropWhile Terminal.isBlank = rest at hpiece h hhead
  have head : ∀ t ∈ (rest ++ ts).head?, t.isBlank = false ∧ Digit.decimal.value? t = none := by
    cases rest with
    | nil => exact stops
    | cons t rest =>
      rintro _ ⟨⟩
      exact ⟨hhead t rfl, h t rfl⟩
  have hbyte : Grammar.byte.meaning naming (rest ++ ts) = .absent _ 0 :=
    Rule.meaning_numeral_absent fun t ht => (head t ht).2
  rw [hpiece, List.append_assoc, Rule.meaning_spaced_append blank fun t ht => (head t ht).1, hbyte]
  exact ⟨_, _, rfl⟩

/-- Digits of a byte are followed by whitespace alone, or there is something else behind them. -/
theorem paddedByte_front (blank : ∀ t ∈ before, t.isBlank = true) (nonempty : digits ≠ [])
    (small : ∀ d ∈ digits, d < 10) (fits : Digit.number 10 digits ≤ 255)
    (behind : ∀ t ∈ after.head?, Digit.decimal.value? t = none) :
    (∃ n, PaddedByte (before ++ Digit.decimals digits ++ after) n) ∨
      ∃ front t back n, before ++ Digit.decimals digits ++ after = front ++ t :: back ∧
        PaddedByte front n ∧
        ∀ ts, (Rule.spaced Grammar.byte).meaning naming
            (before ++ Digit.decimals digits ++ after ++ ts)
          = .matched (.integer n) front.length := by
  obtain ⟨blanks, hafter, blank', hhead⟩ := exists_blank_front after
  cases hback : after.dropWhile Terminal.isBlank with
  | nil =>
    rw [hback, List.append_nil] at hafter
    rw [hafter]
    exact .inl ⟨_, .intro blank nonempty small blank' fits⟩
  | cons t back =>
    rw [hback] at hafter hhead
    refine .inr ⟨before ++ Digit.decimals digits ++ blanks, t, back, _, ?_,
      .intro blank nonempty small blank' fits, ?_⟩
    · rw [hafter, List.append_assoc _ blanks]
    · intro ts
      have behind' : ∀ t ∈ (after ++ ts).head?, Digit.decimal.value? t = none := by
        have hne : after ≠ [] := hafter ▸ List.append_ne_nil_of_right_ne_nil _ (by simp)
        rwa [List.head?_append_of_ne_nil after hne]
      have htaken : (after ++ ts).takeWhile Terminal.isBlank = blanks := by
        rw [hafter, List.append_assoc]
        exact takeWhile_isBlank blank' hhead
      rw [List.append_assoc, List.append_assoc,
        meaning_digits naming blank nonempty small fits behind', htaken]
      simp

/-- Terminals are a byte, or begin with digits beyond a byte, or lack a digit, or there is something
else behind the byte at their front. -/
theorem paddedByte_cases (piece : List Terminal) :
    (∃ n, PaddedByte piece n) ∨ (∃ k, PaddedExcess piece k) ∨ LacksDigit piece ∨
      ∃ front t back n, piece = front ++ t :: back ∧ PaddedByte front n ∧
        ∀ ts, (Rule.spaced Grammar.byte).meaning naming (piece ++ ts)
          = .matched (.integer n) front.length := by
  obtain ⟨before, hpiece, blank, -⟩ := exists_blank_front piece
  obtain ⟨after, hafter, small, behind⟩ := Digit.exists_run (piece.dropWhile Terminal.isBlank)
  cases hrun : Digit.decimal.run (piece.dropWhile Terminal.isBlank) with
  | nil =>
    rw [hrun] at hafter
    refine .inr (.inr (.inl ?_))
    rw [LacksDigit, hafter]
    exact behind
  | cons d digits =>
    rw [hrun] at hafter small
    rw [hafter, ← List.append_assoc] at hpiece
    have nonempty : d :: digits ≠ [] := List.cons_ne_nil d digits
    rw [hpiece]
    by_cases fits : Digit.number 10 (d :: digits) ≤ 255
    · exact (paddedByte_front naming blank nonempty small fits behind).imp_right
        fun junk => .inr (.inr junk)
    · have large : (255 : Int) < Digit.number 10 (d :: digits) := by omega
      obtain ⟨k, exceeds⟩ := Digit.exists_firstExcess nonempty large
      exact .inr (.inl ⟨_, .intro blank small exceeds⟩)

end

end Backtrack
