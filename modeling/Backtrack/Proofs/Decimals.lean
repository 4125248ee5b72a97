import Backtrack.Proofs.Encodings
import Backtrack.Proofs.Numerals

/-!
# Decimal texts

The text of a number is its decimal digits without leading zeros, in terminals of every kind
(`Digit.Canonical.encode_number`), and every number has such digits (`Digit.exists_canonical`).
-/

namespace Backtrack

/-! ## Texts in ASCII -/

namespace TerminalKind

variable (kind : TerminalKind)

theorem encode_append (text text' : String) :
    kind.encode (text ++ text') = kind.encode text ++ kind.encode text' := by
  simp [encode]

theorem encode_ascii {text : String} (ascii : ∀ c ∈ text.toList, c.toNat < 128) :
    kind.encode text = text.toList.map Char.toNat := by
  rw [encode]
  generalize text.toList = chars at ascii ⊢
  induction chars with
  | nil => rfl
  | cons c chars ih =>
    rw [List.forall_mem_cons] at ascii
    rw [List.flatMap_cons, kind.encodeChar_ascii ascii.1, ih ascii.2]
    rfl

end TerminalKind

namespace Digit

/-! ## Decimal digits as terminals -/

/-- The terminals of decimal digits. -/
def decimals (digits : List Nat) : List Terminal :=
  digits.map ('0'.toNat + ·)

@[simp] theorem decimals_nil : decimals [] = [] := rfl

@[simp] theorem decimals_cons (d : Nat) (digits : List Nat) :
    decimals (d :: digits) = (48 + d) :: decimals digits := rfl

@[simp] theorem length_decimals (digits : List Nat) : (decimals digits).length = digits.length :=
  List.length_map _

theorem decimal_value?_eq_some {t : Terminal} {d : Nat} :
    decimal.value? t = some d ↔ t = 48 + d ∧ d < 10 := by
  simp (disch := decide) only [value?, Terminal.between_eq]
  grind

theorem natural_value?_eq_some {t : Terminal} {d : Nat} :
    natural.value? t = some d ↔ t = 48 + d ∧ 0 < d ∧ d < 10 := by
  simp (disch := decide) only [value?, Terminal.between_eq]
  grind

theorem natural_value?_of_decimal {t : Terminal} (h : decimal.value? t = none) :
    natural.value? t = none := by
  rw [Option.eq_none_iff_forall_ne_some] at h ⊢
  intro d hd
  obtain ⟨rfl, -, hsmall⟩ := natural_value?_eq_some.1 hd
  exact h d (decimal_value?_eq_some.2 ⟨rfl, hsmall⟩)

variable {digits : List Nat} {ts : List Terminal}

/-- Digits in front are part of the run, and all that follow them are. -/
theorem run_decimals_append (small : ∀ d ∈ digits, d < 10) (ts : List Terminal) :
    decimal.run (decimals digits ++ ts) = digits ++ decimal.run ts := by
  induction digits with
  | nil => rfl
  | cons d digits ih =>
    rw [List.forall_mem_cons] at small
    have hd : decimal.value? (48 + d) = some d := decimal_value?_eq_some.2 ⟨rfl, small.1⟩
    rw [decimals_cons, List.cons_append, run, hd]
    exact congrArg (d :: ·) (ih small.2)

theorem run_eq_nil (h : ∀ t ∈ ts.head?, decimal.value? t = none) : decimal.run ts = [] := by
  cases ts with
  | nil => rfl
  | cons t ts => rw [run, h t rfl]

/-- The run of decimal digits is the longest front that consists of them. -/
theorem exists_run (ts : List Terminal) :
    ∃ rest, ts = decimals (decimal.run ts) ++ rest ∧ (∀ d ∈ decimal.run ts, d < 10) ∧
      ∀ t ∈ rest.head?, decimal.value? t = none := by
  induction ts with
  | nil => exact ⟨[], rfl, by simp [run], by simp⟩
  | cons t ts ih =>
    cases h : decimal.value? t with
    | none => exact ⟨t :: ts, by simp [run, h], by simp [run, h], by simpa using h⟩
    | some d =>
      obtain ⟨rfl, hd⟩ := decimal_value?_eq_some.1 h
      obtain ⟨rest, hts, small, behind⟩ := ih
      have hrun : decimal.run ((48 + d) :: ts) = d :: decimal.run ts := by rw [run, h]
      refine ⟨rest, ?_, ?_, behind⟩
      · rw [hrun, decimals_cons, List.cons_append, ← hts]
      · rw [hrun, List.forall_mem_cons]
        exact ⟨hd, small⟩

/-! ## Digits without leading zeros -/

/-- The decimal digits of a number without leading zeros; zero itself has one digit. -/
inductive Canonical : List Nat → Prop where
  | zero : Canonical [0]
  | natural {d : Nat} {digits : List Nat} (nonzero : 0 < d) (small : ∀ e ∈ d :: digits, e < 10) :
      Canonical (d :: digits)

theorem toDigits_extended {value : Nat} (hvalue : 0 < value) (small : ∀ d ∈ digits, d < 10) :
    Nat.toDigits 10 (extended 10 value digits)
      = Nat.toDigits 10 value ++ digits.map Nat.digitChar := by
  induction digits generalizing value with
  | nil => simp
  | cons d digits ih =>
    rw [List.forall_mem_cons] at small
    have hstep : Nat.toDigits 10 (value * 10 + d) = Nat.toDigits 10 value ++ [Nat.digitChar d] := by
      rw [Nat.mul_comm, ← Nat.toDigits_append_toDigits (by decide) hvalue small.1,
        Nat.toDigits_of_lt_base small.1]
    rw [extended_cons, ih (by omega) small.2, hstep, List.append_assoc]
    rfl

namespace Canonical

theorem small (h : Canonical digits) : ∀ d ∈ digits, d < 10 := by
  cases h with
  | zero => simp
  | natural _ small => exact small

theorem toDigits_number (h : Canonical digits) :
    Nat.toDigits 10 (number 10 digits) = digits.map Nat.digitChar := by
  cases h with
  | zero => rfl
  | natural nonzero small =>
    rw [List.forall_mem_cons] at small
    rw [number_cons, toDigits_extended nonzero small.2, Nat.toDigits_of_lt_base small.1]
    rfl

/-- **The text of a number** is its digits, in terminals of every kind. -/
theorem encode_number (h : Canonical digits) (kind : TerminalKind) :
    kind.encode (toString (number 10 digits)) = decimals digits := by
  have htext : (toString (number 10 digits)).toList = digits.map Nat.digitChar :=
    Nat.toList_repr.trans h.toDigits_number
  have hchar : ∀ d ∈ digits, (Nat.digitChar d).toNat = 48 + d :=
    fun d hd => Nat.toNat_digitChar_of_lt_ten (h.small d hd)
  rw [kind.encode_ascii, htext, List.map_map]
  · exact List.map_congr_left hchar
  · intro c hc
    rw [htext, List.mem_map] at hc
    obtain ⟨d, hd, rfl⟩ := hc
    have hsmall := h.small d hd
    rw [hchar d hd]
    omega

end Canonical

theorem exists_canonical (n : Nat) : ∃ digits, Canonical digits ∧ number 10 digits = n := by
  -- the last digit is put behind those of the tenth part
  induction n using Nat.strongRecOn with
  | ind n ih =>
    by_cases hzero : n = 0
    · exact ⟨[0], .zero, hzero.symm⟩
    by_cases hsmall : n < 10
    · exact ⟨[n], .natural (by omega) (by simpa using hsmall), by simp [number]⟩
    · obtain ⟨digits, canonical, hdigits⟩ := ih (n / 10) (by omega)
      refine ⟨digits ++ [n % 10], ?_, by rw [number_concat, hdigits]; omega⟩
      have small : ∀ e ∈ digits ++ [n % 10], e < 10 := by
        intro e he
        rw [List.mem_append, List.mem_singleton] at he
        rcases he with he | rfl
        · exact canonical.small e he
        · omega
      cases canonical with
      | zero =>
        change 0 = n / 10 at hdigits
        omega
      | natural nonzero => exact .natural nonzero small

end Digit

end Backtrack
