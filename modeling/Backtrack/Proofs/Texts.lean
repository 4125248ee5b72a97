import Backtrack.Proofs.Meaning
import Mathlib.Data.List.Forall2

/-!
# Rules that read texts

A rule of a fixed form reads one of its texts at the front of any terminals, whatever stands behind
it, and is absent where there is none (`Rule.Reads`). Neither needs a look at what follows the text,
so that sequences of such rules are again of a fixed form: their texts are those of the rules, one
after the other (`Spelled`).
-/

namespace Backtrack

/-- The terminals and the values of several texts, one after the other. -/
inductive Spelled :
    List (List Terminal → Value → Prop) → List Terminal → List Value → Prop where
  | nil : Spelled [] [] []
  | cons {Text : List Terminal → Value → Prop} {Texts : List (List Terminal → Value → Prop)}
      {text texts : List Terminal} {value : Value} {values : List Value}
      (first : Text text value) (others : Spelled Texts texts values) :
      Spelled (Text :: Texts) (text ++ texts) (value :: values)

/-- The text of one character, which has no value of its own. -/
def CharacterText (c : Char) (text : List Terminal) (value : Value) : Prop :=
  text = [c.toNat] ∧ value = .unit

/-- A text that denotes a number, with the number as its value. -/
def NumberText (Denotes : List Terminal → Nat → Prop) (text : List Terminal) (value : Value) :
    Prop :=
  ∃ n : Nat, Denotes text n ∧ value = .integer n

namespace Rule

/-- The rule reads such a text at the front of any terminals, and is absent where there is none. -/
structure Reads (naming : Naming) (rule : Rule) (Text : List Terminal → Value → Prop) : Prop where
  matched {text : List Terminal} {value : Value} (h : Text text value) (rest : List Terminal) :
    rule.meaning naming (text ++ rest) = .matched value text.length
  absent {ts : List Terminal} (missing : ∀ text value rest, Text text value → ts ≠ text ++ rest) :
    ∃ name k, rule.meaning naming ts = .absent name k

variable {naming : Naming} {rule : Rule} {Text : List Terminal → Value → Prop}

theorem Reads.congr (h : rule.Reads naming Text) {Text' : List Terminal → Value → Prop}
    (same : ∀ text value, Text text value ↔ Text' text value) : rule.Reads naming Text' where
  matched text rest := h.matched ((same _ _).2 text) rest
  absent missing :=
    h.absent fun text value rest htext => missing text value rest ((same _ _).1 htext)

/-! ## One terminal -/

theorem reads_terminal (accepted : TerminalClass) :
    (terminal accepted).Reads naming fun text value =>
      ∃ t, text = [t] ∧ accepted.accept t = some value where
  matched := by
    intro text value h rest
    obtain ⟨t, rfl, haccept⟩ := h
    rw [meaning, List.singleton_append, Reading.terminal, haccept]
    rfl
  absent := by
    intro ts missing
    rw [meaning]
    cases ts with
    | nil => exact ⟨_, 0, rfl⟩
    | cons t ts =>
      have hreject : accepted.accept t = none := by
        rw [Option.eq_none_iff_forall_ne_some]
        intro value haccept
        exact missing [t] value ts ⟨t, rfl, haccept⟩ rfl
      exact ⟨_, 0, by rw [Reading.terminal, hreject]⟩

theorem reads_mark {mark : Mark} {c : Char} (single : mark.chars = [c]) :
    (Rule.mark mark).Reads naming (CharacterText c) := by
  apply (reads_terminal (.mark mark)).congr
  intro text value
  simp only [TerminalClass.accept, Mark.accepts_eq, single, CharacterText]
  grind

theorem reads_exactly (name : String) (c : Char) :
    (terminal (.exactly name c.toNat)).Reads naming (CharacterText c) := by
  apply (reads_terminal (.exactly name c.toNat)).congr
  intro text value
  simp only [TerminalClass.accept, CharacterText]
  grind

/-! ## Rules in order -/

section

variable {rules : List Rule} {Texts : List (List Terminal → Value → Prop)}
  (h : List.Forall₂ (Reads naming) rules Texts)
include h

theorem meanings_spelled {text : List Terminal} {values : List Value}
    (spelled : Spelled Texts text values) (rest : List Terminal) :
    meanings naming rules (text ++ rest) = .matched values text.length := by
  induction spelled generalizing rules with
  | nil =>
    cases h
    rw [meanings]
    rfl
  | cons first others ih =>
    cases h with
    | cons hrule hrules =>
      rw [List.append_assoc, meanings_of_matched (hrule.matched first _), List.drop_left,
        ih hrules, List.length_append]
      rfl

/-- Where no text of all the rules is, one of them is absent. -/
theorem meanings_missing {ts : List Terminal}
    (missing : ∀ text values rest, Spelled Texts text values → ts ≠ text ++ rest) :
    ∃ name k, meanings naming rules ts = .absent name k := by
  induction h generalizing ts with
  | nil => exact absurd rfl (missing [] [] ts .nil)
  | @cons rule Text rules Texts hrule _ ih =>
    by_cases hfirst : ∃ text value rest, Text text value ∧ ts = text ++ rest
    · obtain ⟨text, value, rest, first, rfl⟩ := hfirst
      have others : ∀ texts values back, Spelled Texts texts values → rest ≠ texts ++ back := by
        intro texts values back spelled hrest
        exact missing _ _ back (.cons first spelled) (by rw [hrest, List.append_assoc])
      obtain ⟨name, k, habsent⟩ := ih others
      refine ⟨name, text.length + k, ?_⟩
      rw [meanings_of_matched (hrule.matched first rest), List.drop_left, habsent]
      rfl
    · simp only [not_exists, not_and] at hfirst
      obtain ⟨name, k, habsent⟩ := hrule.absent hfirst
      exact ⟨name, k, meanings_of_absent habsent⟩

/-- A value that is built of a sequence is read from the texts of its rules. -/
theorem reads_assemble_seq (name constructs : String) (build : List Value → Value) :
    (assemble name constructs [.seq rules] build).Reads naming fun text value =>
      ∃ values, Spelled Texts text values ∧ value = build [.tuple values] := by
  have hmeaning (ts : List Terminal) :
      (assemble name constructs [.seq rules] build).meaning naming ts
        = (meanings naming rules ts).map fun values => build [.tuple values] := by
    rw [meaning_assemble, meanings_singleton, meaning_seq, Meaning.map_map, Meaning.map_map]
    rfl
  constructor
  · rintro text value ⟨values, spelled, rfl⟩ rest
    rw [hmeaning, meanings_spelled h spelled]
    rfl
  · intro ts missing
    have hnone : ∀ text values rest, Spelled Texts text values → ts ≠ text ++ rest :=
      fun text values rest spelled => missing text _ rest ⟨values, spelled, rfl⟩
    obtain ⟨name', k, habsent⟩ := meanings_missing h hnone
    exact ⟨name', k, by rw [hmeaning, habsent]; rfl⟩

end

/-! ## Rules with a separator between them -/

/-- So many times a rule with a separator behind it, and the rule once more. -/
def row (rule separator : Rule) : Nat → List Rule
  | 0 => [rule]
  | n + 1 => rule :: separator :: row rule separator n

section

variable {ι : Type} {separator : Rule} {t : Terminal} {text : ι → List Terminal}

theorem row_eq_cons (rule separator : Rule) (n : Nat) :
    ∃ tail, row rule separator n = rule :: tail := by
  cases n with
  | zero => exact ⟨_, rfl⟩
  | succ n => exact ⟨_, rfl⟩

/-- Texts with the separator behind each are read one after the other, and the other rules read on
behind them. -/
theorem meanings_row {items : List ι} {value : ι → Value}
    (reads : ∀ i ∈ items, ∀ rest,
      rule.meaning naming (text i ++ t :: rest) = .matched (value i) (text i).length)
    (separates : ∀ rest, separator.meaning naming (t :: rest) = .matched .unit 1) (n : Nat)
    (ts : List Terminal) :
    meanings naming (row rule separator (items.length + n))
        ((items.flatMap fun i => text i ++ [t]) ++ ts)
      = ((meanings naming (row rule separator n) ts).map fun values =>
          items.foldr (fun i values => value i :: .unit :: values) values).after
          (items.flatMap fun i => text i ++ [t]).length := by
  induction items with
  | nil =>
    rw [List.flatMap_nil, List.nil_append, List.length_nil, List.length_nil, Nat.zero_add]
    cases meanings naming (row rule separator n) ts <;> simp [Meaning.map, Meaning.after]
  | cons i items ih =>
    rw [List.forall_mem_cons] at reads
    have hlength : (text i).length + (1 + (items.flatMap fun i => text i ++ [t]).length)
        = (text i ++ [t] ++ items.flatMap fun i => text i ++ [t]).length := by
      simp only [List.length_append, List.length_singleton, Nat.add_assoc]
    rw [List.flatMap_cons, ← hlength, List.length_cons, Nat.add_right_comm, row, List.append_assoc,
      List.append_assoc, List.singleton_append, meanings_of_matched (reads.1 _), List.drop_left,
      meanings_of_matched (separates _), List.drop_one, List.tail_cons, ih reads.2]
    simp only [Meaning.map_after, Meaning.map_map, Meaning.after_after]
    rfl

/-- The texts at the front with the separator behind each are split off, up to a number of them. -/
theorem exists_row (text : ι → List Terminal) (ok : ι → Prop) (t : Terminal) (m : Nat)
    (ts : List Terminal) :
    ∃ (items : List ι) (n : Nat) (rest : List Terminal),
      items.length + n = m ∧ (∀ i ∈ items, ok i) ∧
      ts = (items.flatMap fun i => text i ++ [t]) ++ rest ∧
      (n = 0 ∨ ∀ i back, ok i → rest ≠ text i ++ t :: back) := by
  induction m generalizing ts with
  | zero => exact ⟨[], 0, ts, rfl, by simp, rfl, .inl rfl⟩
  | succ m ih =>
    by_cases h : ∃ i back, ok i ∧ ts = text i ++ t :: back
    · obtain ⟨i, back, hi, rfl⟩ := h
      obtain ⟨items, n, rest, hm, hitems, rfl, stuck⟩ := ih back
      refine ⟨i :: items, n, rest, ?_, List.forall_mem_cons.2 ⟨hi, hitems⟩, by simp, stuck⟩
      rw [List.length_cons]
      omega
    · refine ⟨[], m + 1, ts, by simp, by simp, rfl, .inr ?_⟩
      intro i back hi hts
      exact h ⟨i, back, hi, hts⟩

end

end Rule

end Backtrack
