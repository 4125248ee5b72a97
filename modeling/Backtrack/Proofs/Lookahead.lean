import Backtrack.Proofs.Numerals

/-!
# Rules that look only so far ahead

A source need not come to an end. What a rule without references does is still told by its meaning,
if the rule looks at a bounded number of terminals: then it does not matter which of the terminals
ahead the meaning is told of, as long as they are all that are left or as many as the rule looks at
(`Source.Shows`, `Parser.Looks`).

A numeral without leading zeros is of this sort, since it grows with every digit until it is too
large for its type (`Parser.Looks.numeral`).
-/

namespace Backtrack

variable {L S α β : Type}

/-! ## Terminals ahead -/

namespace Source

/-- From the location on, the source has these terminals first. -/
inductive Begins (source : Source L) : L → List Terminal → Prop where
  | nil (l : L) : Begins source l []
  | cons {l next : L} {t : Terminal} {ts : List Terminal}
      (here : source.terminalAt l = some (t, next)) (rest : Begins source next ts) :
      Begins source l (t :: ts)

/-- From the location on, the source has these terminals first, and they are all that are left or
at least `n`. -/
def Shows (source : Source L) (n : Nat) (l : L) (ts : List Terminal) : Prop :=
  source.Spells l ts ∨ source.Begins l ts ∧ n ≤ ts.length

variable {source : Source L} {l m : L} {ts us : List Terminal} {n k : Nat}

theorem Spells.begins (h : source.Spells l ts) : source.Begins l ts := by
  induction h with
  | nil => exact .nil _
  | cons here _ ih => exact .cons here ih

theorem Begins.of_append (h : source.Begins l (ts ++ us)) : source.Begins l ts := by
  induction ts generalizing l with
  | nil => exact .nil l
  | cons t ts ih =>
    cases h with
    | cons here rest => exact .cons here (ih rest)

theorem Begins.exists_steps (h : source.Begins l ts) : ∃ m, source.Steps ts.length l m := by
  induction h with
  | nil l => exact ⟨l, .zero l⟩
  | cons here _ ih =>
    obtain ⟨m, hm⟩ := ih
    exact ⟨m, .succ here hm⟩

theorem Begins.after (h : source.Begins l ts) (hn : source.Steps n l m) (hle : n ≤ ts.length) :
    source.Begins m (ts.drop n) := by
  induction hn generalizing ts with
  | zero => exact h
  | succ here _ ih =>
    cases h with
    | nil => simp at hle
    | cons here' rest' =>
      rw [here] at here'
      cases here'
      exact ih rest' (by simpa using hle)

/-- Terminals that a source ends behind are all that are left. -/
theorem Begins.spells (h : source.Begins l ts) (hm : source.Steps ts.length l m)
    (ended : source.terminalAt m = none) : source.Spells l ts := by
  induction h with
  | nil =>
    cases hm
    exact .nil ended
  | cons here _ ih =>
    rcases hm with - | ⟨here', rest'⟩
    rw [here] at here'
    cases here'
    exact .cons here (ih rest')

theorem Shows.begins (h : source.Shows n l ts) : source.Begins l ts := by
  rcases h with h | ⟨h, -⟩
  · exact h.begins
  · exact h

theorem Shows.mono (h : source.Shows n l ts) (hle : k ≤ n) : source.Shows k l ts :=
  h.imp_right fun ⟨h, hn⟩ => ⟨h, Nat.le_trans hle hn⟩

theorem Shows.cons {t : Terminal} (here : source.terminalAt l = some (t, m))
    (h : source.Shows n m ts) : source.Shows (n + 1) l (t :: ts) := by
  rcases h with h | ⟨h, hn⟩
  · exact .inl (.cons here h)
  · exact .inr ⟨.cons here h, Nat.succ_le_succ hn⟩

/-- One can look as far ahead as one likes. -/
theorem exists_shows (source : Source L) (n : Nat) (l : L) : ∃ ts, source.Shows n l ts := by
  induction n generalizing l with
  | zero => exact ⟨[], .inr ⟨.nil l, Nat.le_refl 0⟩⟩
  | succ n ih =>
    cases here : source.terminalAt l with
    | none => exact ⟨[], .inl (.nil here)⟩
    | some read =>
      obtain ⟨t, next⟩ := read
      obtain ⟨ts, hts⟩ := ih next
      exact ⟨t :: ts, hts.cons here⟩

theorem Begins.exists_shows (h : source.Begins l ts) (n : Nat) :
    ∃ us, source.Shows n l (ts ++ us) := by
  induction h with
  | nil l => exact source.exists_shows n l
  | cons here _ ih =>
    obtain ⟨us, hus⟩ := ih
    exact ⟨us, (hus.cons here).mono (Nat.le_succ n)⟩

theorem Shows.after (h : source.Shows (n + k) l ts) (hn : source.Steps n l m) :
    source.Shows k m (ts.drop n) := by
  rcases h with h | ⟨h, hle⟩
  · exact .inl (h.after hn).2
  · refine .inr ⟨h.after hn (by omega), ?_⟩
    rw [List.length_drop]
    omega

theorem Shows.found_eq (h : source.Shows (n + 1) l ts) : source.found l = ts.head? := by
  rcases h with h | ⟨h, hle⟩
  · exact h.found_eq
  · cases h with
    | nil => simp at hle
    | cons here => exact found_eq_some here

end Source

/-! ## Parsers that look only so far -/

namespace Reading

open Scope.numeral (appendDigit)

/-- If `j` more digits make a number too large for the type, and one of them is read without an
overflow, then one less makes the extended number too large. -/
theorem appendDigit_large {type : IntegerType} {alphabet : Digit} {j value : Nat}
    {t : Terminal} {digit value' : Int} (large : type.max < (value * alphabet.radix ^ j : Nat))
    (hread : alphabet.read? type t = some digit)
    (hcombine : appendDigit type alphabet value digit = some value') :
    ∃ i, j = i + 1 ∧ ∃ extended : Nat, value' = extended ∧
      type.max < (extended * alphabet.radix ^ i : Nat) := by
  rw [alphabet.read?_eq, Option.map_eq_some_iff] at hread
  obtain ⟨d, -, rfl⟩ := hread
  rw [appendDigit_eq, Option.ite_none_right_eq_some, Option.some.injEq] at hcombine
  obtain ⟨fits, rfl⟩ := hcombine
  cases j with
  | zero =>
    have hle : value ≤ value * alphabet.radix := Nat.le_mul_of_pos_right _ alphabet.radix_pos
    rw [Nat.pow_zero, Nat.mul_one] at large
    omega
  | succ i =>
    refine ⟨i, rfl, _, rfl, ?_⟩
    have hle : value * alphabet.radix ^ (i + 1)
        ≤ (value * alphabet.radix + d) * alphabet.radix ^ i := by
      rw [Nat.pow_succ', ← Nat.mul_assoc]
      exact Nat.mul_le_mul_right _ (Nat.le_add_right _ d)
    omega

end Reading

/-- The parser does what the reading tells of the terminals ahead, if these are at least `n` or all
that are left, and it consumes at most `n`. -/
structure Parser.Looks (source : Source L) (n : Nat) (p : Parser L S α) (r : Reading α) : Prop where
  describes : ∀ cursor ts, source.Shows n cursor.location ts →
    source.Describes cursor.location (r ts) (p cursor)
  consumes : ∀ ts value k, r ts = .matched value k → k ≤ n

namespace Parser.Looks

variable {source : Source L} {scope : Scope L} {n m : Nat} {p : Parser L S α} {r : Reading α}

theorem mono (h : p.Looks source n r) (hle : n ≤ m) : p.Looks source m r where
  describes cursor ts hs := h.describes cursor ts (hs.mono hle)
  consumes ts value k hr := Nat.le_trans (h.consumes ts value k hr) hle

theorem pure (value : α) :
    (Pure.pure value : Parser L S α).Looks source 0 (Pure.pure value) where
  describes cursor _ _ := ⟨cursor, rfl, .zero _⟩
  consumes := by
    intro ts value k hr
    cases hr
    exact Nat.le_refl 0

theorem bind {f : α → Parser L S β} {g : α → Reading β} (h : p.Looks source n r)
    (hf : ∀ ts value k, r ts = .matched value k → (f value).Looks source m (g value)) :
    (p >>= f).Looks source (n + m) (r >>= g) where
  describes := by
    intro cursor ts hs
    refine (h.describes cursor ts (hs.mono (Nat.le_add_right n m))).bind ?_
    intro value k after hr hk
    -- what the first parser does not consume is left for the second to look at
    have hle := h.consumes ts value k hr
    have hrest : source.Shows (k + m) cursor.location ts := hs.mono (by omega)
    exact (hf ts value k hr).describes after _ (hrest.after hk)
  consumes := by
    intro ts value k hbind
    rw [Reading.bind_apply] at hbind
    cases hr : r ts with
    | matched first i =>
      simp only [hr] at hbind
      obtain ⟨j, hj, rfl⟩ := Meaning.after_eq_matched.1 hbind
      exact Nat.add_le_add (h.consumes ts first i hr) ((hf ts first i hr).consumes _ value j hj)
    | absent | overflow => simp [hr] at hbind

/-! ## Leaves and attempts -/

theorem acceptTerminal [Sink S L Terminal] (rule : Rule) (accept : Terminal → Option α) :
    (scope.acceptTerminal rule accept : Parser L S α).Looks scope.source 1
      (.terminal (rule.identity scope.naming) accept) where
  describes _ _ hs := .acceptTerminal rule accept hs.found_eq
  consumes := by
    intro ts value k hr
    cases ts with
    | nil => cases hr
    | cons t ts =>
      rw [Reading.terminal] at hr
      cases h : accept t with
      | none => simp [h] at hr
      | some found =>
        simp only [h, Meaning.matched.injEq] at hr
        exact Nat.le_of_eq hr.2.symm

variable [DecidableEq L]

theorem attempt (h : p.Looks source n r) (rule : Rule) :
    (scope.attempt rule p).Looks source n r where
  describes cursor ts hs := (h.describes cursor ts hs).attempt rule
  consumes := h.consumes

theorem attemptOptional (h : p.Looks source n r) (rule : Rule) :
    (scope.attemptOptional rule p).Looks source n r.optional where
  describes cursor ts hs := (h.describes cursor ts hs).attemptOptional rule
  consumes := by
    intro ts value k hoptional
    unfold Reading.optional at hoptional
    cases hr : r ts with
    | matched found j =>
      simp only [hr, Meaning.matched.injEq] at hoptional
      exact hoptional.2 ▸ h.consumes ts found j hr
    | absent =>
      simp only [hr, Meaning.matched.injEq] at hoptional
      omega
    | overflow => simp [hr] at hoptional

/-! ## Numerals -/

section

open Scope.numeral (appendDigit)

variable [Sink S L Terminal] {type : IntegerType}

/-- A numeral that grows beyond the type with `j` digits more is not read further than these and the
terminal behind them. -/
theorem digitsAfter (alphabet : Digit) {j fuel value : Nat} (hfuel : j < fuel)
    (large : type.max < (value * alphabet.radix ^ j : Nat)) :
    (scope.digitsAfter alphabet type (appendDigit type alphabet) fuel value :
      Parser L S Int).Looks scope.source (j + 1)
        (.digitsAfter (alphabet.read? type) type (appendDigit type alphabet) value) := by
  constructor
  · intro cursor ts hs
    induction fuel generalizing j value cursor ts with
    | zero => omega
    | succ fuel ih =>
      refine .digitsAfter alphabet type _ hs.found_eq ?_
      rintro t us digit value' after rfl hread hcombine hn
      obtain ⟨i, rfl, extended, rfl, hlarge⟩ := Reading.appendDigit_large large hread hcombine
      have hrest : scope.source.Shows (1 + (i + 1)) cursor.location (t :: us) :=
        hs.mono (by omega)
      exact ih (by omega) hlarge after us (hrest.after hn)
  · intro ts result k hr
    induction ts generalizing j value k with
    | nil =>
      cases hr
      exact Nat.zero_le _
    | cons t ts ih =>
      rw [Reading.digitsAfter] at hr
      cases hread : alphabet.read? type t with
      | none =>
        simp only [hread, Meaning.matched.injEq] at hr
        omega
      | some digit =>
        cases hcombine : appendDigit type alphabet value digit with
        | none => simp [hread, hcombine] at hr
        | some value' =>
          simp only [hread, hcombine] at hr
          obtain ⟨i, rfl, extended, rfl, hlarge⟩ := Reading.appendDigit_large large hread hcombine
          obtain ⟨k', hk', rfl⟩ := Meaning.after_eq_matched.1 hr
          have hle := ih (by omega) hlarge k' hk'
          omega

/-- A numeral whose first digit is not zero is looked at up to the digits that no number of the type
has. -/
theorem numeral {first : Digit} (next : Digit) {j fuel : Nat} (hfuel : j < fuel)
    (nonzero : ∀ t, first.value? t ≠ some 0) (large : type.max < (next.radix ^ j : Nat)) :
    (scope.numeral fuel first next type : Parser L S Int).Looks scope.source (1 + (j + 1))
      (.numeral scope.naming first next type) := by
  apply (attempt (acceptTerminal (.digit first type) (first.read? type)) _).bind
  intro ts value k hr
  cases ts with
  | nil => cases hr
  | cons t ts =>
    rw [Reading.terminal, first.read?_eq] at hr
    cases hd : first.value? t with
    | none => simp [hd] at hr
    | some d =>
      simp only [hd, Option.map_some, Meaning.matched.injEq] at hr
      obtain ⟨rfl, -⟩ := hr
      refine digitsAfter next hfuel ?_
      have hpos : 0 < d := Nat.pos_of_ne_zero fun hzero => nonzero t (hzero ▸ hd)
      have hle : next.radix ^ j ≤ d * next.radix ^ j := Nat.le_mul_of_pos_left _ hpos
      omega

end

/-! ## Rules -/

variable {run : Rule → Parser L S Value}

theorem sequence {rules : List Rule}
    (hrun : ∀ rule ∈ rules, (run rule).Looks scope.source n (rule.meaning scope.naming)) :
    (scope.sequence run rules).Looks scope.source (rules.length * n)
      (Rule.meanings scope.naming rules) := by
  induction rules with
  | nil => exact (pure []).mono (Nat.zero_le _)
  | cons rule rules ih =>
    rw [List.length_cons, Nat.succ_mul, Nat.add_comm]
    refine ((hrun rule (by simp)).attempt rule).bind fun _ value _ _ => ?_
    exact (ih fun rule hr => hrun rule (by simp [hr])).bind fun _ values _ _ => .pure _

theorem firstPresent [Sink S L Terminal] (self : Rule) {rules : List Rule} (some_rule : rules ≠ [])
    (hrun : ∀ rule ∈ rules, (run rule).Looks scope.source n (rule.meaning scope.naming)) :
    (scope.firstPresent run self rules).Looks scope.source (rules.length * n)
      (Rule.firstMeaning scope.naming (self.identity scope.naming) rules) := by
  induction rules with
  | nil => exact absurd rfl some_rule
  | cons rule rules ih =>
    have hrule := hrun rule (by simp)
    rw [List.length_cons, Nat.succ_mul, Nat.add_comm]
    cases rules with
    | nil => exact (hrule.attempt rule).mono (Nat.le_add_right _ _)
    | cons next rules =>
      refine (hrule.attemptOptional rule).bind fun _ value _ _ => ?_
      cases value with
      | none => exact ih (List.cons_ne_nil _ _) fun rule hr => hrun rule (List.mem_cons_of_mem _ hr)
      | some value => exact (pure value).mono (Nat.zero_le _)

end Parser.Looks

namespace Rule

variable [DecidableEq L] [Sink S L Terminal] {scope : Scope L} {fuel n : Nat}

/-- With so much fuel, the rule looks at no more than `n` terminals. -/
def Looks (S : Type) [Sink S L Terminal] (scope : Scope L) (fuel n : Nat) (rule : Rule) : Prop :=
  (rule.parse scope fuel : Parser L S Value).Looks scope.source n (rule.meaning scope.naming)

namespace Looks

variable {m : Nat}

theorem attempt {rule : Rule} (h : rule.Looks S scope fuel n) :
    (rule.attempt scope fuel : Parser L S Value).Looks scope.source n
      (rule.meaning scope.naming) :=
  Parser.Looks.attempt h rule

theorem terminal (accepted : TerminalClass) (hle : 1 ≤ m) :
    (Rule.terminal accepted).Looks S scope (fuel + 1) m := by
  unfold Looks
  rw [meaning]
  exact (Parser.Looks.acceptTerminal (.terminal accepted) accepted.accept).mono hle

theorem numeral {first : Digit} (next : Digit) {type : IntegerType} {j : Nat} (hfuel : j < fuel)
    (nonzero : ∀ t, first.value? t ≠ some 0) (large : type.max < (next.radix ^ j : Nat)) :
    (Rule.numeral first next type).Looks S scope (fuel + 1) (1 + (j + 1)) := by
  unfold Looks
  rw [meaning]
  exact (Parser.Looks.numeral next hfuel nonzero large).bind fun _ value _ _ => .pure _

variable {rules : List Rule} (h : ∀ rule ∈ rules, rule.Looks S scope fuel n)
  (hle : rules.length * n ≤ m)
include h hle

theorem choice (name : String) (some_rule : rules ≠ []) :
    (Rule.choice name rules).Looks S scope (fuel + 1) m := by
  unfold Looks
  rw [meaning]
  exact (Parser.Looks.firstPresent (.choice name rules) some_rule h).mono hle

theorem seq : (Rule.seq rules).Looks S scope (fuel + 1) m := by
  unfold Looks
  rw [meaning]
  exact ((Parser.Looks.sequence h).mono hle).bind fun _ values _ _ => .pure _

theorem assemble (name constructs : String) (build : List Value → Value) :
    (Rule.assemble name constructs rules build).Looks S scope (fuel + 1) m := by
  unfold Looks
  rw [meaning]
  exact ((Parser.Looks.sequence h).mono hle).bind fun _ values _ _ => .pure _

end Looks

end Rule

end Backtrack
