import Backtrack.Proofs.PaddedBytes
import Backtrack.Proofs.Verdicts

/-!
# Lists of bytes are exact

An input is cut at its commas into pieces. It is a list of bytes exactly where each of them is the
text of a byte, with whitespace around its digits. Otherwise the first piece that is none decides:
if it begins with digits beyond a byte, the input is rejected for an overflow, and in every other
case because something else was expected (`ByteList.bytes_exact`).

The meaning of the grammar is followed from piece to piece. A comma is not consumed without a byte
behind it, so where a piece lacks a digit the list stops at the comma before it.
-/

namespace Backtrack

namespace ByteList

variable {L : Type}

/-! ## Pieces -/

/-- Pieces with a comma in front of each. -/
def trailing (pieces : List (List Terminal)) : List Terminal :=
  pieces.flatMap (','.toNat :: ·)

/-- Pieces with commas between them. -/
def joined : List (List Terminal) → List Terminal
  | [] => []
  | piece :: pieces => piece ++ trailing pieces

/-- Pieces with a comma behind each. -/
def leading (pieces : List (List Terminal)) : List Terminal :=
  pieces.flatMap (· ++ [','.toNat])

/-- The first of the pieces that is not the text of a byte, behind good ones. -/
structure FirstBad (pieces good : List (List Terminal)) (bad : List Terminal) : Prop where
  split : ∃ rest, pieces = good ++ bad :: rest
  good : ∀ piece ∈ good, ∃ n, PaddedByte piece n
  bad : ¬ ∃ n, PaddedByte bad n

@[simp] theorem trailing_nil : trailing [] = [] := rfl

theorem trailing_cons (piece : List Terminal) (pieces : List (List Terminal)) :
    trailing (piece :: pieces) = 44 :: (piece ++ trailing pieces) := rfl

theorem trailing_append (pieces pieces' : List (List Terminal)) :
    trailing (pieces ++ pieces') = trailing pieces ++ trailing pieces' :=
  List.flatMap_append

/-- Where a piece ends, there is neither whitespace nor a digit. -/
theorem trailing_stops (pieces : List (List Terminal)) :
    ∀ t ∈ (trailing pieces).head?, t.isBlank = false ∧ Digit.decimal.value? t = none := by
  cases pieces with
  | nil => simp
  | cons piece pieces =>
    rintro _ ⟨⟩
    decide

/-- Pieces in front of others are told apart from them by the comma behind the last. -/
theorem joined_append {good : List (List Terminal)} (some_good : good ≠ [])
    (rest : List (List Terminal)) : joined (good ++ rest) = joined good ++ trailing rest := by
  cases good with
  | nil => exact absurd rfl some_good
  | cons piece good => simp [joined, trailing_append]

theorem leading_eq {good : List (List Terminal)} (some_good : good ≠ []) :
    leading good = joined good ++ [44] := by
  induction good with
  | nil => exact absurd rfl some_good
  | cons piece good ih =>
    cases good with
    | nil => simp [leading, joined]
    | cons next good =>
      rw [leading, List.flatMap_cons, ← leading, ih (List.cons_ne_nil _ _), joined, joined,
        trailing_cons]
      simp

/-- An input is its pieces, with commas between them. -/
theorem joined_splitOn (ts : List Terminal) : joined (ts.splitOn ','.toNat) = ts := by
  induction ts with
  | nil => simp [joined]
  | cons t ts ih =>
    obtain ⟨piece, pieces, hsplit⟩ := List.exists_cons_of_ne_nil (List.splitOn_ne_nil ','.toNat ts)
    rw [hsplit, joined] at ih
    rw [List.splitOn_cons_eq_if_modifyHead, hsplit]
    by_cases ht : t = ','.toNat
    · rw [if_pos (by simpa using ht), joined, List.nil_append, trailing_cons, ih, ht]
      rfl
    · rw [if_neg (by simpa using ht), List.modifyHead_cons, joined, List.cons_append, ih]

theorem not_mem_of_mem_splitOn {ts piece : List Terminal} (h : piece ∈ ts.splitOn ','.toNat) :
    ','.toNat ∉ piece := by
  induction ts generalizing piece with
  | nil => simp_all
  | cons t ts ih =>
    obtain ⟨first, pieces, hsplit⟩ := List.exists_cons_of_ne_nil (List.splitOn_ne_nil ','.toNat ts)
    rw [List.splitOn_cons_eq_if_modifyHead] at h
    by_cases ht : t = ','.toNat
    · rw [if_pos (by simpa using ht), List.mem_cons] at h
      rcases h with rfl | h
      · exact List.not_mem_nil
      · exact ih h
    · rw [if_neg (by simpa using ht), hsplit, List.modifyHead_cons, List.mem_cons] at h
      rw [hsplit] at ih
      rcases h with rfl | h
      · rw [List.mem_cons, not_or]
        exact ⟨Ne.symm ht, ih (by simp)⟩
      · exact ih (List.mem_cons_of_mem _ h)

/-- Either all pieces are bytes, or there is a first that is none. -/
theorem exists_firstBad (pieces : List (List Terminal)) :
    (∃ numbers, List.Forall₂ PaddedByte pieces numbers) ∨ ∃ good bad, FirstBad pieces good bad := by
  induction pieces with
  | nil => exact .inl ⟨[], .nil⟩
  | cons piece pieces ih =>
    by_cases h : ∃ n, PaddedByte piece n
    · rcases ih with ⟨numbers, all⟩ | ⟨good, bad, ⟨rest, hsplit⟩, hgood, hbad⟩
      · obtain ⟨n, hn⟩ := h
        exact .inl ⟨n :: numbers, .cons hn all⟩
      · refine .inr ⟨piece :: good, bad, ⟨rest, by rw [hsplit]; rfl⟩, ?_, hbad⟩
        exact List.forall_mem_cons.2 ⟨h, hgood⟩
    · exact .inr ⟨[], piece, ⟨pieces, rfl⟩, by simp, h⟩

/-! ## The meaning of the grammar -/

section

variable (naming : Naming) {piece : List Terminal} {n : Nat}

/-- A comma and the byte behind it. -/
def next : Reading Value := do
  let _ ← (Rule.mark .comma).meaning naming
  (Rule.spaced Grammar.byte).meaning naming

theorem meaning_bytes (ts : List Terminal) :
    Grammar.bytes.meaning naming ts
      = match (Rule.spaced Grammar.byte).meaning naming ts with
        | .matched first k =>
          ((next naming).many Container.extend (.list #[first]) (ts.drop k)).after k
        | .absent name k => .absent name k
        | .overflow type k => .overflow type k := by
  rw [Grammar.bytes, Rule.meaning]
  refine (Reading.bind_apply _ _ ts).trans ?_
  cases (Rule.spaced Grammar.byte).meaning naming ts <;> rfl

theorem next_cons (ts : List Terminal) :
    next naming (44 :: ts) = ((Rule.spaced Grammar.byte).meaning naming ts).after 1 := by
  have hcomma : (Rule.mark .comma).meaning naming (44 :: ts) = .matched .unit 1 := by
    rw [Rule.meaning_mark]
    rfl
  rw [next, Reading.bind_apply, hcomma]
  rfl

theorem next_absent (ts : List Terminal) (missing : ∀ t ∈ ts.head?, t ≠ ','.toNat) :
    ∃ name, next naming ts = .absent name 0 := by
  have hcomma : (Rule.mark .comma).meaning naming ts
      = .absent ((Rule.mark .comma).identity naming) 0 := by
    rw [Rule.meaning_mark]
    cases ts with
    | nil => rfl
    | cons t ts =>
      have hreject : Mark.comma.accepts t = false := by
        simpa [Mark.accepts_eq, Mark.chars] using (missing t rfl).symm
      simp [Reading.terminal, hreject]
  exact ⟨_, by rw [next, Reading.bind_apply, hcomma]⟩

/-- Bytes with a comma in front of each are taken one after the other. -/
theorem many_trailing {good : List (List Terminal)} {numbers : List Nat}
    (h : List.Forall₂ PaddedByte good numbers) (rest : List (List Terminal))
    (items : Array Value) :
    (next naming).many Container.extend (.list items) (trailing (good ++ rest))
      = ((next naming).many Container.extend
          (.list (items ++ (numbers.map fun n => Value.integer n).toArray)) (trailing rest)).after
          (trailing good).length := by
  induction h generalizing items with
  | nil => simp [Meaning.after_zero]
  | @cons piece n good numbers byte _ ih =>
    have hnext : next naming (44 :: (piece ++ trailing (good ++ rest)))
        = .matched (.integer n) (piece.length + 1) := by
      rw [next_cons, byte.meaning naming (trailing_stops _), Meaning.after, Nat.add_comm]
    have hle : piece.length + 1 ≤ (44 :: (piece ++ trailing (good ++ rest))).length := by
      rw [List.length_cons, List.length_append]
      omega
    have hitems : items.push (.integer n) ++ (numbers.map fun n => Value.integer n).toArray
        = items ++ ((n :: numbers).map fun n => Value.integer n).toArray := by simp
    have hlength : piece.length + 1 + (trailing good).length
        = (trailing (piece :: good)).length := by
      rw [trailing_cons, List.length_cons, List.length_append]
      omega
    rw [List.cons_append, trailing_cons, Reading.many_of_matched hnext (by omega) hle,
      List.drop_succ_cons, List.drop_left, Container.extend, ih, Meaning.after_after, hitems,
      hlength]

theorem exists_numbers {good : List (List Terminal)} (h : ∀ piece ∈ good, ∃ n, PaddedByte piece n) :
    ∃ numbers, List.Forall₂ PaddedByte good numbers := by
  induction good with
  | nil => exact ⟨[], .nil⟩
  | cons piece good ih =>
    rw [List.forall_mem_cons] at h
    obtain ⟨n, byte⟩ := h.1
    obtain ⟨numbers, bytes⟩ := ih h.2
    exact ⟨n :: numbers, .cons byte bytes⟩

/-- Behind bytes at the front, the list is what the repetition makes of the other pieces. -/
theorem meaning_good {good : List (List Terminal)} {numbers : List Nat} (some_good : good ≠ [])
    (h : List.Forall₂ PaddedByte good numbers) (rest : List (List Terminal)) :
    Grammar.bytes.meaning naming (joined (good ++ rest))
      = ((next naming).many Container.extend
          (.list (numbers.map fun n => Value.integer n).toArray) (trailing rest)).after
          (joined good).length := by
  cases h with
  | nil => exact absurd rfl some_good
  | @cons piece n good numbers byte bytes =>
    have hfirst : (Rule.spaced Grammar.byte).meaning naming (joined (piece :: good ++ rest))
        = .matched (.integer n) piece.length := byte.meaning naming (trailing_stops _)
    have hdrop : (joined (piece :: good ++ rest)).drop piece.length = trailing (good ++ rest) :=
      List.drop_left
    rw [meaning_bytes, hfirst]
    simp only [hdrop]
    rw [many_trailing naming bytes, Meaning.after_after, ← List.length_append]
    simp [joined]

/-- A list of bytes is read to its end. -/
theorem meaning_of_all {pieces : List (List Terminal)} {numbers : List Nat}
    (some_pieces : pieces ≠ []) (h : List.Forall₂ PaddedByte pieces numbers) :
    Grammar.bytes.meaning naming (joined pieces)
      = .matched (.list (numbers.map fun n => Value.integer n).toArray) (joined pieces).length := by
  have hmeaning := meaning_good naming some_pieces h []
  obtain ⟨name, habsent⟩ := next_absent naming (trailing []) (by simp)
  rw [List.append_nil, Reading.many_of_absent habsent] at hmeaning
  exact hmeaning

/-- Digits beyond a byte are an overflow behind any bytes. -/
theorem meaning_of_excess {good : List (List Terminal)} {bad : List Terminal} {k : Nat}
    (hgood : ∀ piece ∈ good, ∃ n, PaddedByte piece n) (excess : PaddedExcess bad k)
    (rest : List (List Terminal)) :
    Grammar.bytes.meaning naming (joined (good ++ bad :: rest))
      = .overflow "u8" ((leading good).length + k) := by
  by_cases some_good : good = []
  · subst some_good
    have hbyte := excess.meaning naming (trailing rest)
    rw [List.nil_append, joined, meaning_bytes, hbyte]
    simp [leading]
  · obtain ⟨numbers, bytes⟩ := exists_numbers hgood
    have hnext : next naming (trailing (bad :: rest)) = .overflow "u8" (1 + k) := by
      rw [trailing_cons, next_cons, excess.meaning naming]
      rfl
    rw [meaning_good naming some_good bytes, Reading.many_of_overflow hnext, Meaning.after,
      leading_eq some_good, List.length_append, Nat.add_assoc]
    rfl

/-- Where a digit is lacking behind bytes, the list stops at the comma in between. -/
theorem meaning_of_lacking {good : List (List Terminal)} {bad : List Terminal}
    (some_good : good ≠ []) (hgood : ∀ piece ∈ good, ∃ n, PaddedByte piece n)
    (lacks : LacksDigit bad) (rest : List (List Terminal)) :
    ∃ value, Grammar.bytes.meaning naming (joined (good ++ bad :: rest))
      = .matched value (joined good).length := by
  obtain ⟨numbers, bytes⟩ := exists_numbers hgood
  obtain ⟨name, k, habsent⟩ := lacks.meaning naming (trailing_stops rest)
  have hnext : next naming (trailing (bad :: rest)) = .absent name (1 + k) := by
    rw [trailing_cons, next_cons, habsent]
    rfl
  rw [meaning_good naming some_good bytes, Reading.many_of_absent hnext]
  exact ⟨_, rfl⟩

/-- Where something other than a comma follows a byte, the list stops in front of it. -/
theorem meaning_of_junk {good : List (List Terminal)} {front back : List Terminal} {t : Terminal}
    (hgood : ∀ piece ∈ good, ∃ n, PaddedByte piece n) (other : t ≠ ','.toNat)
    (hfront : ∀ ts, (Rule.spaced Grammar.byte).meaning naming (front ++ t :: back ++ ts)
      = .matched (.integer n) front.length) (rest : List (List Terminal)) :
    ∃ value m, Grammar.bytes.meaning naming (joined (good ++ (front ++ t :: back) :: rest))
        = .matched value m ∧
      m < (joined (good ++ (front ++ t :: back) :: rest)).length := by
  have stops (gathered : Value) :
      (next naming).many Container.extend gathered (t :: (back ++ trailing rest))
        = .matched gathered 0 := by
    obtain ⟨name, habsent⟩ :=
      next_absent naming (t :: (back ++ trailing rest)) (by simpa using other)
    exact Reading.many_of_absent habsent
  have hdrop : (front ++ t :: back ++ trailing rest).drop front.length
      = t :: (back ++ trailing rest) := by
    rw [List.append_assoc, List.drop_left, List.cons_append]
  by_cases some_good : good = []
  · subst some_good
    refine ⟨.list #[.integer n], front.length, ?_, ?_⟩
    · rw [List.nil_append, joined, meaning_bytes, hfront]
      simp only [hdrop, stops]
      rfl
    · simp only [List.nil_append, joined, List.length_append, List.length_cons]
      omega
  · obtain ⟨numbers, bytes⟩ := exists_numbers hgood
    have hnext : next naming (trailing ((front ++ t :: back) :: rest))
        = .matched (.integer n) (front.length + 1) := by
      rw [trailing_cons, next_cons, hfront, Meaning.after, Nat.add_comm]
    have hle : front.length + 1 ≤ (trailing ((front ++ t :: back) :: rest)).length := by
      simp only [trailing_cons, List.length_append, List.length_cons]
      omega
    have hmeaning := meaning_good naming some_good bytes ((front ++ t :: back) :: rest)
    rw [Reading.many_of_matched hnext (by omega) hle, trailing_cons, List.drop_succ_cons, hdrop,
      stops] at hmeaning
    refine ⟨_, _, hmeaning, ?_⟩
    rw [joined_append some_good]
    simp only [trailing_cons, List.length_append, List.length_cons]
    omega

/-- Any other piece leaves something of the input, or is absent at its start. -/
theorem meaning_of_other {good : List (List Terminal)} {bad : List Terminal}
    (hgood : ∀ piece ∈ good, ∃ n, PaddedByte piece n) (no_byte : ¬ ∃ n, PaddedByte bad n)
    (no_excess : ∀ k, ¬ PaddedExcess bad k) (free : ','.toNat ∉ bad)
    (rest : List (List Terminal)) :
    (∃ name k, Grammar.bytes.meaning naming (joined (good ++ bad :: rest)) = .absent name k) ∨
      ∃ value m, Grammar.bytes.meaning naming (joined (good ++ bad :: rest)) = .matched value m ∧
        m < (joined (good ++ bad :: rest)).length := by
  rcases paddedByte_cases naming bad with
    byte | ⟨k, excess⟩ | lacks | ⟨front, t, back, n, rfl, -, hfront⟩
  · exact absurd byte no_byte
  · exact absurd excess (no_excess k)
  · by_cases some_good : good = []
    · subst some_good
      obtain ⟨name, k, habsent⟩ := lacks.meaning naming (trailing_stops rest)
      exact .inl ⟨name, k, by rw [List.nil_append, joined, meaning_bytes, habsent]⟩
    · obtain ⟨value, hmatched⟩ := meaning_of_lacking naming some_good hgood lacks rest
      refine .inr ⟨value, _, hmatched, ?_⟩
      rw [joined_append some_good, List.length_append, trailing_cons, List.length_cons]
      omega
  · have other : t ≠ ','.toNat := fun h => free (by simp [← h])
    exact .inr (meaning_of_junk naming hgood other hfront rest)

end

/-! ## Whole inputs -/

section

variable [DecidableEq L] {S : Type} [Sink S L Terminal] {scope : Scope L} {fuel : Nat}
  {ts : List Terminal} (left : scope.source.Spells scope.source.start ts)
  (hfuel : sizeOf Grammar.bytes + ts.length < fuel) (sink : S)
include left hfuel

theorem attempt_described :
    scope.source.Describes scope.source.start (Grammar.bytes.meaning scope.naming ts)
      (Grammar.bytes.attempt scope fuel (.atStart scope.source sink)) := by
  have direct : scope.Throughout Rule.Direct Grammar.bytes :=
    Scope.throughout_sepBy1 trivial
      (Scope.throughout_padded trivial (Rule.throughout_direct_numeral scope _ _ _)
        (Scope.throughout_terminal trivial))
      (Scope.throughout_terminal trivial)
  exact Rule.attempt_describes direct left hfuel

/-- Bytes are read back. -/
theorem result?_of_bytes {numbers : List Nat}
    (h : List.Forall₂ PaddedByte (ts.splitOn ','.toNat) numbers) :
    (Grammar.bytes.parseAll scope fuel sink).result?
      = some (.ok (.list (numbers.map fun n => Value.integer n).toArray)) := by
  have describes := attempt_described left hfuel sink
  have hmeaning := meaning_of_all scope.naming (List.splitOn_ne_nil _ _) h
  rw [joined_splitOn] at hmeaning
  rw [hmeaning] at describes
  obtain ⟨m, hm, hresult⟩ := Rule.parseAll_described describes
  obtain ⟨-, ended⟩ := left.after hm
  rw [List.drop_length] at ended
  have last : scope.source.found m = none := ended.found_eq
  rw [hresult, if_pos last]

variable {good rest : List (List Terminal)} {bad : List Terminal}
  (hsplit : ts.splitOn ','.toNat = good ++ bad :: rest)
  (hgood : ∀ piece ∈ good, ∃ n, PaddedByte piece n)
include hsplit hgood

theorem result?_of_excess {k : Nat} (excess : PaddedExcess bad k) :
    ∃ l, scope.source.Steps ((leading good).length + k) scope.source.start l ∧
      (Grammar.bytes.parseAll scope fuel sink).result? = some (.error (.overflow "u8" l)) := by
  have describes := attempt_described left hfuel sink
  rw [← joined_splitOn ts, hsplit, meaning_of_excess scope.naming hgood excess] at describes
  exact Rule.parseAll_described describes

/-- Where a digit is lacking behind a comma, the end was expected at the comma. -/
theorem result?_of_lacking (some_good : good ≠ []) (lacks : LacksDigit bad) :
    ∃ m l, (leading good).length = m + 1 ∧ scope.source.Steps m scope.source.start l ∧
      scope.source.found l = some ','.toNat ∧
      (Grammar.bytes.parseAll scope fuel sink).result? = some (.error (.expected "end" l)) := by
  have describes := attempt_described left hfuel sink
  have hts : ts = joined good ++ trailing (bad :: rest) := by
    rw [← joined_append some_good, ← hsplit, joined_splitOn]
  obtain ⟨value, hmeaning⟩ := meaning_of_lacking scope.naming some_good hgood lacks rest
  rw [← hsplit, joined_splitOn] at hmeaning
  rw [hmeaning] at describes
  obtain ⟨l, hl, hresult⟩ := Rule.parseAll_described describes
  obtain ⟨-, comma⟩ := left.after hl
  rw [hts, List.drop_left] at comma
  have here : scope.source.found l = some ','.toNat := comma.found_eq
  refine ⟨(joined good).length, l, ?_, hl, here, ?_⟩
  · rw [leading_eq some_good, List.length_append]
    rfl
  · rw [hresult, here]
    exact congrArg some (if_neg (by simp))

theorem result?_of_other (no_byte : ¬ ∃ n, PaddedByte bad n)
    (no_excess : ∀ k, ¬ PaddedExcess bad k) :
    ∃ rule l, (Grammar.bytes.parseAll scope fuel sink).result?
      = some (.error (.expected rule l)) := by
  have describes := attempt_described left hfuel sink
  have mem : bad ∈ ts.splitOn ','.toNat := by
    rw [hsplit]
    exact List.mem_append_right good List.mem_cons_self
  have free := not_mem_of_mem_splitOn mem
  have hmeaning := meaning_of_other scope.naming hgood no_byte no_excess free rest
  rw [← hsplit, joined_splitOn] at hmeaning
  rcases hmeaning with ⟨name, k, habsent⟩ | ⟨value, m, hmatched, hlt⟩
  · rw [habsent] at describes
    obtain ⟨l, -, hresult⟩ := Rule.parseAll_described describes
    exact ⟨name, l, hresult⟩
  · rw [hmatched] at describes
    obtain ⟨l, hl, hresult⟩ := Rule.parseAll_described describes
    obtain ⟨-, behind⟩ := left.after hl
    have here : scope.source.found l ≠ none := by
      rw [behind.found_eq, Ne, List.head?_eq_none_iff, List.drop_eq_nil_iff]
      omega
    exact ⟨"end", l, by rw [hresult, if_neg here]⟩

end

/-- The pieces are bytes, or the first that is none begins with digits beyond a byte, or something
was expected. -/
theorem result?_cases [DecidableEq L] {S : Type} [Sink S L Terminal] {scope : Scope L} {fuel : Nat}
    {ts : List Terminal} (left : scope.source.Spells scope.source.start ts)
    (hfuel : sizeOf Grammar.bytes + ts.length < fuel) (sink : S) :
    (∃ numbers, List.Forall₂ PaddedByte (ts.splitOn ','.toNat) numbers ∧
        (Grammar.bytes.parseAll scope fuel sink).result?
          = some (.ok (.list (numbers.map fun n => Value.integer n).toArray))) ∨
      (∃ good bad k l, FirstBad (ts.splitOn ','.toNat) good bad ∧ PaddedExcess bad k ∧
        scope.source.Steps ((leading good).length + k) scope.source.start l ∧
        (Grammar.bytes.parseAll scope fuel sink).result? = some (.error (.overflow "u8" l))) ∨
      ∃ rule l, (Grammar.bytes.parseAll scope fuel sink).result?
        = some (.error (.expected rule l)) := by
  rcases exists_firstBad (ts.splitOn ','.toNat) with ⟨numbers, bytes⟩ | ⟨good, bad, first⟩
  · exact .inl ⟨numbers, bytes, result?_of_bytes left hfuel sink bytes⟩
  · obtain ⟨rest, hsplit⟩ := first.split
    by_cases excess : ∃ k, PaddedExcess bad k
    · obtain ⟨k, excess⟩ := excess
      obtain ⟨l, hl, hresult⟩ := result?_of_excess left hfuel sink hsplit first.good excess
      exact .inr (.inl ⟨good, bad, k, l, first, excess, hl, hresult⟩)
    · exact .inr (.inr (result?_of_other left hfuel sink hsplit first.good first.bad
        (not_exists.1 excess)))

/-- **Lists of bytes are exact**, on every source and whatever its terminals are. A source that does
not come to an end is never accepted. Any other is cut at its commas into pieces.

* The input is accepted exactly where all pieces are texts of bytes, and the value is the list of
  these bytes.
* It is rejected for an overflow exactly where the first piece that is none begins with whitespace
  and digits beyond a byte. The overflow is at the digit that takes them there.
* Every other input is rejected because something was expected. If there are bytes in front of the
  first piece that is none, and this piece has no digit behind its whitespace, it was expected at
  the comma between them. -/
theorem bytes_exact [DecidableEq L] (scope : Scope L) :
    (∀ fuel {S : Type} [Sink S L Terminal] (sink : S) value trace,
      Grammar.bytes.parseAll scope fuel sink = .accepted value trace →
        ∃ ts, scope.source.Spells scope.source.start ts) ∧
    ∀ ts, scope.source.Spells scope.source.start ts → ∃ enough, ∀ fuel, enough ≤ fuel →
      ∀ {S : Type} [Sink S L Terminal] (sink : S),
        let verdict := Grammar.bytes.parseAll scope fuel sink
        let pieces := ts.splitOn ','.toNat
        (∀ value, (∃ trace, verdict = .accepted value trace) ↔
          ∃ numbers, List.Forall₂ PaddedByte pieces numbers ∧
            value = .list (numbers.map fun n => Value.integer n).toArray) ∧
        (∀ type l, (∃ failure trace, verdict = .rejected failure trace ∧
            failure.error = .overflow type l) ↔
          type = "u8" ∧ ∃ good bad k, FirstBad pieces good bad ∧ PaddedExcess bad k ∧
            scope.source.Steps ((leading good).length + k) scope.source.start l) ∧
        ((∃ numbers, List.Forall₂ PaddedByte pieces numbers) ∨
          ∃ good bad, FirstBad pieces good bad) ∧
        ∀ good bad, FirstBad pieces good bad → (∀ k, ¬ PaddedExcess bad k) →
          ∃ failure trace rule l, verdict = .rejected failure trace ∧
            failure.error = .expected rule l ∧
            (good ≠ [] → LacksDigit bad → ∃ m, (leading good).length = m + 1 ∧
              scope.source.Steps m scope.source.start l ∧
              scope.source.found l = some ','.toNat) := by
  refine ⟨fun fuel S _ sink value trace h => Rule.spells_of_accepted h, ?_⟩
  intro ts left
  refine ⟨sizeOf Grammar.bytes + ts.length + 1, ?_⟩
  intro fuel hfuel S _ sink verdict pieces
  have outcome := result?_cases left hfuel sink
  refine ⟨?_, ?_, exists_firstBad pieces, ?_⟩
  · intro value
    rw [← Verdict.result?_eq_ok]
    constructor
    · intro hok
      rcases outcome with ⟨numbers, bytes, hresult⟩ | ⟨_, _, _, l, -, -, -, hresult⟩ |
        ⟨rule, l, hresult⟩
      · cases hresult.symm.trans hok
        exact ⟨numbers, bytes, rfl⟩
      · cases hresult.symm.trans hok
      · cases hresult.symm.trans hok
    · rintro ⟨numbers, bytes, rfl⟩
      exact result?_of_bytes left hfuel sink bytes
  · intro type l
    rw [← Verdict.result?_eq_error]
    constructor
    · intro herror
      rcases outcome with ⟨numbers, bytes, hresult⟩ |
        ⟨good, bad, k, m, first, excess, hm, hresult⟩ | ⟨rule, m, hresult⟩
      · cases hresult.symm.trans herror
      · cases hresult.symm.trans herror
        exact ⟨rfl, good, bad, k, first, excess, hm⟩
      · cases hresult.symm.trans herror
    · rintro ⟨rfl, good, bad, k, ⟨⟨rest, hsplit⟩, hgood, -⟩, excess, hl⟩
      obtain ⟨m, hm, hresult⟩ := result?_of_excess left hfuel sink hsplit hgood excess
      rw [hl.unique hm]
      exact hresult
  · rintro good bad ⟨⟨rest, hsplit⟩, hgood, hbad⟩ no_excess
    by_cases lacking : good ≠ [] ∧ LacksDigit bad
    · obtain ⟨m, l, hlength, hm, here, hresult⟩ :=
        result?_of_lacking left hfuel sink hsplit hgood lacking.1 lacking.2
      obtain ⟨failure, trace, hreject, herror⟩ := Verdict.result?_eq_error.1 hresult
      exact ⟨failure, trace, "end", l, hreject, herror, fun _ _ => ⟨m, hlength, hm, here⟩⟩
    · obtain ⟨rule, l, hresult⟩ := result?_of_other left hfuel sink hsplit hgood hbad no_excess
      obtain ⟨failure, trace, hreject, herror⟩ := Verdict.result?_eq_error.1 hresult
      exact ⟨failure, trace, rule, l, hreject, herror,
        fun some_good lacks => absurd ⟨some_good, lacks⟩ lacking⟩

/-- In ` 7,300` the last digit is one too many. -/
theorem bytes_exact_overflow :
    let scope : Scope Nat :=
      { source := .ofArray #[32, 55, 44, 51, 48, 48], naming := .offsets .byte true,
        definitions := fun _ => none }
    ∃ enough, ∀ fuel, enough ≤ fuel → ∀ log : ReportLog Nat Terminal, ∃ failure trace,
      Grammar.bytes.parseAll scope fuel log = .rejected failure trace ∧
        failure.error = .overflow "u8" 5 := by
  intro scope
  have left : scope.source.Spells 0 [32, 55, 44, 51, 48, 48] :=
    Source.spells_ofArray _ (Nat.zero_le _)
  obtain ⟨enough, h⟩ := (bytes_exact scope).2 _ left
  refine ⟨enough, ?_⟩
  intro fuel hfuel log
  have byte : PaddedByte ([32] ++ Digit.decimals [7] ++ []) (Digit.number 10 [7]) :=
    .intro (by decide) (by decide) (by decide) (by decide) (by decide)
  have exceeds : Digit.FirstExcess 255 10 [3, 0, 0] 2 := ⟨by decide, by decide, by decide⟩
  have excess : PaddedExcess ([] ++ Digit.decimals [3, 0, 0] ++ []) (List.length [] + 2) :=
    .intro (by simp) (by decide) exceeds
  have first : FirstBad [[32, 55], [51, 48, 48]] [[32, 55]] [51, 48, 48] :=
    ⟨⟨[], rfl⟩, by simpa using ⟨7, byte⟩, excess.not_paddedByte⟩
  have steps : scope.source.Steps 5 0 5 :=
    .succ rfl (.succ rfl (.succ rfl (.succ rfl (.succ rfl (.zero _)))))
  exact ((h fuel hfuel log).2.1 "u8" 5).2 ⟨rfl, [[32, 55]], [51, 48, 48], 2, first, excess, steps⟩

end ByteList

end Backtrack
