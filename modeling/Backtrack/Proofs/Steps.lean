import Backtrack.Source
import Mathlib.Algebra.GroupWithZero.Nat

/-!
# Steps through a source

A source is read by steps from a location to the next. The vocabulary of this module says where
steps lead (`Source.Steps`, `Source.Reaches`) and which terminals a source has left at a location
(`Source.Spells`). None of it assumes an order of locations: a source may lead in circles.

Sequences and texts are the sources addressed by offset (`Source.Addressed`). There each step goes
forward by the width of its terminal, and every location that steps reach spells the rest of the
input.
-/

namespace Backtrack.Source

variable {L : Type}

/-! ## Where steps lead -/

/-- `n` whole terminals lie between two locations. -/
inductive Steps (source : Source L) : Nat → L → L → Prop where
  | zero (l : L) : Steps source 0 l l
  | succ {n : Nat} {l next m : L} {t : Terminal} (here : source.terminalAt l = some (t, next))
      (rest : Steps source n next m) : Steps source (n + 1) l m

/-- Finitely many whole terminals lead from one location to another. -/
def Reaches (source : Source L) (l m : L) : Prop :=
  ∃ n, source.Steps n l m

/-- From the location on, the source has these terminals and no more. -/
inductive Spells (source : Source L) : L → List Terminal → Prop where
  | nil {l : L} (here : source.terminalAt l = none) : Spells source l []
  | cons {l next : L} {t : Terminal} {ts : List Terminal}
      (here : source.terminalAt l = some (t, next)) (rest : Spells source next ts) :
      Spells source l (t :: ts)

/-- The terminal at a location, without its successor. -/
def found (source : Source L) (l : L) : Option Terminal :=
  (source.terminalAt l).map (·.1)

variable {source : Source L} {l m k : L}

theorem found_eq_none : source.found l = none ↔ source.terminalAt l = none := by
  simp [found]

theorem found_eq_some {t : Terminal} {next : L} (h : source.terminalAt l = some (t, next)) :
    source.found l = some t := by
  simp [found, h]

theorem Steps.one {t : Terminal} {next : L} (h : source.terminalAt l = some (t, next)) :
    source.Steps 1 l next :=
  .succ h (.zero next)

theorem Steps.trans {a b : Nat} (h : source.Steps a l m) (h' : source.Steps b m k) :
    source.Steps (a + b) l k := by
  induction h with
  | zero => simpa using h'
  | succ here _ ih =>
    rw [Nat.succ_add]
    exact .succ here (ih h')

/-- There is one place at a distance. -/
theorem Steps.unique {n : Nat} (h : source.Steps n l m) (h' : source.Steps n l k) : m = k := by
  induction h with
  | zero => cases h' with | zero => rfl
  | succ here _ ih =>
    cases h' with
    | succ here' rest' =>
      rw [here] at here'
      cases here'
      exact ih rest'

/-- The way to a farther place leads through every nearer one. -/
theorem Steps.split {a b : Nat} (h : source.Steps (a + b) l k) :
    ∃ m, source.Steps a l m ∧ source.Steps b m k := by
  induction a generalizing l with
  | zero => exact ⟨l, .zero l, by simpa using h⟩
  | succ a ih =>
    rw [Nat.succ_add] at h
    cases h with
    | succ here rest =>
      obtain ⟨m, hm, hk⟩ := ih rest
      exact ⟨m, .succ here hm, hk⟩

theorem Reaches.refl (source : Source L) (l : L) : source.Reaches l l :=
  ⟨0, .zero l⟩

theorem Reaches.step {t : Terminal} {next : L} (h : source.terminalAt l = some (t, next)) :
    source.Reaches l next :=
  ⟨1, .one h⟩

theorem Reaches.trans (h : source.Reaches l m) (h' : source.Reaches m k) : source.Reaches l k := by
  obtain ⟨a, ha⟩ := h
  obtain ⟨b, hb⟩ := h'
  exact ⟨a + b, ha.trans hb⟩

/-! ## What is left at a location -/

variable {ts : List Terminal}

theorem Spells.unique (h : source.Spells l ts) {us : List Terminal} (h' : source.Spells l us) :
    ts = us := by
  induction h generalizing us with
  | nil here =>
    cases h' with
    | nil => rfl
    | cons here' => simp [here] at here'
  | cons here _ ih =>
    cases h' with
    | nil here' => simp [here] at here'
    | cons here' rest' =>
      rw [here] at here'
      cases here'
      rw [ih rest']

/-- The terminal at a location is the first of those left. -/
theorem Spells.found_eq (h : source.Spells l ts) : source.found l = ts.head? := by
  cases h with
  | nil here => exact found_eq_none.2 here
  | cons here => exact found_eq_some here

/-- Steps stay within what is left, and leave the rest of it. -/
theorem Spells.after {n : Nat} (h : source.Spells l ts) (hn : source.Steps n l m) :
    n ≤ ts.length ∧ source.Spells m (ts.drop n) := by
  induction hn generalizing ts with
  | zero => exact ⟨Nat.zero_le _, h⟩
  | succ here _ ih =>
    cases h with
    | nil here' => simp [here] at here'
    | cons here' rest' =>
      rw [here] at here'
      cases here'
      obtain ⟨hle, hrest⟩ := ih rest'
      exact ⟨by simpa using hle, by simpa using hrest⟩

/-- Where steps lead to an end, finitely many terminals are left. -/
theorem Reaches.spells (h : source.Reaches l m) (ended : source.terminalAt m = none) :
    ∃ ts, source.Spells l ts := by
  obtain ⟨n, hn⟩ := h
  induction hn with
  | zero => exact ⟨[], .nil ended⟩
  | succ here _ ih =>
    obtain ⟨ts, rest⟩ := ih ended
    exact ⟨_, .cons here rest⟩

/-- A source that comes to an end nowhere returns to a location. -/
theorem Spells.eq_iff (h : source.Spells l ts) {n : Nat} (hn : source.Steps n l m) :
    m = l ↔ n = 0 := by
  constructor
  · intro heq
    subst heq
    obtain ⟨hle, hrest⟩ := h.after hn
    have hlen := congrArg List.length (h.unique hrest)
    simp only [List.length_drop] at hlen
    omega
  · intro hzero
    subst hzero
    cases hn
    rfl

/-- Where a source comes to an end, two places are one distance apart. -/
theorem Spells.steps_unique (h : source.Spells l ts) {n n' : Nat} (hn : source.Steps n l m)
    (hn' : source.Steps n' l m) : n = n' := by
  obtain ⟨hle, hrest⟩ := h.after hn
  obtain ⟨hle', hrest'⟩ := h.after hn'
  have hlen := congrArg List.length (hrest.unique hrest')
  simp only [List.length_drop] at hlen
  omega

/-! ## Terminals of known width -/

/-- Every terminal takes the place that `width` tells, which is not nothing. -/
def Measured (width : Terminal → Nat) (source : Source Nat) : Prop :=
  ∀ l t next, source.terminalAt l = some (t, next) → next = l + width t ∧ 0 < width t

theorem Measured.le {width : Terminal → Nat} {source : Source Nat} (h : source.Measured width)
    {n l m : Nat} (hn : source.Steps n l m) : l + n ≤ m := by
  induction hn with
  | zero => exact Nat.le_refl _
  | succ here _ ih =>
    obtain ⟨rfl, hpos⟩ := h _ _ _ here
    omega

theorem Measured.le_of_reaches {width : Terminal → Nat} {source : Source Nat}
    (h : source.Measured width) {l m : Nat} (hm : source.Reaches l m) : l ≤ m := by
  obtain ⟨n, hn⟩ := hm
  have := h.le hn
  omega

/-! ## Sequences -/

theorem terminalAt_ofArray {terminals : Array Terminal} {l next : Nat} {t : Terminal} :
    (ofArray terminals).terminalAt l = some (t, next) ↔
      terminals[l]? = some t ∧ next = l + 1 := by
  simp only [ofArray, Option.map_eq_some_iff, Prod.mk.injEq]
  constructor
  · rintro ⟨t, ht, rfl, rfl⟩
    exact ⟨ht, rfl⟩
  · rintro ⟨ht, rfl⟩
    exact ⟨t, ht, rfl, rfl⟩

theorem measured_ofArray (terminals : Array Terminal) :
    (ofArray terminals).Measured fun _ => 1 := by
  intro l t next h
  exact ⟨(terminalAt_ofArray.1 h).2, Nat.one_pos⟩

theorem steps_ofArray {terminals : Array Terminal} {n l m : Nat}
    (h : (ofArray terminals).Steps n l m) : m = l + n := by
  induction h with
  | zero => rfl
  | succ here _ ih =>
    rw [ih, (terminalAt_ofArray.1 here).2]
    omega

theorem spells_ofArray (terminals : Array Terminal) {l : Nat} (h : l ≤ terminals.size) :
    (ofArray terminals).Spells l (terminals.toList.drop l) := by
  by_cases hl : l < terminals.size
  · have here : (ofArray terminals).terminalAt l = some (terminals[l], l + 1) :=
      terminalAt_ofArray.2 ⟨by simp [hl], rfl⟩
    have rest := spells_ofArray terminals (l := l + 1) (by omega)
    rw [List.drop_eq_getElem_cons (by simpa using hl)]
    exact .cons (by simpa using here) rest
  · have hl : l = terminals.size := by omega
    subst hl
    rw [List.drop_of_length_le (by simp)]
    exact .nil (by simp [ofArray])
termination_by terminals.size - l

/-! ## Texts -/

/-- The number of bytes of the UTF-8 encoding. -/
def byteLength (chars : List Char) : Nat :=
  (chars.map Char.utf8Size).sum

@[simp] theorem byteLength_nil : byteLength [] = 0 := rfl

@[simp] theorem byteLength_cons (c : Char) (chars : List Char) :
    byteLength (c :: chars) = c.utf8Size + byteLength chars := rfl

@[simp] theorem byteLength_append (p q : List Char) :
    byteLength (p ++ q) = byteLength p + byteLength q := by
  simp [byteLength]

theorem utf8ByteSize_ofList (chars : List Char) :
    (String.ofList chars).utf8ByteSize = byteLength chars := by
  induction chars with
  | nil => rfl
  | cons c rest ih =>
    rw [String.ofList_cons, String.utf8ByteSize_append, String.utf8ByteSize_singleton, ih,
      byteLength_cons]

theorem utf8ByteSize_eq_byteLength (text : String) :
    text.utf8ByteSize = byteLength text.toList := by
  rw [← utf8ByteSize_ofList, String.ofList_toList]

/-- A character stands in the cell of its first byte, and nowhere else. -/
theorem textCells_eq_some {chars : List Char} {l : Nat} {c : Char} :
    (textCells chars)[l]?.join = some c ↔
      ∃ p q, chars = p ++ c :: q ∧ l = byteLength p := by
  induction chars generalizing l with
  | nil => simp [textCells]
  | cons d rest ih =>
    have hpos : 0 < d.utf8Size := d.utf8Size_pos
    have hcells : textCells (d :: rest) =
        (some d :: List.replicate (d.utf8Size - 1) none) ++ textCells rest := rfl
    have hlen : (some d :: List.replicate (d.utf8Size - 1) (none : Option Char)).length
        = d.utf8Size := by
      simp only [List.length_cons, List.length_replicate]
      omega
    rw [hcells, List.getElem?_append, hlen]
    by_cases hl : l < d.utf8Size
    · rw [if_pos hl]
      constructor
      · intro h
        cases l with
        | zero =>
          simp only [List.getElem?_cons_zero, Option.join_some, Option.some.injEq] at h
          exact ⟨[], rest, by simp [h], rfl⟩
        | succ l =>
          rw [List.getElem?_cons_succ, List.getElem?_replicate, if_pos (by omega)] at h
          simp at h
      · rintro ⟨p, q, hp, rfl⟩
        cases p with
        | nil =>
          simp only [List.nil_append, List.cons.injEq] at hp
          simp [hp.1]
        | cons e p =>
          simp only [List.cons_append, List.cons.injEq] at hp
          rw [← hp.1, byteLength_cons] at hl
          omega
    · rw [if_neg hl, ih]
      constructor
      · rintro ⟨p, q, rfl, hp⟩
        exact ⟨d :: p, q, rfl, by rw [byteLength_cons]; omega⟩
      · rintro ⟨p, q, hp, rfl⟩
        cases p with
        | nil => exact absurd hpos (by simpa using hl)
        | cons e p =>
          simp only [List.cons_append, List.cons.injEq] at hp
          exact ⟨p, q, hp.2, by rw [← hp.1, byteLength_cons]; omega⟩

theorem terminalAt_ofText {text : String} {l next : Nat} {t : Terminal} :
    (ofText text).terminalAt l = some (t, next) ↔
      ∃ p c q, text.toList = p ++ c :: q ∧ l = byteLength p ∧ t = c.toNat ∧
        next = l + c.utf8Size := by
  simp only [ofText, ofTextCells, List.getElem?_toArray, Option.map_eq_some_iff, Prod.mk.injEq,
    textCells_eq_some]
  constructor
  · rintro ⟨c, ⟨p, q, htext, hl⟩, rfl, rfl⟩
    exact ⟨p, c, q, htext, hl, rfl, rfl⟩
  · rintro ⟨p, c, q, htext, hl, rfl, rfl⟩
    exact ⟨c, ⟨p, q, htext, hl⟩, rfl, rfl⟩

theorem measured_ofText (text : String) :
    (ofText text).Measured fun t => (Char.ofNat t).utf8Size := by
  intro l t next h
  obtain ⟨p, c, q, -, -, rfl, rfl⟩ := terminalAt_ofText.1 h
  simp only [Char.ofNat_toNat, true_and]
  exact c.utf8Size_pos

/-- Between two characters, a text spells those after the location. -/
theorem spells_ofText {text : String} {p q : List Char} (h : text.toList = p ++ q) :
    (ofText text).Spells (byteLength p) (q.map Char.toNat) := by
  induction q generalizing p with
  | nil =>
    refine .nil (Option.eq_none_iff_forall_ne_some.2 ?_)
    rintro ⟨t, next⟩ hsome
    obtain ⟨p', c, q, htext, hlen, -, -⟩ := terminalAt_ofText.1 hsome
    have hall := congrArg byteLength (h.symm.trans htext)
    have hpos := c.utf8Size_pos
    simp only [byteLength_append, byteLength_cons, byteLength_nil] at hall
    omega
  | cons c q ih =>
    refine .cons (terminalAt_ofText.2 ⟨p, c, q, h, rfl, rfl, rfl⟩) ?_
    have rest := ih (p := p ++ [c]) (by simp [h])
    simpa using rest

/-- Steps from the start of a text lead from character to character. -/
theorem boundary_of_reaches {text : String} {l m : Nat} (h : (ofText text).Reaches l m)
    (hl : ∃ p q, text.toList = p ++ q ∧ l = byteLength p) :
    ∃ p q, text.toList = p ++ q ∧ m = byteLength p := by
  obtain ⟨n, hn⟩ := h
  induction hn with
  | zero => exact hl
  | succ here _ ih =>
    obtain ⟨p, c, q, htext, rfl, -, rfl⟩ := terminalAt_ofText.1 here
    exact ih ⟨p ++ [c], q, by simp [htext], by simp⟩

theorem isValid_of_reaches {text : String} {l : Nat} (h : (ofText text).Reaches 0 l) :
    String.Pos.Raw.IsValid text ⟨l⟩ := by
  obtain ⟨p, q, htext, rfl⟩ := boundary_of_reaches h ⟨[], text.toList, rfl, rfl⟩
  refine String.Pos.Raw.isValid_iff_exists_append.2 ⟨.ofList p, .ofList q, ?_, ?_⟩
  · rw [← String.ofList_append, ← htext, String.ofList_toList]
  · rw [String.Pos.Raw.ext_iff, String.byteIdx_rawEndPos, utf8ByteSize_ofList]

/-! ## Sources addressed by offset -/

/-- The source is a sequence or a text, and ends at the offset. -/
inductive Addressed : Source Nat → Nat → Prop where
  | sequence (terminals : Array Terminal) : Addressed (ofArray terminals) terminals.size
  | text (text : String) : Addressed (ofText text) text.utf8ByteSize

namespace Addressed

variable {source : Source Nat} {size l m : Nat}

theorem measured (h : source.Addressed size) : ∃ width, source.Measured width := by
  cases h with
  | sequence terminals => exact ⟨_, measured_ofArray terminals⟩
  | text text => exact ⟨_, measured_ofText text⟩

theorem start_eq (h : source.Addressed size) : source.start = 0 := by
  cases h <;> rfl

/-- Steps only go forward. -/
theorem le_of_reaches (h : source.Addressed size) (hm : source.Reaches l m) : l ≤ m := by
  obtain ⟨width, hwidth⟩ := h.measured
  exact hwidth.le_of_reaches hm

/-- A location that steps reach from the start spells the rest of the input, lies within it, and is
its end exactly where no terminal is left. -/
theorem spells (h : source.Addressed size) (hl : source.Reaches source.start l) :
    ∃ ts, source.Spells l ts ∧ l ≤ size ∧ (ts = [] ↔ l = size) := by
  cases h with
  | sequence terminals =>
    obtain ⟨n, hn⟩ := hl
    have hle : l ≤ terminals.size := by
      have hn' := ((spells_ofArray terminals (Nat.zero_le _)).after hn).1
      have hl : l = 0 + n := steps_ofArray hn
      simp only [List.drop_zero, Array.length_toList] at hn'
      omega
    refine ⟨_, spells_ofArray terminals hle, hle, ?_⟩
    rw [List.drop_eq_nil_iff, Array.length_toList]
    omega
  | text text =>
    obtain ⟨p, q, htext, rfl⟩ := boundary_of_reaches hl ⟨[], text.toList, rfl, rfl⟩
    refine ⟨_, spells_ofText htext, ?_, ?_⟩
    · rw [utf8ByteSize_eq_byteLength, htext, byteLength_append]
      omega
    · rw [utf8ByteSize_eq_byteLength, htext, byteLength_append]
      cases q with
      | nil => simp
      | cons c q =>
        have hpos := c.utf8Size_pos
        simp only [List.map_cons, reduceCtorEq, byteLength_cons, false_iff]
        omega

/-- Every location spells something: the rest of the input, or nothing where no terminal stands. -/
theorem exists_spells (h : source.Addressed size) (l : Nat) : ∃ ts, source.Spells l ts := by
  cases here : source.terminalAt l with
  | none => exact ⟨[], .nil here⟩
  | some read =>
    obtain ⟨t, next⟩ := read
    cases h with
    | sequence terminals =>
      obtain ⟨hl, -⟩ := Array.getElem?_eq_some_iff.1 (terminalAt_ofArray.1 here).1
      exact ⟨_, spells_ofArray terminals (Nat.le_of_lt hl)⟩
    | text text =>
      obtain ⟨p, c, q, htext, rfl, -, -⟩ := terminalAt_ofText.1 here
      exact ⟨_, spells_ofText htext⟩

/-- No terminal is left exactly at the end. -/
theorem found_eq_none_iff (h : source.Addressed size) (hl : source.Reaches source.start l) :
    source.found l = none ↔ l = size := by
  obtain ⟨ts, hts, -, hend⟩ := h.spells hl
  rw [found_eq_none, ← hend]
  cases hts with
  | nil here => simp [here]
  | cons here => simp [here]

end Addressed

end Backtrack.Source
