import Backtrack.Proofs.Encodings
import Backtrack.Proofs.Sessions

/-!
# Texts, character by character

A text is addressed by byte offset, and its characters take one to four bytes. A terminal is at a
location exactly if a character begins there (`Source.Stands`): none is inside a character, at the
end or beyond it (`Source.terminalAt_ofText_eq_none_iff`). The bytes of the text alone decide this,
for a character can be decoded from a location exactly if one begins there
(`Source.decode_eq_some_iff`). A cursor that is advanced therefore reads the characters in order,
and comes to rest at the number of bytes (`Source.ofText_exact`).
-/

namespace Backtrack

namespace Source

variable {text : String} {c : Char} {l next : Nat}

/-! ## Characters between byte offsets -/

/-- The character takes the bytes of the text from one offset up to another. -/
def Stands (text : String) (c : Char) (l next : Nat) : Prop :=
  ∃ p q : String, text = p ++ String.singleton c ++ q ∧ l = p.utf8ByteSize ∧
    next = (p ++ String.singleton c).utf8ByteSize

theorem stands_iff :
    Stands text c l next ↔
      ∃ p q, text.toList = p ++ c :: q ∧ l = byteLength p ∧ next = l + c.utf8Size := by
  constructor
  · rintro ⟨p, q, rfl, rfl, rfl⟩
    exact ⟨p.toList, q.toList, by simp, utf8ByteSize_eq_byteLength p, by simp⟩
  · rintro ⟨p, q, htext, rfl, rfl⟩
    refine ⟨.ofList p, .ofList q, ?_, (utf8ByteSize_ofList p).symm, ?_⟩
    · rw [← String.toList_inj]
      simp [htext]
    · simp [utf8ByteSize_ofList]

/-- A terminal is where a character begins, and the next location is behind that character. -/
theorem terminalAt_ofText_iff_stands {t : Terminal} :
    (ofText text).terminalAt l = some (t, next) ↔ ∃ c, Stands text c l next ∧ t = c.toNat := by
  rw [terminalAt_ofText]
  constructor
  · rintro ⟨p, c, q, htext, hl, ht, hnext⟩
    exact ⟨c, stands_iff.2 ⟨p, q, htext, hl, hnext⟩, ht⟩
  · rintro ⟨c, stands, ht⟩
    obtain ⟨p, q, htext, hl, hnext⟩ := stands_iff.1 stands
    exact ⟨p, c, q, htext, hl, ht, hnext⟩

theorem Stands.next_eq (h : Stands text c l next) : next = l + c.utf8Size := by
  obtain ⟨p, q, -, -, hnext⟩ := stands_iff.1 h
  exact hnext

/-- Of two prefixes of one text, the one of more characters takes more bytes. -/
theorem byteLength_lt_iff {p q r s : List Char} (h : p ++ q = r ++ s) :
    byteLength p < byteLength r ↔ p.length < r.length := by
  rw [← TerminalKind.offset_character, ← TerminalKind.offset_character]
  exact TerminalKind.character.offset_lt_iff h

/-- No character begins inside another one. -/
theorem Stands.not_between (h : Stands text c l next) {d : Char} {m stop : Nat}
    (h' : Stands text d m stop) : ¬ (l < m ∧ m < next) := by
  obtain ⟨p, q, htext, rfl, rfl⟩ := stands_iff.1 h
  obtain ⟨r, s, htext', rfl, -⟩ := stands_iff.1 h'
  rintro ⟨hafter, hbefore⟩
  have hsame : p ++ c :: q = r ++ d :: s := htext.symm.trans htext'
  have hlonger : p.length < r.length := (byteLength_lt_iff hsame).1 hafter
  have hshorter : r.length < (p ++ [c]).length := by
    refine (byteLength_lt_iff (q := d :: s) (s := q) ?_).1 (by simpa using hbefore)
    rw [← hsame, List.append_assoc, List.singleton_append]
  rw [List.length_append, List.length_singleton] at hshorter
  omega

theorem exists_split_of_lt {chars : List Char} (h : l < byteLength chars) :
    ∃ p c q, chars = p ++ c :: q ∧ byteLength p ≤ l ∧ l < byteLength p + c.utf8Size := by
  induction chars generalizing l with
  | nil => simp at h
  | cons d rest ih =>
    rw [byteLength_cons] at h
    by_cases hl : l < d.utf8Size
    · exact ⟨[], d, rest, rfl, Nat.zero_le _, by simpa using hl⟩
    · obtain ⟨p, c, q, rfl, hle, hlt⟩ := ih (l := l - d.utf8Size) (by omega)
      exact ⟨d :: p, c, q, rfl, by rw [byteLength_cons]; omega, by rw [byteLength_cons]; omega⟩

/-- Every byte belongs to a character. -/
theorem exists_stands_of_lt (h : l < text.utf8ByteSize) :
    ∃ c m next, Stands text c m next ∧ m ≤ l ∧ l < next := by
  rw [utf8ByteSize_eq_byteLength] at h
  obtain ⟨p, c, q, htext, hle, hlt⟩ := exists_split_of_lt h
  exact ⟨c, byteLength p, _, stands_iff.2 ⟨p, q, htext, rfl, rfl⟩, hle, hlt⟩

theorem Stands.next_le (h : Stands text c l next) : next ≤ text.utf8ByteSize := by
  obtain ⟨p, q, rfl, -, rfl⟩ := h
  have hall : (p ++ String.singleton c ++ q).utf8ByteSize =
      (p ++ String.singleton c).utf8ByteSize + q.utf8ByteSize := String.utf8ByteSize_append
  omega

theorem Stands.lt_next (h : Stands text c l next) : l < next := by
  have hpos := c.utf8Size_pos
  rw [h.next_eq]
  omega

/-- No terminal is at the end, beyond it and inside characters, and nowhere else. -/
theorem terminalAt_ofText_eq_none_iff :
    (ofText text).terminalAt l = none ↔
      text.utf8ByteSize ≤ l ∨ ∃ c m next, Stands text c m next ∧ m < l ∧ l < next := by
  constructor
  · intro hnone
    by_cases hl : text.utf8ByteSize ≤ l
    · exact .inl hl
    obtain ⟨c, m, next, stands, hle, hlt⟩ := exists_stands_of_lt (Nat.not_le.1 hl)
    refine .inr ⟨c, m, next, stands, Nat.lt_of_le_of_ne hle ?_, hlt⟩
    rintro rfl
    have hsome := terminalAt_ofText_iff_stands.2 ⟨c, stands, rfl⟩
    rw [hnone] at hsome
    cases hsome
  · intro h
    rw [Option.eq_none_iff_forall_ne_some]
    rintro ⟨t, stop⟩ hsome
    obtain ⟨d, stands', -⟩ := terminalAt_ofText_iff_stands.1 hsome
    rcases h with hend | ⟨c, m, next, stands, hafter, hbefore⟩
    · have hlt := stands'.lt_next
      have hle := stands'.next_le
      omega
    · exact stands.not_between stands' ⟨hafter, hbefore⟩

/-! ## What the bytes say -/

theorem Stands.decode (h : Stands text c l next) : text.toByteArray.utf8DecodeChar? l = some c := by
  obtain ⟨p, q, rfl, rfl, -⟩ := h
  have hrest : (p ++ String.singleton c ++ q).toByteArray.extract p.utf8ByteSize
      (p ++ String.singleton c ++ q).toByteArray.size
        = (String.singleton c ++ q).toByteArray := by
    rw [String.append_assoc, String.toByteArray_append]
    exact ByteArray.extract_append_eq_right rfl (by simp)
  rw [ByteArray.utf8DecodeChar?_eq_utf8DecodeChar?_extract, hrest, String.toByteArray_append,
    String.toByteArray_singleton, List.utf8DecodeChar?_utf8Encode_singleton_append]

/-- A character is decoded from the bytes at a location exactly if one begins there. -/
theorem decode_eq_some_iff :
    text.toByteArray.utf8DecodeChar? l = some c ↔ ∃ next, Stands text c l next := by
  refine ⟨fun h => ?_, fun ⟨next, stands⟩ => stands.decode⟩
  have hsome : (text.toByteArray.utf8DecodeChar? l).isSome := by rw [h]; rfl
  have hlt : l < text.utf8ByteSize := by
    simpa using ByteArray.lt_size_of_isSome_utf8DecodeChar? hsome
  have hvalid : String.Pos.Raw.IsValid text ⟨l⟩ :=
    String.Pos.Raw.isValid_iff_isSome_utf8DecodeChar?.2 (.inr hsome)
  obtain ⟨p, q, rfl, hl⟩ := String.Pos.Raw.isValid_iff_exists_append.1 hvalid
  have hl : l = p.utf8ByteSize := congrArg String.Pos.Raw.byteIdx hl
  -- more bytes follow, so more characters do
  cases hq : q.toList with
  | nil =>
    rw [String.utf8ByteSize_append, utf8ByteSize_eq_byteLength q, hq, byteLength_nil] at hlt
    omega
  | cons d rest =>
    have stands : Stands (p ++ q) d l (l + d.utf8Size) :=
      stands_iff.2 ⟨p.toList, rest, by simp [hq], by rw [hl, utf8ByteSize_eq_byteLength], rfl⟩
    cases h.symm.trans stands.decode
    exact ⟨_, stands⟩

theorem terminalAt_ofText_eq_decode (text : String) (l : Nat) :
    (ofText text).terminalAt l =
      (text.toByteArray.utf8DecodeChar? l).map fun c => (c.toNat, l + c.utf8Size) := by
  ext ⟨t, next⟩
  simp only [terminalAt_ofText_iff_stands, Option.map_eq_some_iff, decode_eq_some_iff,
    Prod.mk.injEq]
  constructor
  · rintro ⟨c, stands, rfl⟩
    exact ⟨c, ⟨next, stands⟩, rfl, stands.next_eq.symm⟩
  · rintro ⟨c, ⟨stop, stands⟩, rfl, rfl⟩
    exact ⟨c, stands.next_eq ▸ stands, rfl⟩

/-! ## From the start to the end -/

/-- The byte offset behind the first `n` characters. -/
def offsetBehind (text : String) (n : Nat) : Nat :=
  (String.ofList (text.toList.take n)).utf8ByteSize

theorem offsetBehind_eq (text : String) (n : Nat) :
    offsetBehind text n = byteLength (text.toList.take n) :=
  utf8ByteSize_ofList _

/-- Behind all of its characters, a text has ended. -/
theorem offsetBehind_of_length_le {n : Nat} (h : text.length ≤ n) :
    offsetBehind text n = text.utf8ByteSize := by
  rw [← String.length_toList] at h
  rw [offsetBehind_eq, List.take_of_length_le h, utf8ByteSize_eq_byteLength]

theorem offsetBehind_succ {n : Nat} (h : n < text.toList.length) :
    offsetBehind text (n + 1) = offsetBehind text n + text.toList[n].utf8Size := by
  rw [offsetBehind_eq, offsetBehind_eq, List.take_succ_eq_append_getElem h, byteLength_append,
    byteLength_cons, byteLength_nil, Nat.add_zero]

/-- The next character is behind the ones before it. -/
theorem terminalAt_offsetBehind {n : Nat} (h : n < text.toList.length) :
    (ofText text).terminalAt (offsetBehind text n) =
      some (text.toList[n].toNat, offsetBehind text (n + 1)) := by
  rw [terminalAt_ofText]
  refine ⟨text.toList.take n, text.toList[n], text.toList.drop (n + 1), ?_, offsetBehind_eq text n,
    rfl, offsetBehind_succ h⟩
  rw [← List.drop_eq_getElem_cons h, List.take_append_drop]

/-- As many steps from the start of a text lead behind as many characters. -/
theorem steps_offsetBehind {n : Nat} (hn : n ≤ text.toList.length) :
    (ofText text).Steps n (ofText text).start (offsetBehind text n) := by
  induction n with
  | zero => exact .zero 0
  | succ n ih => exact (ih (Nat.le_of_lt hn)).trans (.one (terminalAt_offsetBehind hn))

/-- The first `k` characters are all of them, once there are no more. -/
theorem offsetBehind_min (text : String) (k : Nat) :
    offsetBehind text (min k text.length) = offsetBehind text k := by
  rcases Nat.le_total k text.length with hle | hle
  · rw [Nat.min_eq_left hle]
  · rw [Nat.min_eq_right hle, offsetBehind_of_length_le hle, offsetBehind_of_length_le le_rfl]

theorem spells_ofText_start (text : String) :
    (ofText text).Spells (ofText text).start (text.toList.map Char.toNat) :=
  spells_ofText (p := []) rfl

theorem steps_ofText_iff {n m : Nat} :
    (ofText text).Steps n (ofText text).start m ↔ n ≤ text.length ∧ m = offsetBehind text n := by
  rw [← String.length_toList]
  constructor
  · intro h
    obtain ⟨hle, -⟩ := (spells_ofText_start text).after h
    rw [List.length_map] at hle
    exact ⟨hle, h.unique (steps_offsetBehind hle)⟩
  · rintro ⟨hle, rfl⟩
    exact steps_offsetBehind hle

/-- The more characters, the further the offset behind them. -/
theorem pairwise_offsetBehind (text : String) :
    (List.range (text.length + 1)).Pairwise fun n n' =>
      offsetBehind text n < offsetBehind text n' := by
  rw [List.pairwise_iff_getElem]
  intro i j hi hj hij
  simp only [List.length_range, List.getElem_range, offsetBehind_eq] at hj ⊢
  rw [byteLength_lt_iff ((List.take_append_drop i _).trans (List.take_append_drop j _).symm),
    List.length_take, List.length_take, String.length_toList]
  omega

end Source

/-! ## Advancing a cursor -/

/-- Behind `k` terminals, or at the end if there are not as many, the next one is found. -/
theorem Source.Spells.found_of_steps {L : Type} {source : Source L} {l m : L} {ts : List Terminal}
    (h : source.Spells l ts) {k : Nat} (hm : source.Steps (min k ts.length) l m) :
    source.found m = ts[k]? := by
  obtain ⟨-, rest⟩ := h.after hm
  rw [rest.found_eq, List.head?_drop]
  rcases Nat.le_total k ts.length with hle | hle
  · rw [Nat.min_eq_left hle]
  · rw [Nat.min_eq_right hle, List.getElem?_eq_none le_rfl, List.getElem?_eq_none hle]

namespace Session

variable {L S : Type}

/-- The session with its cursor at another location. -/
def movedTo (session : Session L S) (l : L) : Session L S :=
  { session with cursor := { session.cursor with location := l } }

variable [DecidableEq L] [Sink S L Terminal] (scope : Scope L) (fuel : Nat) {before : Session L S}

theorem step_advance {t : Terminal} {next : L}
    (h : scope.source.terminalAt before.location = some (t, next)) :
    before.step scope fuel .advance = some (.terminal (some t), before.movedTo next) := by
  have h : scope.source.terminalAt before.cursor.location = some (t, next) := h
  simp only [step, apply, Parser.advance, h, movedTo]

theorem step_advance_ended (h : scope.source.terminalAt before.location = none) :
    before.step scope fuel .advance = some (.terminal none, before) := by
  have h : scope.source.terminalAt before.cursor.location = none := h
  simp only [step, apply, Parser.advance, h]

/-- A cursor that is advanced over and over reads what is left, one terminal at a time, then no
terminal any more. It does nothing else. -/
theorem run_advance {ts : List Terminal} (h : scope.source.Spells before.location ts) (k : Nat) :
    ∃ m, scope.source.Steps (min k ts.length) before.location m ∧
      before.run scope fuel (List.replicate k .advance) =
        some ((List.range k).map fun i => .terminal ts[i]?, before.movedTo m) := by
  induction k generalizing before ts with
  | zero => exact ⟨before.location, by rw [Nat.zero_min]; exact .zero _, rfl⟩
  | succ k ih =>
    rw [List.replicate_succ, List.range_succ_eq_map, List.map_cons, List.map_map]
    cases h with
    | nil here =>
      obtain ⟨m, steps, hrun⟩ := ih (.nil here)
      refine ⟨m, by simpa using steps, ?_⟩
      exact run_cons_eq_some.2 ⟨_, _, _, step_advance_ended scope fuel here, hrun, rfl⟩
    | @cons _ next t ts here rest =>
      have rest : scope.source.Spells (before.movedTo next).location ts := rest
      obtain ⟨m, steps, hrun⟩ := ih rest
      refine ⟨m, ?_, ?_⟩
      · rw [List.length_cons, Nat.succ_min_succ]
        exact .succ here steps
      · exact run_cons_eq_some.2 ⟨_, _, _, step_advance scope fuel here, hrun, rfl⟩

end Session

namespace Source

/-- **A text is its characters, each at its byte offset.**

* A terminal is at a location exactly if a character begins there: it is that character, and the
  next location is behind it.
* No terminal is at the end, beyond it and inside characters, and nowhere else.
* This is what the bytes of the text say: the terminal is the character that is decoded from them.
* The text has the terminals that its characters are, in order and no more. Steps from the start
  lead behind one character after the other, always further, and the last to the number of bytes.
* A cursor that is advanced over and over answers the characters in order, then that there are none,
  and looks at the one that is next. Nothing but its location changes. -/
theorem ofText_exact (text : String) :
    (∀ l t next, (ofText text).terminalAt l = some (t, next) ↔
      ∃ c, Stands text c l next ∧ t = c.toNat) ∧
    (∀ l, (ofText text).terminalAt l = none ↔
      text.utf8ByteSize ≤ l ∨ ∃ c m next, Stands text c m next ∧ m < l ∧ l < next) ∧
    (∀ l, (ofText text).terminalAt l =
      (text.toByteArray.utf8DecodeChar? l).map fun c => (c.toNat, l + c.utf8Size)) ∧
    (ofText text).Spells (ofText text).start (text.toList.map Char.toNat) ∧
    (∀ n m, (ofText text).Steps n (ofText text).start m ↔
      n ≤ text.length ∧ m = offsetBehind text n) ∧
    ((List.range (text.length + 1)).Pairwise fun n n' =>
      offsetBehind text n < offsetBehind text n') ∧
    (ofText text).Steps text.length (ofText text).start text.utf8ByteSize ∧
    ∀ {S : Type} [Sink S Nat Terminal] (sink : S) (naming : Naming)
      (definitions : String → Option Rule) (fuel k : Nat),
      let session := Session.start (ofText text) sink
      let after := session.movedTo (offsetBehind text k)
      session.run ⟨ofText text, naming, definitions⟩ fuel (List.replicate k .advance) =
          some ((List.range k).map fun i => .terminal (text.toList[i]?.map Char.toNat), after) ∧
        after.cursor.peek (ofText text) = text.toList[k]?.map Char.toNat := by
  refine ⟨fun l t next => terminalAt_ofText_iff_stands, fun l => terminalAt_ofText_eq_none_iff,
    terminalAt_ofText_eq_decode text, spells_ofText_start text, fun n m => steps_ofText_iff,
    pairwise_offsetBehind text, ?_, ?_⟩
  · exact steps_ofText_iff.2 ⟨Nat.le_refl _, (offsetBehind_of_length_le (Nat.le_refl _)).symm⟩
  · intro S _ sink naming definitions fuel k session after
    have spells : (ofText text).Spells session.location (text.toList.map Char.toNat) :=
      spells_ofText_start text
    obtain ⟨m, steps, hrun⟩ := Session.run_advance ⟨ofText text, naming, definitions⟩ fuel spells k
    have hfound : (ofText text).found m = (text.toList.map Char.toNat)[k]? :=
      spells.found_of_steps steps
    obtain ⟨-, rfl⟩ := steps_ofText_iff.1 steps
    rw [List.length_map, String.length_toList, offsetBehind_min] at hfound hrun
    simp only [List.getElem?_map] at hfound hrun
    exact ⟨hrun, hfound⟩

/-- Characters of one to four bytes, and two locations inside of them. -/
example :
    [0, 1, 2, 3, 6, 8, 10].map (ofText "aλ▷😀").terminalAt =
      [some (97, 1), some (955, 3), none, some (9655, 6), some (128512, 10), none, none] := by
  decide

end Source

end Backtrack
