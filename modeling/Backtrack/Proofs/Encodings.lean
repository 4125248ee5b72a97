import Backtrack.Grammar.Sample
import Backtrack.Proofs.Alignment

/-!
# One text in several encodings

A text can be read as characters, as bytes, as words of 16 bits or as scalar values. The boundaries
between its characters are found in each encoding (`TerminalKind.offset`), and what stands there is
the first terminal of the next character (`Source.terminalAt_ofEncoded`): the character itself if it
is ASCII, and a terminal beyond ASCII otherwise. Encodings of a text are therefore aligned
(`Alignment.ofEncodings`), and rules for ASCII terminals do the same on all of them
(`Rule.encodings_agree`).
-/

namespace Backtrack

/-! ## Characters in an encoding -/

namespace TerminalKind

/-- How many locations a character takes: texts of characters are addressed by byte offset, all
others by index. -/
def width : TerminalKind → Char → Nat
  | character, c => c.utf8Size
  | kind, c => (kind.encodeChar c).length

/-- How far behind the first terminal of a character the next location lies. -/
def stride : TerminalKind → Char → Nat
  | character, c => c.utf8Size
  | _, _ => 1

/-- The first terminal of a character. -/
def lead (kind : TerminalKind) (c : Char) : Terminal :=
  (kind.encodeChar c).headD 0

/-- The location behind the characters. -/
def offset (kind : TerminalKind) : List Char → Nat
  | [] => 0
  | c :: chars => kind.width c + kind.offset chars

variable (kind : TerminalKind) {c : Char}

theorem encodeChar_ascii (h : c.toNat < 128) : kind.encodeChar c = [c.toNat] := by
  cases kind with
  | byte =>
    have hv : c.val.toNat ≤ 127 := Nat.le_of_lt_succ h
    have hsmall : c.toNat % 2 ^ 8 = c.toNat := Nat.mod_eq_of_lt (by omega)
    simp only [encodeChar, String.utf8EncodeChar, if_pos hv, List.map_cons, List.map_nil,
      UInt8.toNat_ofNat']
    exact congrArg (fun t => [t]) hsmall
  | character => rfl
  | word16 =>
    have hsmall : c.toNat < 0x10000 := by omega
    simp [encodeChar, utf16Units, hsmall]
  | word32 => rfl

/-- A character beyond ASCII begins with a terminal beyond ASCII. -/
theorem lead_beyond (h : 128 ≤ c.toNat) : 128 ≤ kind.lead c := by
  cases kind with
  | byte =>
    have hv : 128 ≤ c.val.toNat := h
    show (128 : Nat) ≤ ((String.utf8EncodeChar c).map UInt8.toNat).headD 0
    simp only [String.utf8EncodeChar]
    -- by the number of bytes; the first tells it in its upper bits
    split
    · omega
    · split
      · simp only [List.map_cons, List.headD_cons, UInt8.toNat_ofNat']
        omega
      · split
        · simp only [List.map_cons, List.headD_cons, UInt8.toNat_ofNat']
          omega
        · simp only [List.map_cons, List.headD_cons, UInt8.toNat_ofNat']
          omega
  | character => exact h
  | word16 =>
    show (128 : Nat) ≤ (utf16Units c).headD 0
    unfold utf16Units
    by_cases hsmall : c.toNat < 0x10000
    · rw [if_pos hsmall]
      exact h
    · rw [if_neg hsmall, List.headD_cons]
      omega
  | word32 => exact h

theorem encodeChar_ne_nil (c : Char) : kind.encodeChar c ≠ [] := by
  cases kind with
  | byte =>
    intro hnil
    have hlength := String.length_utf8EncodeChar c
    rw [List.map_eq_nil_iff.1 hnil, List.length_nil] at hlength
    exact absurd hlength (Nat.ne_of_lt c.utf8Size_pos)
  | character => simp [encodeChar]
  | word16 =>
    simp only [encodeChar, utf16Units]
    split <;> simp
  | word32 => simp [encodeChar]

theorem head?_encodeChar (c : Char) : (kind.encodeChar c).head? = some (kind.lead c) := by
  obtain ⟨t, rest, h⟩ := List.exists_cons_of_ne_nil (kind.encodeChar_ne_nil c)
  simp [lead, h]

theorem width_pos (c : Char) : 0 < kind.width c := by
  cases kind with
  | character => exact c.utf8Size_pos
  | byte | word16 | word32 => exact List.length_pos_iff.2 (encodeChar_ne_nil _ c)

/-- An ASCII character is one terminal, and takes one location. -/
theorem ascii_alone (h : c.toNat < 128) : kind.lead c = c.toNat ∧ kind.stride c = kind.width c := by
  have hchar := kind.encodeChar_ascii h
  refine ⟨by simp [lead, hchar], ?_⟩
  cases kind with
  | character => rfl
  | byte | word16 | word32 => simp [stride, width, hchar]

/-! ### Boundaries -/

@[simp] theorem offset_nil : kind.offset [] = 0 := rfl

@[simp] theorem offset_cons (c : Char) (chars : List Char) :
    kind.offset (c :: chars) = kind.width c + kind.offset chars := rfl

@[simp] theorem offset_append (p q : List Char) :
    kind.offset (p ++ q) = kind.offset p + kind.offset q := by
  induction p with
  | nil => simp
  | cons c p ih =>
    simp only [List.cons_append, offset_cons, ih]
    omega

theorem length_le_offset (p : List Char) : p.length ≤ kind.offset p := by
  induction p with
  | nil => exact Nat.le_refl 0
  | cons c p ih =>
    have hpos := kind.width_pos c
    simp only [List.length_cons, offset_cons]
    omega

/-- Of two boundaries in one text, the one behind more characters is further along. -/
theorem offset_lt_iff {p q r s : List Char} (h : p ++ q = r ++ s) :
    kind.offset p < kind.offset r ↔ p.length < r.length := by
  rcases List.append_eq_append_iff.1 h with ⟨between, rfl, -⟩ | ⟨between, rfl, -⟩
  · have hle := kind.length_le_offset between
    rw [offset_append, List.length_append]
    cases between with
    | nil => simp
    | cons c between =>
      rw [List.length_cons] at hle ⊢
      omega
  · rw [offset_append, List.length_append]
    omega

theorem offset_character (p : List Char) : character.offset p = Source.byteLength p := by
  induction p with
  | nil => rfl
  | cons c p ih => simp [width, ih]

theorem offset_units (units : kind ≠ character) (p : List Char) :
    kind.offset p = (p.flatMap kind.encodeChar).length := by
  induction p with
  | nil => rfl
  | cons c p ih =>
    have hwidth : kind.width c = (kind.encodeChar c).length := by
      cases kind with
      | character => exact absurd rfl units
      | byte | word16 | word32 => rfl
    rw [offset_cons, ih, hwidth, List.flatMap_cons, List.length_append]

/-- Bytes are addressed as characters are. -/
theorem offset_byte (p : List Char) : byte.offset p = character.offset p := by
  induction p with
  | nil => rfl
  | cons c p ih =>
    have hwidth : byte.width c = character.width c := by
      simp [width, encodeChar, String.length_utf8EncodeChar]
    rw [offset_cons, offset_cons, ih, hwidth]

end TerminalKind

/-! ## Texts in an encoding -/

namespace Source

/-- What stands between two characters: the first terminal of the next one. -/
theorem terminalAt_ofEncoded (kind : TerminalKind) {text : String} {p q : List Char}
    (h : text.toList = p ++ q) :
    (ofEncoded kind text).terminalAt (kind.offset p)
      = q.head?.map fun c => (kind.lead c, kind.offset p + kind.stride c) := by
  by_cases units : kind = .character
  · subst units
    rw [TerminalKind.offset_character]
    have left := spells_ofText h
    cases q with
    | nil => cases left with | nil here => exact here
    | cons c q => exact terminalAt_ofText.2 ⟨p, c, q, h, rfl, rfl, rfl⟩
  · have hsource : ofEncoded kind text = ofArray (kind.encode text).toArray := by
      cases kind with
      | character => exact absurd rfl units
      | byte | word16 | word32 => rfl
    have hstride (c : Char) : kind.stride c = 1 := by
      cases kind with
      | character => exact absurd rfl units
      | byte | word16 | word32 => rfl
    have hread : (kind.encode text)[kind.offset p]? = q.head?.map kind.lead := by
      rw [TerminalKind.encode, h, List.flatMap_append, kind.offset_units units,
        List.getElem?_append_right (Nat.le_refl _), Nat.sub_self]
      cases q with
      | nil => rfl
      | cons c q =>
        rw [List.flatMap_cons, ← List.head?_eq_getElem?, List.head?_append, kind.head?_encodeChar]
        rfl
    rw [hsource]
    simp only [ofArray, List.getElem?_toArray, hread, Option.map_map, hstride]
    rfl

end Source

/-- A text read in terminals of a kind. -/
def Scope.encoded (definitions : String → Option Rule) (elided : Bool) (text : String)
    (kind : TerminalKind) : Scope Nat where
  source := .ofEncoded kind text
  naming := .offsets kind elided
  definitions

/-- **Encodings of a text are aligned** at the boundaries of its characters. -/
def Alignment.ofEncodings (definitions : String → Option Rule) (elided : Bool) (text : String)
    (kind kind' : TerminalKind) : Alignment where
  scope := .encoded definitions elided text kind
  scope' := .encoded definitions elided text kind'
  definitions := rfl
  place l l' := ∃ p q, text.toList = p ++ q ∧ l = kind.offset p ∧ l' = kind'.offset p
  start := by
    have hstart (kind : TerminalKind) : (Source.ofEncoded kind text).start = 0 := by
      cases kind <;> rfl
    exact ⟨[], text.toList, rfl, hstart kind, hstart kind'⟩
  lt_iff := by
    rintro _ _ _ _ ⟨p, q, h, rfl, rfl⟩ ⟨r, s, h', rfl, rfl⟩
    rw [kind.offset_lt_iff (h.symm.trans h'), kind'.offset_lt_iff (h.symm.trans h')]
  reads := by
    rintro _ _ ⟨p, q, h, rfl, rfl⟩
    have hread (kind : TerminalKind) :
        (Scope.encoded definitions elided text kind).source.terminalAt (kind.offset p) = _ :=
      Source.terminalAt_ofEncoded kind h
    rw [hread kind, hread kind']
    cases q with
    | nil => exact .ended
    | cons c q =>
      by_cases hc : c.toNat < 128
      · obtain ⟨hlead, hstride⟩ := kind.ascii_alone hc
        obtain ⟨hlead', hstride'⟩ := kind'.ascii_alone hc
        simp only [List.head?_cons, Option.map_some, hlead, hstride, hlead', hstride']
        exact .same ⟨p ++ [c], q, by simp [h], by simp, by simp⟩
      · exact .beyond (kind.lead_beyond (Nat.not_lt.1 hc)) (kind'.lead_beyond (Nat.not_lt.1 hc))

namespace Rule

/-- **All encodings of a text agree** about rules for ASCII terminals.

* In any two encodings, an attempt from one boundary between characters, such as the start, comes to
  no end in both, or to the same value or error, with the same reports in order. All of these are
  located at the same boundaries, and so are the cursors afterwards.
* Boundaries have the same location in characters and in bytes.
* A text and its bytes are judged alike, as whole inputs. -/
theorem encodings_agree (definitions : String → Option Rule) (elided : Bool) (text : String)
    (fuel : Nat) {rule : Rule}
    (ascii : (Scope.encoded definitions elided text .character).Throughout Ascii rule) :
    (∀ kind kind' : TerminalKind,
      let encodings := Alignment.ofEncodings definitions elided text kind kind'
      encodings.place encodings.scope.source.start encodings.scope'.source.start ∧
        ∀ {S T : Type} [Sink S Nat Terminal] [Sink T Nat Terminal] (cursor : Cursor Nat S)
          (cursor' : Cursor Nat T), encodings.place cursor.location cursor'.location →
            rule.attempt encodings.scope fuel cursor = .unfinished ∧
                rule.attempt encodings.scope' fuel cursor' = .unfinished ∨
              ∃ a a' : Account Nat Value,
                rule.attempt encodings.scope fuel cursor = a.replyTo cursor ∧
                  rule.attempt encodings.scope' fuel cursor' = a'.replyTo cursor' ∧
                  encodings.SameAccount a a' ∧ encodings.place a.location a'.location) ∧
    let encodings := Alignment.ofEncodings definitions elided text .character .byte
    (∀ l l', encodings.place l l' → l' = l) ∧
      encodings.SameVerdict (rule.parseText definitions elided fuel text)
        (rule.parseBytes definitions elided fuel (TerminalKind.byte.encode text).toArray) := by
  refine ⟨?_, ?_, ?_⟩
  · intro kind kind' encodings
    refine ⟨encodings.start, ?_⟩
    intro S T _ _ cursor cursor' here
    have hascii : encodings.scope.Throughout Ascii rule := ascii.of_definitions rfl
    exact encodings.attempt_same fuel hascii here
  · rintro _ _ ⟨p, q, h, rfl, rfl⟩
    exact TerminalKind.offset_byte p
  · exact (Alignment.ofEncodings definitions elided text .character .byte).parseAll_same fuel ascii

/-- Behind `a,` no letter is found in `é`, be it one character or two bytes: the input is rejected
at the comma. -/
theorem encodings_agree_letters :
    let encodings := Alignment.ofEncodings (fun _ => none) true "a,é" .character .byte
    (∃ failure trace, Grammar.letters.parseText (fun _ => none) true 3 "a,é"
        = .rejected failure trace ∧ failure.error = .expected "end" 1 ∧
          failure.sink.location? = some 2 ∧ failure.sink.found = some 233) ∧
      encodings.SameVerdict (Grammar.letters.parseText (fun _ => none) true 3 "a,é")
        (Grammar.letters.parseBytes (fun _ => none) true 3 #[97, 44, 195, 169]) := by
  intro encodings
  have ascii : (Scope.encoded (fun _ => none) true "a,é" .character).Throughout Ascii
      Grammar.letters :=
    Scope.throughout_sepBy1 trivial (Scope.throughout_terminal trivial)
      (Scope.throughout_terminal trivial)
  exact ⟨⟨_, _, rfl, rfl, rfl, rfl⟩, (encodings_agree (fun _ => none) true "a,é" 3 ascii).2.2⟩

end Rule

end Backtrack
