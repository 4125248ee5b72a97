import Backtrack.Proofs.ColorForms
import Backtrack.Proofs.Lookahead
import Backtrack.Rule.Fuel

/-!
# Colors are exact

A whole input is a color exactly where it is the text of that color, in either form. It is an
overflow exactly where a channel of the decimal form, behind others that fit, begins with digits
beyond a byte, and in every other case something else was expected (`Color.color_exact`). The two
forms begin differently, so that the hexadecimal form is absent wherever the decimal form begins.
Two hexadecimal digits never exceed a byte (`Color.hexChannel_fits`).
-/

namespace Backtrack

namespace Color

variable {L : Type}

/-! ## Either form -/

section

variable (naming : Naming) {color : Color} {ts : List Terminal}

/-- The decimal form is read where the hexadecimal form is absent. -/
theorem meaning_color (ts : List Terminal) :
    Grammar.color.meaning naming ts
      = match Grammar.hexColor.meaning naming ts with
        | .matched value k => .matched value k
        | .absent .. => Grammar.rgbColor.meaning naming ts
        | .overflow type k => .overflow type k :=
  Rule.meaning_choice_pair

/-- Where the decimal form begins, the hexadecimal form is absent. -/
theorem meaning_color_opening (ts : List Terminal) :
    Grammar.color.meaning naming (opening ++ ts)
      = Grammar.rgbColor.meaning naming (opening ++ ts) := by
  have missing : ∀ text value rest, (∃ color : Color, color.HexText text ∧ value = color.toValue) →
      opening ++ ts ≠ text ++ rest := by
    rintro text value rest ⟨color, ⟨-, -, -⟩, -⟩ hfront
    cases hfront
  obtain ⟨name, k, habsent⟩ := (reads_hexColor naming).absent missing
  rw [meaning_color, habsent]

/-- The text of a color is read to its end. -/
theorem color_matched {text : List Terminal} (h : color.HexText text ∨ color.DecimalText text)
    (rest : List Terminal) :
    Grammar.color.meaning naming (text ++ rest) = .matched color.toValue text.length := by
  rcases h with h | h
  · rw [meaning_color, (reads_hexColor naming).matched ⟨color, h, rfl⟩]
  · have hrgb := rgbColor_matched naming h rest
    obtain @⟨red, green, blue, -, -, -⟩ := h
    simp only [List.append_assoc] at hrgb ⊢
    rw [meaning_color_opening, hrgb]

/-- Digits that are too large are an overflow. -/
theorem color_overflow {n : Nat} (h : TooLarge ts n) :
    Grammar.color.meaning naming ts = .overflow "u8" n := by
  have hrgb := rgbColor_overflow naming h
  obtain ⟨good, bad, k, -, -, -, rfl, -⟩ := h
  rw [List.append_assoc] at hrgb ⊢
  rw [meaning_color_opening, hrgb]

/-- Terminals begin with the text of a color, or a channel is too large, or something else is
missing. -/
theorem color_cases (ts : List Terminal) :
    (∃ (color : Color) (text rest : List Terminal),
        (color.HexText text ∨ color.DecimalText text) ∧ ts = text ++ rest) ∨
      (∃ n, TooLarge ts n) ∨
      ∃ name k, Grammar.color.meaning naming ts = .absent name k := by
  by_cases hex : ∃ (color : Color) (text rest : List Terminal),
      color.HexText text ∧ ts = text ++ rest
  · obtain ⟨color, text, rest, h, hts⟩ := hex
    exact .inl ⟨color, text, rest, .inl h, hts⟩
  · have missing : ∀ text value rest,
        (∃ color : Color, color.HexText text ∧ value = color.toValue) → ts ≠ text ++ rest := by
      rintro text value rest ⟨color, h, -⟩ hts
      exact hex ⟨color, text, rest, h, hts⟩
    obtain ⟨name, k, habsent⟩ := (reads_hexColor naming).absent missing
    have hcolor : Grammar.color.meaning naming ts = Grammar.rgbColor.meaning naming ts := by
      rw [meaning_color, habsent]
    rw [hcolor]
    rcases rgbColor_cases naming ts with ⟨color, text, rest, h, hts⟩ | large | absent
    · exact .inl ⟨color, text, rest, .inr h, hts⟩
    · exact .inr (.inl large)
    · exact .inr (.inr absent)

end

/-! ## Whole inputs -/

/-- A color and nothing behind it. -/
def whole : Rule :=
  .seq [Grammar.color, .endOfInput]

section

variable (naming : Naming) {color : Color} {ts : List Terminal}

theorem whole_matched (h : color.HexText ts ∨ color.DecimalText ts) :
    whole.meaning naming ts = .matched (.tuple [color.toValue, .unit]) ts.length := by
  have hcolor := color_matched naming h []
  rw [List.append_nil] at hcolor
  rw [whole, Rule.meaning_whole, hcolor]
  exact if_pos (Nat.le_refl _)

theorem whole_overflow {n : Nat} (h : TooLarge ts n) :
    whole.meaning naming ts = .overflow "u8" n := by
  rw [whole, Rule.meaning_whole, color_overflow naming h]

/-- Terminals are the text of a color, or a channel is too large, or something else is missing. -/
theorem whole_cases (ts : List Terminal) :
    (∃ color : Color, color.HexText ts ∨ color.DecimalText ts) ∨ (∃ n, TooLarge ts n) ∨
      ∃ name k, whole.meaning naming ts = .absent name k := by
  rcases color_cases naming ts with ⟨color, text, rest, h, hts⟩ | large | ⟨name, k, habsent⟩
  · by_cases ended : rest = []
    · rw [ended, List.append_nil] at hts
      exact .inl ⟨color, hts ▸ h⟩
    · have hpos := List.length_pos_iff.2 ended
      have hlonger : ¬ (text ++ rest).length ≤ text.length := by
        rw [List.length_append]
        omega
      have hmeaning : whole.meaning naming (text ++ rest) = _ := Rule.meaning_whole
      rw [color_matched naming h] at hmeaning
      simp only [if_neg hlonger] at hmeaning
      rw [hts]
      exact .inr (.inr ⟨_, _, hmeaning⟩)
  · exact .inr (.inl large)
  · exact .inr (.inr ⟨name, k, by rw [whole, Rule.meaning_whole, habsent]⟩)

end

/-! ## Attempts -/

theorem direct_whole (scope : Scope L) : scope.Throughout Rule.Direct whole := by
  have terminal (accepted : TerminalClass) : scope.Throughout Rule.Direct (.terminal accepted) :=
    Scope.throughout_terminal trivial
  have channel : scope.Throughout Rule.Direct (.spaced Grammar.byte) :=
    Scope.throughout_padded trivial (Rule.throughout_direct_numeral scope _ _ _) (terminal _)
  have hexChannel : scope.Throughout Rule.Direct Grammar.hexChannel := by
    refine Scope.throughout_assemble (List.forall_mem_singleton.2 ?_) trivial
    exact Scope.throughout_seq (by simp [Rule.digit, terminal]) trivial
  have hex : scope.Throughout Rule.Direct Grammar.hexColor := by
    refine Scope.throughout_assemble (List.forall_mem_singleton.2 ?_) trivial
    exact Scope.throughout_seq (by simp [Grammar.character, terminal, hexChannel]) trivial
  have front : scope.Throughout Rule.Direct (.seq openingRules) :=
    Scope.throughout_seq
      (by simp [openingRules, Grammar.character, Rule.mark, terminal]) trivial
  have channels : scope.Throughout Rule.Direct (.seq (channelRules 2)) :=
    Scope.throughout_seq (by simp [channelRules, Rule.row, Rule.mark, terminal, channel]) trivial
  have rgb : scope.Throughout Rule.Direct Grammar.rgbColor := by
    rw [rgbColor_eq]
    exact Scope.throughout_assemble (by simp [Rule.mark, terminal, front, channels]) trivial
  have color : scope.Throughout Rule.Direct Grammar.color :=
    Scope.throughout_choice (by simp [hex, rgb]) trivial
  have ended : scope.Throughout Rule.Direct .endOfInput := .intro trivial (by simp [Rule.parts])
  exact Scope.throughout_seq (by simp [color, ended]) trivial

section

variable [DecidableEq L] {S : Type} [Sink S L Terminal] {scope : Scope L} {fuel : Nat}
  {cursor after : Cursor L S}

/-- Two hexadecimal digits look at two terminals at most. -/
theorem looks_hexChannel : Grammar.hexChannel.Looks S scope (fuel + 3) 2 := by
  refine .assemble (n := 2) ?_ (by simp) _ _ _
  intro rule hrule
  obtain rfl := List.mem_singleton.1 hrule
  refine .seq (n := 1) ?_ (by simp)
  intro rule hrule
  obtain rfl : rule = Rule.digit .hex (.unsigned .w8) := by simpa using hrule
  exact .terminal _ (Nat.le_refl 1)

/-- Two hexadecimal digits stay within a byte, on every source. -/
theorem hexChannel_fits {value : Value}
    (h : Grammar.hexChannel.attempt scope fuel cursor = .ok value after) :
    ∃ t u high low, scope.source.Begins cursor.location [t, u] ∧ HexDigit t high ∧
      HexDigit u low ∧ high * 16 + low ≤ 255 ∧ value = .integer (high * 16 + low : Nat) := by
  obtain ⟨ts, shown⟩ := scope.source.exists_shows 2 cursor.location
  have hmore := Rule.attempt_eq_of_le h Reply.ok_ne_unfinished (Nat.le_add_right fuel 3)
  have looks : Grammar.hexChannel.Looks S scope (fuel + 3) 2 := looks_hexChannel
  have describes := looks.attempt.describes cursor ts shown
  rw [hmore] at describes
  have reads := reads_hexChannel scope.naming
  by_cases hfront : ∃ text n rest, HexPair text n ∧ ts = text ++ rest
  · obtain ⟨text, n, rest, pair, rfl⟩ := hfront
    rw [reads.matched ⟨n, pair, rfl⟩ rest] at describes
    obtain ⟨after', hok, -⟩ := describes
    cases hok
    have fits := pair.le
    obtain @⟨t, u, high, low, first, second⟩ := pair
    exact ⟨t, u, high, low, shown.begins.of_append, first, second, fits, rfl⟩
  · have missing : ∀ text value rest, NumberText HexPair text value → ts ≠ text ++ rest := by
      rintro text value rest ⟨n, pair, -⟩ hts
      exact hfront ⟨text, n, rest, pair, hts⟩
    obtain ⟨name, k, habsent⟩ := reads.absent missing
    rw [habsent] at describes
    obtain ⟨m, back, hfail, -⟩ := describes
    cases hfail

end

/-- **Colors are exact**, on every source that comes to an end and wherever an attempt starts. With
enough fuel, and whatever the sink holds, the color and the end behind it come to one of three.

* They match exactly where the terminals left are the text of the color, in either form, and the
  value is this color and no other.
* They overflow exactly where a channel of the decimal form, behind at most two that fit, begins
  with digits beyond a byte. The overflow is at the digit that takes them there.
* In every other case something else was expected.

A failure leaves the cursor where it was. The number that two hexadecimal digits denote is within a
byte, on any source at all. -/
theorem color_exact [DecidableEq L] (scope : Scope L) :
    (∀ {S : Type} [Sink S L Terminal] fuel (cursor after : Cursor L S) value,
      Grammar.hexChannel.attempt scope fuel cursor = .ok value after →
        ∃ t u high low, scope.source.Begins cursor.location [t, u] ∧ HexDigit t high ∧
          HexDigit u low ∧ high * 16 + low ≤ 255 ∧ value = .integer (high * 16 + low : Nat)) ∧
    ∀ l ts, scope.source.Spells l ts → ∃ enough, ∀ fuel, enough ≤ fuel →
      ∀ {S : Type} [Sink S L Terminal] (cursor : Cursor L S), cursor.location = l →
        let reply := (Rule.seq [Grammar.color, .endOfInput]).attempt scope fuel cursor
        (∀ color : Color, (∃ after, reply = .ok (.tuple [color.toValue, .unit]) after) ↔
          color.HexText ts ∨ color.DecimalText ts) ∧
        (∀ value after, reply = .ok value after →
          ∃ color : Color, value = .tuple [color.toValue, .unit]) ∧
        (∀ type m, (∃ back, reply = .fail (.overflow type m) back) ↔
          type = "u8" ∧ ∃ n, TooLarge ts n ∧ scope.source.Steps n l m) ∧
        ((∀ color : Color, ¬ (color.HexText ts ∨ color.DecimalText ts)) →
          (∀ n, ¬ TooLarge ts n) → ∃ rule m back, reply = .fail (.expected rule m) back) ∧
        ∀ error back, reply = .fail error back → back.location = l := by
  refine ⟨fun fuel cursor after value h => hexChannel_fits h, ?_⟩
  intro l ts left
  refine ⟨sizeOf whole + ts.length + 1, ?_⟩
  intro fuel hfuel S _ cursor here reply
  subst here
  have describes : scope.source.Describes cursor.location (whole.meaning scope.naming ts) reply :=
    Rule.attempt_describes (direct_whole scope) left hfuel
  have of_text {color : Color} (h : color.HexText ts ∨ color.DecimalText ts) :
      ∃ after, reply = .ok (.tuple [color.toValue, .unit]) after := by
    rw [whole_matched scope.naming h] at describes
    obtain ⟨after, hok, -⟩ := describes
    exact ⟨after, hok⟩
  have of_tooLarge {n : Nat} (h : TooLarge ts n) :
      ∃ m back, reply = .fail (.overflow "u8" m) back ∧ scope.source.Steps n cursor.location m := by
    rw [whole_overflow scope.naming h] at describes
    exact describes
  have outcome : (∃ color : Color, color.HexText ts ∨ color.DecimalText ts) ∨
      (∃ n, TooLarge ts n) ∨ ∃ rule m back, reply = .fail (.expected rule m) back := by
    rcases whole_cases scope.naming ts with text | large | ⟨rule, k, habsent⟩
    · exact .inl text
    · exact .inr (.inl large)
    · rw [habsent] at describes
      obtain ⟨m, back, hfail, -⟩ := describes
      exact .inr (.inr ⟨rule, m, back, hfail⟩)
  have of_ok {value : Value} {after : Cursor L S} (hok : reply = .ok value after) :
      ∃ color : Color, (color.HexText ts ∨ color.DecimalText ts) ∧
        value = .tuple [color.toValue, .unit] := by
    rcases outcome with ⟨color, h⟩ | ⟨n, large⟩ | ⟨rule, m, back, hfail⟩
    · obtain ⟨after', hok'⟩ := of_text h
      cases hok.symm.trans hok'
      exact ⟨color, h, rfl⟩
    · obtain ⟨m, back, hfail, -⟩ := of_tooLarge large
      cases hok.symm.trans hfail
    · cases hok.symm.trans hfail
  refine ⟨?_, ?_, ?_, ?_, ?_⟩
  · intro color
    constructor
    · intro h
      obtain ⟨after, hok⟩ := h
      obtain ⟨color', h, hvalue⟩ := of_ok hok
      obtain rfl : color = color' := toValue_inj (by simpa using hvalue)
      exact h
    · exact of_text
  · intro value after hok
    obtain ⟨color, -, hvalue⟩ := of_ok hok
    exact ⟨color, hvalue⟩
  · intro type m
    constructor
    · intro h
      obtain ⟨back, hfail⟩ := h
      rcases outcome with ⟨color, h⟩ | ⟨n, large⟩ | ⟨rule, m', back', hfail'⟩
      · obtain ⟨after, hok⟩ := of_text h
        cases hok.symm.trans hfail
      · obtain ⟨m', back', hfail', hn⟩ := of_tooLarge large
        cases hfail.symm.trans hfail'
        exact ⟨rfl, n, large, hn⟩
      · cases hfail.symm.trans hfail'
    · intro h
      obtain ⟨rfl, n, large, hn⟩ := h
      obtain ⟨m', back, hfail, hn'⟩ := of_tooLarge large
      rw [hn.unique hn']
      exact ⟨back, hfail⟩
  · intro no_text fits
    rcases outcome with ⟨color, h⟩ | ⟨n, large⟩ | expected
    · exact absurd h (no_text color)
    · exact absurd large (fits n)
    · exact expected
  · intro error back hfail
    exact Scope.attempt_fail_location hfail

/-- In `rgb(7,300` the last digit is one too many. -/
theorem color_exact_overflow :
    ∃ enough, ∀ fuel, enough ≤ fuel → ∃ back,
      Color.read fuel #[114, 103, 98, 40, 55, 44, 51, 48, 48] = .fail (.overflow "u8" 8) back ∧
        back.location = 0 := by
  let scope : Scope Nat :=
    { source := .ofArray #[114, 103, 98, 40, 55, 44, 51, 48, 48], naming := .offsets .byte false,
      definitions := fun _ => none }
  have left : scope.source.Spells 0 [114, 103, 98, 40, 55, 44, 51, 48, 48] :=
    Source.spells_ofArray _ (Nat.zero_le _)
  obtain ⟨enough, h⟩ := (color_exact scope).2 0 _ left
  refine ⟨enough, ?_⟩
  intro fuel hfuel
  have byte : PaddedByte ([] ++ Digit.decimals [7] ++ []) (Digit.number 10 [7]) :=
    .intro (by decide) (by decide) (by decide) (by decide) (by decide)
  have exceeds : Digit.FirstExcess 255 10 [3, 0, 0] 2 := ⟨by decide, by decide, by decide⟩
  have excess : PaddedExcess ([] ++ Digit.decimals [3, 0, 0] ++ []) (List.length [] + 2) :=
    .intro (by simp) (by decide) exceeds
  have large : TooLarge [114, 103, 98, 40, 55, 44, 51, 48, 48] 8 :=
    ⟨[[55]], [51, 48, 48], 2, by decide, by simpa using ⟨7, byte⟩, excess, rfl, rfl⟩
  have steps : scope.source.Steps 8 0 8 :=
    .succ rfl (.succ rfl (.succ rfl (.succ rfl (.succ rfl (.succ rfl (.succ rfl (.succ rfl
      (.zero _))))))))
  obtain ⟨-, -, overflow, -, stays⟩ := h fuel hfuel (.atStart scope.source LastReport.empty) rfl
  obtain ⟨back, hfail⟩ := (overflow "u8" 8).2 ⟨rfl, 8, large, steps⟩
  exact ⟨back, hfail, stays _ back hfail⟩

end Color

end Backtrack
