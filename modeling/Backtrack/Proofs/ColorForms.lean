import Backtrack.Grammar.Color
import Backtrack.Proofs.ByteLists
import Backtrack.Proofs.Texts

/-!
# The two forms of colors

The text of a color is three pairs of hexadecimal digits behind a `#` (`Color.HexText`), or three
bytes with whitespace around them, between commas and in parentheses (`Color.DecimalText`). In the
decimal form, a channel behind others that fit may begin with digits beyond a byte
(`Color.TooLarge`).

The hexadecimal form reads texts of its own (`Color.reads_hexColor`). The decimal form is followed
from channel to channel: as many as there are with a comma behind them are split off, and the
channel behind them decides (`Color.rgbColor_cases`).
-/

namespace Backtrack

open Rule (meanings)

/-! ## Texts -/

/-- A hexadecimal digit, in either case. -/
inductive HexDigit : Terminal → Nat → Prop where
  | decimal {d : Nat} (small : d < 10) : HexDigit ('0'.toNat + d) d
  | lower {d : Nat} (small : d < 6) : HexDigit ('a'.toNat + d) (10 + d)
  | upper {d : Nat} (small : d < 6) : HexDigit ('A'.toNat + d) (10 + d)

/-- Two hexadecimal digits. -/
inductive HexPair : List Terminal → Nat → Prop where
  | intro {t u : Terminal} {high low : Nat} (first : HexDigit t high) (second : HexDigit u low) :
      HexPair [t, u] (high * 16 + low)

namespace Color

/-- The text of a color in hexadecimal form. -/
inductive HexText (color : Color) : List Terminal → Prop where
  | intro {red green blue : List Terminal} (hred : HexPair red color.red.toNat)
      (hgreen : HexPair green color.green.toNat) (hblue : HexPair blue color.blue.toNat) :
      HexText color ('#'.toNat :: (red ++ green ++ blue))

/-- What the decimal form begins with. -/
def opening : List Terminal :=
  ['r'.toNat, 'g'.toNat, 'b'.toNat, '('.toNat]

/-- The text of a color in decimal form. -/
inductive DecimalText (color : Color) : List Terminal → Prop where
  | intro {red green blue : List Terminal} (hred : PaddedByte red color.red.toNat)
      (hgreen : PaddedByte green color.green.toNat) (hblue : PaddedByte blue color.blue.toNat) :
      DecimalText color (opening ++ ByteList.leading [red, green] ++ blue ++ [')'.toNat])

/-- The terminals begin like a color in decimal form, with at most two channels and a comma behind
each. Then there are digits beyond a byte, and the one behind so many terminals takes them there. -/
def TooLarge (ts : List Terminal) (n : Nat) : Prop :=
  ∃ good bad k, good.length ≤ 2 ∧ (∀ piece ∈ good, ∃ n, PaddedByte piece n) ∧ PaddedExcess bad k ∧
    ts = opening ++ ByteList.leading good ++ bad ∧
    n = opening.length + (ByteList.leading good).length + k

end Color

/-! ## Channels -/

theorem HexDigit.lt {t : Terminal} {d : Nat} (h : HexDigit t d) : d < 16 := by
  cases h <;> omega

theorem HexPair.le {text : List Terminal} {n : Nat} (h : HexPair text n) : n ≤ 255 := by
  cases h with
  | intro first second =>
    have hhigh := first.lt
    have hlow := second.lt
    omega

theorem PaddedByte.le {piece : List Terminal} {n : Nat} (h : PaddedByte piece n) : n ≤ 255 := by
  cases h with
  | intro _ _ _ _ fits => exact fits

/-- The letters begin at 97 and at 65 with the value ten. -/
theorem hexDigit_iff {t : Terminal} {d : Nat} :
    HexDigit t d ↔ d < 10 ∧ t = 48 + d ∨ 10 ≤ d ∧ d < 16 ∧ (t = 87 + d ∨ t = 55 + d) := by
  constructor
  · intro h
    cases h with
    | decimal small => exact .inl ⟨small, rfl⟩
    | @lower d small =>
      change _ ∨ 10 ≤ 10 + d ∧ 10 + d < 16 ∧ (97 + d = 87 + (10 + d) ∨ 97 + d = 55 + (10 + d))
      omega
    | @upper d small =>
      change _ ∨ 10 ≤ 10 + d ∧ 10 + d < 16 ∧ (65 + d = 87 + (10 + d) ∨ 65 + d = 55 + (10 + d))
      omega
  · intro h
    rcases h with ⟨small, rfl⟩ | ⟨hten, small, hletter⟩
    · exact .decimal small
    · obtain ⟨k, rfl⟩ := Nat.exists_eq_add_of_le hten
      rcases hletter with rfl | rfl
      · have hlower : 87 + (10 + k) = 'a'.toNat + k := by rw [← Nat.add_assoc]; rfl
        rw [hlower]
        exact .lower (by omega)
      · have hupper : 55 + (10 + k) = 'A'.toNat + k := by rw [← Nat.add_assoc]; rfl
        rw [hupper]
        exact .upper (by omega)

theorem Digit.hex_value?_eq_some {t : Terminal} {d : Nat} :
    Digit.hex.value? t = some d ↔ HexDigit t d := by
  simp (disch := decide) only [Digit.value?, Terminal.between_eq, hexDigit_iff]
  grind

namespace Color

variable (color : Color)

theorem toValue_inj {color color' : Color} (h : color.toValue = color'.toValue) :
    color = color' := by
  obtain ⟨red, green, blue⟩ := color
  obtain ⟨red', green', blue'⟩ := color'
  simp only [toValue, Value.record.injEq, List.cons.injEq, Value.integer.injEq, Int.ofNat_inj,
    UInt8.toNat_inj, and_true, true_and] at h
  obtain ⟨rfl, rfl, rfl⟩ := h
  rfl

theorem ofChannels_toNat :
    ofChannels color.red.toNat color.green.toNat color.blue.toNat = color.toValue := by
  simp [ofChannels]

/-- Numbers within a byte are the channels of a color. -/
theorem exists_channels {red green blue : Nat} (hred : red ≤ 255) (hgreen : green ≤ 255)
    (hblue : blue ≤ 255) :
    ∃ color : Color, color.red.toNat = red ∧ color.green.toNat = green ∧
      color.blue.toNat = blue := by
  have fits {n : Nat} (hn : n ≤ 255) : (UInt8.ofNat n).toNat = n :=
    UInt8.toNat_ofNat_of_lt' (by simp only [UInt8.size]; omega)
  exact ⟨⟨.ofNat red, .ofNat green, .ofNat blue⟩, fits hred, fits hgreen, fits hblue⟩

/-! ## The hexadecimal form -/

section

variable (naming : Naming)

theorem reads_hexDigit :
    (Rule.digit .hex (.unsigned .w8)).Reads naming
      (NumberText fun text d => ∃ t, text = [t] ∧ HexDigit t d) := by
  apply (Rule.reads_terminal (.digit .hex (.unsigned .w8))).congr
  intro text value
  simp only [TerminalClass.accept, Digit.read?_eq, Option.map_map, Option.map_eq_some_iff,
    Digit.hex_value?_eq_some, NumberText]
  grind

theorem reads_hexChannel : Grammar.hexChannel.Reads naming (NumberText HexPair) := by
  have digit := reads_hexDigit naming
  apply (Rule.reads_assemble_seq (.cons digit (.cons digit .nil)) _ _ _).congr
  intro text value
  constructor
  · intro h
    obtain ⟨values, spelled, rfl⟩ := h
    obtain _ | ⟨first, spelled⟩ := spelled
    obtain _ | ⟨second, spelled⟩ := spelled
    obtain _ | _ := spelled
    obtain ⟨high, ⟨t, rfl, hhigh⟩, rfl⟩ := first
    obtain ⟨low, ⟨u, rfl, hlow⟩, rfl⟩ := second
    exact ⟨_, .intro hhigh hlow, by simp [channelOfMembers]⟩
  · intro h
    obtain ⟨n, pair, rfl⟩ := h
    obtain @⟨t, u, high, low, hhigh, hlow⟩ := pair
    have digitText {t : Terminal} {d : Nat} (h : HexDigit t d) :
        NumberText (fun text d => ∃ t, text = [t] ∧ HexDigit t d) [t] (.integer d) :=
      ⟨d, ⟨t, rfl, h⟩, rfl⟩
    refine ⟨[.integer high, .integer low], ?_, by simp [channelOfMembers]⟩
    exact .cons (digitText hhigh) (.cons (digitText hlow) .nil)

theorem reads_hexColor :
    Grammar.hexColor.Reads naming fun text value =>
      ∃ color : Color, color.HexText text ∧ value = color.toValue := by
  have hash : (Grammar.character '#').Reads naming (CharacterText '#') := Rule.reads_exactly _ '#'
  have channel := reads_hexChannel naming
  have channels := List.Forall₂.cons channel (.cons channel (.cons channel .nil))
  apply (Rule.reads_assemble_seq (.cons hash channels) _ _ _).congr
  intro text value
  constructor
  · intro h
    obtain ⟨values, spelled, rfl⟩ := h
    obtain _ | ⟨⟨rfl, rfl⟩, spelled⟩ := spelled
    obtain _ | ⟨⟨red, hred, rfl⟩, spelled⟩ := spelled
    obtain _ | ⟨⟨green, hgreen, rfl⟩, spelled⟩ := spelled
    obtain _ | ⟨⟨blue, hblue, rfl⟩, spelled⟩ := spelled
    obtain _ | _ := spelled
    obtain ⟨color, rfl, rfl, rfl⟩ := exists_channels hred.le hgreen.le hblue.le
    refine ⟨color, ?_, ofChannels_toNat color⟩
    simpa using HexText.intro hred hgreen hblue
  · intro h
    obtain ⟨color, @⟨red, green, blue, hred, hgreen, hblue⟩, rfl⟩ := h
    have hvalue : color.toValue = ofHexMembers [.tuple [.unit, .integer color.red.toNat,
        .integer color.green.toNat, .integer color.blue.toNat]] := (ofChannels_toNat color).symm
    have htext : '#'.toNat :: (red ++ green ++ blue)
        = ['#'.toNat] ++ (red ++ (green ++ (blue ++ []))) := by simp
    rw [htext]
    exact ⟨_, .cons ⟨rfl, rfl⟩
      (.cons ⟨_, hred, rfl⟩ (.cons ⟨_, hgreen, rfl⟩ (.cons ⟨_, hblue, rfl⟩ .nil))), hvalue⟩

end

/-! ## Channels and commas -/

/-- The rules of so many channels in decimal form with a comma behind each, and of one more. -/
def channelRules (n : Nat) : List Rule :=
  Rule.row (.spaced Grammar.byte) (.mark .comma) n

/-- The values of channels and of the commas behind them, before other values. A channel is its text
and its number. -/
def members (channels : List (List Terminal × Nat)) (values : List Value) : List Value :=
  channels.foldr (fun channel values => .integer channel.2 :: .unit :: values) values

section

variable (naming : Naming)

theorem reads_comma : (Rule.mark .comma).Reads naming (CharacterText ',') :=
  Rule.reads_mark rfl

theorem reads_close : (Rule.mark .parenthesisRight).Reads naming (CharacterText ')') :=
  Rule.reads_mark rfl

/-- Behind a channel, a comma or a parenthesis ends the digits and the whitespace. -/
theorem mark_stops {c : Char} (hc : c = ',' ∨ c = ')') (ts : List Terminal) :
    ∀ t : Terminal, t ∈ (c.toNat :: ts).head? →
      t.isBlank = false ∧ Digit.decimal.value? t = none := by
  intro t ht
  obtain rfl : c.toNat = t := by simpa using ht
  rcases hc with rfl | rfl
  · decide
  · decide

theorem leading_eq (channels : List (List Terminal × Nat)) :
    ByteList.leading (channels.map Prod.fst)
      = channels.flatMap fun channel => channel.1 ++ [','.toNat] :=
  List.flatMap_map ..

/-- Channels with a comma behind each are read one after the other. -/
theorem meanings_leading {channels : List (List Terminal × Nat)}
    (bytes : ∀ channel ∈ channels, PaddedByte channel.1 channel.2) (n : Nat)
    (ts : List Terminal) :
    meanings naming (channelRules (channels.length + n))
        (ByteList.leading (channels.map Prod.fst) ++ ts)
      = ((meanings naming (channelRules n) ts).map (members channels)).after
          (ByteList.leading (channels.map Prod.fst)).length := by
  have reads : ∀ channel ∈ channels, ∀ rest,
      (Rule.spaced Grammar.byte).meaning naming (channel.1 ++ ','.toNat :: rest)
        = .matched (.integer channel.2) channel.1.length := by
    intro channel hchannel rest
    exact (bytes channel hchannel).meaning naming (mark_stops (.inl rfl) rest)
  have separates : ∀ rest,
      (Rule.mark .comma).meaning naming (','.toNat :: rest) = .matched .unit 1 :=
    (reads_comma naming).matched ⟨rfl, rfl⟩
  rw [leading_eq]
  exact Rule.meanings_row reads separates n ts

/-- The channels at the front with a comma behind each are split off, up to a number of them. -/
theorem exists_leading (m : Nat) (ts : List Terminal) :
    ∃ (channels : List (List Terminal × Nat)) (n : Nat) (rest : List Terminal),
      channels.length + n = m ∧ (∀ channel ∈ channels, PaddedByte channel.1 channel.2) ∧
      ts = ByteList.leading (channels.map Prod.fst) ++ rest ∧
      (n = 0 ∨
        ∀ piece number back, PaddedByte piece number → rest ≠ piece ++ ','.toNat :: back) := by
  obtain ⟨channels, n, rest, hm, bytes, hts, stuck⟩ :=
    Rule.exists_row Prod.fst (fun channel => PaddedByte channel.1 channel.2) ','.toNat m ts
  refine ⟨channels, n, rest, hm, bytes, by rw [leading_eq, hts], stuck.imp_right ?_⟩
  intro stuck piece number back byte
  exact stuck (piece, number) back byte

/-- Texts of bytes are those of channels. -/
theorem exists_numbered {good : List (List Terminal)}
    (hgood : ∀ piece ∈ good, ∃ n, PaddedByte piece n) :
    ∃ channels : List (List Terminal × Nat), good = channels.map Prod.fst ∧
      ∀ channel ∈ channels, PaddedByte channel.1 channel.2 := by
  obtain ⟨numbers, bytes⟩ := ByteList.exists_numbers hgood
  obtain ⟨hlength, hzip⟩ := List.forall₂_iff_zip.1 bytes
  exact ⟨good.zip numbers, (List.map_fst_zip hlength.le).symm,
    fun channel hchannel => hzip hchannel⟩

/-- Terminals begin with a channel, with digits that are too large for one, or with neither. -/
theorem channel_cases (ts : List Terminal) :
    (∃ piece n rest, PaddedByte piece n ∧ ts = piece ++ rest ∧
        (Rule.spaced Grammar.byte).meaning naming ts = .matched (.integer n) piece.length) ∨
      (∃ k, PaddedExcess ts k) ∨
      ∃ name k, (Rule.spaced Grammar.byte).meaning naming ts = .absent name k := by
  have ended : ∀ t ∈ ([] : List Terminal).head?,
      t.isBlank = false ∧ Digit.decimal.value? t = none := by simp
  rcases paddedByte_cases naming ts with
    ⟨n, byte⟩ | excess | lacks | ⟨piece, t, back, n, hts, byte, hmeaning⟩
  · have hmeaning := byte.meaning naming ended
    rw [List.append_nil] at hmeaning
    exact .inl ⟨ts, n, [], byte, (List.append_nil ts).symm, hmeaning⟩
  · exact .inr (.inl excess)
  · have habsent := lacks.meaning naming ended
    rw [List.append_nil] at habsent
    exact .inr (.inr habsent)
  · have hpiece := hmeaning []
    rw [List.append_nil] at hpiece
    exact .inl ⟨piece, n, t :: back, byte, hts, hpiece⟩

/-- Three channels are read, with the commas between them. -/
theorem meanings_channels {red green blue : List Terminal} {r g b : Nat} (hred : PaddedByte red r)
    (hgreen : PaddedByte green g) {ts : List Terminal}
    (hblue : (Rule.spaced Grammar.byte).meaning naming ts = .matched (.integer b) blue.length) :
    meanings naming (channelRules 2) (ByteList.leading [red, green] ++ ts)
      = .matched (members [(red, r), (green, g)] [.integer b])
          ((ByteList.leading [red, green]).length + blue.length) := by
  have bytes : ∀ channel ∈ [(red, r), (green, g)], PaddedByte channel.1 channel.2 :=
    List.forall_mem_cons.2 ⟨hred, List.forall_mem_singleton.2 hgreen⟩
  have hleading := meanings_leading naming bytes 0 ts
  rw [channelRules, channelRules, Rule.row, Rule.meanings_singleton, hblue] at hleading
  exact hleading

/-- Terminals begin with three channels, or a channel is too large, or something else is missing. -/
theorem channels_cases (ts : List Terminal) :
    (∃ red green blue rest r g b, PaddedByte red r ∧ PaddedByte green g ∧ PaddedByte blue b ∧
        ts = ByteList.leading [red, green] ++ (blue ++ rest) ∧
        meanings naming (channelRules 2) ts
          = .matched (members [(red, r), (green, g)] [.integer b])
              ((ByteList.leading [red, green]).length + blue.length)) ∨
      (∃ good bad k, good.length ≤ 2 ∧ (∀ piece ∈ good, ∃ n, PaddedByte piece n) ∧
        PaddedExcess bad k ∧ ts = ByteList.leading good ++ bad) ∨
      ∃ name k, meanings naming (channelRules 2) ts = .absent name k := by
  obtain ⟨channels, n, rest, hn, bytes, rfl, stuck⟩ := exists_leading 2 ts
  have hmeaning := meanings_leading naming bytes n rest
  rw [hn] at hmeaning
  rcases channel_cases naming rest with
    ⟨piece, number, back, byte, hrest, hpiece⟩ | ⟨k, excess⟩ | ⟨name, k, habsent⟩
  · cases n with
    | zero =>
      obtain ⟨⟨red, r⟩, ⟨green, g⟩, rfl⟩ := List.length_eq_two.1 hn
      obtain ⟨hred, hgreen⟩ : PaddedByte red r ∧ PaddedByte green g := by simpa using bytes
      refine .inl ⟨red, green, piece, back, r, g, number, hred, hgreen, byte,
        by rw [hrest]; rfl, ?_⟩
      exact meanings_channels naming hred hgreen hpiece
    | succ n =>
      -- behind the last channel there is no comma
      have missing : ∀ text value rest', CharacterText ',' text value → back ≠ text ++ rest' := by
        rintro text value rest' ⟨rfl, rfl⟩ rfl
        exact stuck.resolve_left (Nat.succ_ne_zero n) piece number rest' byte hrest
      obtain ⟨name, k, habsent⟩ := (reads_comma naming).absent missing
      have hrules : channelRules (n + 1)
          = .spaced Grammar.byte :: .mark .comma :: channelRules n := rfl
      rw [hrules, Rule.meanings_of_matched hpiece, hrest, List.drop_left,
        Rule.meanings_of_absent habsent] at hmeaning
      rw [hrest]
      exact .inr (.inr ⟨name, _, hmeaning⟩)
  · refine .inr (.inl ⟨channels.map Prod.fst, rest, k, ?_, ?_, excess, rfl⟩)
    · rw [List.length_map]
      omega
    · intro piece hpiece
      obtain ⟨channel, hchannel, rfl⟩ := List.mem_map.1 hpiece
      exact ⟨channel.2, bytes channel hchannel⟩
  · obtain ⟨tail, htail⟩ := Rule.row_eq_cons (.spaced Grammar.byte) (.mark .comma) n
    rw [channelRules, channelRules, htail, Rule.meanings_of_absent habsent] at hmeaning
    exact .inr (.inr ⟨name, _, hmeaning⟩)

end

/-! ## The decimal form -/

/-- The rules that the decimal form begins with. -/
def openingRules : List Rule :=
  [Grammar.character 'r', Grammar.character 'g', Grammar.character 'b', .mark .parenthesisLeft]

/-- The texts of these rules. -/
def openingTexts : List (List Terminal → Value → Prop) :=
  [CharacterText 'r', CharacterText 'g', CharacterText 'b', CharacterText '(']

section

variable (naming : Naming) {color : Color}

theorem reads_opening : List.Forall₂ (Rule.Reads naming) openingRules openingTexts :=
  .cons (Rule.reads_exactly _ 'r') (.cons (Rule.reads_exactly _ 'g')
    (.cons (Rule.reads_exactly _ 'b') (.cons (Rule.reads_mark rfl) .nil)))

theorem spelled_opening : Spelled openingTexts opening [.unit, .unit, .unit, .unit] := by
  have one (c : Char) : CharacterText c [c.toNat] .unit := ⟨rfl, rfl⟩
  exact .cons (one 'r') (.cons (one 'g') (.cons (one 'b') (.cons (one '(') .nil)))

theorem eq_opening {text : List Terminal} {values : List Value}
    (spelled : Spelled openingTexts text values) : text = opening := by
  obtain _ | ⟨⟨rfl, rfl⟩, spelled⟩ := spelled
  obtain _ | ⟨⟨rfl, rfl⟩, spelled⟩ := spelled
  obtain _ | ⟨⟨rfl, rfl⟩, spelled⟩ := spelled
  obtain _ | ⟨⟨rfl, rfl⟩, spelled⟩ := spelled
  obtain _ | _ := spelled
  rfl

/-- The decimal form with its parts by name. -/
theorem rgbColor_eq :
    Grammar.rgbColor = .assemble "stack_only::RgbColor" "stack_only::Color"
      [.seq openingRules, .seq (channelRules 2), .mark .parenthesisRight] ofDecimalMembers := rfl

/-- Without its front the decimal form is absent. -/
theorem rgbColor_absent {ts : List Terminal} (missing : ∀ rest, ts ≠ opening ++ rest) :
    ∃ name k, Grammar.rgbColor.meaning naming ts = .absent name k := by
  have hnone : ∀ text values rest, Spelled openingTexts text values → ts ≠ text ++ rest := by
    intro text values rest spelled
    rw [eq_opening spelled]
    exact missing rest
  obtain ⟨name, k, habsent⟩ := Rule.meanings_missing (reads_opening naming) hnone
  have hfront : (Rule.seq openingRules).meaning naming ts = .absent name k := by
    rw [Rule.meaning_seq, habsent]
    rfl
  exact ⟨name, k, by rw [rgbColor_eq, Rule.meaning_assemble, Rule.meanings_of_absent hfront]; rfl⟩

/-- Behind its front the decimal form is the channels and the closing parenthesis. -/
theorem meaning_rgbColor (ts : List Terminal) :
    Grammar.rgbColor.meaning naming (opening ++ ts)
      = match meanings naming (channelRules 2) ts with
        | .matched values n =>
          ((Rule.mark .parenthesisRight).meaning naming (ts.drop n)).map
            (fun value =>
              ofDecimalMembers [.tuple [.unit, .unit, .unit, .unit], .tuple values, value])
            |>.after (opening.length + n)
        | .absent name k => .absent name (opening.length + k)
        | .overflow type k => .overflow type (opening.length + k) := by
  have hfront : (Rule.seq openingRules).meaning naming (opening ++ ts)
      = .matched (.tuple [.unit, .unit, .unit, .unit]) opening.length := by
    rw [Rule.meaning_seq, Rule.meanings_spelled (reads_opening naming) spelled_opening]
    rfl
  have hchannels : (Rule.seq (channelRules 2)).meaning naming ts
      = (meanings naming (channelRules 2) ts).map .tuple := Rule.meaning_seq
  rw [rgbColor_eq, Rule.meaning_assemble, Rule.meanings_of_matched hfront, List.drop_left]
  cases h : meanings naming (channelRules 2) ts with
  | matched values n =>
    rw [h] at hchannels
    rw [Rule.meanings_of_matched hchannels, Rule.meanings_singleton]
    simp only [Meaning.map_after, Meaning.map_map, Meaning.after_after]
    rfl
  | absent name k =>
    rw [h] at hchannels
    rw [Rule.meanings_of_absent hchannels]
    rfl
  | overflow type k =>
    rw [h] at hchannels
    rw [Rule.meanings_of_overflow hchannels]
    rfl

/-- The decimal text of a color is read to its end. -/
theorem rgbColor_matched {text : List Terminal} (h : color.DecimalText text)
    (rest : List Terminal) :
    Grammar.rgbColor.meaning naming (text ++ rest) = .matched color.toValue text.length := by
  obtain @⟨red, green, blue, hred, hgreen, hblue⟩ := h
  have hlast := hblue.meaning naming (mark_stops (.inr rfl) rest)
  have hclose : (Rule.mark .parenthesisRight).meaning naming (')'.toNat :: rest)
      = .matched .unit 1 := (reads_close naming).matched ⟨rfl, rfl⟩ rest
  have htext : opening ++ ByteList.leading [red, green] ++ blue ++ [')'.toNat] ++ rest
      = opening ++ (ByteList.leading [red, green] ++ (blue ++ ')'.toNat :: rest)) := by simp
  have hdrop : (ByteList.leading [red, green] ++ (blue ++ ')'.toNat :: rest)).drop
      ((ByteList.leading [red, green]).length + blue.length) = ')'.toNat :: rest := by
    rw [List.drop_length_add_append, List.drop_left]
  have hmembers : ofDecimalMembers [.tuple [.unit, .unit, .unit, .unit],
      .tuple (members [(red, color.red.toNat), (green, color.green.toNat)]
        [.integer color.blue.toNat]), .unit] = color.toValue := ofChannels_toNat color
  rw [htext, meaning_rgbColor, meanings_channels naming hred hgreen hlast]
  simp only [hdrop, hclose, Meaning.map, Meaning.after, hmembers, List.length_append,
    List.length_singleton, Nat.add_assoc]

/-- Digits that are too large are an overflow behind any channels that fit. -/
theorem rgbColor_overflow {ts : List Terminal} {n : Nat} (h : TooLarge ts n) :
    Grammar.rgbColor.meaning naming ts = .overflow "u8" n := by
  obtain ⟨good, bad, k, few, hgood, excess, rfl, rfl⟩ := h
  obtain ⟨m, hm⟩ := Nat.exists_eq_add_of_le few
  obtain ⟨tail, htail⟩ := Rule.row_eq_cons (.spaced Grammar.byte) (.mark .comma) m
  obtain ⟨channels, rfl, bytes⟩ := exists_numbered hgood
  have hbad := excess.meaning naming []
  rw [List.append_nil] at hbad
  have hchannels : meanings naming (channelRules 2)
      (ByteList.leading (channels.map Prod.fst) ++ bad)
        = .overflow "u8" ((ByteList.leading (channels.map Prod.fst)).length + k) := by
    rw [hm, List.length_map, meanings_leading naming bytes, channelRules, htail,
      Rule.meanings_of_overflow hbad]
    rfl
  rw [List.append_assoc, meaning_rgbColor, hchannels, Nat.add_assoc]

/-- Terminals begin with the decimal text of a color, or a channel of it is too large, or something
else is missing. -/
theorem rgbColor_cases (ts : List Terminal) :
    (∃ (color : Color) (text rest : List Terminal), color.DecimalText text ∧ ts = text ++ rest) ∨
      (∃ n, TooLarge ts n) ∨
      ∃ name k, Grammar.rgbColor.meaning naming ts = .absent name k := by
  by_cases hfront : ∃ rest, ts = opening ++ rest
  · obtain ⟨rest, rfl⟩ := hfront
    rcases channels_cases naming rest with
      ⟨red, green, blue, back, r, g, b, hred, hgreen, hblue, rfl, hmatched⟩ |
        ⟨good, bad, k, few, hgood, excess, rfl⟩ | ⟨name, k, habsent⟩
    · by_cases closed : ∃ back', back = ')'.toNat :: back'
      · obtain ⟨back', rfl⟩ := closed
        obtain ⟨color, rfl, rfl, rfl⟩ := exists_channels hred.le hgreen.le hblue.le
        exact .inl ⟨color, _, back', .intro hred hgreen hblue, by simp⟩
      · have missing : ∀ text value rest, CharacterText ')' text value → back ≠ text ++ rest := by
          rintro text value rest ⟨rfl, rfl⟩ rfl
          exact closed ⟨rest, rfl⟩
        obtain ⟨name, k, habsent⟩ := (reads_close naming).absent missing
        have hdrop : (ByteList.leading [red, green] ++ (blue ++ back)).drop
            ((ByteList.leading [red, green]).length + blue.length) = back := by
          rw [List.drop_length_add_append, List.drop_left]
        have hmeaning := meaning_rgbColor naming (ByteList.leading [red, green] ++ (blue ++ back))
        rw [hmatched] at hmeaning
        simp only [hdrop, habsent, Meaning.map, Meaning.after] at hmeaning
        exact .inr (.inr ⟨name, _, hmeaning⟩)
    · exact .inr (.inl ⟨_, good, bad, k, few, hgood, excess, (List.append_assoc ..).symm, rfl⟩)
    · exact .inr (.inr ⟨name, _, by rw [meaning_rgbColor, habsent]⟩)
  · exact .inr (.inr (rgbColor_absent naming (not_exists.1 hfront)))

end

end Color

end Backtrack
