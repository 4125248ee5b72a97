import Backtrack.Grammar.Version
import Backtrack.Proofs.Decimals
import Backtrack.Proofs.Lookahead
import Backtrack.Proofs.Texts
import Backtrack.Proofs.Verdicts

/-!
# Versions are read back from their texts

A version is accepted exactly where the input is its text. Otherwise the input is rejected: for an
overflow if components that fit are followed by digits that do not, and because something else was
expected in every other case (`Version.parseAll_exact`).

The meaning of the grammar is followed from component to component. As many as there are with a
period behind them are split off (`Version.exists_leading`), and the component behind them decides
(`Version.component_cases`). Components have five digits at most, so all of it is told by a bounded
number of terminals, and sources need not come to an end.
-/

namespace Backtrack

open Rule (meanings)

namespace Version

variable {L : Type} {kind : TerminalKind}

theorem toValue_inj {v w : Version} (h : v.toValue = w.toValue) : v = w := by
  obtain ⟨major, minor, patch⟩ := v
  obtain ⟨major', minor', patch'⟩ := w
  simp only [toValue, Value.record.injEq, List.cons.injEq, Value.integer.injEq, Int.ofNat_inj,
    UInt16.toNat_inj, and_true, true_and] at h
  obtain ⟨rfl, rfl, rfl⟩ := h
  rfl

/-! ## Texts -/

/-- The terminals of a component. -/
def component (kind : TerminalKind) (n : UInt16) : List Terminal :=
  kind.encode (toString n.toNat)

/-- Components of a version with a period behind each. -/
def leading (kind : TerminalKind) (components : List UInt16) : List Terminal :=
  components.flatMap fun n => component kind n ++ kind.encode "."

/-- Decimal digits, the first of which is not zero, of a number beyond 16 bits; the one at `k` takes
it there. -/
structure Excess (digits : List Nat) (k : Nat) : Prop where
  small : ∀ d ∈ digits, d < 10
  nonzero : digits.head? ≠ some 0
  exceeds : Digit.FirstExcess 65535 10 digits k

/-- The input begins with at most two components, each with a period behind it, and then with digits
that go beyond 16 bits, at the location for the first time. -/
def TooLarge (source : Source L) (kind : TerminalKind) (l : L) : Prop :=
  ∃ components digits k, components.length ≤ 2 ∧ Excess digits k ∧
    source.Begins source.start (leading kind components ++ Digit.decimals digits) ∧
    source.Steps ((leading kind components).length + k) source.start l

theorem encode_period (kind : TerminalKind) : kind.encode "." = [46] := by
  cases kind <;> decide

theorem encode_text (v : Version) :
    kind.encode v.text = leading kind [v.major, v.minor] ++ component kind v.patch := by
  simp [text, leading, component, kind.encode_append]

theorem exists_digits (kind : TerminalKind) (n : UInt16) :
    ∃ digits, Digit.Canonical digits ∧ Digit.number 10 digits = n.toNat ∧
      component kind n = Digit.decimals digits := by
  obtain ⟨digits, canonical, hn⟩ := Digit.exists_canonical n.toNat
  refine ⟨digits, canonical, hn, ?_⟩
  rw [component, ← hn, canonical.encode_number]

/-- Digits without a zero in front are the text of a component, if their number fits. -/
theorem exists_component (kind : TerminalKind) {digits : List Nat}
    (canonical : Digit.Canonical digits) (fits : Digit.number 10 digits ≤ 65535) :
    ∃ n : UInt16, n.toNat = Digit.number 10 digits ∧ component kind n = Digit.decimals digits := by
  have hn : (UInt16.ofNat (Digit.number 10 digits)).toNat = Digit.number 10 digits :=
    UInt16.toNat_ofNat_of_lt' (by simp only [UInt16.size]; omega)
  exact ⟨_, hn, by rw [component, hn, canonical.encode_number]⟩

/-! ## One component -/

section

variable (naming : Naming) (kind : TerminalKind)

/-- The rule of a component is the numeral, or a single digit where that is absent. -/
theorem meaning_component (ts : List Terminal) :
    (Grammar.versionComponent kind).meaning naming ts
      = match (Rule.naturalLiteral (.unsigned .w16)).meaning naming ts with
        | .matched value k => .matched value k
        | .absent .. => (Rule.digit .decimal (.unsigned .w16)).meaning naming ts
        | .overflow type k => .overflow type k :=
  Rule.meaning_choice_pair

/-- Where no digit but zero stands, a component is that zero or absent. -/
theorem meaning_component_single {ts : List Terminal}
    (no_natural : ∀ t ∈ ts.head?, Digit.natural.value? t = none) :
    (Grammar.versionComponent kind).meaning naming ts
      = Reading.terminal ((Rule.digit .decimal (.unsigned .w16)).identity naming)
          (TerminalClass.digit .decimal (.unsigned .w16)).accept ts := by
  rw [meaning_component, Rule.naturalLiteral, Rule.meaning_numeral_absent no_natural]
  simp only [Rule.digit]
  rw [Rule.meaning]

/-- A component is read to its end; only zero may have digits behind it. -/
theorem meaning_component_fits (n : UInt16) {ts : List Terminal}
    (behind : n ≠ 0 → ∀ t ∈ ts.head?, Digit.decimal.value? t = none) :
    (Grammar.versionComponent kind).meaning naming (component kind n ++ ts)
      = .matched (.integer n.toNat) (component kind n).length := by
  obtain ⟨digits, canonical, hn, htext⟩ := exists_digits kind n
  rw [htext, Digit.length_decimals, ← hn]
  cases canonical with
  | zero =>
    change (Grammar.versionComponent kind).meaning naming (48 :: ts) = .matched (.integer 0) 1
    have no_natural : ∀ t ∈ (48 :: ts).head?, Digit.natural.value? t = none := by
      rintro t ⟨⟩
      decide
    rw [meaning_component_single naming kind no_natural]
    rfl
  | @natural d digits nonzero small =>
    have hdigit : Digit.natural.value? (48 + d) = some d :=
      Digit.natural_value?_eq_some.2 ⟨rfl, nonzero, small d (by simp)⟩
    rw [List.forall_mem_cons] at small
    have hpos : n ≠ 0 := by
      rintro rfl
      have hle : d ≤ Digit.extended 10 d digits := Digit.le_extended (by decide) d digits
      rw [Digit.number_cons, UInt16.toNat_zero] at hn
      omega
    have hrun : Digit.decimal.run (Digit.decimals digits ++ ts) = digits := by
      rw [Digit.run_decimals_append small.2, Digit.run_eq_nil (behind hpos), List.append_nil]
    have hfits : Digit.number Digit.decimal.radix
        (d :: Digit.decimal.run (Digit.decimals digits ++ ts))
          ≤ (IntegerType.unsigned .w16).max := by
      have hlt := n.toNat_lt
      rw [hrun]
      show (Digit.number 10 (d :: digits) : Int) ≤ 65535
      omega
    rw [Digit.decimals_cons, List.cons_append, meaning_component, Rule.naturalLiteral,
      Rule.meaning_numeral_fits hdigit hfits]
    simp only [Digit.radix, hrun]

theorem meaning_component_exceeds {digits : List Nat} {k : Nat} (excess : Excess digits k)
    (ts : List Terminal) :
    (Grammar.versionComponent kind).meaning naming (Digit.decimals digits ++ ts)
      = .overflow "u16" k := by
  obtain ⟨small, nonzero, exceeds⟩ := excess
  cases digits with
  | nil => exact absurd exceeds.lt_length (Nat.not_lt_zero k)
  | cons d digits =>
    have hdigit : Digit.natural.value? (48 + d) = some d :=
      Digit.natural_value?_eq_some.2 ⟨rfl, by simp at nonzero; omega, small d (by simp)⟩
    rw [List.forall_mem_cons] at small
    have hexceeds : Digit.FirstExcess (IntegerType.unsigned .w16).max 10
        (d :: Digit.decimal.run (Digit.decimals digits ++ ts)) k := by
      rw [Digit.run_decimals_append small.2, ← List.cons_append]
      exact exceeds.append _
    rw [Digit.decimals_cons, List.cons_append, meaning_component, Rule.naturalLiteral,
      Rule.meaning_numeral_exceeds hdigit hexceeds]
    rfl

/-- Terminals begin with a component, with digits that are too large for one, or with neither. -/
theorem component_cases (ts : List Terminal) :
    (∃ (n : UInt16) (rest : List Terminal), ts = component kind n ++ rest ∧
        (Grammar.versionComponent kind).meaning naming ts
          = .matched (.integer n.toNat) (component kind n).length) ∨
      (∃ digits k rest, Excess digits k ∧ ts = Digit.decimals digits ++ rest) ∨
      ∃ rule k, (Grammar.versionComponent kind).meaning naming ts = .absent rule k := by
  obtain ⟨rest, hts, small, behind⟩ := Digit.exists_run ts
  cases hrun : Digit.decimal.run ts with
  | nil =>
    refine .inr (.inr ?_)
    obtain rfl : ts = rest := by rw [hts, hrun]; rfl
    have no_natural : ∀ t ∈ ts.head?, Digit.natural.value? t = none :=
      fun t ht => Digit.natural_value?_of_decimal (behind t ht)
    rw [meaning_component_single naming kind no_natural]
    cases ts with
    | nil => exact ⟨_, 0, rfl⟩
    | cons t ts =>
      have haccept : (TerminalClass.digit .decimal (.unsigned .w16)).accept t = none := by
        rw [TerminalClass.accept, Digit.read?, behind t rfl]
        rfl
      exact ⟨_, 0, by rw [Reading.terminal, haccept]⟩
  | cons d digits =>
    rw [hrun] at hts small
    by_cases hzero : d = 0
    · subst hzero
      have hcomponent : component kind 0 = [48] :=
        Digit.Canonical.zero.encode_number kind
      have hsplit : ts = component kind 0 ++ (Digit.decimals digits ++ rest) := by
        rw [hcomponent, hts]
        rfl
      refine .inl ⟨0, _, hsplit, ?_⟩
      conv_lhs => rw [hsplit]
      exact meaning_component_fits naming kind 0 (absurd rfl)
    have canonical : Digit.Canonical (d :: digits) :=
      .natural (Nat.pos_of_ne_zero hzero) small
    by_cases fits : Digit.number 10 (d :: digits) ≤ 65535
    · obtain ⟨n, -, hcomponent⟩ := exists_component kind canonical fits
      rw [← hcomponent] at hts
      refine .inl ⟨n, rest, hts, ?_⟩
      conv_lhs => rw [hts]
      exact meaning_component_fits naming kind n fun _ => behind
    · have large : (65535 : Int) < Digit.number 10 (d :: digits) := by omega
      obtain ⟨k, exceeds⟩ := Digit.exists_firstExcess (List.cons_ne_nil d digits) large
      exact .inr (.inl ⟨d :: digits, k, rest, ⟨small, by simpa using hzero, exceeds⟩, hts⟩)

end

/-! ## Components and periods -/

/-- The rules of so many components with a period behind each, and of one component more. -/
def rules (kind : TerminalKind) : Nat → List Rule
  | 0 => [Grammar.versionComponent kind]
  | n + 1 => Grammar.versionComponent kind :: .mark .period :: rules kind n

/-- The values of components and of the periods behind them, before other values. -/
def members (components : List UInt16) (values : List Value) : List Value :=
  components.foldr (fun n values => .integer n.toNat :: .unit :: values) values

theorem rules_eq_row (kind : TerminalKind) (n : Nat) :
    rules kind n = Rule.row (Grammar.versionComponent kind) (.mark .period) n := by
  induction n with
  | zero => rfl
  | succ n ih => rw [rules, ih, Rule.row]

theorem rules_eq_cons (kind : TerminalKind) (n : Nat) :
    ∃ tail, rules kind n = Grammar.versionComponent kind :: tail := by
  rw [rules_eq_row]
  exact Rule.row_eq_cons _ _ n

theorem meaning_period (naming : Naming) (ts : List Terminal) :
    (Rule.mark .period).meaning naming (46 :: ts) = .matched .unit 1 := by
  rw [Rule.mark, Rule.meaning]
  rfl

theorem meaning_period_absent (naming : Naming) {ts : List Terminal}
    (missing : ∀ rest, ts ≠ 46 :: rest) :
    ∃ rule, (Rule.mark .period).meaning naming ts = .absent rule 0 := by
  rw [Rule.mark, Rule.meaning]
  cases ts with
  | nil => exact ⟨_, rfl⟩
  | cons t ts =>
    have hne : t ≠ 46 := fun h => missing ts (h ▸ rfl)
    have haccept : (TerminalClass.mark .period).accept t = none := by
      simp [TerminalClass.accept, Mark.accepts_eq, Mark.chars, hne.symm]
    exact ⟨_, by rw [Reading.terminal, haccept]⟩

theorem leading_eq (kind : TerminalKind) (components : List UInt16) :
    leading kind components = components.flatMap fun c => component kind c ++ [46] := by
  rw [leading, encode_period]

/-- Components with a period behind each are read one after the other. -/
theorem meanings_leading (naming : Naming) (kind : TerminalKind) (components : List UInt16)
    (n : Nat) (ts : List Terminal) :
    meanings naming (rules kind (components.length + n)) (leading kind components ++ ts)
      = ((meanings naming (rules kind n) ts).map (members components)).after
          (leading kind components).length := by
  have reads : ∀ c ∈ components, ∀ rest,
      (Grammar.versionComponent kind).meaning naming (component kind c ++ 46 :: rest)
        = .matched (.integer c.toNat) (component kind c).length := by
    intro c _ rest
    have behind : ∀ t ∈ (46 :: rest).head?, Digit.decimal.value? t = none := by
      rintro t ⟨⟩
      decide
    exact meaning_component_fits naming kind c fun _ => behind
  rw [rules_eq_row, rules_eq_row, leading_eq]
  exact Rule.meanings_row reads (meaning_period naming) n ts

/-- The components at the front with a period behind each are split off, up to a number of them. -/
theorem exists_leading (kind : TerminalKind) (n : Nat) (ts : List Terminal) :
    ∃ components m us, components.length + m = n ∧ ts = leading kind components ++ us ∧
      (m = 0 ∨ ∀ c rest, us ≠ component kind c ++ 46 :: rest) := by
  obtain ⟨components, m, us, hn, -, hts, stuck⟩ :=
    Rule.exists_row (component kind) (fun _ => True) 46 n ts
  refine ⟨components, m, us, hn, by rw [leading_eq, hts], stuck.imp_right ?_⟩
  intro stuck c rest
  exact stuck c rest trivial

/-! ## The whole grammar -/

theorem meaning_version (naming : Naming) (kind : TerminalKind) (ts : List Terminal) :
    (Grammar.version kind).meaning naming ts
      = (meanings naming (rules kind 2) ts).map fun values => ofMembers [.tuple values] := by
  have hseq : (Rule.seq (rules kind 2)).meaning naming ts
      = (meanings naming (rules kind 2) ts).map .tuple := Rule.meaning_seq
  have hversion : (Grammar.version kind).meaning naming ts
      = (meanings naming [.seq (rules kind 2)] ts).map ofMembers := Rule.meaning_assemble
  rw [hversion, Rule.meanings_singleton, hseq, Meaning.map_map, Meaning.map_map]
  rfl

theorem ofMembers_members (major minor patch : UInt16) :
    ofMembers [.tuple (members [major, minor] [.integer patch.toNat])]
      = toValue ⟨major, minor, patch⟩ := by
  simp [ofMembers, members]

/-- The text of a version is read to its end. -/
theorem meaning_text (naming : Naming) (kind : TerminalKind) (v : Version) :
    (Grammar.version kind).meaning naming (kind.encode v.text)
      = .matched v.toValue (kind.encode v.text).length := by
  have hpatch : meanings naming (rules kind 0) (component kind v.patch)
      = .matched [.integer v.patch.toNat] (component kind v.patch).length := by
    have behind : ∀ t ∈ ([] : List Terminal).head?, Digit.decimal.value? t = none := by simp
    have hcomponent := meaning_component_fits naming kind v.patch fun _ => behind
    rw [List.append_nil] at hcomponent
    rw [rules, Rule.meanings_singleton, hcomponent]
    rfl
  have hleading := meanings_leading naming kind [v.major, v.minor] 0 (component kind v.patch)
  rw [hpatch] at hleading
  rw [meaning_version, encode_text, List.length_append]
  refine (congrArg _ hleading).trans ?_
  exact congrArg (Meaning.matched · _) (ofMembers_members v.major v.minor v.patch)

/-- Digits that are too large are an overflow behind any components that fit. -/
theorem meaning_excess (naming : Naming) (kind : TerminalKind) {components : List UInt16}
    (few : components.length ≤ 2) {digits : List Nat} {k : Nat} (excess : Excess digits k)
    (ts : List Terminal) :
    (Grammar.version kind).meaning naming (leading kind components ++ Digit.decimals digits ++ ts)
      = .overflow "u16" ((leading kind components).length + k) := by
  obtain ⟨m, hm⟩ := Nat.exists_eq_add_of_le few
  obtain ⟨tail, htail⟩ := rules_eq_cons kind m
  have hoverflow : meanings naming (rules kind m) (Digit.decimals digits ++ ts)
      = .overflow "u16" k := by
    rw [htail, Rule.meanings_of_overflow (meaning_component_exceeds naming kind excess ts)]
  rw [meaning_version, hm, List.append_assoc, meanings_leading, hoverflow]
  rfl

/-- Terminals begin with the text of a version, or with components and digits that are too large, or
something else is missing. -/
theorem meaning_cases (naming : Naming) (kind : TerminalKind) (ts : List Terminal) :
    (∃ (v : Version) (rest : List Terminal), ts = kind.encode v.text ++ rest ∧
        (Grammar.version kind).meaning naming ts
          = .matched v.toValue (kind.encode v.text).length) ∨
      (∃ components digits k rest, components.length ≤ 2 ∧ Excess digits k ∧
        ts = leading kind components ++ Digit.decimals digits ++ rest) ∨
      ∃ rule k, (Grammar.version kind).meaning naming ts = .absent rule k := by
  obtain ⟨components, m, us, hn, rfl, stuck⟩ := exists_leading kind 2 ts
  have hmeaning : (Grammar.version kind).meaning naming (leading kind components ++ us)
      = (((meanings naming (rules kind m) us).map (members components)).after
          (leading kind components).length).map fun values => ofMembers [.tuple values] := by
    rw [meaning_version, ← hn, meanings_leading]
  rcases component_cases naming kind us with
    ⟨c, rest, hus, hcomponent⟩ | ⟨digits, k, rest, excess, hus⟩ | ⟨rule, k, habsent⟩
  · cases m with
    | zero =>
      obtain ⟨major, minor, rfl⟩ := List.length_eq_two.1 hn
      rw [rules, Rule.meanings_singleton, hcomponent] at hmeaning
      refine .inl ⟨⟨major, minor, c⟩, rest, ?_, ?_⟩
      · rw [hus, encode_text, List.append_assoc]
      · rw [hmeaning, encode_text, List.length_append]
        exact congrArg (Meaning.matched · _) (ofMembers_members major minor c)
    | succ m =>
      -- behind the last component there is no period
      have missing : ∀ rest', rest ≠ 46 :: rest' := by
        rintro rest' rfl
        exact stuck.resolve_left (Nat.succ_ne_zero m) c rest' hus
      obtain ⟨rule, hperiod⟩ := meaning_period_absent naming missing
      rw [rules, Rule.meanings_of_matched hcomponent, hus, List.drop_left,
        Rule.meanings_of_absent hperiod] at hmeaning
      rw [hus]
      exact .inr (.inr ⟨rule, _, hmeaning⟩)
  · refine .inr (.inl ⟨components, digits, k, rest, by omega, excess, ?_⟩)
    rw [hus, List.append_assoc]
  · obtain ⟨tail, htail⟩ := rules_eq_cons kind m
    rw [htail, Rule.meanings_of_absent habsent] at hmeaning
    exact .inr (.inr ⟨rule, _, hmeaning⟩)

/-! ## How far the grammar looks -/

section

variable [DecidableEq L] {S : Type} [Sink S L Terminal] {scope : Scope L} {fuel : Nat}

/-- A number of 16 bits has five digits at most. -/
theorem looks_component (kind : TerminalKind) (hfuel : 5 < fuel) :
    (Grammar.versionComponent kind).Looks S scope (fuel + 2) 14 := by
  refine .choice (n := 7) ?_ (by decide) _ (List.cons_ne_nil _ _)
  intro rule hrule
  rw [List.mem_pair] at hrule
  rcases hrule with rfl | rfl
  · have nonzero : ∀ t, Digit.natural.value? t ≠ some 0 := by
      intro t ht
      obtain ⟨-, hpos, -⟩ := Digit.natural_value?_eq_some.1 ht
      exact Nat.lt_irrefl 0 hpos
    exact .numeral .decimal hfuel nonzero (by decide)
  · exact .terminal _ (by decide)

/-- Three components and two periods are looked at, whatever follows. -/
theorem looks_version (kind : TerminalKind) (hfuel : 5 < fuel) :
    (Grammar.version kind).Looks S scope (fuel + 4) 70 := by
  refine .assemble (n := 70) ?_ (by simp) _ _ _
  intro rule hrule
  obtain rfl := List.mem_singleton.1 hrule
  refine .seq (n := 14) ?_ (by simp)
  intro rule hrule
  have hcases : rule = Grammar.versionComponent kind ∨ rule = .mark .period := by
    simp only [List.mem_cons, List.not_mem_nil, or_false] at hrule
    grind
  rcases hcases with rfl | rfl
  · exact looks_component kind hfuel
  · exact .terminal _ (by decide)

end

/-! ## Whole inputs -/

section

variable [DecidableEq L] {S : Type} [Sink S L Terminal] {scope : Scope L} {fuel : Nat}
  (hfuel : 5 < fuel) (sink : S)
include hfuel

/-- The text of a version is read back. -/
theorem result?_of_text {v : Version}
    (spells : scope.source.Spells scope.source.start (kind.encode v.text)) :
    ((Grammar.version kind).parseAll scope (fuel + 4) sink).result? = some (.ok v.toValue) := by
  have describes := (looks_version kind hfuel).attempt.describes
    (.atStart scope.source sink) _ (.inl spells)
  rw [meaning_text] at describes
  obtain ⟨m, hm, hresult⟩ := Rule.parseAll_described describes
  obtain ⟨-, ended⟩ := spells.after hm
  rw [List.drop_length] at ended
  have last : scope.source.found m = none := ended.found_eq
  rw [hresult, if_pos last]

theorem result?_of_tooLarge {l : L} (large : TooLarge scope.source kind l) :
    ((Grammar.version kind).parseAll scope (fuel + 4) sink).result?
      = some (.error (.overflow "u16" l)) := by
  obtain ⟨components, digits, k, few, excess, begins, hl⟩ := large
  obtain ⟨us, shown⟩ := begins.exists_shows 70
  have describes := (looks_version kind hfuel).attempt.describes
    (.atStart scope.source sink) _ shown
  rw [meaning_excess _ _ few excess] at describes
  obtain ⟨m, hm, hresult⟩ := Rule.parseAll_described describes
  rw [hresult, hm.unique hl]

/-- An input is the text of a version, or begins with components and digits that are too large, or
is rejected because something was expected. -/
theorem result?_cases (kind : TerminalKind) :
    (∃ v : Version, scope.source.Spells scope.source.start (kind.encode v.text)) ∨
      (∃ l, TooLarge scope.source kind l) ∨
      ∃ rule l, ((Grammar.version kind).parseAll scope (fuel + 4) sink).result?
        = some (.error (.expected rule l)) := by
  obtain ⟨ts, shown⟩ := scope.source.exists_shows 70 scope.source.start
  have describes := (looks_version kind hfuel).attempt.describes
    (.atStart scope.source sink) _ shown
  rcases meaning_cases scope.naming kind ts with
    ⟨v, rest, rfl, hmatched⟩ | ⟨components, digits, k, rest, few, excess, rfl⟩ |
      ⟨rule, k, habsent⟩
  · rw [hmatched] at describes
    obtain ⟨m, hm, hresult⟩ := Rule.parseAll_described describes
    by_cases ended : scope.source.found m = none
    · exact .inl ⟨v, shown.begins.of_append.spells hm (Source.found_eq_none.1 ended)⟩
    · rw [if_neg ended] at hresult
      exact .inr (.inr ⟨_, m, hresult⟩)
  · have begins := shown.begins.of_append
    obtain ⟨m, hm⟩ := begins.exists_steps
    have hk := excess.exceeds.lt_length
    obtain ⟨j, hj⟩ := Nat.exists_eq_add_of_le (Nat.le_of_lt hk)
    rw [List.length_append, Digit.length_decimals, hj, ← Nat.add_assoc] at hm
    obtain ⟨l, hl, -⟩ := hm.split
    exact .inr (.inl ⟨l, components, digits, k, few, excess, begins, hl⟩)
  · rw [habsent] at describes
    obtain ⟨m, -, hresult⟩ := Rule.parseAll_described describes
    exact .inr (.inr ⟨rule, m, hresult⟩)

end

/-- **Versions are read back from their texts**, on every source and whatever its terminals are.

* An input is accepted as a version exactly where it is the text of that version, and as nothing
  else.
* It is rejected for an overflow exactly where components that fit, with a period behind each, are
  followed by digits that go beyond 16 bits. The overflow is at the digit that takes them there.
* Every other input is rejected because something else was expected. -/
theorem parseAll_exact [DecidableEq L] (scope : Scope L) (kind : TerminalKind) :
    ∃ enough, ∀ fuel, enough ≤ fuel → ∀ {S : Type} [Sink S L Terminal] (sink : S),
      let verdict := (Grammar.version kind).parseAll scope fuel sink
      (∀ v : Version, (∃ trace, verdict = .accepted v.toValue trace) ↔
        scope.source.Spells scope.source.start (kind.encode v.text)) ∧
      (∀ value trace, verdict = .accepted value trace → ∃ v : Version, value = v.toValue) ∧
      (∀ type l, (∃ failure trace, verdict = .rejected failure trace ∧
          failure.error = .overflow type l) ↔ type = "u16" ∧ TooLarge scope.source kind l) ∧
      ((∀ v : Version, ¬ scope.source.Spells scope.source.start (kind.encode v.text)) →
        (∀ l, ¬ TooLarge scope.source kind l) →
          ∃ failure trace rule l, verdict = .rejected failure trace ∧
            failure.error = .expected rule l) := by
  refine ⟨10, ?_⟩
  intro fuel enough S _ sink verdict
  obtain ⟨fuel, rfl⟩ : ∃ n, fuel = n + 4 := ⟨fuel - 4, by omega⟩
  have hfuel : 5 < fuel := by omega
  have of_text {v : Version}
      (h : scope.source.Spells scope.source.start (kind.encode v.text)) :
      verdict.result? = some (.ok v.toValue) := result?_of_text hfuel sink h
  have of_tooLarge {l : L} (h : TooLarge scope.source kind l) :
      verdict.result? = some (.error (.overflow "u16" l)) := result?_of_tooLarge hfuel sink h
  have outcome : (∃ v : Version, scope.source.Spells scope.source.start (kind.encode v.text)) ∨
      (∃ l, TooLarge scope.source kind l) ∨
      ∃ rule l, verdict.result? = some (.error (.expected rule l)) :=
    result?_cases hfuel sink kind
  refine ⟨?_, ?_, ?_, ?_⟩
  · intro v
    rw [← Verdict.result?_eq_ok]
    constructor
    · intro hok
      rcases outcome with ⟨w, spells⟩ | ⟨l, large⟩ | ⟨rule, l, hexpected⟩
      · have hvalue := (of_text spells).symm.trans hok
        obtain rfl : w = v := toValue_inj (by simpa using hvalue)
        exact spells
      · cases (of_tooLarge large).symm.trans hok
      · cases hexpected.symm.trans hok
    · exact of_text
  · intro value trace haccept
    have hok := Verdict.result?_eq_ok.2 ⟨trace, haccept⟩
    rcases outcome with ⟨v, spells⟩ | ⟨l, large⟩ | ⟨rule, l, hexpected⟩
    · exact ⟨v, by simpa using hok.symm.trans (of_text spells)⟩
    · cases (of_tooLarge large).symm.trans hok
    · cases hexpected.symm.trans hok
  · intro type l
    rw [← Verdict.result?_eq_error]
    constructor
    · intro herror
      rcases outcome with ⟨v, spells⟩ | ⟨m, large⟩ | ⟨rule, m, hexpected⟩
      · cases (of_text spells).symm.trans herror
      · have hsame := (of_tooLarge large).symm.trans herror
        simp only [Option.some.injEq, Except.error.injEq, Error.overflow.injEq] at hsame
        obtain ⟨rfl, rfl⟩ := hsame
        exact ⟨rfl, large⟩
      · cases hexpected.symm.trans herror
    · rintro ⟨rfl, large⟩
      exact of_tooLarge large
  · intro no_text fits
    rcases outcome with ⟨v, spells⟩ | ⟨l, large⟩ | ⟨rule, l, hexpected⟩
    · exact absurd spells (no_text v)
    · exact absurd large (fits l)
    · obtain ⟨failure, trace, hreject, herror⟩ := Verdict.result?_eq_error.1 hexpected
      exact ⟨failure, trace, rule, l, hreject, herror⟩

/-- In `1.0.65536` the last digit is one too many. -/
example :
    let scope : Scope Nat :=
      { source := .ofArray #[49, 46, 48, 46, 54, 53, 53, 51, 54], naming := .offsets .byte true,
        definitions := fun _ => none }
    let sink : NoReports Nat Terminal := {}
    ((Grammar.version .byte).parseAll scope 10 sink).result?
      = some (.error (.overflow "u16" 8)) := rfl

end Version

end Backtrack
