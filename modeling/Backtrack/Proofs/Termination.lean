import Backtrack.Proofs.Refinement
import Backtrack.Proofs.Trail

/-!
# Every parse ends

Where a source comes to an end, so does every attempt of a rule without references, whatever the
rules are that it repeats (`Rule.attempt_ends`). A rule that matches without consuming would match
for ever; each repetition stops after one such match. All matches but one therefore have a terminal
of their own, which bounds what repeated rules gather (`Scope.extendMany_values`,
`Rule.Gathers`).
-/

namespace Backtrack

variable {L S α σ : Type}

/-! ## What a repetition gathers -/

namespace Scope

variable [DecidableEq L] [Sink S L Terminal] {scope : Scope L} {rule : Rule} {p : Parser L S α}
  {extend : σ → α → σ} {fuel : Nat} {gathered result : σ} {cursor after : Cursor L S}

/-- **A repetition that matches** gathers the same values whatever they are gathered in, and all but
the last of them consumed a terminal. -/
theorem extendMany_values (hp : p.Follows scope.source True)
    (h : scope.extendMany rule p extend fuel gathered cursor = .ok result after) :
    ∃ (vs : List α) (k : Nat), scope.source.Steps k cursor.location after.location ∧
      vs.length ≤ k + 1 ∧ ∀ {τ : Type} (extend : τ → α → τ) (gathered : τ),
        scope.extendMany rule p extend fuel gathered cursor
          = .ok (vs.foldl extend gathered) after := by
  -- turn by turn; only the last may have stayed where it was
  induction fuel generalizing gathered cursor with
  | zero => cases h
  | succ fuel ih =>
    cases hturn : scope.attemptOptional rule p cursor with
    | unfinished =>
      rw [extendMany_unfinished hturn] at h
      cases h
    | fail error c =>
      rw [extendMany_error hturn] at h
      cases h
    | ok value c =>
      cases value with
      | none =>
        rw [extendMany_absent hturn] at h
        cases h
        refine ⟨[], 0, ?_, Nat.zero_le _, ?_⟩
        · rw [attemptOptional_none_location hturn]
          exact .zero _
        · intro τ extend gathered
          exact extendMany_absent hturn
      | some value =>
        by_cases hc : c.location = cursor.location
        · rw [extendMany_still hturn hc] at h
          cases h
          refine ⟨[value], 0, ?_, Nat.le_refl _, ?_⟩
          · rw [hc]
            exact .zero _
          · intro τ extend gathered
            exact extendMany_still hturn hc
        · rw [extendMany_moved hturn hc] at h
          obtain ⟨j, hj⟩ : scope.source.Reaches cursor.location c.location :=
            (hp.attemptOptional rule).reaches (by rw [hturn]; rfl)
          obtain ⟨vs, k, hk, hlen, hvs⟩ := ih h
          refine ⟨value :: vs, j + k, hj.trans hk, ?_, ?_⟩
          · have hpos : j ≠ 0 := by
              rintro rfl
              exact hc (hj.unique (.zero _))
            simp only [List.length_cons]
            omega
          · intro τ extend gathered
            rw [extendMany_moved hturn hc]
            exact hvs extend (extend gathered value)

end Scope

/-- A reply that a meaning describes is the end of a parse. -/
theorem Source.Describes.finished {source : Source L} {l : L} {meaning : Meaning α}
    {reply : Reply L S α} (h : source.Describes l meaning reply) : reply ≠ .unfinished := by
  cases meaning with
  | matched value n =>
    obtain ⟨after, rfl, -⟩ := h
    exact Reply.ok_ne_unfinished
  | absent | overflow =>
    obtain ⟨m, after, rfl, -⟩ := h
    exact Reply.fail_ne_unfinished

/-! ## Rules that gather -/

namespace Rule

/-- Where the rule matches from the location, there are at most so many values more than terminals
consumed, and the container is made of these values, whichever it is. -/
def Gathers [DecidableEq L] (scope : Scope L) (l : L) (rule : Container → Rule) (extra : Nat) :
    Prop :=
  ∀ {S : Type} [Sink S L Terminal] (fuel : Nat) (cursor after : Cursor L S) (into : Container)
    (value : Value) (k : Nat), cursor.location = l →
      (rule into).attempt scope fuel cursor = .ok value after →
        scope.source.Steps k l after.location →
          ∃ vs : List Value, vs.length ≤ k + extra ∧
            ∀ into : Container,
              (rule into).attempt scope fuel cursor = .ok (into.ofValues vs) after

section

variable [DecidableEq L] {scope : Scope L} {l : L} {ts : List Terminal}

/-- The number of terminals consumed is known where the source comes to an end. -/
theorem Gathers.of_steps (left : scope.source.Spells l ts) {rule : Container → Rule} {extra : Nat}
    (h : ∀ {S : Type} [Sink S L Terminal] (fuel : Nat) (cursor after : Cursor L S)
      (into : Container) (value : Value),
      (rule into).parse scope (fuel + 1) cursor = .ok value after →
        ∃ (vs : List Value) (k : Nat), scope.source.Steps k cursor.location after.location ∧
          vs.length ≤ k + extra ∧ ∀ into : Container,
            (rule into).parse scope (fuel + 1) cursor = .ok (into.ofValues vs) after) :
    Gathers scope l rule extra := by
  rintro S _ fuel cursor after into value k rfl hok hk
  cases fuel with
  | zero => cases hok
  | succ fuel =>
    obtain ⟨vs, k', hk', hlen, hvs⟩ := h fuel cursor after into value (Scope.attempt_eq_ok.1 hok)
    obtain rfl := left.steps_unique hk hk'
    exact ⟨vs, hlen, fun into => Scope.attempt_eq_ok.2 (hvs into)⟩

theorem gathers_many (left : scope.source.Spells l ts) (rule : Rule) :
    Gathers scope l (.many rule) 1 := by
  apply Gathers.of_steps left
  intro S _ fuel cursor after into value h
  have hmany : scope.extendMany rule (rule.parse scope fuel) Container.extend fuel into.empty cursor
      = .ok value after := h
  obtain ⟨vs, k, hk, hlen, hvs⟩ := Scope.extendMany_values (parse_follows_any scope fuel rule) hmany
  exact ⟨vs, k, hk, hlen, fun into => hvs Container.extend into.empty⟩

theorem gathers_many1 (left : scope.source.Spells l ts) (rule : Rule) :
    Gathers scope l (.many1 rule) 1 := by
  apply Gathers.of_steps left
  intro S _ fuel cursor after into value h
  simp only [Rule.parse, Scope.parseRule_many1] at h ⊢
  obtain ⟨⟨first, moved⟩, middle, hmoving, hrest⟩ := Parser.bind_eq_ok.1 h
  obtain ⟨hfirst, hmoved⟩ := Parser.moving_eq_ok.1 hmoving
  have follows := parse_follows_any (S := S) scope fuel rule
  obtain ⟨j, hj⟩ : scope.source.Reaches cursor.location middle.location :=
    (follows.attempt rule).reaches (by rw [hfirst]; rfl)
  cases moved with
  | false =>
    cases hrest
    refine ⟨[first], j, hj, by simp, fun into => ?_⟩
    exact Parser.bind_eq_ok.2 ⟨_, _, hmoving, rfl⟩
  | true =>
    have hpos : j ≠ 0 := by
      rintro rfl
      simp [hj.unique (.zero _)] at hmoved
    obtain ⟨vs, k, hk, hlen, hvs⟩ := Scope.extendMany_values follows hrest
    refine ⟨first :: vs, j + k, hj.trans hk, ?_, fun into => ?_⟩
    · simp only [List.length_cons]
      omega
    · exact Parser.bind_eq_ok.2 ⟨_, _, hmoving, hvs Container.extend _⟩

theorem gathers_sepBy1 (left : scope.source.Spells l ts) (rule separator : Rule) :
    Gathers scope l (.sepBy1 rule separator) 2 := by
  apply Gathers.of_steps left
  intro S _ fuel cursor after into value h
  obtain ⟨first, middle, hfirst, hrest⟩ := Parser.bind_eq_ok.1 h
  have hrule := (parse_follows_any (S := S) scope fuel rule).attempt rule
  have hseparator := (parse_follows_any (S := S) scope fuel separator).attempt separator
  have hpair := hseparator.bind fun _ => hrule
  obtain ⟨j, hj⟩ : scope.source.Reaches cursor.location middle.location :=
    hrule.reaches (by rw [hfirst]; rfl)
  obtain ⟨vs, k, hk, hlen, hvs⟩ := Scope.extendMany_values hpair hrest
  refine ⟨first :: vs, j + k, hj.trans hk, ?_, fun into => ?_⟩
  · simp only [List.length_cons]
    omega
  · exact Parser.bind_eq_ok.2 ⟨first, middle, hfirst, hvs Container.extend _⟩

end

/-- **Every parse ends, and repetitions are bounded.**

* Where the source comes to an end behind a location, the attempt of a rule without references
  comes to an end there, with enough fuel and from any sink, whatever the rules are that are
  repeated in it.
* A repeated rule that matches there has gathered at most one value more than it consumed terminals,
  and a separated one at most two more.
* Sequences and texts come to an end behind every location. -/
theorem attempt_ends :
    (∀ {L : Type} [DecidableEq L] (scope : Scope L) (l : L) (ts : List Terminal),
      scope.source.Spells l ts →
        (∀ rule, scope.Throughout Direct rule → ∃ enough, ∀ fuel, enough ≤ fuel →
          ∀ {S : Type} [Sink S L Terminal] (cursor : Cursor L S), cursor.location = l →
            rule.attempt scope fuel cursor ≠ .unfinished) ∧
        (∀ rule, Gathers scope l (.many rule) 1) ∧
        (∀ rule, Gathers scope l (.many1 rule) 1) ∧
        ∀ rule separator, Gathers scope l (.sepBy1 rule separator) 2) ∧
    ∀ {source : Source Nat} {size : Nat}, source.Addressed size →
      ∀ l, ∃ ts, source.Spells l ts := by
  refine ⟨?_, fun addressed => addressed.exists_spells⟩
  intro L _ scope l ts left
  refine ⟨?_, gathers_many left, gathers_many1 left, gathers_sepBy1 left⟩
  intro rule direct
  refine ⟨sizeOf rule + ts.length + 1, ?_⟩
  rintro fuel hfuel S _ cursor rfl
  have hparse : (rule.parse scope fuel : Parser L S Value).Realizes scope.source ts.length _ :=
    parse_realizes direct (by omega)
  exact (hparse.attempt rule cursor ts left (Nat.le_refl _)).finished

/-- Words that may be empty, over and over: after `a` there is one empty word, and no more. -/
theorem attempt_ends_empty_word :
    let scope : Scope Nat :=
      { source := .ofArray #[97, 49], naming := .offsets .byte true, definitions := fun _ => none }
    let words : Rule := .many Grammar.word .count
    let start : Cursor Nat (NoReports Nat Terminal) := .atStart scope.source {}
    (∃ enough, ∀ fuel, enough ≤ fuel → words.attempt scope fuel start ≠ .unfinished) ∧
      ∃ (after : Cursor Nat (NoReports Nat Terminal)) (vs : List Value),
        words.attempt scope 4 start = .ok (.count 2) after ∧ after.location = 1 ∧
          vs.length ≤ 2 ∧
            words.attempt scope 4 start = .ok (Container.count.ofValues vs) after := by
  intro scope words start
  obtain ⟨ts, left⟩ := attempt_ends.2 (Source.Addressed.sequence #[97, 49]) 0
  obtain ⟨ends, gathers, -, -⟩ := attempt_ends.1 scope 0 ts left
  have direct : scope.Throughout Direct words :=
    Scope.throughout_many trivial
      (Scope.throughout_many trivial (Scope.throughout_terminal trivial))
  obtain ⟨enough, hends⟩ := ends words direct
  have hwords : words.attempt scope 4 start = .ok (.count 2) ⟨1, {}, _⟩ := rfl
  have consumed : scope.source.Steps 1 0 1 := .one rfl
  obtain ⟨vs, hlen, hvs⟩ := gathers Grammar.word 4 start _ .count _ 1 rfl hwords consumed
  refine ⟨⟨enough, ?_⟩, _, vs, hwords, rfl, hlen, hvs .count⟩
  intro fuel hfuel
  exact hends fuel hfuel start rfl

end Rule

end Backtrack
