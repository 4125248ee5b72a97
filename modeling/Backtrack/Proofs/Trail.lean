import Backtrack.Proofs.Account

/-!
# Trails of parses

What a rule does to a cursor, one thing after the other, is a trail through the source: it consumes
terminals, raises errors where it stands or behind the terminal it has just rejected, goes back
after a failure, and takes recoverable failures for absences. No rule does anything else
(`Rule.parse_follows`), so what holds of all trails holds of every run of every rule, and is shown
by induction on the trail.
-/

namespace Backtrack

variable {L S α β : Type}

/-! ## Trails -/

/-- A way through a source from one location to another, with the error that ends it, if one does,
and the entries that are made on the way. A failure without a report is part of it only where
`quiet` allows. -/
inductive Source.Trail (source : Source L) (quiet : Prop) :
    L → Option (Error L) → L → List (TraceEntry L) → Prop where
  | stay (l : L) : Trail source quiet l none l []
  | advance {l next : L} {t : Terminal} (here : source.terminalAt l = some (t, next)) :
      Trail source quiet l none next []
  | append {l m k : L} {error? : Option (Error L)} {es es' : List (TraceEntry L)}
      (first : Trail source quiet l none m es) (rest : Trail source quiet m error? k es') :
      Trail source quiet l error? k (es ++ es')
  /-- An error raised where the cursor stands. -/
  | raise (error : Error L) :
      Trail source quiet error.location (some error) error.location (source.raised error)
  /-- An error raised at the terminal that was consumed last. -/
  | reject {next : L} {t : Terminal} (error : Error L)
      (here : source.terminalAt error.location = some (t, next)) :
      Trail source quiet error.location (some error) next (source.raised error)
  | rewind {l m : L} {error : Error L} {es : List (TraceEntry L)}
      (failed : Trail source quiet l (some error) m es) (moved : m ≠ l) (rule : String) :
      Trail source quiet l (some error) l (es ++ [.rewound m l rule])
  | absorb {l : L} {error : Error L} {es : List (TraceEntry L)}
      (failed : Trail source quiet l (some error) l es) (recoverable : error.recoverable) :
      Trail source quiet l none l es
  | silent (allowed : quiet) (name : String) (l : L) :
      Trail source quiet l (some (.expected name l)) l []

namespace Source.Trail

variable {source : Source L} {quiet : Prop} {l m : L} {error? : Option (Error L)}
  {es : List (TraceEntry L)}

/-- A trail only follows the terminals of the source. -/
theorem reaches (h : source.Trail quiet l error? m es) : source.Reaches l m := by
  induction h with
  | stay l => exact .refl source l
  | advance here => exact .step here
  | append _ _ first rest => exact first.trans rest
  | raise error => exact .refl source error.location
  | reject error here => exact .step here
  | rewind => exact .refl source _
  | absorb => exact .refl source _
  | silent _ _ l => exact .refl source l

/-- The error that ends a trail lies on it. -/
theorem error_reaches (h : source.Trail quiet l error? m es) {error : Error L}
    (herror : error? = some error) : source.Reaches l error.location := by
  induction h with
  | append first _ _ ih => exact first.reaches.trans (ih herror)
  | rewind _ _ _ ih => exact ih herror
  | raise error =>
    cases herror
    exact .refl source error.location
  | reject error =>
    cases herror
    exact .refl source error.location
  | silent _ name l =>
    cases herror
    exact .refl source l
  | stay | advance | absorb => cases herror

/-- What is reported on a trail is found on it. -/
theorem report_reaches (h : source.Trail quiet l error? m es) :
    ∀ report ∈ reportsOf es,
      source.Reaches l report.error.location ∧
        report.found = source.found report.error.location := by
  induction h with
  | append first _ hfirst hrest =>
    intro report hreport
    rw [reportsOf_append, List.mem_append] at hreport
    rcases hreport with hreport | hreport
    · exact hfirst report hreport
    · exact (hrest report hreport).imp_left first.reaches.trans
  | raise error =>
    intro report hreport
    cases hreport
    · exact ⟨.refl source error.location, rfl⟩
    · contradiction
  | reject error =>
    intro report hreport
    cases hreport
    · exact ⟨.refl source error.location, rfl⟩
    · contradiction
  | rewind _ _ _ ih => simpa using ih
  | absorb _ _ ih => exact ih
  | stay | advance | silent => simp

/-- Where every failure is reported, the error that ends a trail is the last report. -/
theorem reported (h : source.Trail False l error? m es) {error : Error L}
    (herror : error? = some error) :
    ∃ earlier, reportsOf es = earlier ++ [source.reportOf error] := by
  induction h with
  | @append _ _ _ _ es _ _ _ _ ih =>
    obtain ⟨earlier, hearlier⟩ := ih herror
    exact ⟨reportsOf es ++ earlier, by simp [hearlier]⟩
  | rewind _ _ _ ih =>
    obtain ⟨earlier, hearlier⟩ := ih herror
    exact ⟨earlier, by simp [hearlier]⟩
  | raise error =>
    cases herror
    exact ⟨[], rfl⟩
  | reject error =>
    cases herror
    exact ⟨[], rfl⟩
  | silent impossible => exact impossible.elim
  | stay | advance | absorb => cases herror

end Source.Trail

/-! ## Accounts on trails -/

/-- The account is that of a trail from a location. -/
def Account.OnTrail (source : Source L) (quiet : Prop) (l : L) (a : Account L α) : Prop :=
  source.Trail quiet l a.error? a.location a.entries

namespace Account.OnTrail

variable {source : Source L} {quiet : Prop} {l : L}

theorem done (value : α) : (Account.done value l).OnTrail source quiet l :=
  .stay l

theorem raised (error : Error L) :
    (Account.raised source error error.location : Account L α).OnTrail source quiet
      error.location :=
  .raise error

theorem reading (scope : Scope L) (rule : Rule) (accept : Terminal → Option α) :
    (Account.reading scope rule accept l).OnTrail scope.source quiet l := by
  unfold Account.reading
  split
  · exact .raise (.expected (rule.identity scope.naming) l)
  · next here =>
    split
    · exact .advance here
    · exact .reject (.expected (rule.identity scope.naming) l) here

theorem advancing : (Account.advancing source l).OnTrail source quiet l := by
  unfold Account.advancing
  split
  · exact .stay l
  · next here => exact .advance here

theorem ending (scope : Scope L) : (Account.ending scope l).OnTrail scope.source quiet l := by
  unfold Account.ending
  split
  · exact .stay l
  · exact .raise (.expected (Rule.endOfInput.identity scope.naming) l)

theorem after {m : L} {es : List (TraceEntry L)} {a : Account L α}
    (first : source.Trail quiet l none m es) (rest : a.OnTrail source quiet m) :
    (a.after es).OnTrail source quiet l :=
  .append first rest

variable [DecidableEq L] {a : Account L α}

theorem moving (h : a.OnTrail source quiet l) : (a.moving l).OnTrail source quiet l := by
  obtain ⟨outcome, m, es⟩ := a
  cases outcome <;> exact h

theorem rewind (h : a.OnTrail source quiet l) (rule : String) :
    (a.rewind rule l).OnTrail source quiet l := by
  obtain ⟨outcome, m, es⟩ := a
  cases outcome with
  | ok value => exact h
  | error error =>
    by_cases hm : m = l
    · subst hm
      simpa only [Account.rewind, backtrack, if_true, List.append_nil] using h
    · simp only [Account.rewind, backtrack, if_neg hm]
      exact Source.Trail.rewind h hm rule

theorem optional (h : a.OnTrail source quiet l) (rule : String) :
    (a.rewind rule l).optional.OnTrail source quiet l := by
  have hback := h.rewind rule
  obtain ⟨outcome, m, es⟩ := a
  cases outcome with
  | ok value => exact h
  | error error =>
    cases hr : error.recoverable with
    | true =>
      simp only [Account.rewind, Account.optional, hr, if_true]
      exact .absorb hback hr
    | false =>
      simp only [Account.rewind, Account.optional, hr]
      exact hback

theorem nextDigit (scope : Scope L) (alphabet : Digit) (type : IntegerType)
    (combine : Int → Option Int) :
    (Account.nextDigit scope alphabet type combine l).OnTrail scope.source quiet l := by
  have hdigit : (Account.reading scope (.digit alphabet type) (alphabet.read? type) l).OnTrail
      scope.source quiet l := .reading ..
  have hread := hdigit.optional ((Rule.digit alphabet type).identity scope.naming)
  unfold Account.nextDigit
  generalize hr : Account.optional _ = read at hread ⊢
  obtain ⟨outcome, m, es⟩ := read
  cases outcome with
  | error error => exact hread
  | ok digit =>
    cases digit with
    | none => exact hread
    | some digit =>
      cases hc : combine digit with
      | some value =>
        simp only [Account.combining, hc]
        exact hread
      | none =>
        -- the digit was consumed, so that the overflow is at the terminal consumed last
        obtain ⟨t, here, rfl⟩ := Account.reading_some hr
        simp only [Account.combining, hc]
        exact Source.Trail.reject (.overflow type.name l) here

end Account.OnTrail

/-! ## Parsers that follow trails -/

/-- All that the parser does, where it comes to an end, is to follow a trail. -/
def Parser.Follows [Sink S L Terminal] (source : Source L) (quiet : Prop) (p : Parser L S α) :
    Prop :=
  ∀ cursor, p cursor = .unfinished ∨
    ∃ a : Account L α, p cursor = a.replyTo cursor ∧ a.OnTrail source quiet cursor.location

/-- Where such a parser comes to an end, whole terminals lie behind it. -/
theorem Parser.Follows.reaches [Sink S L Terminal] {source : Source L} {quiet : Prop}
    {p : Parser L S α} (h : p.Follows source quiet) {cursor after : Cursor L S}
    (hp : (p cursor).cursor? = some after) : source.Reaches cursor.location after.location := by
  rcases h cursor with hu | ⟨⟨outcome, m, es⟩, ha, trail⟩
  · rw [hu] at hp
    cases hp
  · rw [ha] at hp
    cases outcome <;> cases hp <;> exact trail.reaches

namespace Rule

/-- The rule is not one that fails in silence. -/
def Loud : Rule → Prop
  | .silent _ => False
  | _ => True

end Rule

variable [DecidableEq L] [Sink S L Terminal]

namespace Parser.Follows

variable {scope : Scope L} {quiet : Prop} {p : Parser L S α}

omit [DecidableEq L] in
theorem bind {f : α → Parser L S β} (hp : p.Follows scope.source quiet)
    (hf : ∀ value, (f value).Follows scope.source quiet) :
    (p >>= f).Follows scope.source quiet := by
  intro cursor
  rcases hp cursor with hp | ⟨⟨outcome, m, es⟩, hp, ha⟩
  · exact .inl (Parser.bind_unfinished hp)
  · cases outcome with
    | error error => exact .inr ⟨_, Parser.bind_account_error hp, ha⟩
    | ok value =>
      rw [Parser.bind_account_ok hp]
      rcases hf value (cursor.record m es) with hf | ⟨b, hf, hb⟩
      · exact .inl hf
      · exact .inr ⟨b.after es, hf.trans (Parser.replyTo_record b m es), .after ha hb⟩

theorem attempt (hp : p.Follows scope.source quiet) (rule : Rule) :
    (scope.attempt rule p).Follows scope.source quiet := by
  intro cursor
  rcases hp cursor with h | ⟨a, h, ha⟩
  · exact .inl (scope.attempt_unfinished rule h)
  · exact .inr ⟨_, scope.attempt_account rule h, ha.rewind _⟩

theorem attemptOptional (hp : p.Follows scope.source quiet) (rule : Rule) :
    (scope.attemptOptional rule p).Follows scope.source quiet := by
  intro cursor
  rcases hp cursor with h | ⟨a, h, ha⟩
  · exact .inl (scope.attemptOptional_unfinished rule h)
  · exact .inr ⟨_, scope.attemptOptional_account rule h, ha.optional _⟩

end Parser.Follows

/-- Following trails is respected by all that rules are put together from. -/
theorem related_follows (scope : Scope L) (quiet : Prop) :
    Related scope scope (fun part => quiet ∨ part.Loud)
      fun {α} (p _ : Parser L S α) => p.Follows scope.source quiet where
  unfinished _ := .inl rfl
  pure value cursor := .inr ⟨_, Parser.pure_account cursor value, .done value⟩
  bind hp hf := hp.bind hf
  moving hp cursor := by
    rcases hp cursor with hp | ⟨a, hp, ha⟩
    · exact .inl (by simp [Parser.moving, hp])
    · exact .inr ⟨_, Parser.moving_account cursor hp, ha.moving⟩
  attempt rule _ _ hp := hp.attempt rule
  attemptOptional rule _ _ hp := hp.attemptOptional rule
  terminal _ _ accept _ cursor :=
    .inr ⟨_, scope.acceptTerminal_account cursor _ accept, .reading scope _ accept⟩
  nextDigit alphabet type _ combine cursor :=
    .inr ⟨_, scope.nextDigit_account cursor alphabet type combine, .nextDigit ..⟩
  ending _ cursor := .inr ⟨_, scope.ending_account cursor, .ending scope⟩
  advance _ _ _ cursor := .inr ⟨_, Parser.advance_account cursor scope.source, .advancing⟩
  expectedHere rule cursor :=
    .inr ⟨_, scope.expectedHere_account cursor rule, .raised (.expected _ _)⟩
  overflowHere type cursor :=
    .inr ⟨_, scope.overflowHere_account cursor type, .raised (.overflow type.name _)⟩
  silent name hs cursor := by
    exact .inr ⟨_, Parser.absentHere_account cursor name,
      .silent (hs.resolve_right id) name cursor.location⟩

namespace Rule

variable (scope : Scope L) (quiet : Prop) (fuel : Nat) {rule : Rule}

/-- **Every rule follows a trail**, and without silent parts a trail on which every failure is
reported. -/
theorem parse_follows (h : scope.Throughout (fun part => quiet ∨ part.Loud) rule) :
    (rule.parse scope fuel : Parser L S Value).Follows scope.source quiet :=
  (related_follows scope quiet).parse rfl fuel h

/-- Silent parts or not, a rule follows some trail. -/
theorem parse_follows_any (rule : Rule) :
    (rule.parse scope fuel : Parser L S Value).Follows scope.source True :=
  rule.parse_follows scope True fuel (.of_forall fun _ => .inl trivial)

theorem attempt_follows (h : scope.Throughout (fun part => quiet ∨ part.Loud) rule) :
    (rule.attempt scope fuel : Parser L S Value).Follows scope.source quiet :=
  (related_follows scope quiet).ruleAttempt rfl fuel h

end Rule

end Backtrack
