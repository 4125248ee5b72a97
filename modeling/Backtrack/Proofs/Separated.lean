import Backtrack.Proofs.Gathering

/-!
# Separated lists

A separated list is an element followed by pairs of a separator and an element, each of which is
attempted as a whole. It therefore does what the sequence of the element and the repeated pair does,
and gathers the elements alone. It never takes a separator without the element after it: the cursor
stops directly behind an element (`Scope.Listed`), where the pair is absent or has just matched
without consuming (`Rule.sepBy1_agrees_pairs`).
-/

namespace Backtrack

variable {L S α β σ : Type}

/-- The value of a separator and the element after it. -/
def Value.ofPair (pair : Value × Value) : Value :=
  .tuple [pair.1, pair.2]

/-- The second of two values of a sequence. -/
def Value.second : Value → Value
  | .tuple [_, v] => v
  | v => v

@[simp] theorem Value.second_ofPair (pair : Value × Value) : (ofPair pair).second = pair.2 := rfl

/-! ## Parsers with other values -/

theorem Parser.map_apply (f : α → β) (p : Parser L S α) (cursor : Cursor L S) :
    (f <$> p) cursor =
      match p cursor with
      | .ok value after => .ok (f value) after
      | .fail error after => .fail error after
      | .unfinished => .unfinished := by
  rw [← bind_pure_comp, Parser.bind_apply]
  rfl

theorem Parser.FinishesAs.map {p q : Parser L S α} (h : p.FinishesAs q) (f : α → β) :
    (f <$> p).FinishesAs (f <$> q) := by
  rw [← bind_pure_comp, ← bind_pure_comp]
  exact h.bind fun _ => .refl _

namespace Scope

variable [DecidableEq L] {scope : Scope L} {rule : Rule} {p : Parser L S α}

theorem attemptOptional_map (f : α → β) (cursor : Cursor L S) :
    scope.attemptOptional rule (f <$> p) cursor
      = (Option.map f <$> scope.attemptOptional rule p) cursor := by
  rw [Parser.map_apply]
  unfold attemptOptional attempt
  rw [Parser.map_apply]
  cases p cursor with
  | ok value after => rfl
  | fail error after =>
    by_cases hm : after.location = cursor.location <;> cases hr : error.recoverable <;>
      simp [hm, hr]
  | unfinished => rfl

/-- Values may be changed where they are gathered. -/
theorem extendMany_map (f : α → β) (extend : σ → β → σ) (fuel : Nat) (gathered : σ)
    (cursor : Cursor L S) :
    scope.extendMany rule (f <$> p) extend fuel gathered cursor
      = scope.extendMany rule p (fun gathered value => extend gathered (f value)) fuel gathered
          cursor := by
  induction fuel generalizing gathered cursor with
  | zero => rfl
  | succ fuel ih =>
    have turn : scope.attemptOptional rule (f <$> p) cursor
        = (Option.map f <$> scope.attemptOptional rule p) cursor := attemptOptional_map f cursor
    rw [Parser.map_apply] at turn
    cases h : scope.attemptOptional rule p cursor with
    | ok value after =>
      rw [h] at turn
      cases value with
      | none => rw [extendMany_absent turn, extendMany_absent h]
      | some value =>
        by_cases hm : after.location = cursor.location
        · rw [extendMany_still turn hm, extendMany_still h hm]
        · rw [extendMany_moved turn hm, extendMany_moved h hm, ih]
    | fail error after =>
      rw [h] at turn
      rw [extendMany_error turn, extendMany_error h]
    | unfinished =>
      rw [h] at turn
      rw [extendMany_unfinished turn, extendMany_unfinished h]

/-! ## An element and pairs -/

/-- An element, and then elements behind separators, whose values are added to anything that
grows. -/
def separatedBy (scope : Scope L) (rule separator : Rule) (element next : Parser L S Value)
    (extend : σ → Value → σ) (fuel : Nat) (empty : σ) : Parser L S σ := do
  let first ← scope.attempt rule element
  scope.extendMany (.seq [separator, rule]) next extend fuel (extend empty first)

/-- An element, and then a list of pairs. -/
def withPairs (scope : Scope L) (rule separator : Rule) (element pair : Parser L S Value)
    (fuel : Nat) : Parser L S Value := do
  let first ← scope.attempt rule element
  let pairs ← scope.attempt (.many (.seq [separator, rule]) .vector)
    (scope.extendMany (.seq [separator, rule]) pair Container.extend fuel Container.vector.empty)
  pure (.tuple [first, pairs])

theorem separatedBy_finishesAs (scope : Scope L) (rule separator : Rule)
    {element element' next next' : Parser L S Value} (helement : element.FinishesAs element')
    (hnext : next.FinishesAs next') (extend : σ → Value → σ) {n m : Nat} (hnm : n ≤ m) (empty : σ) :
    (scope.separatedBy rule separator element next extend n empty).FinishesAs
      (scope.separatedBy rule separator element' next' extend m empty) :=
  (helement.attempt scope rule).bind fun _ => hnext.extendMany scope _ extend hnm _

theorem withPairs_finishesAs (scope : Scope L) (rule separator : Rule)
    {element element' pair pair' : Parser L S Value} (helement : element.FinishesAs element')
    (hpair : pair.FinishesAs pair') {n m : Nat} (hnm : n ≤ m) :
    (scope.withPairs rule separator element pair n).FinishesAs
      (scope.withPairs rule separator element' pair' m) :=
  (helement.attempt scope rule).bind fun _ =>
    ((hpair.extendMany scope _ Container.extend hnm _).attempt scope _).bind fun _ => .refl _

section

variable [Sink S L Terminal]

theorem parse_withPairs (scope : Scope L) (fuel : Nat) (rule separator : Rule) :
    ((Rule.seq [rule, .many (.seq [separator, rule]) .vector]).parse scope (fuel + 2) :
        Parser L S Value)
      = scope.withPairs rule separator (rule.parse scope (fuel + 1))
          ((Rule.seq [separator, rule]).parse scope fuel) fuel := by
  simp only [Rule.parse, parseRule, sequence, withPairs, repeated, bind_assoc, pure_bind]

theorem parse_pair (scope : Scope L) (fuel : Nat) (rule separator : Rule) :
    ((Rule.seq [separator, rule]).parse scope (fuel + 1) : Parser L S Value)
      = (do
          let before ← separator.attempt scope fuel
          let value ← rule.attempt scope fuel
          pure (.ofPair (before, value))) := by
  simp only [Rule.parse, parseRule, sequence, Rule.attempt, Value.ofPair, bind_assoc, pure_bind]

/-- An element behind a separator is the second of a pair. -/
theorem separated_eq (scope : Scope L) (fuel : Nat) (rule separator : Rule) :
    (scope.separated (Rule.parse scope fuel) rule separator : Parser L S Value)
      = Value.second <$> (Rule.seq [separator, rule]).parse scope (fuel + 1) := by
  simp only [parse_pair, separated, Rule.attempt, map_bind, map_pure, Value.second_ofPair,
    bind_pure]

end

/-! ## Accounts of lists -/

section

variable [Sink S L Terminal] {separator : Rule} {element pair : Parser L S Value}
  {extend : σ → Value → σ} {fuel : Nat} {empty : σ} {cursor : Cursor L S}

theorem separatedBy_account {next : Parser L S Value} {first : Value} {m : L}
    {es : List (TraceEntry L)} {a : Account L σ}
    (hfirst : (scope.attempt rule element).Does cursor.location ⟨.ok first, m, es⟩)
    (hnext : (scope.extendMany (.seq [separator, rule]) next extend fuel (extend empty first)).Does
      m a) :
    scope.separatedBy rule separator element next extend fuel empty cursor
      = (a.after es).replyTo cursor :=
  (Parser.bind_account_ok (hfirst cursor rfl)).trans
    ((hnext _ rfl).trans (Parser.replyTo_record ..))

theorem withPairs_account {first : Value} {m : L} {es : List (TraceEntry L)} {a : Account L Value}
    (hfirst : (scope.attempt rule element).Does cursor.location ⟨.ok first, m, es⟩)
    (hpairs : (scope.attempt (.many (.seq [separator, rule]) .vector)
      (scope.extendMany (.seq [separator, rule]) pair Container.extend fuel
        Container.vector.empty)).Does m a) :
    scope.withPairs rule separator element pair fuel cursor
      = Account.replyTo ⟨a.outcome.map fun pairs => .tuple [first, pairs], a.location,
          es ++ a.entries⟩ cursor := by
  refine (Parser.bind_account_ok (hfirst cursor rfl)).trans ?_
  obtain ⟨outcome, stop, es'⟩ := a
  cases outcome with
  | ok pairs =>
    refine (Parser.bind_account_ok (hpairs _ rfl)).trans ?_
    rw [Cursor.record_record]
    rfl
  | error error =>
    exact (Parser.bind_account_error (hpairs _ rfl)).trans (Parser.replyTo_record ..)

/-- **Elements behind separators do what pairs do**: they make the same reports, come to the same
location and fail with the same error. If they do not fail, they are an element and matches of the
pair. -/
theorem separatedBy_agrees {source : Source L} (self self' : Rule)
    (helement : element.Parallel source element) (hpair : pair.Parallel source pair)
    (ended : scope.attempt self
      (scope.separatedBy rule separator element (Value.second <$> pair) extend fuel empty) cursor
        ≠ .unfinished) :
    ∃ a b,
      scope.attempt self
          (scope.separatedBy rule separator element (Value.second <$> pair) extend fuel empty)
          cursor
        = Account.replyTo a cursor ∧
      scope.attempt self' (scope.withPairs rule separator element pair fuel) cursor
        = Account.replyTo b cursor ∧
      a.reports = b.reports ∧ a.location = b.location ∧ a.error? = b.error? ∧
      ∀ result, a.outcome = .ok result → ∃ first m es ms es',
        (scope.attempt rule element).Does cursor.location ⟨.ok first, m, es⟩ ∧
        Repeats scope (.seq [separator, rule]) pair m ms a.location none es' ∧
        b.outcome = .ok (.tuple [first, .list (ms.map Match.value).toArray]) ∧
        result = ((ms.map Match.value).map Value.second).foldl extend (extend empty first) := by
  have turn : scope.attempt rule element cursor ≠ .unfinished := fun h =>
    ended (scope.attempt_unfinished self (Parser.bind_unfinished h))
  obtain ⟨⟨outcome, m, es⟩, hfirst⟩ := Parser.exists_does (helement.attempt scope rule) turn
  cases outcome with
  | error error =>
    have hone : scope.separatedBy rule separator element (Value.second <$> pair) extend fuel empty
        cursor = Account.replyTo ⟨.error error, m, es⟩ cursor :=
      Parser.bind_account_error (hfirst cursor rfl)
    have hother : scope.withPairs rule separator element pair fuel cursor
        = Account.replyTo ⟨.error error, m, es⟩ cursor :=
      Parser.bind_account_error (hfirst cursor rfl)
    refine ⟨_, _, scope.attempt_account self hone, scope.attempt_account self' hother, ?_, rfl, rfl,
      ?_⟩
    · rw [Account.reports_rewind, Account.reports_rewind]
      rfl
    · intro result h
      cases h
  | ok first =>
    have rest : scope.attemptManyInto (.seq [separator, rule]) pair
        (fun gathered value => extend gathered value.second) fuel (extend empty first)
        (cursor.record m es) ≠ .unfinished := by
      intro h
      refine ended (scope.attempt_unfinished self ?_)
      rw [separatedBy, Parser.bind_account_ok (hfirst cursor rfl), extendMany_map, extendMany, h]
    obtain ⟨ms, stop, error?, es', repeats, hmany⟩ := attemptManyInto_repeats hpair rest
    have hseconds : (scope.extendMany (.seq [separator, rule]) (Value.second <$> pair) extend fuel
        (extend empty first)).Does m
          ⟨error?.elim (.ok (((ms.map Match.value).map Value.second).foldl extend
            (extend empty first))) .error, stop, ms.flatMap Match.entries ++ es'⟩ := by
      intro cursor here
      rw [extendMany_map, List.foldl_map]
      exact extendMany_does (hmany _ _) cursor here
    have hpairs := (extendMany_does (hmany Container.extend Container.vector.empty)).attempt scope
      (.many (.seq [separator, rule]) .vector)
    have hone := scope.attempt_account self (separatedBy_account hfirst hseconds)
    have hother := scope.attempt_account self' (withPairs_account hfirst hpairs)
    refine ⟨_, _, hone, hother, ?_⟩
    simp only [Account.reports_rewind]
    cases error? with
    | none =>
      refine ⟨rfl, rfl, rfl, ?_⟩
      rintro result ⟨⟩
      refine ⟨first, m, es, ms, es', hfirst, repeats, ?_, rfl⟩
      rw [← Container.ofValues_vector]
      rfl
    | some error =>
      refine ⟨?_, rfl, rfl, ?_⟩
      · simp [Account.reports, Account.after, Account.rewind]
      · intro result h
        cases h

/-- Where pairs come to an end, so do elements behind separators. -/
theorem separatedBy_ended {source : Source L} (hpair : pair.Parallel source pair)
    (ended : scope.withPairs rule separator element pair fuel cursor ≠ .unfinished) :
    scope.separatedBy rule separator element (Value.second <$> pair) extend fuel empty cursor
      ≠ .unfinished := by
  cases hfirst : scope.attempt rule element cursor with
  | ok first after =>
    have rest : scope.attemptManyInto (.seq [separator, rule]) pair Container.extend fuel
        Container.vector.empty after ≠ .unfinished := by
      intro h
      apply ended
      rw [withPairs, Parser.bind_apply, hfirst]
      exact Parser.bind_unfinished (scope.attempt_unfinished _ (by rw [extendMany, h]))
    -- the repetition comes to an end whatever it gathers
    obtain ⟨ms, stop, error?, es, -, hmany⟩ := attemptManyInto_repeats hpair rest
    have hnext := extendMany_does (hmany (fun gathered value => extend gathered value.second)
      (extend empty first)) after rfl
    rw [← extendMany_map] at hnext
    rw [separatedBy, Parser.bind_apply, hfirst]
    exact fun h => Account.replyTo_ne_unfinished _ (hnext.symm.trans h)
  | fail error after =>
    rw [separatedBy, Parser.bind_of_fail hfirst]
    exact Reply.fail_ne_unfinished
  | unfinished => exact absurd (Parser.bind_unfinished hfirst) ended

end

end Scope

/-! ## Lists of elements -/

section

variable [Sink S L Terminal]

/-- A match of the element, and then matches of the separator with a match of the element behind
each, lead from one location to another. -/
inductive Parser.Listed (element separator : Parser L S Value) (l : L) (first : Value) :
    List (Value × Value) → L → Prop where
  | single {stop : L} {es : List (TraceEntry L)} (here : element.Does l ⟨.ok first, stop, es⟩) :
      Listed element separator l first [] stop
  | more {rest : List (Value × Value)} {before value : Value} {m m' stop : L}
      {es es' : List (TraceEntry L)} (front : Listed element separator l first rest m)
      (separates : separator.Does m ⟨.ok before, m', es⟩)
      (follows : element.Does m' ⟨.ok value, stop, es'⟩) :
      Listed element separator l first (rest ++ [(before, value)]) stop

/-- How a separated list compares with an element and pairs, by the parsers of the element, of the
separator and of the pair. -/
structure Account.ListAgrees (element separator pair : Parser L S Value) (extend : σ → Value → σ)
    (empty : σ) (l : L) (list : Account L σ) (pairs : Account L Value) : Prop where
  reports : list.reports = pairs.reports
  location : list.location = pairs.location
  error? : list.error? = pairs.error?
  /-- The list has the elements alone, and ends directly behind the last of them. There the pair is
  absent or has just matched without consuming. -/
  matched : ∀ result, list.outcome = .ok result → ∃ first rest,
    pairs.outcome = .ok (.tuple [first, .list (rest.map Value.ofPair).toArray]) ∧
    result = (rest.map Prod.snd).foldl extend (extend empty first) ∧
    element.Listed separator l first rest list.location ∧
    ((∃ error es, error.recoverable = true ∧
        pair.Does list.location ⟨.error error, list.location, es⟩) ∨
      ∃ last es, rest.getLast? = some last ∧
        pair.Does list.location ⟨.ok (.ofPair last), list.location, es⟩)

end

namespace Rule

variable [DecidableEq L] [Sink S L Terminal] {scope : Scope L} {rule separator : Rule} {fuel : Nat}

/-- A match of the pair is a match of the separator and a match of the rule behind it. -/
theorem pair_does (cursor : Cursor L S) {l m : L} {value : Value} {es : List (TraceEntry L)}
    (h : ((seq [separator, rule]).attempt scope (fuel + 1) : Parser L S Value).Does l
      ⟨.ok value, m, es⟩) :
    ∃ pair m' es es', value = .ofPair pair ∧
      (separator.attempt scope fuel : Parser L S Value).Does l ⟨.ok pair.1, m', es⟩ ∧
      (rule.attempt scope fuel : Parser L S Value).Does m' ⟨.ok pair.2, m, es'⟩ := by
  have here := h { cursor with location := l } rfl
  rw [attempt, Account.replyTo, Scope.attempt_eq_ok, Scope.parse_pair, Parser.bind_eq_ok] at here
  obtain ⟨before, middle, hbefore, here⟩ := here
  obtain ⟨value', after, hvalue, here⟩ := Parser.bind_eq_ok.1 here
  obtain ⟨rfl, rfl⟩ := Reply.ok.inj here
  obtain ⟨es₁, hbefore⟩ :=
    ((separator.parse_parallel scope fuel).attempt scope _).does_of_ok hbefore
  obtain ⟨es₂, hvalue⟩ := ((rule.parse_parallel scope fuel).attempt scope _).does_of_ok hvalue
  exact ⟨(before, value'), middle.location, es₁, es₂, rfl, hbefore, hvalue⟩

/-- Pairs that lead on from a list make it a longer list. -/
theorem listed_of_leads (cursor : Cursor L S) {l m stop : L} {first : Value}
    {rest : List (Value × Value)} {ms : List (Match L Value)}
    (front : (rule.attempt scope fuel : Parser L S Value).Listed (separator.attempt scope fuel) l
      first rest m)
    (leads : ((seq [separator, rule]).attempt scope (fuel + 1) : Parser L S Value).Leads m ms
      stop) :
    ∃ more, ms.map Match.value = more.map Value.ofPair ∧
      (rule.attempt scope fuel : Parser L S Value).Listed (separator.attempt scope fuel) l first
        (rest ++ more) stop := by
  induction leads generalizing rest with
  | nil l => exact ⟨[], rfl, by simpa using front⟩
  | @cons match' ms stop here leads ih =>
    obtain ⟨pair, m', es, es', hvalue, separates, follows⟩ := pair_does cursor here
    obtain ⟨more, hmore, listed⟩ := ih (front.more separates follows)
    refine ⟨pair :: more, ?_, by simpa using listed⟩
    rw [List.map_cons, List.map_cons, hmore, hvalue]

/-- What a separated list does to a cursor, whatever its elements are gathered in. -/
def parseSeparated (scope : Scope L) (fuel : Nat) (rule separator : Rule) (extend : σ → Value → σ)
    (empty : σ) : Parser L S σ :=
  scope.separatedBy rule separator (rule.parse scope fuel)
    (scope.separated (parse scope fuel) rule separator) extend fuel empty

theorem attempt_sepBy1 (scope : Scope L) (fuel : Nat) (rule separator : Rule) (into : Container) :
    ((sepBy1 rule separator into).attempt scope (fuel + 1) : Parser L S Value)
      = scope.attempt (sepBy1 rule separator into)
          (rule.parseSeparated scope fuel separator Container.extend into.empty) :=
  rfl

/-- An element, and then a list of pairs of a separator and an element. -/
def listing (rule separator : Rule) : Rule :=
  seq [rule, many (seq [separator, rule]) .vector]

/-- With the same fuel, a separated list and an element with pairs are told by the same matches. -/
theorem parseSeparated_agrees (scope : Scope L) (rule separator : Rule) (cursor : Cursor L S)
    (extend : σ → Value → σ) (empty : σ) (self self' : Rule) {n : Nat}
    (ended : scope.attempt self (rule.parseSeparated scope n separator extend empty) cursor
      ≠ .unfinished) :
    ∃ a b,
      scope.attempt self (rule.parseSeparated scope n separator extend empty) cursor
        = Account.replyTo a cursor ∧
      scope.attempt self' (scope.withPairs rule separator (rule.parse scope n)
        ((seq [separator, rule]).parse scope (n + 1)) n) cursor = Account.replyTo b cursor ∧
      a.ListAgrees (rule.attempt scope n : Parser L S Value) (separator.attempt scope n)
        ((seq [separator, rule]).attempt scope (n + 1)) extend empty cursor.location b := by
  rw [parseSeparated, Scope.separated_eq] at ended ⊢
  obtain ⟨a, b, ha, hb, reports, location, error?, matched⟩ :=
    Scope.separatedBy_agrees self self' (rule.parse_parallel scope n)
      ((seq [separator, rule]).parse_parallel scope (n + 1)) ended
  refine ⟨a, b, ha, hb, reports, location, error?, ?_⟩
  intro result outcome
  obtain ⟨first, m, es, ms, es', hfirst, ⟨leads, -, ends⟩, houtcome, rfl⟩ := matched result outcome
  obtain ⟨rest, hrest, listed⟩ := listed_of_leads cursor (.single hfirst) leads
  rw [hrest] at houtcome ⊢
  refine ⟨first, rest, houtcome, ?_, listed, ?_⟩
  · rw [List.map_map]
    rfl
  · cases ends with
    | absent here recoverable => exact .inl ⟨_, _, recoverable, here⟩
    | @still last hlast still =>
      obtain ⟨here, stop⟩ := leads.last hlast
      obtain ⟨pair, hpair, hvalue⟩ :
          ∃ pair, rest.getLast? = some pair ∧ .ofPair pair = last.value := by
        simpa [hlast] using (congrArg List.getLast? hrest).symm
      refine .inr ⟨pair, last.entries, hpair, ?_⟩
      rw [hvalue, ← stop]
      rwa [← still] at here

/-- What more fuel does to a separated list. -/
theorem parseSeparated_longer (scope : Scope L) (rule separator : Rule) (extend : σ → Value → σ)
    (empty : σ) {n m : Nat} (hnm : n ≤ m) :
    (rule.parseSeparated scope n separator extend empty : Parser L S σ).FinishesAs
      (rule.parseSeparated scope m separator extend empty) := by
  refine scope.separatedBy_finishesAs rule separator (rule.parse_finishesAs scope hnm) ?_ extend
    hnm empty
  rw [Scope.separated_eq, Scope.separated_eq]
  exact (parse_finishesAs scope (Nat.succ_le_succ hnm) _).map _

/-- A listing, with enough fuel. -/
theorem listing_longer (scope : Scope L) (rule separator : Rule) {n m : Nat} (hnm : n < m) :
    ((rule.listing separator).parse scope n : Parser L S Value).FinishesAs
      (scope.withPairs rule separator (rule.parse scope m)
        ((seq [separator, rule]).parse scope (m + 1)) m) := by
  obtain ⟨m, rfl⟩ : ∃ k, m = k + 1 := ⟨m - 1, by omega⟩
  refine (parse_finishesAs scope (show n ≤ m + 2 by omega) (rule.listing separator)).trans ?_
  rw [listing, Scope.parse_withPairs]
  exact scope.withPairs_finishesAs rule separator (.refl _) (parse_finishesAs scope (by omega) _)
    (Nat.le_succ m)

/-- With enough fuel for both, a separated list agrees with the listing. -/
theorem parseSeparated_agrees_listing (scope : Scope L) (rule separator : Rule)
    (cursor : Cursor L S) (extend : σ → Value → σ) (empty : σ) (self : Rule) {n n' : Nat}
    (hlist : scope.attempt self (rule.parseSeparated scope n separator extend empty) cursor
      ≠ .unfinished)
    (hlisting : (rule.listing separator).attempt scope n' cursor ≠ .unfinished) :
    ∃ (k : Nat) (a : Account L σ) (b : Account L Value),
      scope.attempt self (rule.parseSeparated scope n separator extend empty) cursor
        = a.replyTo cursor ∧
      (rule.listing separator).attempt scope n' cursor = b.replyTo cursor ∧
      a.ListAgrees (rule.attempt scope k : Parser L S Value) (separator.attempt scope k)
        ((seq [separator, rule]).attempt scope (k + 1)) extend empty cursor.location b := by
  let most := max n (n' + 1)
  have list := (parseSeparated_longer (S := S) scope rule separator extend empty
    (Nat.le_max_left n (n' + 1))).attempt scope self
  have listing := (listing_longer (S := S) scope rule separator
    (Nat.le_max_right n (n' + 1))).attempt scope (rule.listing separator)
  obtain ⟨a, b, ha, hb, agree⟩ :=
    parseSeparated_agrees scope rule separator cursor extend empty self _ (list.ne_unfinished hlist)
  exact ⟨most, a, b, ((list cursor).resolve_left hlist).trans ha,
    ((listing cursor).resolve_left hlisting).trans hb, agree⟩

/-- A separated list comes to an end exactly where the listing does. -/
theorem sepBy1_ends_iff (scope : Scope L) (rule separator : Rule) (into : Container)
    (cursor : Cursor L S) :
    (∃ n, (sepBy1 rule separator into).attempt scope n cursor ≠ .unfinished) ↔
      ∃ n, (rule.listing separator).attempt scope n cursor ≠ .unfinished := by
  constructor
  · rintro ⟨n, hlist⟩
    cases n with
    | zero => exact absurd rfl hlist
    | succ n =>
      rw [attempt_sepBy1] at hlist
      obtain ⟨a, b, -, hb, -⟩ := parseSeparated_agrees scope rule separator cursor
        Container.extend into.empty _ (rule.listing separator) hlist
      have longer := (scope.withPairs_finishesAs rule separator
        (rule.parse_finishesAs (S := S) scope (Nat.le_add_right n 2))
        (.refl ((seq [separator, rule]).parse scope (n + 1))) (Nat.le_succ n)).attempt scope
          (rule.listing separator)
      refine ⟨n + 3, ?_⟩
      rw [attempt, listing, Scope.parse_withPairs]
      exact longer.ne_unfinished (hb ▸ b.replyTo_ne_unfinished)
  · rintro ⟨n, hlisting⟩
    have longer := listing_longer (S := S) scope rule separator (Nat.lt_succ_self n)
    rw [attempt, Ne, Scope.attempt_eq_unfinished] at hlisting
    have ended : rule.parseSeparated scope (n + 1) separator Container.extend into.empty cursor
        ≠ .unfinished := by
      rw [parseSeparated, Scope.separated_eq]
      exact Scope.separatedBy_ended ((seq [separator, rule]).parse_parallel scope (n + 2))
        (longer.ne_unfinished hlisting)
    refine ⟨n + 2, ?_⟩
    rw [attempt_sepBy1]
    exact mt Scope.attempt_eq_unfinished.1 ended

/-- **A separated list is an element followed by repeated pairs**, for all rules of the element and
of the separator, and whatever the elements are gathered in. Where both come to an end, they succeed
or fail with the same error, at the same location and with the same reports. The list has the first
element and the second components of the pairs, in order, and it ends directly behind an element,
where the pair is absent or has just matched without consuming.

The rules that gather in a container are instances, and one of them comes to an end where the other
does. -/
theorem sepBy1_agrees_pairs (scope : Scope L) (rule separator : Rule) (cursor : Cursor L S) :
    let pair := seq [separator, rule]
    let listing := seq [rule, many pair .vector]
    (∀ {σ : Type} (extend : σ → Value → σ) (empty : σ) (self : Rule) (n n' : Nat),
      let list := scope.attempt self (rule.parseSeparated scope n separator extend empty)
      list cursor ≠ .unfinished → listing.attempt scope n' cursor ≠ .unfinished →
        ∃ (k : Nat) (a : Account L σ) (b : Account L Value),
          list cursor = a.replyTo cursor ∧ listing.attempt scope n' cursor = b.replyTo cursor ∧
          a.ListAgrees (rule.attempt scope k : Parser L S Value) (separator.attempt scope k)
            (pair.attempt scope (k + 1)) extend empty cursor.location b) ∧
    (∀ (into : Container) (n n' : Nat),
      (sepBy1 rule separator into).attempt scope n cursor ≠ .unfinished →
      listing.attempt scope n' cursor ≠ .unfinished →
        ∃ (k : Nat) (a b : Account L Value),
          (sepBy1 rule separator into).attempt scope n cursor = a.replyTo cursor ∧
          listing.attempt scope n' cursor = b.replyTo cursor ∧
          a.ListAgrees (rule.attempt scope k : Parser L S Value) (separator.attempt scope k)
            (pair.attempt scope (k + 1)) Container.extend into.empty cursor.location b) ∧
    ∀ into : Container, (∃ n, (sepBy1 rule separator into).attempt scope n cursor ≠ .unfinished) ↔
      ∃ n, listing.attempt scope n cursor ≠ .unfinished := by
  intro pair listing
  refine ⟨?_, ?_, fun into => sepBy1_ends_iff scope rule separator into cursor⟩
  · intro σ extend empty self n n' list hlist hlisting
    exact parseSeparated_agrees_listing scope rule separator cursor extend empty self hlist hlisting
  · intro into n n' hlist hlisting
    cases n with
    | zero => exact absurd rfl hlist
    | succ n =>
      rw [attempt_sepBy1] at hlist ⊢
      exact parseSeparated_agrees_listing scope rule separator cursor Container.extend into.empty _
        hlist hlisting

/-- In `a,b,` the last comma has no letter behind it, and stays. -/
theorem sepBy1_agrees_pairs_trailing :
    let scope : Scope Nat :=
      { source := .ofArray #[97, 44, 98, 44], naming := .offsets .byte true,
        definitions := fun _ => none }
    let list : Rule := .sepBy1 .letter (.mark .comma) .count
    let listing : Rule := .seq [.letter, .many (.seq [.mark .comma, .letter]) .vector]
    let start : Cursor Nat (NoReports Nat Terminal) := .atStart scope.source {}
    ∃ a b : Account Nat Value, list.attempt scope 4 start = a.replyTo start ∧
      listing.attempt scope 5 start = b.replyTo start ∧ a.reports = b.reports ∧
      a.outcome = .ok (.count 2) ∧
      b.outcome = .ok (.tuple [.terminal 97, .list #[.tuple [.unit, .terminal 98]]]) ∧
      a.location = 3 ∧ b.location = 3 := by
  intro scope list listing start
  obtain ⟨after, hlist, hafter⟩ : ∃ after, list.attempt scope 4 start = .ok (.count 2) after ∧
      after.location = 3 := ⟨_, by cbv, rfl⟩
  obtain ⟨after', hlisting⟩ : ∃ after, listing.attempt scope 5 start
      = .ok (.tuple [.terminal 97, .list #[.tuple [.unit, .terminal 98]]]) after := ⟨_, by cbv⟩
  have finished : list.attempt scope 4 start ≠ .unfinished := hlist ▸ Reply.ok_ne_unfinished
  have finished' : listing.attempt scope 5 start ≠ .unfinished := hlisting ▸ Reply.ok_ne_unfinished
  obtain ⟨k, a, b, ha, hb, agree⟩ :=
    (sepBy1_agrees_pairs scope .letter (.mark .comma) start).2.1 .count 4 5 finished finished'
  obtain ⟨es, rfl⟩ := Account.eq_of_replyTo_ok (ha.symm.trans hlist)
  obtain ⟨es', rfl⟩ := Account.eq_of_replyTo_ok (hb.symm.trans hlisting)
  exact ⟨_, _, ha, hb, agree.reports, rfl, rfl, hafter, agree.location.symm.trans hafter⟩

end Rule

end Backtrack
