import Backtrack.Input
import Backtrack.Proofs.Trail
import Mathlib.Data.List.Chain

/-!
# The story that a trace tells

A trace has an entry for each error that is raised, and one for each attempt that goes back. Where
no failure is silent, it is made of chapters (`Story`): an error is raised, and the attempts around
it go back one after the other, each from where the one before it has left the cursor, until one of
them takes the error for an absence or none is left. Going back again takes a new error first.

Every trail tells such a story, and one that ends with an error is in the middle of its last
chapter, which has brought the cursor to where it stands (`Source.Trail.story`).
-/

namespace Backtrack

variable {L S : Type}

/-! ## Going back without a gap -/

/-- The entries lead back from the first location to the second, each of them from where the one
before it ended. -/
inductive Rewinds : L → List (TraceEntry L) → L → Prop where
  | nil (l : L) : Rewinds l [] l
  | cons {l m k : L} {es : List (TraceEntry L)} (rule : String) (rest : Rewinds m es k) :
      Rewinds l (.rewound l m rule :: es) k

namespace Rewinds

variable {l m k : L} {es : List (TraceEntry L)}

theorem concat (h : Rewinds l es m) (rule : String) : Rewinds l (es ++ [.rewound m k rule]) k := by
  induction h with
  | nil => exact .cons rule (.nil k)
  | cons rule _ ih => exact .cons rule ih

theorem reports_eq_nil (h : Rewinds l es m) : reportsOf es = [] := by
  induction h with
  | nil => rfl
  | cons rule _ ih => exact ih

/-- The last of the entries ends where all of them do. -/
theorem last (h : Rewinds l es m) (some_entry : es ≠ []) :
    ∃ k rule, es.getLast? = some (.rewound k m rule) := by
  induction h with
  | nil => exact absurd rfl some_entry
  | @cons l m k es rule rest ih =>
    cases rest with
    | nil => exact ⟨l, rule, rfl⟩
    | cons rule' rest => exact ih (List.cons_ne_nil _ _)

end Rewinds

/-- Where the second of two entries is one of going back, it goes on from the first, if that is one
as well. -/
def TraceEntry.LeadsTo : TraceEntry L → TraceEntry L → Prop
  | .rewound _ target _, .rewound source _ _ => source = target
  | _, _ => True

theorem Rewinds.isChain {l m : L} {es : List (TraceEntry L)} (h : Rewinds l es m) :
    es.IsChain TraceEntry.LeadsTo := by
  induction h with
  | nil => exact .nil
  | cons rule rest ih =>
    cases rest with
    | nil => exact .singleton _
    | cons rule' rest => exact .cons_cons rfl ih

/-! ## Stories -/

/-- Errors that were raised, each with the entries of going back after it. -/
inductive Story : List (TraceEntry L) → Prop where
  | nil : Story []
  | chapter {earlier es : List (TraceEntry L)} {l m : L} (told : Story earlier)
      (report : Report L Terminal) (back : Rewinds l es m) :
      Story (earlier ++ .raised report :: es)

namespace Story

variable {es es' : List (TraceEntry L)}

theorem append (h : Story es) (h' : Story es') : Story (es ++ es') := by
  induction h' with
  | nil => rwa [List.append_nil]
  | chapter _ report back ih =>
    rw [← List.append_assoc]
    exact .chapter ih report back

/-- One entry of going back leads to the next. -/
theorem isChain (h : Story es) : es.IsChain TraceEntry.LeadsTo := by
  induction h with
  | nil => exact .nil
  | @chapter earlier es _ _ _ report back ih =>
    have chapter : (.raised report :: es).IsChain TraceEntry.LeadsTo := by
      cases back with
      | nil => exact .singleton _
      | cons rule rest => exact .cons_cons trivial (Rewinds.cons rule rest).isChain
    refine List.isChain_append.2 ⟨ih, chapter, ?_⟩
    rintro x - y ⟨⟩
    cases x <;> trivial

end Story

/-- Of two entries of going back in a chain, with nothing but such entries between them, the first
ends where the entries between them begin to lead to the second. -/
theorem Rewinds.of_isChain {a b c d : L} {r r' : String} {between back : List (TraceEntry L)}
    (chain : (.rewound a b r :: (between ++ .rewound c d r' :: back)).IsChain TraceEntry.LeadsTo)
    (rewound : ∀ entry ∈ between, ∃ l m rule, entry = .rewound l m rule) :
    Rewinds b between c := by
  induction between generalizing a b r with
  | nil =>
    obtain rfl : c = b := (List.isChain_cons_cons.1 chain).1
    exact .nil c
  | cons entry between ih =>
    rw [List.forall_mem_cons] at rewound
    obtain ⟨⟨l, m, rule, rfl⟩, rest⟩ := rewound
    obtain ⟨link, chain'⟩ := List.isChain_cons_cons.1 chain
    obtain rfl : l = b := link
    exact .cons rule (ih chain' rest)

/-! ## The story of a trail -/

namespace Source.Trail

variable {source : Source L} {quiet : Prop} {l m : L} {error? : Option (Error L)}
  {es : List (TraceEntry L)}

/-- A trail has no entries but of errors that were raised and of going back. -/
theorem raised_or_rewound (h : source.Trail quiet l error? m es) :
    ∀ entry ∈ es, (∃ report, entry = .raised report) ∨ ∃ k n rule, entry = .rewound k n rule := by
  induction h with
  | append _ _ first rest =>
    intro entry hentry
    exact (List.mem_append.1 hentry).elim (first entry) (rest entry)
  | rewind _ _ rule failed =>
    intro entry hentry
    rcases List.mem_append.1 hentry with hentry | hentry
    · exact failed entry hentry
    · exact .inr ⟨_, _, rule, List.mem_singleton.1 hentry⟩
  | raise | reject => simp [raised]
  | absorb _ _ failed => exact failed
  | stay | advance | silent => simp

/-- On a sequence or a text, going back is going to a smaller offset. -/
theorem rewound_lt {source : Source Nat} {size l m : Nat} {error? : Option (Error Nat)}
    {es : List (TraceEntry Nat)} (addressed : source.Addressed size)
    (h : source.Trail quiet l error? m es) {k n : Nat} {rule : String}
    (hentry : .rewound k n rule ∈ es) : n < k := by
  induction h with
  | append _ _ first rest => exact (List.mem_append.1 hentry).elim first rest
  | rewind trail moved _ failed =>
    rcases List.mem_append.1 hentry with hentry | hentry
    · exact failed hentry
    · -- the cursor has moved, and a trail moves it to larger offsets only
      cases List.mem_singleton.1 hentry
      exact lt_of_le_of_ne (addressed.le_of_reaches trail.reaches) moved.symm
  | raise | reject => simp [raised] at hentry
  | absorb _ _ failed => exact failed hentry
  | stay | advance | silent => cases hentry

/-- **A trail without silent failures tells a story.** Where it ends with an error, that one was
raised at the beginning of the last chapter, and going back has led to where the trail ends. -/
theorem story (h : source.Trail False l error? m es) :
    match error? with
    | none => Story es
    | some error => ∃ earlier back p, Story earlier ∧ Rewinds p back m ∧
        es = earlier ++ .raised (source.reportOf error) :: back := by
  induction h with
  | stay | advance => exact .nil
  | @append _ _ _ error? es es' _ _ first rest =>
    cases error? with
    | none => exact first.append rest
    | some error =>
      obtain ⟨earlier, back, p, told, rewinds, rfl⟩ := rest
      exact ⟨es ++ earlier, back, p, first.append told, rewinds, (List.append_assoc ..).symm⟩
  | raise error => exact ⟨[], [], _, .nil, .nil _, rfl⟩
  | reject error => exact ⟨[], [], _, .nil, .nil _, rfl⟩
  | rewind _ _ rule failed =>
    obtain ⟨earlier, back, p, told, rewinds, rfl⟩ := failed
    exact ⟨earlier, _, p, told, rewinds.concat rule, by simp⟩
  | absorb _ _ failed =>
    -- the chapter of an absence is closed, and the next entry is a new error
    obtain ⟨earlier, back, p, told, rewinds, rfl⟩ := failed
    exact .chapter told _ rewinds
  | silent impossible => exact impossible.elim

/-- The entries of a trail without silent failures are a story, however it ends. -/
theorem entries_story (h : source.Trail False l error? m es) : Story es := by
  have told := h.story
  cases error? with
  | none => exact told
  | some error =>
    obtain ⟨earlier, back, p, told, rewinds, rfl⟩ := told
    exact .chapter told _ rewinds

/-- Between two entries of going back, without an error raised between them, the cursor only went
back. -/
theorem rewinds_between (h : source.Trail False l error? m es) {front between back}
    {a b c d : L} {r r' : String}
    (hes : es = front ++ .rewound a b r :: (between ++ .rewound c d r' :: back))
    (unraised : reportsOf between = []) : Rewinds b between c := by
  refine .of_isChain (hes ▸ h.entries_story.isChain).right_of_append ?_
  intro entry hentry
  have hmem : entry ∈ es := by simp [hes, hentry]
  rcases h.raised_or_rewound entry hmem with ⟨report, rfl⟩ | rewound
  · have raised : report ∈ reportsOf between := List.mem_filterMap.2 ⟨_, hentry, rfl⟩
    rw [unraised] at raised
    cases raised
  · exact rewound

end Source.Trail

/-! ## Attempts and whole inputs -/

section

variable [Sink S L Terminal]

/-- Where the reply of an account leaves the cursor. -/
theorem Account.cursor?_replyTo {α : Type} (a : Account L α) (cursor : Cursor L S) :
    (a.replyTo cursor).cursor? = some (cursor.record a.location a.entries) := by
  obtain ⟨outcome, m, es⟩ := a
  cases outcome <;> rfl

variable [DecidableEq L]

omit [Sink S L Terminal] in
theorem backtrack_eq_nil {rule : String} {l m : L} : backtrack rule m l = [] ↔ m = l := by
  unfold backtrack
  split <;> simp_all

omit [Sink S L Terminal] in
/-- Going back where the cursor has moved, and not where it has not, leads to the start. -/
theorem Rewinds.backtrack {l m : L} {es : List (TraceEntry L)} (h : Rewinds l es m) (rule : String)
    (start : L) : Rewinds l (es ++ backtrack rule m start) start := by
  unfold Backtrack.backtrack
  split
  · next same =>
    rw [List.append_nil]
    exact same ▸ h
  · exact h.concat rule

/-- **A failed attempt** ends the story with the error raised and what leads back to its start. If
that is nothing, the rule has failed where it started. -/
theorem Rule.attempt_fail_story {scope : Scope L} {fuel : Nat} {rule : Rule}
    (loud : scope.Throughout Loud rule) {cursor after : Cursor L S} {error : Error L}
    (h : rule.attempt scope fuel cursor = .fail error after) :
    ∃ earlier back p, Rewinds p back cursor.location ∧
      rule.attempt scope fuel cursor
        = Account.replyTo ⟨.error error, cursor.location,
            earlier ++ .raised (scope.source.reportOf error) :: back⟩ cursor ∧
      (back = [] →
        ∃ stop, rule.parse scope fuel cursor = .fail error stop ∧
          stop.location = cursor.location) := by
  have follows : (rule.parse scope fuel : Parser L S Value).Follows scope.source False :=
    rule.parse_follows scope False fuel (loud.mono fun _ => .inr)
  rcases follows cursor with hu | ⟨a, ha, trail⟩
  · exact absurd ((scope.attempt_unfinished rule hu).symm.trans h) nofun
  have account := scope.attempt_account rule ha
  obtain ⟨outcome, m, es⟩ := a
  cases outcome with
  | ok value => exact absurd (account.symm.trans h) nofun
  | error e =>
    obtain rfl : e = error := (Reply.fail.inj (account.symm.trans h)).1
    obtain ⟨earlier, back, p, -, rewinds, hes⟩ := trail.story
    refine ⟨earlier, back ++ backtrack (rule.identity scope.naming) m cursor.location, p,
      rewinds.backtrack _ _, ?_, ?_⟩
    · rw [attempt, account, Account.rewind]
      simp only [show es = _ from hes, List.append_assoc, List.cons_append]
    · intro nothing
      obtain ⟨-, nothing⟩ := List.append_eq_nil_iff.1 nothing
      exact ⟨_, ha, backtrack_eq_nil.1 nothing⟩

/-- **A whole input** adds one entry to those of its attempt, if it fails, and that is the last. -/
theorem Rule.parseAll_entries (scope : Scope L) (fuel : Nat) (rule : Rule) (sink : S) :
    (∀ value trace, rule.parseAll scope fuel sink = .accepted value trace →
      ∀ name error, .failed name error ∉ trace) ∧
    ∀ failure trace, rule.parseAll scope fuel sink = .rejected failure trace →
      ∃ earlier : Array (TraceEntry L),
        trace = earlier.push (.failed (rule.identity scope.naming) failure.error) ∧
        ∀ name error, .failed name error ∉ earlier := by
  have follows : (rule.thenEnd scope fuel : Parser L S Value).Follows scope.source True :=
    (related_follows scope True).thenEnd rfl fuel (.of_forall fun _ => .inl trivial)
      (.intro (.inl trivial) (by simp [parts]))
  have unfailed {after : Cursor L S}
      (h : (rule.thenEnd scope fuel (.atStart scope.source sink)).cursor? = some after)
      (name : String) (error : Error L) : .failed name error ∉ after.trace := by
    rcases follows (.atStart scope.source sink) with hu | ⟨a, ha, trail⟩
    · rw [hu] at h
      cases h
    · rw [ha, a.cursor?_replyTo] at h
      cases h
      intro hentry
      have hmem : .failed name error ∈ a.entries := by
        simpa [Cursor.record, Cursor.atStart] using hentry
      rcases trail.raised_or_rewound _ hmem with ⟨_, raised⟩ | ⟨_, _, _, rewound⟩
      · cases raised
      · cases rewound
  unfold parseAll
  constructor
  · intro value trace h
    split at h <;> cases h
    next hok => exact unfailed (by rw [hok]; rfl)
  · intro failure trace h
    split at h <;> cases h
    next hfail => exact ⟨_, rfl, unfailed (by rw [hfail]; rfl)⟩

end

/-- **The trace tells the true story** of raising errors and of going back, for a rule none of whose
parts fails in silence, on a sequence or a text. What an attempt adds to the trace is such that

* the errors raised are, in order, what the sink has received, with the terminals at their
  locations;
* every entry of going back leads to a smaller offset;
* of two entries of going back, without an error raised between them, the second starts where the
  first ended, unless there are more of them between these two, which then lead from there to where
  the second starts;
* if the attempt fails, then after its error was raised either the cursor did not go back, because
  it had not moved, or the last entry leads back to the start.

A whole input adds one entry of its own, the last, if it is rejected, and none if it is accepted. -/
theorem Rule.attempt_trace_told {scope : Scope Nat} {size : Nat}
    (addressed : scope.source.Addressed size) (fuel : Nat) {rule : Rule}
    (loud : scope.Throughout Loud rule) {S : Type} [Sink S Nat Terminal] :
    (∀ cursor after : Cursor Nat S, (rule.attempt scope fuel cursor).cursor? = some after →
      ∃ es : List (TraceEntry Nat), after.trace = cursor.trace ++ es.toArray ∧
        after.sink = Sink.reportAll cursor.sink (reportsOf es) ∧
        (∀ report ∈ reportsOf es, report.found = scope.source.found report.error.location) ∧
        (∀ m l name, .rewound m l name ∈ es → l < m) ∧
        (∀ front between back a b c d r r',
          es = front ++ .rewound a b r :: (between ++ .rewound c d r' :: back) →
          reportsOf between = [] → Rewinds b between c ∧ (between = [] → c = b)) ∧
        ∀ error, rule.attempt scope fuel cursor = .fail error after →
          ∃ earlier back, es = earlier ++ .raised (scope.source.reportOf error) :: back ∧
            reportsOf back = [] ∧
            ((back = [] ∧ ∃ stop, rule.parse scope fuel cursor = .fail error stop ∧
                stop.location = cursor.location) ∨
              ∃ m name, es.getLast? = some (.rewound m cursor.location name))) ∧
    ∀ sink : S,
      (∀ value trace, rule.parseAll scope fuel sink = .accepted value trace →
        ∀ name error, .failed name error ∉ trace) ∧
      ∀ failure trace, rule.parseAll scope fuel sink = .rejected failure trace →
        ∃ earlier : Array (TraceEntry Nat),
          trace = earlier.push (.failed (rule.identity scope.naming) failure.error) ∧
          ∀ name error, .failed name error ∉ earlier := by
  refine ⟨?_, parseAll_entries scope fuel rule⟩
  intro cursor after ends
  have follows : (rule.attempt scope fuel : Parser Nat S Value).Follows scope.source False :=
    rule.attempt_follows scope False fuel (loud.mono fun _ => .inr)
  rcases follows cursor with hu | ⟨a, ha, trail⟩
  · rw [hu] at ends
    cases ends
  rw [ha, a.cursor?_replyTo] at ends
  cases ends
  refine ⟨a.entries, rfl, rfl, fun report hreport => (trail.report_reaches report hreport).2,
    fun m l name => trail.rewound_lt addressed, ?_, ?_⟩
  · intro front between back a' b c d r r' hes unraised
    have rewinds := trail.rewinds_between hes unraised
    refine ⟨rewinds, ?_⟩
    rintro rfl
    cases rewinds
    rfl
  · intro error hfail
    obtain ⟨earlier, back, p, rewinds, hattempt, unmoved⟩ := attempt_fail_story loud hfail
    obtain rfl := Account.replyTo_inj (ha.symm.trans hattempt)
    refine ⟨earlier, back, rfl, rewinds.reports_eq_nil, ?_⟩
    by_cases nothing : back = []
    · exact .inl ⟨nothing, unmoved nothing⟩
    · obtain ⟨m, name, hlast⟩ := rewinds.last nothing
      refine .inr ⟨m, name, ?_⟩
      simp [List.getLast?_append, List.getLast?_cons, hlast]

/-- Of three letters the third is missing in `ab`. Both sequences around it go back, the outer one
from where the inner one has begun, and the last entry leads to the start. -/
theorem Rule.attempt_trace_told_letters :
    let scope : Scope Nat :=
      { source := .ofArray #[97, 98], naming := .offsets .byte true, definitions := fun _ => none }
    let cursor : Cursor Nat (ReportLog Nat Terminal) := .atStart scope.source .empty
    ∃ after error es, (Rule.seq [.letter, .seq [.letter, .letter]]).attempt scope 3 cursor
        = .fail error after ∧
      after.trace = cursor.trace ++ List.toArray es ∧ after.sink.reports.toList = reportsOf es ∧
      (∀ m l name, .rewound m l name ∈ es → l < m) ∧
      (∃ m name, es.getLast? = some (.rewound m 0 name)) ∧
      es = [.raised ⟨.expected "gramma_core::ascii::Letter<usize, u8>" 2, none⟩,
        .rewound 2 1 "(..)", .rewound 1 0 "(..)"] := by
  intro scope cursor
  have addressed : scope.source.Addressed 2 := .sequence #[97, 98]
  have letter : scope.Throughout Loud .letter := Scope.throughout_terminal trivial
  have letters : scope.Throughout Loud (.seq [.letter, .letter]) :=
    Scope.throughout_seq (by simpa using letter) trivial
  have loud : scope.Throughout Loud (.seq [.letter, .seq [.letter, .letter]]) :=
    Scope.throughout_seq (by simpa using ⟨letter, letters⟩) trivial
  obtain ⟨es, htrace, hsink, -, backward, -, ended⟩ :=
    (attempt_trace_told addressed 3 loud).1 cursor _ rfl
  have hes : es = [.raised ⟨.expected "gramma_core::ascii::Letter<usize, u8>" 2, none⟩,
      .rewound 2 1 "(..)", .rewound 1 0 "(..)"] := by
    have h := congrArg Array.toList htrace
    rw [Array.toList_append] at h
    exact h.symm
  refine ⟨_, _, es, rfl, htrace, ?_, backward, ?_, hes⟩
  · subst hes
    rfl
  · obtain ⟨earlier, back, hback, -, ⟨rfl, -⟩ | last⟩ := ended _ rfl
    · have hlast := congrArg List.getLast? (hes.symm.trans hback)
      simp at hlast
    · exact last

end Backtrack
