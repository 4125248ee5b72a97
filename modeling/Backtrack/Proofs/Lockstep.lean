import Backtrack.Proofs.Account

/-!
# Parsers in lockstep

Two parsers, perhaps on different sources and with different sinks, are in lockstep if from places
that stand for each other both come to an end or neither does, and their accounts are alike
(`Parser.Lockstep`). What it takes to be alike differs: the same sink-free account where only the
sinks differ, the same reports in other terminals where the encodings differ. How lockstep is handed
on by leaves, changes of the account and sequencing is told here once.
-/

namespace Backtrack

variable {L L' S T α β : Type}

/-- From places that stand for each other, both parsers come to an end with accounts that are alike,
or neither comes to an end. -/
def Parser.Lockstep [Sink S L Terminal] [Sink T L' Terminal] (place : L → L' → Prop)
    (alike : Account L α → Account L' α → Prop) (p : Parser L S α) (p' : Parser L' T α) : Prop :=
  ∀ (cursor : Cursor L S) (cursor' : Cursor L' T), place cursor.location cursor'.location →
    p cursor = .unfinished ∧ p' cursor' = .unfinished ∨
      ∃ (a : Account L α) (a' : Account L' α), p cursor = a.replyTo cursor ∧
        p' cursor' = a'.replyTo cursor' ∧ alike a a'

/-- Whatever alike accounts these are gone on with, the accounts of the whole are alike: a match is
followed from one place, with one value, and a failure ends the whole. -/
inductive Account.GoesOn (place : L → L' → Prop) (alike : Account L β → Account L' β → Prop) :
    Account L α → Account L' α → Prop where
  | ok (value : α) {m : L} {m' : L'} {es : List (TraceEntry L)} {es' : List (TraceEntry L')}
      (there : place m m') (after : ∀ {b b'}, alike b b' → alike (b.after es) (b'.after es')) :
      GoesOn place alike ⟨.ok value, m, es⟩ ⟨.ok value, m', es'⟩
  | error {error : Error L} {error' : Error L'} {m : L} {m' : L'} {es : List (TraceEntry L)}
      {es' : List (TraceEntry L')} (same : alike ⟨.error error, m, es⟩ ⟨.error error', m', es'⟩) :
      GoesOn place alike ⟨.error error, m, es⟩ ⟨.error error', m', es'⟩

namespace Parser.Lockstep

variable [Sink S L Terminal] [Sink T L' Terminal] {place : L → L' → Prop}
  {alike : Account L α → Account L' α → Prop} {alike' : Account L β → Account L' β → Prop}
  {p : Parser L S α} {p' : Parser L' T α}

/-- Parsers whose accounts are told by the location. -/
theorem leaf (account : L → Account L α) (account' : L' → Account L' α)
    (same : ∀ {l l'}, place l l' → alike (account l) (account' l'))
    (hp : ∀ cursor, p cursor = (account cursor.location).replyTo cursor)
    (hp' : ∀ cursor, p' cursor = (account' cursor.location).replyTo cursor) :
    Lockstep place alike p p' :=
  fun cursor cursor' here => .inr ⟨_, _, hp cursor, hp' cursor', same here⟩

/-- Parsers that change nothing but the accounts of parsers in lockstep. -/
theorem changed {q : Parser L S β} {q' : Parser L' T β} (hp : Lockstep place alike p p')
    (change : L → Account L α → Account L β) (change' : L' → Account L' α → Account L' β)
    (unfinished : ∀ cursor, p cursor = .unfinished → q cursor = .unfinished)
    (unfinished' : ∀ cursor, p' cursor = .unfinished → q' cursor = .unfinished)
    (hq : ∀ cursor (a : Account L α), p cursor = a.replyTo cursor →
      q cursor = (change cursor.location a).replyTo cursor)
    (hq' : ∀ cursor (a : Account L' α), p' cursor = a.replyTo cursor →
      q' cursor = (change' cursor.location a).replyTo cursor)
    (same : ∀ {l l'} {a : Account L α} {a' : Account L' α}, place l l' → alike a a' →
      alike' (change l a) (change' l' a')) : Lockstep place alike' q q' := by
  intro cursor cursor' here
  rcases hp cursor cursor' here with ⟨h, h'⟩ | ⟨a, a', h, h', hsame⟩
  · exact .inl ⟨unfinished cursor h, unfinished' cursor' h'⟩
  · exact .inr ⟨_, _, hq cursor a h, hq' cursor' a' h', same here hsame⟩

theorem bind {f : α → Parser L S β} {f' : α → Parser L' T β} (hp : Lockstep place alike p p')
    (hf : ∀ value, Lockstep place alike' (f value) (f' value))
    (goesOn : ∀ {a : Account L α} {a' : Account L' α}, alike a a' →
      a.GoesOn place alike' a') : Lockstep place alike' (p >>= f) (p' >>= f') := by
  intro cursor cursor' here
  rcases hp cursor cursor' here with ⟨h, h'⟩ | ⟨a, a', h, h', hsame⟩
  · exact .inl ⟨bind_unfinished h, bind_unfinished h'⟩
  cases goesOn hsame with
  | error same => exact .inr ⟨_, _, bind_account_error h, bind_account_error h', same⟩
  | @ok value m m' es es' there after =>
    rw [bind_account_ok h, bind_account_ok h']
    rcases hf value (cursor.record m es) (cursor'.record m' es') there with
      hf | ⟨b, b', hf, hf', same⟩
    · exact .inl hf
    · exact .inr ⟨b.after es, b'.after es', hf.trans (replyTo_record b m es),
        hf'.trans (replyTo_record b' m' es'), after same⟩

end Parser.Lockstep

end Backtrack
