import Backtrack.Proofs.Account

/-!
# Accounts at other locations

Two parses that read the same terminals at different places do the same, only elsewhere. Relocating
an account moves all locations in it along a function, and leaves the rest as it is. The account of
a composed parser is relocated by relocating those of its parts, as long as the function keeps apart
the locations that the parser compares.
-/

namespace Backtrack

variable {L L' T α β : Type}

/-! ## Relocation -/

/-- The error at another location. -/
def Error.relocate (g : L → L') : Error L → Error L'
  | .expected rule l => .expected rule (g l)
  | .overflow type l => .overflow type (g l)

/-- The report of the error at another location. -/
def Report.relocate (g : L → L') (report : Report L T) : Report L' T where
  error := report.error.relocate g
  found := report.found

/-- The entry at other locations. -/
def TraceEntry.relocate (g : L → L') : TraceEntry L → TraceEntry L'
  | .raised report => .raised (report.relocate g)
  | .rewound source target rule => .rewound (g source) (g target) rule
  | .failed rule error => .failed rule (error.relocate g)

/-- The account at other locations. -/
def Account.relocate (g : L → L') (a : Account L α) : Account L' α where
  outcome := a.outcome.mapError (·.relocate g)
  location := g a.location
  entries := a.entries.map (·.relocate g)

variable (g : L → L')

@[simp] theorem Account.relocate_ok (value : α) (m : L) (es : List (TraceEntry L)) :
    (⟨.ok value, m, es⟩ : Account L α).relocate g = ⟨.ok value, g m, es.map (·.relocate g)⟩ := rfl

@[simp] theorem Account.relocate_error (error : Error L) (m : L) (es : List (TraceEntry L)) :
    (⟨.error error, m, es⟩ : Account L α).relocate g
      = ⟨.error (error.relocate g), g m, es.map (·.relocate g)⟩ := rfl

@[simp] theorem Error.relocate_location (error : Error L) :
    (error.relocate g).location = g error.location := by
  cases error <;> rfl

@[simp] theorem Error.relocate_recoverable (error : Error L) :
    (error.relocate g).recoverable = error.recoverable := by
  cases error <;> rfl

/-- Nothing changes where every location stays. -/
theorem Account.relocate_of_eq {g : L → L} (hg : ∀ l, g l = l) (a : Account L α) :
    a.relocate g = a := by
  obtain rfl : g = id := funext hg
  have herror (error : Error L) : error.relocate id = error := by
    cases error <;> rfl
  have hentry (entry : TraceEntry L) : entry.relocate id = entry := by
    cases entry <;> simp [TraceEntry.relocate, Report.relocate, herror]
  obtain ⟨outcome, m, es⟩ := a
  cases outcome <;> simp [herror, hentry]

/-! ## Relocation of composed accounts -/

namespace Account

variable {g} {a : Account L α} {l : L}

/-- An error is raised elsewhere just as it is here if the same terminal is found there. -/
theorem relocate_raised {source : Source L} {source' : Source L'} {error : Error L}
    (same : source'.found (g error.location) = source.found error.location) :
    (raised source error l : Account L α).relocate g
      = raised source' (error.relocate g) (g l) := by
  simp [raised, Source.raised, TraceEntry.relocate, Report.relocate, Source.reportOf, same]

theorem relocate_after (es : List (TraceEntry L)) :
    (a.after es).relocate g = (a.relocate g).after (es.map (·.relocate g)) := by
  simp [after, relocate]

theorem relocate_optional : a.optional.relocate g = (a.relocate g).optional := by
  obtain ⟨outcome, m, es⟩ := a
  cases outcome with
  | ok value => rfl
  | error error =>
    cases h : error.recoverable <;> simp [optional, h]

/-! ## One terminal, read at another location -/

section

variable {source : Source L} {source' : Source L'}
  (here : source'.terminalAt (g l) = (source.terminalAt l).map fun read => (read.1, g read.2))
include here

theorem found_relocate : source'.found (g l) = source.found l := by
  simp only [Source.found, here, Option.map_map, Function.comp_def]

theorem advancing_relocate : advancing source' (g l) = (advancing source l).relocate g := by
  simp only [advancing, here]
  cases source.terminalAt l with
  | none => rfl
  | some read => rfl

end

theorem combining_relocate {source : Source L} {source' : Source L'} {type : IntegerType}
    {combine : Int → Option Int} {read : Account L (Option Int)}
    (same : source'.found (g l) = source.found l) :
    (combining source type combine l read).relocate g
      = combining source' type combine (g l) (read.relocate g) := by
  obtain ⟨outcome, m, es⟩ := read
  match outcome with
  | .error error => rfl
  | .ok none => rfl
  | .ok (some digit) =>
    unfold combining
    simp only [relocate_ok]
    cases combine digit with
    | some value => rfl
    | none =>
      have hraised : (raised source (.overflow type.name l) m : Account L (Option Int)).relocate g
          = raised source' (.overflow type.name (g l)) (g m) := relocate_raised same
      exact (relocate_after es).trans (congrArg _ hraised)

section

variable {scope : Scope L} {scope' : Scope L'} (naming : scope'.naming = scope.naming)
  (here : scope'.source.terminalAt (g l)
    = (scope.source.terminalAt l).map fun read => (read.1, g read.2))
include naming here

theorem reading_relocate (rule : Rule) (accept : Terminal → Option α) :
    reading scope' rule accept (g l) = (reading scope rule accept l).relocate g := by
  have raises (m : L) : raised scope'.source (.expected (rule.identity scope'.naming) (g l)) (g m)
      = (raised scope.source (.expected (rule.identity scope.naming) l) m
          : Account L α).relocate g := by
    rw [relocate_raised (found_relocate here), naming]
    rfl
  unfold reading
  rw [here]
  cases scope.source.terminalAt l with
  | none => exact raises l
  | some read =>
    obtain ⟨t, next⟩ := read
    simp only [Option.map_some]
    cases accept t with
    | some value => rfl
    | none => exact raises next

theorem ending_relocate : ending scope' (g l) = (ending scope l).relocate g := by
  unfold ending
  rw [here]
  cases scope.source.terminalAt l with
  | none => rfl
  | some read =>
    simp only [Option.map_some]
    rw [relocate_raised (found_relocate here), naming]
    rfl

end

/-! ## Locations that are compared

What looks whether the cursor moved is relocated only if the function does not move two such
locations to one. -/

variable [DecidableEq L] [DecidableEq L']

theorem relocate_rewind (rule : String) (apart : g a.location = g l → a.location = l) :
    (a.rewind rule l).relocate g = (a.relocate g).rewind rule (g l) := by
  obtain ⟨outcome, m, es⟩ := a
  cases outcome with
  | ok value => rfl
  | error error =>
    by_cases hm : m = l
    · simp [rewind, backtrack, hm]
    · have hg : g m ≠ g l := fun h => hm (apart h)
      simp [rewind, backtrack, hm, hg, TraceEntry.relocate]

theorem relocate_moving (apart : g a.location = g l → a.location = l) :
    (a.moving l).relocate g = (a.relocate g).moving (g l) := by
  obtain ⟨outcome, m, es⟩ := a
  have hmoved : decide (m ≠ l) = decide (g m ≠ g l) :=
    decide_eq_decide.2 (not_congr ⟨fun h => h ▸ rfl, apart⟩)
  cases outcome with
  | ok value =>
    simp only [moving, relocate_ok, Except.map, hmoved]
    rfl
  | error error => rfl

theorem nextDigit_relocate {scope : Scope L} {scope' : Scope L'}
    (naming : scope'.naming = scope.naming)
    (here : scope'.source.terminalAt (g l)
      = (scope.source.terminalAt l).map fun read => (read.1, g read.2))
    (alphabet : Digit) (type : IntegerType) (combine : Int → Option Int)
    (apart : ∀ t next, scope.source.terminalAt l = some (t, next) → g next = g l → next = l) :
    nextDigit scope' alphabet type combine (g l)
      = (nextDigit scope alphabet type combine l).relocate g := by
  -- the digit is given back where it stood or lies behind the cursor
  have hback : g (reading scope (.digit alphabet type) (alphabet.read? type) l).location = g l →
      (reading scope (.digit alphabet type) (alphabet.read? type) l).location = l := by
    rcases reading_location scope (.digit alphabet type) (alphabet.read? type) l with h | ⟨t, h⟩
    · exact fun _ => h
    · exact apart t _ h
  unfold nextDigit
  rw [combining_relocate (found_relocate here), relocate_optional, relocate_rewind _ hback,
    reading_relocate naming here, naming]

end Account

end Backtrack
