import Backtrack.Cursor

/-!
# The text of a trace

Each entry of a trace is one line. Terminals are written as numbers, characters between quotes with
the usual escapes. Beyond ASCII only the control characters are escaped: which others cannot be
printed is told by Unicode tables, and these are left out. Combining marks, format characters,
blanks and code points without a meaning therefore stand in a line as they are.
-/

namespace Backtrack

/-- A character as it stands between single quotes. Beyond ASCII the controls alone are escaped. -/
def escapedChar (c : Char) : String :=
  if c = '\x00' then "\\0"
  else if c = '\t' then "\\t"
  else if c = '\r' then "\\r"
  else if c = '\n' then "\\n"
  else if c = '\'' then "\\'"
  else if c = '\\' then "\\\\"
  else if c.toNat < 0x20 ∨ 0x7f ≤ c.toNat ∧ c.toNat < 0xa0 then
    "\\u\x7b" ++ String.ofList (Nat.toDigits 16 c.toNat) ++ "\x7d"
  else String.singleton c

/-- A terminal of a kind. -/
def TerminalKind.showTerminal : TerminalKind → Terminal → String
  | character, t => "'" ++ escapedChar (Char.ofNat t) ++ "'"
  | _, t => toString t

/-- The terminal found at the location of an error. -/
def TerminalKind.showFound (kind : TerminalKind) : Option Terminal → String
  | none => "None"
  | some t => "Some(" ++ kind.showTerminal t ++ ")"

/-- The line of a trace entry, for terminals of a kind. -/
def TraceEntry.line {L : Type} [ToString L] (kind : TerminalKind) : TraceEntry L → String
  | raised report =>
    "TRACE gramma " ++ report.error.message ++ " at " ++ toString report.error.location ++
      ", found " ++ kind.showFound report.found
  | rewound source target rule =>
    "TRACE gramma rewind " ++ toString source ++ " -> " ++ toString target ++ " after `" ++ rule ++
      "`"
  | failed rule error =>
    "DEBUG gramma parse of `" ++ rule ++ "` failed: " ++ error.message ++ " at " ++
      toString error.location

end Backtrack
