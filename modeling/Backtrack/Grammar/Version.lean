import Backtrack.Grammar.Sample

/-!
# Version numbers

A version is three numbers of 16 bits separated by periods, each written without leading zeros.
-/

namespace Backtrack

/-- A version number such as `1.20.0`. -/
structure Version where
  major : UInt16
  minor : UInt16
  patch : UInt16
  deriving DecidableEq, Repr

namespace Version

/-- The value that stands for a version. -/
def toValue (version : Version) : Value :=
  .record "version"
    [.integer version.major.toNat, .integer version.minor.toNat, .integer version.patch.toNat]

/-- The text of a version. -/
def text (version : Version) : String :=
  toString version.major.toNat ++ "." ++ toString version.minor.toNat ++ "." ++
    toString version.patch.toNat

/-- The version of three components with the periods between them. -/
def ofMembers : List Value → Value
  | [.tuple [.integer major, _, .integer minor, _, .integer patch]] =>
    toValue
      { major := .ofNat major.toNat, minor := .ofNat minor.toNat, patch := .ofNat patch.toNat }
  | members => .tuple members

end Version

namespace Grammar

/-- A component of a version: a lone zero, or digits without a leading zero. -/
def versionComponent (kind : TerminalKind) : Rule :=
  .choice ("gramma_shared_tests::grammars::VersionComponent<" ++ kind.name ++ ">")
    -- after the first alternative only a zero can remain as a digit
    [.naturalLiteral (.unsigned .w16), .digit .decimal (.unsigned .w16)]

/-- A version, read from terminals of a kind. -/
def version (kind : TerminalKind) : Rule :=
  .assemble ("gramma_shared_tests::grammars::VersionTriple<" ++ kind.name ++ ">")
    "gramma_shared_tests::grammars::Version"
    [.seq [versionComponent kind, .mark .period, versionComponent kind, .mark .period,
      versionComponent kind]]
    Version.ofMembers

end Grammar

end Backtrack
