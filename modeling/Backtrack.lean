import Backtrack.Terminal
import Backtrack.Integer
import Backtrack.Error
import Backtrack.Location
import Backtrack.Source
import Backtrack.Sink
import Backtrack.Sink.Furthest
import Backtrack.Value
import Backtrack.TerminalClass
import Backtrack.Rule
import Backtrack.Rule.Identity
import Backtrack.Cursor
import Backtrack.Attempt
import Backtrack.Rule.Parse
import Backtrack.Rule.Fuel
import Backtrack.Trace
import Backtrack.Input
import Backtrack.Session
import Backtrack.Grammar.Sample
import Backtrack.Grammar.Version
import Backtrack.Grammar.Color
import Backtrack.Grammar.Catalogue
import Backtrack.Proofs.Account
import Backtrack.Proofs.Furthest
import Backtrack.Proofs.Locality
import Backtrack.Proofs.Meaning
import Backtrack.Proofs.Overflow
import Backtrack.Proofs.Refinement
import Backtrack.Proofs.Sessions
import Backtrack.Proofs.Parallel
import Backtrack.Proofs.Observation
import Backtrack.Proofs.Verdicts
import Backtrack.Proofs.Termination
import Backtrack.Proofs.Alignment
import Backtrack.Proofs.Encodings
import Backtrack.Proofs.Histories
import Backtrack.Proofs.Places
import Backtrack.Proofs.Numerals
import Backtrack.Proofs.Decimals
import Backtrack.Proofs.Lookahead
import Backtrack.Proofs.Versions
import Backtrack.Proofs.Gathering
import Backtrack.Proofs.Separated
import Backtrack.Proofs.PaddedBytes
import Backtrack.Proofs.ByteLists
import Backtrack.Proofs.Bracketing
import Backtrack.Proofs.Padding
import Backtrack.Proofs.DigitRuns
import Backtrack.Proofs.SignedNumerals
import Backtrack.Proofs.Texts
import Backtrack.Proofs.ColorForms
import Backtrack.Proofs.Colors
import Backtrack.Proofs.Summaries
import Backtrack.Proofs.Rewinds
import Backtrack.Proofs.EndlessDigits
import Backtrack.Proofs.Characters
