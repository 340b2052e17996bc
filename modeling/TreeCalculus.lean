import TreeCalculus.Command.Console
import TreeCalculus.Command.Files
import TreeCalculus.Command.Invocation
import TreeCalculus.Command.Options
import TreeCalculus.Command.Run
import TreeCalculus.Command.Usage
import TreeCalculus.Document.Decode
import TreeCalculus.Document.Encode
import TreeCalculus.Event
import TreeCalculus.Fresh
import TreeCalculus.Json.Printer
import TreeCalculus.Json.Reader
import TreeCalculus.Json.Value
import TreeCalculus.Library
import TreeCalculus.Main
import TreeCalculus.Matching
import TreeCalculus.Name
import TreeCalculus.Number.Double
import TreeCalculus.Number.Layout
import TreeCalculus.Number.Ratio
import TreeCalculus.Number.Shortest
import TreeCalculus.Outline
import TreeCalculus.Path
import TreeCalculus.Proof.Ancestry
import TreeCalculus.Proof.Basic
import TreeCalculus.Proof.Derivation
import TreeCalculus.Proof.Rule
import TreeCalculus.Proofs.Additions
import TreeCalculus.Proofs.Addressing
import TreeCalculus.Proofs.Ascents
import TreeCalculus.Proofs.Audit
import TreeCalculus.Proofs.Budgets
import TreeCalculus.Proofs.CaseSplits
import TreeCalculus.Proofs.Closings
import TreeCalculus.Proofs.Coherence
import TreeCalculus.Proofs.Confluence
import TreeCalculus.Proofs.Consistency
import TreeCalculus.Proofs.Construction
import TreeCalculus.Proofs.Conversion
import TreeCalculus.Proofs.Decoding
import TreeCalculus.Proofs.Derivations
import TreeCalculus.Proofs.Documents
import TreeCalculus.Proofs.DottedTexts
import TreeCalculus.Proofs.Effects
import TreeCalculus.Proofs.Environment
import TreeCalculus.Proofs.Failures
import TreeCalculus.Proofs.Fresh
import TreeCalculus.Proofs.Histories
import TreeCalculus.Proofs.Holes
import TreeCalculus.Proofs.Independence
import TreeCalculus.Proofs.Instances
import TreeCalculus.Proofs.JsonText
import TreeCalculus.Proofs.Links
import TreeCalculus.Proofs.Matching
import TreeCalculus.Proofs.NamedRuns
import TreeCalculus.Proofs.Naming
import TreeCalculus.Proofs.Numbering
import TreeCalculus.Proofs.Numerals
import TreeCalculus.Proofs.Paths
import TreeCalculus.Proofs.Positions
import TreeCalculus.Proofs.Prelude
import TreeCalculus.Proofs.Printing
import TreeCalculus.Proofs.Progress
import TreeCalculus.Proofs.Replacement
import TreeCalculus.Proofs.Replay
import TreeCalculus.Proofs.Reports
import TreeCalculus.Proofs.Reuse
import TreeCalculus.Proofs.RoundTrip
import TreeCalculus.Proofs.Runs
import TreeCalculus.Proofs.Skeletons
import TreeCalculus.Proofs.Soundness
import TreeCalculus.Proofs.Stability
import TreeCalculus.Proofs.Strategy
import TreeCalculus.Proofs.Tables
import TreeCalculus.Proofs.Terms
import TreeCalculus.Proofs.Unfolding
import TreeCalculus.Proofs.Validity
import TreeCalculus.Proofs.Verdicts
import TreeCalculus.Reduction
import TreeCalculus.Sequent
import TreeCalculus.Settings
import TreeCalculus.Substitution
import TreeCalculus.Table
import TreeCalculus.Tactic.Basic
import TreeCalculus.Tactic.Closing
import TreeCalculus.Tactic.Session
import TreeCalculus.Template
import TreeCalculus.Term
import TreeCalculus.Text.Basic
import TreeCalculus.Text.Blank
import TreeCalculus.Text.Capital
import TreeCalculus.Text.Digit
import TreeCalculus.Text.Fill
import TreeCalculus.Text.Numeral
import TreeCalculus.Text.Printable
import TreeCalculus.Text.Quoted
import TreeCalculus.Text.Split
import TreeCalculus.Text.Utf8
