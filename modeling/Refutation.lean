import Refutation.Attempt.Basic
import Refutation.Attempt.Checkpoint
import Refutation.Attempt.Document
import Refutation.Attempt.Expand
import Refutation.Attempt.Run
import Refutation.Closure
import Refutation.CommandLine.Disk
import Refutation.CommandLine.Options
import Refutation.CommandLine.Program
import Refutation.Entry
import Refutation.Formula.Basic
import Refutation.Formula.Document
import Refutation.Formula.Printer
import Refutation.Formula.Substitution
import Refutation.Json.Basic
import Refutation.Json.Decode
import Refutation.Json.Literal
import Refutation.Json.Parser
import Refutation.Json.Printer
import Refutation.Main
import Refutation.Pattern.Basic
import Refutation.Pattern.Bindings
import Refutation.Pattern.Lowering
import Refutation.Pattern.Unify
import Refutation.Problems
import Refutation.Reading.Parser
import Refutation.Reading.Phrase
import Refutation.Reading.Signature
import Refutation.Reading.Token
import Refutation.Report.Graph
import Refutation.Report.Outline
import Refutation.Report.Page
import Refutation.Rule
import Refutation.Text.Blank
import Refutation.Text.CharRange
import Refutation.Text.Integer
import Refutation.Text.LetterCase
import Refutation.Text.Printable
import Refutation.Text.Quoted
import Refutation.Tree.Basic
import Refutation.Tree.Document
import Refutation.Tree.Stored
import Refutation.Verdict
import Refutation.Proofs.Formula.Names
import Refutation.Proofs.Formula.Truth
import Refutation.Proofs.Closure
import Refutation.Proofs.Attempt.Expand
import Refutation.Proofs.Attempt.Growth
import Refutation.Proofs.Attempt.Reach
import Refutation.Proofs.Soundness.Ground
import Refutation.Proofs.Attempt.Ledger
import Refutation.Proofs.Soundness.Witness
import Refutation.Proofs.Formula.Readable
import Refutation.Proofs.Reading.Names
import Refutation.Proofs.Soundness.Occurrence
import Refutation.Proofs.Formula.Instance
import Refutation.Proofs.Soundness.Name
import Refutation.Proofs.Soundness.Countermodel
import Refutation.Proofs.Pattern.Acyclic
import Refutation.Proofs.Pattern.Unification
import Refutation.Proofs.Attempt.Halting
import Refutation.Proofs.Reading.Lexemes
import Refutation.Proofs.Reading.Reread
import Refutation.Proofs.Reading.RoundTrip
import Refutation.Proofs.Attempt.Layout
import Refutation.Proofs.Reading.Grammar
import Refutation.Proofs.Reading.Unambiguous
import Refutation.Proofs.Reading.Ambiguity
import Refutation.Proofs.Reading.Recognition
import Refutation.Proofs.Reading.Scope
import Refutation.Proofs.Reading.Viability
import Refutation.Proofs.Reading.Tokens
import Refutation.Proofs.Reading.Parsing
import Refutation.Proofs.Tree.Rows
import Refutation.Proofs.Attempt.Numbering
import Refutation.Proofs.Attempt.Chronicle
import Refutation.Proofs.Attempt.Standing
import Refutation.Proofs.Attempt.Course
import Refutation.Proofs.Attempt.Freshness
import Refutation.Proofs.Attempt.FreeVariables
import Refutation.Proofs.Attempt.WitnessTable
import Refutation.Proofs.Formula.Subformulas
import Refutation.Proofs.Attempt.Subformulas
import Refutation.Proofs.Attempt.Budget
import Refutation.Proofs.Attempt.Frame
import Refutation.Proofs.Json.Text
import Refutation.Proofs.Formula.Document
import Refutation.Proofs.Attempt.Document
import Refutation.Proofs.Attempt.Resume
import Refutation.Proofs.Formula.Recast
import Refutation.Proofs.Pattern.Recast
import Refutation.Proofs.Attempt.Simulation
import Refutation.Proofs.Attempt.Renaming
import Refutation.Proofs.Formula.Annotations
import Refutation.Proofs.Formula.Spelling
import Refutation.Proofs.Attempt.Unlogged
import Refutation.Proofs.Attempt.Annotations
import Refutation.Proofs.Pattern.Filling
import Refutation.Proofs.Pattern.Solution
import Refutation.Proofs.Attempt.Capture
import Refutation.Proofs.Formula.Substitution
import Refutation.Proofs.Pattern.Raising
import Refutation.Proofs.Pattern.Threading
import Refutation.Proofs.Pattern.Recursion
import Refutation.Proofs.Attempt.Keys
import Refutation.Proofs.Tree.Address
import Refutation.Proofs.Tree.Stored
import Refutation.Proofs.Reading.Layout
import Refutation.Proofs.Formula.WellFormed
import Refutation.Proofs.Tree.Classification
import Refutation.Proofs.Report.Wording
import Refutation.Proofs.Tree.Preorder
import Refutation.Proofs.Report.Renderings
import Refutation.Proofs.Report.Quoting
import Refutation.Proofs.Attempt.Guarded
import Refutation.Proofs.Attempt.Safety
