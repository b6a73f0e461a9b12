import ZebLang.Assembly
import ZebLang.Assembly.Frame
import ZebLang.Command
import ZebLang.Command.Arguments
import ZebLang.Compilation
import ZebLang.Datum
import ZebLang.Datum.Equality
import ZebLang.Datum.Number
import ZebLang.Datum.Printer
import ZebLang.Diagnostic
import ZebLang.Failure
import ZebLang.Failure.Described
import ZebLang.Fault
import ZebLang.FileTree
import ZebLang.Location
import ZebLang.Lowering
import ZebLang.Main
import ZebLang.Note
import ZebLang.Options
import ZebLang.Path
import ZebLang.Program
import ZebLang.Program.Parser
import ZebLang.Proofs.Anchors
import ZebLang.Proofs.Assembly.ReadBack
import ZebLang.Proofs.Assembly.Reader
import ZebLang.Proofs.Assembly.Renumbering
import ZebLang.Proofs.Assembly.Replay
import ZebLang.Proofs.Assembly.Stepping
import ZebLang.Proofs.Command
import ZebLang.Proofs.Command.Input
import ZebLang.Proofs.Command.Plan
import ZebLang.Proofs.Compilation
import ZebLang.Proofs.Datum.Writing
import ZebLang.Proofs.FileTree
import ZebLang.Proofs.Lowering.Annotation
import ZebLang.Proofs.Lowering.Balance
import ZebLang.Proofs.Lowering.Bindings
import ZebLang.Proofs.Lowering.Code
import ZebLang.Proofs.Lowering.Correctness
import ZebLang.Proofs.Lowering.Counting
import ZebLang.Proofs.Lowering.Diagnosis
import ZebLang.Proofs.Lowering.Faults
import ZebLang.Proofs.Lowering.Interruption
import ZebLang.Proofs.Lowering.Labels
import ZebLang.Proofs.Lowering.Lines
import ZebLang.Proofs.Lowering.Numbering
import ZebLang.Proofs.Lowering.Places
import ZebLang.Proofs.Lowering.Printing
import ZebLang.Proofs.Lowering.Rejection
import ZebLang.Proofs.Lowering.Relocation
import ZebLang.Proofs.Lowering.Respelling
import ZebLang.Proofs.Lowering.Scope
import ZebLang.Proofs.Lowering.Specification
import ZebLang.Proofs.Lowering.Suggestions
import ZebLang.Proofs.Lowering.Uniformity
import ZebLang.Proofs.Machine
import ZebLang.Proofs.Machine.Block
import ZebLang.Proofs.Machine.Counting
import ZebLang.Proofs.Machine.Footprint
import ZebLang.Proofs.Machine.Printing
import ZebLang.Proofs.Meaning
import ZebLang.Proofs.Program.Acceptance
import ZebLang.Proofs.Program.Grammar
import ZebLang.Proofs.Program.Joining
import ZebLang.Proofs.Program.Lookahead
import ZebLang.Proofs.Program.Reading
import ZebLang.Proofs.Program.Refusal
import ZebLang.Proofs.Program.RoundTrip
import ZebLang.Proofs.Program.Safety
import ZebLang.Proofs.Quotation
import ZebLang.Proofs.System
import ZebLang.Proofs.Text
import ZebLang.Proofs.Text.Similar
import ZebLang.Proofs.Token.Composition
import ZebLang.Proofs.Token.Lexing
import ZebLang.Proofs.Token.Locality
import ZebLang.Proofs.Token.Numbers
import ZebLang.Proofs.Token.Placement
import ZebLang.Proofs.Token.Scanning
import ZebLang.Proofs.Transparency
import ZebLang.System
import ZebLang.Text.Blank
import ZebLang.Text.Decimal
import ZebLang.Text.Lines
import ZebLang.Text.Printable
import ZebLang.Text.Quoted
import ZebLang.Text.Real
import ZebLang.Text.Room
import ZebLang.Text.Similar
import ZebLang.Text.Terminal
import ZebLang.Text.Utf8
import ZebLang.Token
import ZebLang.Token.Lexer
