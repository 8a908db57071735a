import UniformAccess.Draft.Declaration
import UniformAccess.Draft.Expression
import UniformAccess.Draft.Header
import UniformAccess.Draft.Statement
import UniformAccess.Pipeline.Run
import UniformAccess.Proofs.Tree.Ends
import UniformAccess.Settings
import UniformAccess.Tree.Outline
import UniformAccess.Proofs.Tree.Copy
import UniformAccess.Proofs.Lowering.Member
import UniformAccess.Proofs.Lowering.Class
import UniformAccess.Proofs.Lowering.Progress
import UniformAccess.Proofs.Lowering.Order
import UniformAccess.Proofs.Lowering.Import
import UniformAccess.Proofs.Lowering.Run
import UniformAccess.Proofs.Lowering.Result
import UniformAccess.Proofs.Tree.Loose
import UniformAccess.Proofs.Resolution.Access
import UniformAccess.Proofs.Resolution.Run
import UniformAccess.Proofs.Printing.Events
import UniformAccess.Proofs.Printing.Exact
import UniformAccess.Proofs.Pipeline.Bound
import UniformAccess.Proofs.Pipeline.Outcome
import UniformAccess.Proofs.Pipeline.Target
import UniformAccess.Proofs.Printing.InStep
import UniformAccess.Proofs.Printing.Passing
import UniformAccess.Proofs.Printing.Respaced
import UniformAccess.Proofs.Printing.Mapped
import UniformAccess.Proofs.Printing.Unplaced
import UniformAccess.Proofs.Printing.Shifted
import UniformAccess.Proofs.Resolution.Effort
import UniformAccess.Proofs.Lexing.Expression
import UniformAccess.Proofs.Draft.Printed
import UniformAccess.Proofs.Printing.Reprinted
import UniformAccess.Proofs.Resolution.Assignable
import UniformAccess.Proofs.Resolution.Frame
import UniformAccess.Proofs.Resolution.Gap
import UniformAccess.Proofs.Resolution.Local
import UniformAccess.Proofs.Pipeline.History
import UniformAccess.Proofs.Lowering.Growth
import UniformAccess.Proofs.Lowering.Behind
import UniformAccess.Proofs.Lowering.Kept
import UniformAccess.Proofs.Lowering.Texts
import UniformAccess.Proofs.Lowering.Lines
import UniformAccess.Proofs.Lowering.Spacing
import UniformAccess.Proofs.Lowering.Layout
import UniformAccess.Proofs.Lowering.Atomic
import UniformAccess.Proofs.Printing.Inside
import UniformAccess.Proofs.Tree.Substitution
import UniformAccess.Proofs.Tree.Duplicate
import UniformAccess.Proofs.Tree.Links
import UniformAccess.Proofs.Draft.Types
import UniformAccess.Proofs.Execution.Run
import UniformAccess.Proofs.Execution.Setter
