import PegMachine.Text.Blank
import PegMachine.Text.Column
import PegMachine.Text.Escape
import PegMachine.Text.OneDecimal
import PegMachine.Text.Extending
import PegMachine.Text.Lower
import PegMachine.Text.Printable
import PegMachine.Text.Upper
import PegMachine.Grammar.Check
import PegMachine.Code.Program
import PegMachine.Value
import PegMachine.Code.Block
import PegMachine.Code.Height
import PegMachine.Compile.Build
import PegMachine.Compile.Expr
import PegMachine.Compile.Grammar
import PegMachine.Code.Listing
import PegMachine.Code.Statistics
import PegMachine.Code.Wire
import PegMachine.Machine.Fault
import PegMachine.Machine.Host
import PegMachine.Machine.Run
import PegMachine.Machine.Script
import PegMachine.Semantics.Walk
import PegMachine.Proofs.Code.Reading
import PegMachine.Proofs.Code.Execution
import PegMachine.Proofs.Results
import PegMachine.Proofs.Machine.Stack
import PegMachine.Proofs.Code.Balance
import PegMachine.Proofs.Code.Check
import PegMachine.Proofs.Compile.Yields
import PegMachine.Proofs.Compile.Shape
import PegMachine.Proofs.Compile.Elements
import PegMachine.Proofs.Compile.Contract
import PegMachine.Proofs.Compile.Errors
import PegMachine.Proofs.Code.Verified
import PegMachine.Proofs.Machine.Follows
import PegMachine.Proofs.Machine.Emulates
import PegMachine.Proofs.Semantics.Correct
import PegMachine.Proofs.Semantics.Fuel
import PegMachine.Proofs.Semantics.Program
import PegMachine.Proofs.Semantics.Ending
import PegMachine.Proofs.Semantics.Agreement
import PegMachine.Proofs.Machine.Avoid
import PegMachine.Proofs.Machine.Safety
import PegMachine.Proofs.Semantics.Rollback
import PegMachine.Proofs.Semantics.Backtrack
import PegMachine.Proofs.Bindings
import PegMachine.Proofs.Semantics.Binding
import PegMachine.Proofs.Semantics.Nullable
import PegMachine.Proofs.Semantics.Advance
import PegMachine.Proofs.Semantics.LeftRecursion
import PegMachine.Proofs.Machine.Room
import PegMachine.Proofs.Semantics.Termination
import PegMachine.Proofs.Semantics.Lookahead
import PegMachine.Proofs.Machine.Frame
import PegMachine.Proofs.Machine.Observed
import PegMachine.Proofs.Machine.Furthest
import PegMachine.Proofs.Compile.Productive
import PegMachine.Proofs.Machine.Steps
import PegMachine.Proofs.Code.Slots
import PegMachine.Proofs.Code.Wire
import PegMachine.Proofs.Compile.Slots
import PegMachine.Proofs.Machine.Cut
import PegMachine.Proofs.Machine.Silence
import PegMachine.Proofs.Machine.Slots
import PegMachine.Proofs.Semantics.Silence
import PegMachine.Proofs.Semantics.Slots
import PegMachine.Proofs.Semantics.Values
import PegMachine.Proofs.Semantics.Places
import PegMachine.Proofs.Machine.Alike
import PegMachine.Proofs.Semantics.Renumbering
import PegMachine.Proofs.Semantics.Order
import PegMachine.Proofs.Semantics.Local
import PegMachine.Proofs.Semantics.Greedy
import PegMachine.Proofs.Semantics.Bounds
import PegMachine.Proofs.Semantics.Rewriting
import PegMachine.Proofs.Machine.Limits
import PegMachine.Proofs.Code.Operands
import PegMachine.Proofs.Text.Fold
import PegMachine.Proofs.Semantics.Literal
import PegMachine.Proofs.Compile.Interning
import PegMachine.Proofs.Compile.Appending
import PegMachine.Proofs.Compile.References
import PegMachine.Proofs.Machine.Session
import PegMachine.Proofs.Text.Legible
import PegMachine.Proofs.Text.Case
import PegMachine.Proofs.Grammar.ClassText
import PegMachine.Proofs.Grammar.ClassCase
import PegMachine.Proofs.Semantics.Classes
import PegMachine.Proofs.Code.Overflow
import PegMachine.Proofs.Code.Visits
import PegMachine.Proofs.Code.Listing
import PegMachine.Proofs.Machine.Message
import PegMachine.Proofs.Compile.Relocation
import PegMachine.Proofs.Code.Stretches
import PegMachine.Proofs.Code.Watched
import PegMachine.Proofs.Machine.Stretches
import PegMachine.Proofs.Machine.Within
