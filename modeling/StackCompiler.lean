import StackCompiler.CommandLine.Transcript
import StackCompiler.Main
import StackCompiler.Proofs.Construction.Refusal
import StackCompiler.Proofs.Construction.Move
import StackCompiler.Proofs.Script.Moves
import StackCompiler.Proofs.Construction.Identity
import StackCompiler.Proofs.Construction.Invariant
import StackCompiler.Proofs.Semantics.Interpreter
import StackCompiler.Proofs.Assembly.Layout
import StackCompiler.Proofs.Assembly.Labels
import StackCompiler.Proofs.Assembly.Linking
import StackCompiler.Proofs.Semantics.Simulates
import StackCompiler.Proofs.Semantics.Expressions
import StackCompiler.Proofs.Semantics.Statements
import StackCompiler.Proofs.Semantics.Correctness
import StackCompiler.Proofs.Assembly.Ledger
import StackCompiler.Proofs.Assembly.Level
import StackCompiler.Proofs.Machine.Balance
import StackCompiler.Proofs.Machine.Transparency
import StackCompiler.Proofs.Assembly.Bare
import StackCompiler.Proofs.Assembly.Printing
import StackCompiler.Proofs.Assembly.Reading
import StackCompiler.Proofs.Machine.Comments
import StackCompiler.Proofs.Assembly.Lines
import StackCompiler.Proofs.Script.TextRun
import StackCompiler.Proofs.Construction.Drive
import StackCompiler.Proofs.Tree.Erase
import StackCompiler.Proofs.Construction.Canonical
import StackCompiler.Proofs.Construction.Fill
import StackCompiler.Proofs.Construction.Build
import StackCompiler.Proofs.Listing.Skeleton
import StackCompiler.Proofs.Assembly.Endings
import StackCompiler.Proofs.Machine.Frames
import StackCompiler.Proofs.Machine.Safety
import StackCompiler.Proofs.Assembly.Unique
import StackCompiler.Proofs.Assembly.Destinations
import StackCompiler.Proofs.Construction.Aims
import StackCompiler.Proofs.Construction.Reports
import StackCompiler.Proofs.Script.Exits
import StackCompiler.Proofs.Assembly.Territory
import StackCompiler.Proofs.Machine.ControlFlow
import StackCompiler.Proofs.Tree.Conservation
import StackCompiler.Proofs.Tree.Group
import StackCompiler.Proofs.Machine.Sum
import StackCompiler.Proofs.Semantics.Increment
import StackCompiler.Proofs.Machine.Return
import StackCompiler.Proofs.Script.Unknown
import StackCompiler.Proofs.Construction.Inventory
import StackCompiler.Proofs.Script.Retention
import StackCompiler.Proofs.Script.Evaluated
import StackCompiler.Proofs.Assembly.Quotation
import StackCompiler.Proofs.Script.Quotation
import StackCompiler.Proofs.Construction.Underflow
import StackCompiler.Proofs.Construction.Subexpressions
import StackCompiler.Proofs.Script.Actions
import StackCompiler.Proofs.Script.Rewinding
import StackCompiler.Proofs.Script.Completion
import StackCompiler.Proofs.Stack.Waypoints
import StackCompiler.Proofs.Stack.Refinement
import StackCompiler.Proofs.Assembly.Splitting
