import Monitor386.Main
import Monitor386.Proofs.Instruction.Flattening
import Monitor386.Table.Scripted
import Monitor386.Proofs.Expr.Grammar
import Monitor386.Proofs.Expr.Tokens
import Monitor386.Proofs.Expr.Split
import Monitor386.Proofs.Expr.Evaluation
import Monitor386.Proofs.Machine.Semantics
import Monitor386.Proofs.Machine.Watching
import Monitor386.Proofs.Machine.Splitting
import Monitor386.Proofs.Machine.Resuming
import Monitor386.Proofs.Watch.Layout
import Monitor386.Proofs.Watch.History
import Monitor386.Proofs.Watch.Roster
import Monitor386.Proofs.Memory.Row
import Monitor386.Proofs.Machine.Lifecycle
import Monitor386.Proofs.Machine.Requests
import Monitor386.Proofs.Instruction.Accesses
import Monitor386.Proofs.Machine.Aborts
import Monitor386.Proofs.Shell.Crashes
import Monitor386.Proofs.Machine.Restarting
import Monitor386.Proofs.Text.Spacing
import Monitor386.Proofs.Expr.Rules
import Monitor386.Proofs.Expr.Scanning
import Monitor386.Proofs.Shell.Parsing
import Monitor386.Proofs.Shell.Transparency
import Monitor386.Proofs.Machine.Comparing
import Monitor386.Proofs.Machine.Stack
import Monitor386.Proofs.Instruction.Aborts
import Monitor386.Proofs.Registers.Names
import Monitor386.Proofs.Machine.Faulting
import Monitor386.Proofs.Machine.Settling
import Monitor386.Proofs.Instruction.Counting
import Monitor386.Proofs.Shell.Examining
import Monitor386.Proofs.Watch.Constant
import Monitor386.Proofs.Machine.Listing
import Monitor386.Proofs.Machine.Journal
import Monitor386.Proofs.Expr.Ranges
import Monitor386.Proofs.Shell.Printing
import Monitor386.Proofs.Text.Filling
import Monitor386.Proofs.Registers.Fields
import Monitor386.Proofs.Expr.Nesting
