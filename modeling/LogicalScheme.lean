import LogicalScheme.Text
import LogicalScheme.Span
import LogicalScheme.Token
import LogicalScheme.Token.Scan
import LogicalScheme.Diagnostic
import LogicalScheme.Piece
import LogicalScheme.Element
import LogicalScheme.ConditionVector
import LogicalScheme.Automaton
import LogicalScheme.Automaton.Conditions
import LogicalScheme.Automaton.Call
import LogicalScheme.Automaton.Transition
import LogicalScheme.Assembly
import LogicalScheme.Proofs.Arena
import LogicalScheme.Proofs.Layout
import LogicalScheme.Checks
import LogicalScheme.Parsed
import LogicalScheme.Trace
import LogicalScheme.Loop
import LogicalScheme.Settings
import LogicalScheme.Settings.Symbol
import LogicalScheme.Settings.Value
import LogicalScheme.Settings.Scalar
import LogicalScheme.Settings.Document
import LogicalScheme.Settings.File
import LogicalScheme.Failure
import LogicalScheme.Scheme
import LogicalScheme.Scheme.Listing
import LogicalScheme.Scheme.Operation
import LogicalScheme.Prompt
import LogicalScheme.Report
import LogicalScheme.FileTree
import LogicalScheme.CommandLine
import LogicalScheme.CommandLine.Execution
import LogicalScheme.Main
import LogicalScheme.Proofs.Assembly.Made
import LogicalScheme.Proofs.Assembly.Cursor
import LogicalScheme.Proofs.Assembly.Layout
import LogicalScheme.Proofs.Flat
import LogicalScheme.Proofs.Checks
import LogicalScheme.Proofs.Parsed
import LogicalScheme.Proofs.Spelling
import LogicalScheme.Proofs.WellFormed
import LogicalScheme.Proofs.Valued
import LogicalScheme.Proofs.Machine
import LogicalScheme.Proofs.Steps
import LogicalScheme.Proofs.Values
import LogicalScheme.Proofs.Visits
import LogicalScheme.Proofs.Asking
import LogicalScheme.Proofs.Order
import LogicalScheme.Proofs.Enumeration
import LogicalScheme.Proofs.Sweep
import LogicalScheme.Proofs.Cycles
import LogicalScheme.Proofs.Reachability
import LogicalScheme.Proofs.Grouping
import LogicalScheme.Proofs.History
import LogicalScheme.Proofs.Faults
import LogicalScheme.Proofs.Grammar
import LogicalScheme.Proofs.Recovery
import LogicalScheme.Proofs.Assembly.Links
import LogicalScheme.Proofs.Assembly.Replay
import LogicalScheme.Proofs.Successors
import LogicalScheme.Proofs.Outcomes
import LogicalScheme.Proofs.Refusals
import LogicalScheme.Proofs.Normal
import LogicalScheme.Proofs.Renaming
import LogicalScheme.Proofs.Rendering
import LogicalScheme.Proofs.Naming
import LogicalScheme.Proofs.Pointing
import LogicalScheme.Proofs.Entries
import LogicalScheme.Proofs.Interference
import LogicalScheme.Proofs.Questions
import LogicalScheme.Proofs.Arrangement
import LogicalScheme.Proofs.NormalForm
import LogicalScheme.Proofs.Lexemes
import LogicalScheme.Proofs.Numbering
import LogicalScheme.Proofs.Assignment
import LogicalScheme.Proofs.Rotations
import LogicalScheme.Proofs.Dialogue
import LogicalScheme.Proofs.Construction
import LogicalScheme.Proofs.Assembly.Extent
import LogicalScheme.Proofs.Vectors
