import ClauseCode.Clause
import ClauseCode.Command.Flags
import ClauseCode.Command.Outcome
import ClauseCode.Command.Plan
import ClauseCode.Compile.Clause
import ClauseCode.Compile.Code
import ClauseCode.Compile.Draft
import ClauseCode.Compile.Policy
import ClauseCode.Compile.Traversal
import ClauseCode.Json.Basic
import ClauseCode.Json.Fault
import ClauseCode.Json.Reader
import ClauseCode.Json.Scan
import ClauseCode.Json.Window
import ClauseCode.Machine.Address
import ClauseCode.Machine.Assembly
import ClauseCode.Machine.Functor
import ClauseCode.Machine.Instruction
import ClauseCode.Main
import ClauseCode.Proofs.Addresses
import ClauseCode.Proofs.Arguments
import ClauseCode.Proofs.Assignment
import ClauseCode.Proofs.Building
import ClauseCode.Proofs.Checked
import ClauseCode.Proofs.Collisions
import ClauseCode.Proofs.Compilation
import ClauseCode.Proofs.Coverage
import ClauseCode.Proofs.Encoding
import ClauseCode.Proofs.Enumeration
import ClauseCode.Proofs.Execution
import ClauseCode.Proofs.Faithful
import ClauseCode.Proofs.Glyphs
import ClauseCode.Proofs.GoalCode
import ClauseCode.Proofs.Grammar
import ClauseCode.Proofs.HeadCode
import ClauseCode.Proofs.Identity
import ClauseCode.Proofs.Indentation
import ClauseCode.Proofs.Labels
import ClauseCode.Proofs.Layout
import ClauseCode.Proofs.Listings
import ClauseCode.Proofs.Lists
import ClauseCode.Proofs.Matching
import ClauseCode.Proofs.Mentions
import ClauseCode.Proofs.Moves
import ClauseCode.Proofs.Names
import ClauseCode.Proofs.Notation
import ClauseCode.Proofs.Numerals
import ClauseCode.Proofs.Operands
import ClauseCode.Proofs.Operations
import ClauseCode.Proofs.Packing
import ClauseCode.Proofs.Pairs
import ClauseCode.Proofs.Permanence
import ClauseCode.Proofs.Places
import ClauseCode.Proofs.Protocol
import ClauseCode.Proofs.Pushing
import ClauseCode.Proofs.Quoting
import ClauseCode.Proofs.Reading
import ClauseCode.Proofs.Recovery
import ClauseCode.Proofs.Recursion
import ClauseCode.Proofs.Renaming
import ClauseCode.Proofs.Representation
import ClauseCode.Proofs.Saving
import ClauseCode.Proofs.Separators
import ClauseCode.Proofs.Sessions
import ClauseCode.Proofs.Shape
import ClauseCode.Proofs.Spellings
import ClauseCode.Proofs.Steps
import ClauseCode.Proofs.Streams
import ClauseCode.Proofs.Tracing
import ClauseCode.Proofs.Traversal
import ClauseCode.Proofs.Tree
import ClauseCode.Proofs.Values
import ClauseCode.Proofs.Variables
import ClauseCode.Proofs.Variants
import ClauseCode.Proofs.Visits
import ClauseCode.Proofs.Wording
import ClauseCode.Proofs.Words
import ClauseCode.Report
import ClauseCode.Source.Clause
import ClauseCode.Source.Term
import ClauseCode.Term.Basic
import ClauseCode.Text.Classes
import ClauseCode.Text.Decimal
import ClauseCode.Text.Glyph
import ClauseCode.Text.Lines
import ClauseCode.Text.Quoted
import ClauseCode.Text.Spelling
