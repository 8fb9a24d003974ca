import TreeGrammar.Analysis.Design
import TreeGrammar.Analysis.ElementGraph
import TreeGrammar.Automaton.Basic
import TreeGrammar.Automaton.Check
import TreeGrammar.Automaton.Compose
import TreeGrammar.Automaton.Walk
import TreeGrammar.CommandLine.Arguments
import TreeGrammar.CommandLine.Request
import TreeGrammar.CommandLine.Response
import TreeGrammar.CommandLine.Usage
import TreeGrammar.Compile.Content
import TreeGrammar.Compile.Session
import TreeGrammar.Content.Expression
import TreeGrammar.Content.Insertion
import TreeGrammar.Content.Progress
import TreeGrammar.Content.Term
import TreeGrammar.Discovery
import TreeGrammar.Failure
import TreeGrammar.Json.Lexeme
import TreeGrammar.Json.Number
import TreeGrammar.Json.Shortest
import TreeGrammar.Json.Source
import TreeGrammar.Json.Value
import TreeGrammar.Letter.Capital
import TreeGrammar.Letter.CaseIgnorable
import TreeGrammar.Letter.Cased
import TreeGrammar.Letter.CodeRun
import TreeGrammar.Letter.Lowercase
import TreeGrammar.Limits
import TreeGrammar.Main
import TreeGrammar.Markup.Blank
import TreeGrammar.Markup.Node
import TreeGrammar.Markup.Piece
import TreeGrammar.Markup.Reader
import TreeGrammar.Markup.Reference
import TreeGrammar.Markup.Slot
import TreeGrammar.Markup.Writer
import TreeGrammar.Name
import TreeGrammar.OrderedTable
import TreeGrammar.Pattern.Basic
import TreeGrammar.Pattern.Json
import TreeGrammar.Pattern.Normal
import TreeGrammar.Schema.Basic
import TreeGrammar.Schema.Build
import TreeGrammar.Schema.Compact
import TreeGrammar.Schema.Grammar
import TreeGrammar.Schema.Kind
import TreeGrammar.Schema.Load
import TreeGrammar.Token
import TreeGrammar.Validation.ChildCursor
import TreeGrammar.Validation.Review
import TreeGrammar.Validation.Validator
import TreeGrammar.Validation.Walk
import TreeGrammar.Violation
import TreeGrammar.Proofs.Automaton.Edge
import TreeGrammar.Proofs.Automaton.Chain
import TreeGrammar.Proofs.Automaton.Shape
import TreeGrammar.Proofs.Automaton.Renaming
import TreeGrammar.Proofs.Automaton.Path
import TreeGrammar.Proofs.Automaton.Bisimulation
import TreeGrammar.Proofs.Automaton.Ending
import TreeGrammar.Proofs.Automaton.Append
import TreeGrammar.Proofs.Automaton.AppendWords
import TreeGrammar.Proofs.Automaton.AppendChains
import TreeGrammar.Proofs.Automaton.AppendRuns
import TreeGrammar.Proofs.Automaton.Merge
import TreeGrammar.Proofs.Automaton.Repeat
import TreeGrammar.Proofs.Pattern.Meaning
import TreeGrammar.Proofs.Pattern.Language
import TreeGrammar.Proofs.Pattern.NormalForm
import TreeGrammar.Proofs.Pattern.Leaves
import TreeGrammar.Proofs.Pattern.Occurs
import TreeGrammar.Proofs.Compile.Made
import TreeGrammar.Proofs.Compile.Run
import TreeGrammar.Proofs.Compile.Pattern
import TreeGrammar.Proofs.Pattern.Positions
import TreeGrammar.Proofs.Compile.Simulation
import TreeGrammar.Proofs.Compile.Exactness
import TreeGrammar.Proofs.Automaton.Reach
import TreeGrammar.Proofs.Automaton.Labels
import TreeGrammar.Proofs.Automaton.Tidy
import TreeGrammar.Proofs.Content.Alike
import TreeGrammar.Proofs.Validation.Alike
import TreeGrammar.Proofs.Schema.Codes
import TreeGrammar.Proofs.Schema.Rows
import TreeGrammar.Proofs.Schema.Reading
import TreeGrammar.Proofs.Schema.Obtained
import TreeGrammar.Proofs.Schema.RoundTrip
import TreeGrammar.Proofs.Compile.Upkeep
import TreeGrammar.Proofs.Compile.Workshop
import TreeGrammar.Proofs.Compile.Operators
import TreeGrammar.Proofs.Validation.Review
import TreeGrammar.Proofs.Validation.Verdict
import TreeGrammar.Proofs.Markup.Slot
import TreeGrammar.Proofs.Validation.Drained
import TreeGrammar.Proofs.Validation.HandedOut
import TreeGrammar.Proofs.Content.Inside
import TreeGrammar.Proofs.Content.Progress
import TreeGrammar.Proofs.Automaton.Unconstrained
import TreeGrammar.Proofs.Content.Insertion
import TreeGrammar.Proofs.Content.Interleave
import TreeGrammar.Proofs.Markup.Cut
import TreeGrammar.Proofs.Schema.Insertion
import TreeGrammar.Proofs.Validation.Rewind
import TreeGrammar.Proofs.Analysis.Reachability
import TreeGrammar.Proofs.Schema.PassedOver
import TreeGrammar.Proofs.Automaton.Mirror
import TreeGrammar.Proofs.Automaton.Recoding
import TreeGrammar.Proofs.Automaton.Beyond
import TreeGrammar.Proofs.Content.Recoding
import TreeGrammar.Proofs.Compile.Standard
import TreeGrammar.Proofs.Compile.Grounded
import TreeGrammar.Proofs.Compile.Rerun
import TreeGrammar.Proofs.Compile.Rulebook
import TreeGrammar.Proofs.Schema.DeclarationOrder
import TreeGrammar.Proofs.Markup.Escaping
import TreeGrammar.Proofs.Markup.Tag
import TreeGrammar.Proofs.Markup.RoundTrip
import TreeGrammar.Proofs.Compile.Faults
import TreeGrammar.Proofs.Compile.Retry
import TreeGrammar.Proofs.Compile.Lost
import TreeGrammar.Proofs.Compile.Accounts
import TreeGrammar.Proofs.Schema.Warnings
import TreeGrammar.Proofs.Content.Lowering
import TreeGrammar.Proofs.Compile.References
import TreeGrammar.Proofs.Compile.Inlining
import TreeGrammar.Proofs.Schema.Location
import TreeGrammar.Proofs.Compile.Allowed
import TreeGrammar.Proofs.Search
import TreeGrammar.Proofs.Content.Unconstrained
import TreeGrammar.Proofs.Validation.Lax
import TreeGrammar.Proofs.Validation.Paths
import TreeGrammar.Proofs.Validation.Unseen
import TreeGrammar.Proofs.Validation.Explained
import TreeGrammar.Proofs.Schema.Decoding
import TreeGrammar.Proofs.Analysis.Ancestry
import TreeGrammar.Proofs.Markup.Comment
import TreeGrammar.Proofs.Automaton.Uncut
import TreeGrammar.Proofs.Automaton.Circle
import TreeGrammar.Proofs.Compile.Calls
import TreeGrammar.Proofs.Compile.DeadEnds
import TreeGrammar.Proofs.Validation.Languages
