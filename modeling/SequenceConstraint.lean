import SequenceConstraint.Cardinality
import SequenceConstraint.Charset
import SequenceConstraint.CommandLine.Options
import SequenceConstraint.CommandLine.Outcome
import SequenceConstraint.Distinct
import SequenceConstraint.Dotted
import SequenceConstraint.Generation.Bank
import SequenceConstraint.Generation.Enumerate
import SequenceConstraint.Generation.Plan
import SequenceConstraint.Generation.Run
import SequenceConstraint.Generation.Snapshot
import SequenceConstraint.Generation.Stream
import SequenceConstraint.Main
import SequenceConstraint.Matching
import SequenceConstraint.Pattern
import SequenceConstraint.Syntax.Bracket
import SequenceConstraint.Syntax.CharClass
import SequenceConstraint.Syntax.Error
import SequenceConstraint.Syntax.Escape
import SequenceConstraint.Syntax.Parse
import SequenceConstraint.Syntax.Token
import SequenceConstraint.Syntax.Tree
import SequenceConstraint.Text.Quoted
import SequenceConstraint.Text.Unprintable
import SequenceConstraint.Proofs.Matching.Leads
import SequenceConstraint.Proofs.Matching.Positions
import SequenceConstraint.Proofs.Generation.Words
import SequenceConstraint.Proofs.Generation.InOrder
import SequenceConstraint.Proofs.Generation.Shows
import SequenceConstraint.Proofs.Generation.Names
import SequenceConstraint.Proofs.Generation.Planning
import SequenceConstraint.Proofs.Agreement.States
import SequenceConstraint.Proofs.Agreement.Nodes
import SequenceConstraint.Proofs.Agreement.Trees
import SequenceConstraint.Proofs.Language.Generated
import SequenceConstraint.Proofs.Language.Accepted
import SequenceConstraint.Proofs.Pattern.Selection
import SequenceConstraint.Proofs.Pattern.Symbols
import SequenceConstraint.Proofs.Syntax.Letters
import SequenceConstraint.Proofs.Pattern.Combinations
import SequenceConstraint.Proofs.Pattern.Invalid
import SequenceConstraint.Proofs.Pattern.Expression
import SequenceConstraint.Proofs.Pattern.ReadExpression
import SequenceConstraint.Proofs.Pattern.Valid
import SequenceConstraint.Proofs.Pattern.Window
import SequenceConstraint.Proofs.Pattern.Formula
import SequenceConstraint.Proofs.Pattern.Membership
import SequenceConstraint.Proofs.Order.Listings
import SequenceConstraint.Proofs.Order.Trees
import SequenceConstraint.Proofs.Syntax.Captures
import SequenceConstraint.Proofs.Order.Caps
import SequenceConstraint.Proofs.Pattern.Coverage
import SequenceConstraint.Proofs.Order.Counterparts
import SequenceConstraint.Proofs.Generation.Characters
import SequenceConstraint.Proofs.Syntax.Forms
import SequenceConstraint.Proofs.Syntax.Reads
import SequenceConstraint.Proofs.Syntax.Leaves
import SequenceConstraint.Proofs.Syntax.Delimiters
import SequenceConstraint.Proofs.Syntax.Fragments
import SequenceConstraint.Proofs.Syntax.Enclosed
import SequenceConstraint.Proofs.Pattern.Separation
import SequenceConstraint.Proofs.Pattern.Shortest
import SequenceConstraint.Proofs.Pattern.Compilation
import SequenceConstraint.Proofs.Pattern.References
import SequenceConstraint.Proofs.Matching.Backtracking
import SequenceConstraint.Proofs.Matching.Steps
import SequenceConstraint.Proofs.Syntax.WellFormed
import SequenceConstraint.Proofs.Syntax.Printing
import SequenceConstraint.Proofs.Syntax.RoundTrip
import SequenceConstraint.Proofs.Generation.EmptyTexts
import SequenceConstraint.Proofs.Agreement.Recall
import SequenceConstraint.Proofs.Agreement.Rounds
import SequenceConstraint.Proofs.Generation.Pruning
import SequenceConstraint.Proofs.Counting.Failures
import SequenceConstraint.Proofs.Counting.Numbers
import SequenceConstraint.Proofs.Counting.Choices
import SequenceConstraint.Proofs.Counting.States
import SequenceConstraint.Proofs.Order.Lookaheads
import SequenceConstraint.Proofs.Syntax.Nesting
import SequenceConstraint.Proofs.Syntax.Composition
import SequenceConstraint.Generation.Odometer
import SequenceConstraint.Proofs.Odometer.Display
import SequenceConstraint.Proofs.Odometer.Standing
import SequenceConstraint.Proofs.Odometer.Choices
import SequenceConstraint.Proofs.Odometer.Repeats
import SequenceConstraint.Proofs.Odometer.Streams
import SequenceConstraint.Proofs.Generation.Absent
import SequenceConstraint.Proofs.Matching.Unrolling
import SequenceConstraint.Proofs.Matching.Visits
import SequenceConstraint.Proofs.Odometer.Programs
import SequenceConstraint.Proofs.Odometer.Fruitful
import SequenceConstraint.Proofs.Odometer.Soundness
import SequenceConstraint.Proofs.Odometer.Protocol
import SequenceConstraint.Proofs.Odometer.Ranges
import SequenceConstraint.Proofs.Pattern.Runs
import SequenceConstraint.Proofs.Pattern.Spellings
import SequenceConstraint.Proofs.Syntax.Classes
import SequenceConstraint.Proofs.Matching.Rearranged
import SequenceConstraint.Proofs.Language.LazyMarks
import SequenceConstraint.Proofs.Odometer.Frames
import SequenceConstraint.Proofs.Counting.FixedWidth
