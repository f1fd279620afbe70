import HoleBlame.Annotated
import HoleBlame.Ascending
import HoleBlame.Chain
import HoleBlame.Chain.Draft
import HoleBlame.Checker
import HoleBlame.CommandLine.Invocation
import HoleBlame.CommandLine.Run
import HoleBlame.CommandLine.Switch
import HoleBlame.CommandLine.Verbosity
import HoleBlame.Decimal.Binary
import HoleBlame.Decimal.Nearest
import HoleBlame.Decimal.Notation
import HoleBlame.Decimal.Reader
import HoleBlame.Decimal.Shortest
import HoleBlame.Drn.Line
import HoleBlame.Drn.Reader
import HoleBlame.Drn.Writer
import HoleBlame.Explanation
import HoleBlame.Graph
import HoleBlame.HoleSet
import HoleBlame.HoleTable
import HoleBlame.Labelling
import HoleBlame.Main
import HoleBlame.Member
import HoleBlame.Notes.Line
import HoleBlame.Notes.Reader
import HoleBlame.Priors
import HoleBlame.Progress
import HoleBlame.Proofs.Order
import HoleBlame.Proofs.Paths
import HoleBlame.Property
import HoleBlame.Property.Reader
import HoleBlame.Random
import HoleBlame.Scalar
import HoleBlame.Shortcut
import HoleBlame.Sketch
import HoleBlame.Sorting
import HoleBlame.StateSet
import HoleBlame.Table
import HoleBlame.Text.Class
import HoleBlame.Text.Grouped
import HoleBlame.Text.Lines
import HoleBlame.Text.Scan
import HoleBlame.Timing
import HoleBlame.Waves
import HoleBlame.Waves.Exploration
import HoleBlame.Proofs.Chances
import HoleBlame.Proofs.Likeness
import HoleBlame.Proofs.Labels
import HoleBlame.Proofs.Shortening
import HoleBlame.Proofs.Verdicts
import HoleBlame.Proofs.Exploration
import HoleBlame.Proofs.Partition
import HoleBlame.Proofs.Search
import HoleBlame.Proofs.Outcome
import HoleBlame.Proofs.Soundness
import HoleBlame.Proofs.Exact
import HoleBlame.Proofs.Completion
import HoleBlame.Proofs.Approximation
import HoleBlame.Proofs.Iteration
import HoleBlame.Proofs.Growth
import HoleBlame.Proofs.Rounding
import HoleBlame.Proofs.Binary64
import HoleBlame.Proofs.Answers
import HoleBlame.Proofs.Restoring
import HoleBlame.Proofs.Certainty
import HoleBlame.Proofs.Rewards
import HoleBlame.Proofs.Revelation
import HoleBlame.Proofs.Collecting
import HoleBlame.Proofs.Renumbering
import HoleBlame.Proofs.CheckerSymmetry
import HoleBlame.Proofs.WaveSymmetry
import HoleBlame.Proofs.Symmetry
import HoleBlame.Proofs.Batches
import HoleBlame.Proofs.Tightening
import HoleBlame.Proofs.GivingUp
import HoleBlame.Proofs.Nearest
import HoleBlame.Proofs.Numerals
import HoleBlame.Proofs.Scanning
import HoleBlame.Proofs.Written
import HoleBlame.Proofs.Sorting
import HoleBlame.Proofs.Records
import HoleBlame.Proofs.Drafts
import HoleBlame.Proofs.Drawing
import HoleBlame.Proofs.Rereading
import HoleBlame.Proofs.RoundTrip
import HoleBlame.Proofs.Accepted
import HoleBlame.Proofs.Results
import HoleBlame.Proofs.Rewriting
import HoleBlame.Proofs.Discovery
import HoleBlame.Proofs.Building
import HoleBlame.Proofs.Detours
import HoleBlame.Proofs.Greed
import HoleBlame.Proofs.Interview
import HoleBlame.Proofs.Representation
import HoleBlame.Proofs.Constraints
import HoleBlame.Proofs.Negation
import HoleBlame.Proofs.Stated
import HoleBlame.Proofs.PropertyText
import HoleBlame.Proofs.PropertyGrammar
import HoleBlame.Proofs.Sections
import HoleBlame.Proofs.Insertion
import HoleBlame.Proofs.Actions
import HoleBlame.Proofs.Predecessors
import HoleBlame.Proofs.Queueing
import HoleBlame.Proofs.Resolving
import HoleBlame.Proofs.NoteLines
import HoleBlame.Proofs.Priors
import HoleBlame.Proofs.Noting
import HoleBlame.Proofs.TornNotes
import HoleBlame.Proofs.HoleTables
import HoleBlame.Proofs.Lines
import HoleBlame.Proofs.Settling
import HoleBlame.Proofs.Pieces
import HoleBlame.Proofs.Thousands
