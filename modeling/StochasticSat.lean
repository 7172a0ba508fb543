import StochasticSat.Assignment
import StochasticSat.Command.Arguments
import StochasticSat.Command.Options
import StochasticSat.Command.Program
import StochasticSat.Command.Session
import StochasticSat.Command.Similarity
import StochasticSat.Command.Table
import StochasticSat.Decimal.Binary64
import StochasticSat.Decimal.Digits
import StochasticSat.Decimal.Reading
import StochasticSat.Decimal.Shortest
import StochasticSat.Duration
import StochasticSat.Error
import StochasticSat.Formula.Clause
import StochasticSat.Formula.Evaluation
import StochasticSat.Formula.Instance
import StochasticSat.Formula.Literal
import StochasticSat.Formula.Model
import StochasticSat.Log
import StochasticSat.Main
import StochasticSat.Proofs.Command.Certification
import StochasticSat.Proofs.Command.DirectoryRuns
import StochasticSat.Proofs.Command.InvalidOptions
import StochasticSat.Proofs.Command.Repeats
import StochasticSat.Proofs.Command.RoomForModels
import StochasticSat.Proofs.Command.SavedModels
import StochasticSat.Proofs.Command.SolutionPaths
import StochasticSat.Proofs.Command.Triples
import StochasticSat.Proofs.Command.Worlds
import StochasticSat.Proofs.Command.WrittenModels
import StochasticSat.Proofs.Formula.Meaning
import StochasticSat.Proofs.Formula.Models
import StochasticSat.Proofs.Formula.Numbering
import StochasticSat.Proofs.Formula.Occurrences
import StochasticSat.Proofs.Formula.Planting
import StochasticSat.Proofs.Formula.Readings
import StochasticSat.Proofs.Formula.Rebuilding
import StochasticSat.Proofs.Formula.Renaming
import StochasticSat.Proofs.Formula.Representation
import StochasticSat.Proofs.Formula.Scores
import StochasticSat.Proofs.Formula.Solutions
import StochasticSat.Proofs.Rows
import StochasticSat.Proofs.Search.Calls
import StochasticSat.Proofs.Search.Choices
import StochasticSat.Proofs.Search.Chronicles
import StochasticSat.Proofs.Search.Countdowns
import StochasticSat.Proofs.Search.Endings
import StochasticSat.Proofs.Search.FirstModels
import StochasticSat.Proofs.Search.HandSteps
import StochasticSat.Proofs.Search.Interleavings
import StochasticSat.Proofs.Search.Limits
import StochasticSat.Proofs.Search.LubyBlocks
import StochasticSat.Proofs.Search.PassCounts
import StochasticSat.Proofs.Search.Passes
import StochasticSat.Proofs.Search.Places
import StochasticSat.Proofs.Search.Proposals
import StochasticSat.Proofs.Search.Races
import StochasticSat.Proofs.Search.Renamings
import StochasticSat.Proofs.Search.Repairs
import StochasticSat.Proofs.Search.Replays
import StochasticSat.Proofs.Search.Rounds
import StochasticSat.Proofs.Search.SafeSteps
import StochasticSat.Proofs.Search.Schedules
import StochasticSat.Proofs.Search.Soundness
import StochasticSat.Proofs.Search.States
import StochasticSat.Proofs.Search.StopReasons
import StochasticSat.Proofs.Search.Tautologies
import StochasticSat.Proofs.Search.Trails
import StochasticSat.Proofs.Search.WordRestarters
import StochasticSat.Proofs.Text.ByteLines
import StochasticSat.Proofs.Text.ByteOrder
import StochasticSat.Proofs.Text.DataTokens
import StochasticSat.Proofs.Text.Detection
import StochasticSat.Proofs.Text.Layouts
import StochasticSat.Proofs.Text.LineEnds
import StochasticSat.Proofs.Text.Lines
import StochasticSat.Proofs.Text.Numerals
import StochasticSat.Proofs.Text.Printing
import StochasticSat.Proofs.Text.SolutionTexts
import StochasticSat.Proofs.Text.TokenRows
import StochasticSat.Proofs.Tree.Descents
import StochasticSat.Proofs.Tree.Directories
import StochasticSat.Proofs.Tree.Discovery
import StochasticSat.Proofs.Tree.Growth
import StochasticSat.Proofs.Tree.Mirrors
import StochasticSat.Proofs.Tree.Walks
import StochasticSat.Proofs.Tree.Writes
import StochasticSat.Random.Seeded
import StochasticSat.Random.Stream
import StochasticSat.RandomInstance
import StochasticSat.Search.Config
import StochasticSat.Search.Engine
import StochasticSat.Search.Observer
import StochasticSat.Search.Race
import StochasticSat.Search.Restart
import StochasticSat.Search.Run
import StochasticSat.Search.Selection
import StochasticSat.Text.Dialect
import StochasticSat.Text.Line
import StochasticSat.Text.Solution
import StochasticSat.Tree.FileSystem
import StochasticSat.Tree.InstanceFiles
import StochasticSat.Tree.Path
