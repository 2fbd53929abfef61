import PointsTo.Comparison
import PointsTo.ConstraintGraph
import PointsTo.Digraph.Basic
import PointsTo.Digraph.Dot
import PointsTo.Digraph.Insertion
import PointsTo.Digraph.Json
import PointsTo.Digraph.Labelled
import PointsTo.Digraph.Reach
import PointsTo.Distinct
import PointsTo.Environment.Basic
import PointsTo.Environment.Printer
import PointsTo.Error
import PointsTo.Inclusion.Basic
import PointsTo.Inclusion.Derived
import PointsTo.Inclusion.Json
import PointsTo.Inclusion.Sweep
import PointsTo.Instruction.Basic
import PointsTo.Instruction.Line
import PointsTo.Json.Basic
import PointsTo.Json.Decode
import PointsTo.Json.Reader
import PointsTo.Json.Writer
import PointsTo.Name
import PointsTo.PointsToSet
import PointsTo.Program.Basic
import PointsTo.Program.Builder
import PointsTo.Program.Json
import PointsTo.Program.Text
import PointsTo.Solver.Basic
import PointsTo.Solver.Progress
import PointsTo.Solver.Run
import PointsTo.Solver.Trace
import PointsTo.Storage
import PointsTo.Text
import PointsTo.Proofs.Facts
import PointsTo.Proofs.Propagation
import PointsTo.Proofs.Derivation
import PointsTo.Proofs.Seed
import PointsTo.Proofs.LeastSolution
import PointsTo.Proofs.Execution
import PointsTo.Proofs.RoundBound
import PointsTo.Proofs.ConstraintGraph
import PointsTo.Proofs.Explanation
import PointsTo.Proofs.RoundLimit
import PointsTo.Proofs.Entries
import PointsTo.Proofs.KeptInclusions
import PointsTo.Proofs.RecordedInclusions
import PointsTo.Proofs.SimultaneousSteps
import PointsTo.Proofs.Comparison
import PointsTo.Proofs.ChangeReport
import PointsTo.Proofs.Saturation
import PointsTo.Proofs.SinglePass
import PointsTo.Proofs.Sweep
import PointsTo.Proofs.Translation
import PointsTo.Proofs.Renaming
import PointsTo.Proofs.Separation
import PointsTo.Proofs.SolutionGraph
import PointsTo.Proofs.StorageIndex
import PointsTo.Proofs.ProgramText
import PointsTo.Proofs.LineGrammar
import PointsTo.Proofs.JoinedText
import PointsTo.Proofs.CheckedPrograms
import PointsTo.Proofs.JsonText
import PointsTo.Proofs.ProgramJson
import PointsTo.Proofs.WrittenEnvironment
import PointsTo.Proofs.GrownGraphs
import PointsTo.Proofs.Reachability
import PointsTo.Proofs.JsonRoundTrip
