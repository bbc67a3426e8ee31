import ArrayBounds.Access
import ArrayBounds.Analysis
import ArrayBounds.Bound.Arith
import ArrayBounds.Bound.Basic
import ArrayBounds.Code.Method
import ArrayBounds.Code.Operator
import ArrayBounds.Code.Stmt
import ArrayBounds.Code.Value
import ArrayBounds.CommandLine.Options
import ArrayBounds.CommandLine.Run
import ArrayBounds.Domain.Intervals
import ArrayBounds.Domain.PointsTo
import ArrayBounds.Fact.Basic
import ArrayBounds.Fact.Targets
import ArrayBounds.Fault
import ArrayBounds.Files.Basic
import ArrayBounds.Files.Tree
import ArrayBounds.Flow.Points
import ArrayBounds.Flow.Worklist
import ArrayBounds.Interval.Arith
import ArrayBounds.Interval.Basic
import ArrayBounds.Interval.Refine
import ArrayBounds.Java.Grammar.Basic
import ArrayBounds.Java.Grammar.Declarations
import ArrayBounds.Java.Grammar.Expressions
import ArrayBounds.Java.Grammar.Statements
import ArrayBounds.Java.Grammar.Types
import ArrayBounds.Java.Lookup
import ArrayBounds.Java.Token
import ArrayBounds.Java.Tree
import ArrayBounds.Log
import ArrayBounds.Lowering.Draft
import ArrayBounds.Lowering.Expr
import ArrayBounds.Lowering.Method
import ArrayBounds.Lowering.Stmt
import ArrayBounds.Main
import ArrayBounds.Number.Double
import ArrayBounds.Number.Shortest
import ArrayBounds.Path
import ArrayBounds.Proofs.AccessCode
import ArrayBounds.Proofs.ArrayInitializers
import ArrayBounds.Proofs.ArrayLoops
import ArrayBounds.Proofs.AssignedTargets
import ArrayBounds.Proofs.AssignmentCode
import ArrayBounds.Proofs.BestApproximation
import ArrayBounds.Proofs.Bounds
import ArrayBounds.Proofs.BranchEdges
import ArrayBounds.Proofs.CanonicalFacts
import ArrayBounds.Proofs.CodeBuilding
import ArrayBounds.Proofs.CodeRegions
import ArrayBounds.Proofs.Conditions
import ArrayBounds.Proofs.ControlFlow
import ArrayBounds.Proofs.Drafts
import ArrayBounds.Proofs.ElementOrder
import ArrayBounds.Proofs.Entries
import ArrayBounds.Proofs.EvaluationOrder
import ArrayBounds.Proofs.EventLog
import ArrayBounds.Proofs.ExactIntervals
import ArrayBounds.Proofs.Execution
import ArrayBounds.Proofs.ExpressionCode
import ArrayBounds.Proofs.ExpressionRegions
import ArrayBounds.Proofs.FlowEdges
import ArrayBounds.Proofs.Fragment
import ArrayBounds.Proofs.FreshTemporaries
import ArrayBounds.Proofs.Hull
import ArrayBounds.Proofs.IntegerCasts
import ArrayBounds.Proofs.IntervalFacts
import ArrayBounds.Proofs.IntervalSoundness
import ArrayBounds.Proofs.IntervalTransfer
import ArrayBounds.Proofs.Iteration
import ArrayBounds.Proofs.JavaMeaning
import ArrayBounds.Proofs.LeastFacts
import ArrayBounds.Proofs.LeastUpperBounds
import ArrayBounds.Proofs.LoopCode
import ArrayBounds.Proofs.Machine
import ArrayBounds.Proofs.MachineSteps
import ArrayBounds.Proofs.Magnitudes
import ArrayBounds.Proofs.MethodBuilding
import ArrayBounds.Proofs.MethodCode
import ArrayBounds.Proofs.MethodLookup
import ArrayBounds.Proofs.MethodRegions
import ArrayBounds.Proofs.MonotoneTransfer
import ArrayBounds.Proofs.Narrowing
import ArrayBounds.Proofs.NestedAccesses
import ArrayBounds.Proofs.Numbering
import ArrayBounds.Proofs.OpenRuns
import ArrayBounds.Proofs.OrdinaryIntegers
import ArrayBounds.Proofs.PointsToFacts
import ArrayBounds.Proofs.PointsToTransfer
import ArrayBounds.Proofs.SafeAccess
import ArrayBounds.Proofs.SafeRuns
import ArrayBounds.Proofs.SettingsEntries
import ArrayBounds.Proofs.SettingsFaults
import ArrayBounds.Proofs.SharperFacts
import ArrayBounds.Proofs.Simulation
import ArrayBounds.Proofs.SourceAccesses
import ArrayBounds.Proofs.StatementCode
import ArrayBounds.Proofs.Termination
import ArrayBounds.Proofs.Totality
import ArrayBounds.Proofs.TraceReplay
import ArrayBounds.Proofs.TraceText
import ArrayBounds.Proofs.UntouchedTemporaries
import ArrayBounds.Proofs.Verdicts
import ArrayBounds.Proofs.WellFormedCode
import ArrayBounds.Proofs.WiderWindows
import ArrayBounds.Proofs.WrittenPaths
import ArrayBounds.Report
import ArrayBounds.Settings.Basic
import ArrayBounds.Settings.Datum
import ArrayBounds.Settings.Load
import ArrayBounds.Settings.Moment
import ArrayBounds.Settings.Toml
import ArrayBounds.Text.Identifier
import ArrayBounds.Text.Integer
import ArrayBounds.Text.Printable
import ArrayBounds.Text.Quoted
import ArrayBounds.Text.Ranges
import ArrayBounds.Text.Space
