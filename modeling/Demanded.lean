import Demanded.Word
import Demanded.OrdMap
import Demanded.Json.Basic
import Demanded.Json.Writer
import Demanded.Json.Reader
import Demanded.Json.Shape
import Demanded.Lang.Operator
import Demanded.Lang.Expr
import Demanded.Lang.Stmt
import Demanded.Lang.Order
import Demanded.Lang.Codec
import Demanded.Interval.Basic
import Demanded.Interval.Arithmetic
import Demanded.Interval.Eval
import Demanded.State.Basic
import Demanded.State.Transfer
import Demanded.State.Codec
import Demanded.Loc
import Demanded.DemandGraph.Name
import Demanded.Failure
import Demanded.Text.Printed
import Demanded.Text.Quoted
import Demanded.Multigraph.Basic
import Demanded.Multigraph.Search
import Demanded.Multigraph.Drawing
import Demanded.FlowGraph.Basic
import Demanded.FlowGraph.Loops
import Demanded.FlowGraph.Splice
import Demanded.Source.Program
import Demanded.Source.Load
import Demanded.Bounds.Verdict
import Demanded.Event
import Demanded.State.Store
import Demanded.DemandGraph.Skeleton
import Demanded.DemandGraph.Demand
import Demanded.DemandGraph.Basic
import Demanded.DemandGraph.Rounds
import Demanded.Bounds.Check
import Demanded.Bounds.Demo
import Demanded.Analysis
import Demanded.CommandLine.Arguments
import Demanded.CommandLine.Execution
import Demanded.CommandLine.Analyze
import Demanded.CommandLine.Check
import Demanded.Main
import Demanded.Proofs.Containers
import Demanded.Proofs.Paths
import Demanded.Proofs.DepthFirst
import Demanded.Proofs.Inputs
import Demanded.Proofs.IntervalOrder
import Demanded.Proofs.StateOrder
import Demanded.Proofs.StateLattice
import Demanded.Proofs.NormalForm
import Demanded.Proofs.Runs
import Demanded.Proofs.Support
import Demanded.Proofs.Insertion
import Demanded.Proofs.Histories
import Demanded.Proofs.PostFixpoint
import Demanded.Proofs.Termination
import Demanded.Proofs.SingleDemand
import Demanded.Proofs.Widening
import Demanded.Proofs.Convergence
import Demanded.Proofs.Semantics
import Demanded.Proofs.IntervalOperators
import Demanded.Proofs.Transfer
import Demanded.Proofs.Loading
import Demanded.Proofs.Entries
import Demanded.Proofs.Grounding
import Demanded.Proofs.Persistence
import Demanded.Proofs.EditLocality
import Demanded.Proofs.FromScratch
import Demanded.Proofs.InsertedPaths
import Demanded.Proofs.HeadInsertion
import Demanded.Proofs.Mentions
import Demanded.Proofs.Acceptance
import Demanded.Proofs.Relabelling
import Demanded.Proofs.FreshLocations
import Demanded.Proofs.Traces
import Demanded.Proofs.Focus
import Demanded.Proofs.StatementOrder
import Demanded.Proofs.GraphShape
import Demanded.Proofs.JsonText
import Demanded.Proofs.JsonNesting
import Demanded.Proofs.StoredStates
import Demanded.Proofs.StoredPrograms
import Demanded.Proofs.IntervalEnds
import Demanded.Proofs.Conditions
import Demanded.Proofs.Decisions
import Demanded.Proofs.IntervalHull
import Demanded.Proofs.Refinement
import Demanded.Proofs.OperatorMonotonicity
import Demanded.Proofs.Monotonicity
import Demanded.Proofs.Collapse
import Demanded.Proofs.Guards
import Demanded.Proofs.Cycles
import Demanded.Proofs.NaturalLoops
import Demanded.Proofs.Dereferences
import Demanded.Proofs.Findings
import Demanded.Proofs.Verdicts
