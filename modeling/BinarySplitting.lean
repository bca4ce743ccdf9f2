import BinarySplitting.Linear.Standard
import BinarySplitting.Report
import BinarySplitting.Engine.Log
import BinarySplitting.Params.Document
import BinarySplitting.Proofs.Scalar.Comparison
import BinarySplitting.Proofs.Scalar.Exact
import BinarySplitting.Proofs.Linear.Real
import BinarySplitting.Proofs.Qubo.GrayCode
import BinarySplitting.Proofs.Qubo.Minimiser
import BinarySplitting.Proofs.Qubo.Search
import BinarySplitting.Proofs.Params.Admissible
import BinarySplitting.Proofs.Engine.Pass
import BinarySplitting.Proofs.Engine.Trace
import BinarySplitting.Proofs.Engine.Start
import BinarySplitting.Proofs.Engine.Calls
import BinarySplitting.Proofs.Engine.History
import BinarySplitting.Proofs.Engine.Selection
import BinarySplitting.Proofs.Engine.Chain
import BinarySplitting.Proofs.Engine.Answers
import BinarySplitting.Proofs.Engine.Outcome
import BinarySplitting.Proofs.Engine.Completion
import BinarySplitting.Proofs.Params.Penalty
import BinarySplitting.Proofs.Engine.Penalty
import BinarySplitting.Proofs.Problem.Reals
import BinarySplitting.Proofs.Decomposition.Reals
import BinarySplitting.Proofs.Decomposition.Lagrangian
import BinarySplitting.Proofs.Linear.Blocks
import BinarySplitting.Proofs.Splitting.Minimiser
import BinarySplitting.Proofs.Decomposition.ContinuousBlock
import BinarySplitting.Proofs.Decomposition.Descent
import BinarySplitting.Proofs.Decomposition.RealPass
import BinarySplitting.Proofs.Engine.RealRun
import BinarySplitting.Proofs.Engine.Multipliers
import BinarySplitting.Proofs.Engine.Shape
import BinarySplitting.Proofs.Scalar.Machine
import BinarySplitting.Proofs.Problem.Unconstrained
import BinarySplitting.Proofs.Engine.Agreement
import BinarySplitting.Proofs.Engine.WarmStart
import BinarySplitting.Proofs.Engine.Steps
import BinarySplitting.Proofs.Engine.Infeasibility
import BinarySplitting.Proofs.Engine.Limit
import BinarySplitting.Proofs.Engine.Optimum
import BinarySplitting.Proofs.Engine.Entry
import BinarySplitting.Proofs.Engine.Feasibility
import BinarySplitting.Proofs.Engine.Raised
import BinarySplitting.Proofs.Splitting.Polish
import BinarySplitting.Proofs.Splitting.Violation
import BinarySplitting.Proofs.Decomposition.Conforming
import BinarySplitting.Proofs.Decomposition.Consensus
import BinarySplitting.Proofs.Decomposition.Violation
import BinarySplitting.Proofs.Splitting.StepSize
import BinarySplitting.Proofs.Splitting.FixedPoint
import BinarySplitting.Proofs.Json.Members
import BinarySplitting.Proofs.Params.Overlay
import BinarySplitting.Proofs.Params.Document
import BinarySplitting.Proofs.Json.Overflow
import BinarySplitting.Proofs.Params.File
import BinarySplitting.Proofs.Params.IterationLimit
import BinarySplitting.Proofs.Report.Labels
import BinarySplitting.Proofs.Qubo.Tour
import BinarySplitting.Proofs.History.Operations
import BinarySplitting.Proofs.Engine.Domination
import BinarySplitting.Proofs.Scalar.Defined
import BinarySplitting.Proofs.Problem.Checked
import BinarySplitting.Proofs.Problem.WellFormed
import BinarySplitting.Proofs.Splitting.Separation
