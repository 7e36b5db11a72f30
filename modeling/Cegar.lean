import Cegar.Json.Codec
import Cegar.Options.Parse
import Cegar.Solver.Text
import Cegar.Verification
import Cegar.Proofs.Meaning
import Cegar.Proofs.WellSorted
import Cegar.Proofs.Abstraction
import Cegar.Proofs.Paths
import Cegar.Proofs.Analysis.Coverage
import Cegar.Proofs.Analysis.Refinement
import Cegar.Proofs.Analysis.Merging
import Cegar.Proofs.Analysis.Transfer
import Cegar.Proofs.Exploration.Evolution
import Cegar.Proofs.Exploration.Step
import Cegar.Proofs.Exploration.Worklist
import Cegar.Proofs.Verification
import Cegar.Proofs.Solver.Answers
import Cegar.Proofs.Analysis.Succession
import Cegar.Proofs.Analysis.Covering
import Cegar.Proofs.Analysis.Development
import Cegar.Proofs.Analysis.Inspection
import Cegar.Proofs.Exploration.Shape
import Cegar.Proofs.Exploration.Changes
import Cegar.Proofs.Exploration.Routes
import Cegar.Proofs.Failures
import Cegar.Proofs.Exploration.Lineage
import Cegar.Proofs.Exploration.TargetPaths
import Cegar.Proofs.Cuts
import Cegar.Proofs.Exploration.Progress
import Cegar.Proofs.Lockstep
import Cegar.Proofs.Analysis.Additions
import Cegar.Proofs.Solver.Inquiries
import Cegar.Proofs.Analysis.Numbering
import Cegar.Proofs.Analysis.Stalls
import Cegar.Proofs.Analysis.Caching
import Cegar.Proofs.Cubes
import Cegar.Proofs.Literals
import Cegar.Proofs.Interpolants
import Cegar.Proofs.Solver.Effort
import Cegar.Proofs.Analysis.Pruning
import Cegar.Proofs.Solver.Overflow
import Cegar.Proofs.Analysis.Tracking
import Cegar.Proofs.Graph.Histories
import Cegar.Proofs.Graph.CreationOrder
import Cegar.Proofs.Exploration.Walks
import Cegar.Proofs.LoopHeads
import Cegar.Proofs.Json.RoundTrip
import Cegar.Proofs.Analysis.BlockSizes
import Cegar.Proofs.Options.Settings
import Cegar.Proofs.Options.Order
import Cegar.Proofs.Evaluation
import Cegar.Proofs.Solver.Backtracking
import Cegar.Proofs.Atoms
