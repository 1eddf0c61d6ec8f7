import OptimalMatching.Solution
import OptimalMatching.Solver
import OptimalMatching.Proofs.Certificate
import OptimalMatching.Proofs.Labels
import OptimalMatching.Proofs.Sweep
import OptimalMatching.Proofs.Scan
import OptimalMatching.Proofs.Augment
import OptimalMatching.Proofs.Progress
import OptimalMatching.Proofs.Dense
import OptimalMatching.Proofs.Grouped
import OptimalMatching.Proofs.Graph
import OptimalMatching.Proofs.Sparse
import OptimalMatching.Proofs.Ending
import OptimalMatching.Proofs.Duals
import OptimalMatching.Proofs.Lockstep
import OptimalMatching.Proofs.Range
import OptimalMatching.Proofs.Hungarian.Stars
import OptimalMatching.Proofs.Hungarian.Shifts
import OptimalMatching.Proofs.Hungarian.Slack
import OptimalMatching.Proofs.Hungarian.Search
import OptimalMatching.Proofs.Hungarian.Cover
import OptimalMatching.Proofs.Hungarian.Adjust
import OptimalMatching.Proofs.Hungarian.Path
import OptimalMatching.Proofs.Hungarian.Reduce
import OptimalMatching.Proofs.Hungarian.Run
import OptimalMatching.Proofs.Hungarian.Reach
import OptimalMatching.Proofs.Hungarian.Moves
import OptimalMatching.Proofs.Hungarian.Lines
import OptimalMatching.Proofs.Hungarian.Prices
import OptimalMatching.Proofs.Hungarian.Augmentation
import OptimalMatching.Proofs.Hungarian.Budget
import OptimalMatching.Proofs.Selection
import OptimalMatching.Proofs.Totals
import OptimalMatching.Proofs.Padding
import OptimalMatching.Proofs.Pricing
import OptimalMatching.Proofs.Pipeline
import OptimalMatching.Proofs.Forms
import OptimalMatching.Proofs.StuckRow
import OptimalMatching.Proofs.Scaling.Lines
import OptimalMatching.Proofs.Truncation
import OptimalMatching.Proofs.Scaling.Dense
import OptimalMatching.Proofs.Scaling.Sparse
import OptimalMatching.Proofs.CheapestEdges
import OptimalMatching.Proofs.Scaling
import OptimalMatching.Proofs.Reuse
import OptimalMatching.Proofs.FailedCall
import OptimalMatching.Proofs.Hungarian.Faults
import OptimalMatching.Proofs.Bijection
import OptimalMatching.Proofs.Complement
import OptimalMatching.Proofs.Session
import OptimalMatching.Proofs.Ways
import OptimalMatching.Proofs.Nearest
import OptimalMatching.Proofs.Ties
import OptimalMatching.Proofs.Reset
import OptimalMatching.Proofs.Flip
import OptimalMatching.Proofs.Grouping
