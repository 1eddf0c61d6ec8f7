/-! What a run reports while it works. An event is data; its level and its wording are read off here. -/
namespace OptimalMatching

inductive Method
  | hungarian
  | dense
  | sparse
  deriving DecidableEq, Repr

def Method.name : Method → String
  | hungarian => "Hungarian"
  | dense => "ShortestAugmentingPath"
  | sparse => "SparseShortestAugmentingPath"

inductive Objective
  | minimize
  | maximize
  deriving DecidableEq, Repr

def Objective.name : Objective → String
  | minimize => "Minimize"
  | maximize => "Maximize"

inductive Stage
  | reduce
  | cover
  | prime
  | augment
  | adjust
  | done
  deriving DecidableEq, Repr

def Stage.name : Stage → String
  | reduce => "Reduce"
  | cover => "CoverColumns"
  | prime => "PrimeZeros"
  | augment => "Augment"
  | adjust => "AdjustCosts"
  | done => "Done"

inductive Level
  | debug
  | trace
  deriving DecidableEq, Repr

inductive Event
  | opened (rows cols : Nat) (method : Method) (objective : Objective)
  | closed (pairs : Nat) (total : Int)
  | hungarianOpened (size realRows realCols : Nat)
  | hungarianStage (before after : Stage)
  | hungarianPath (cells : List (Nat × Nat))
  | hungarianDelta (delta : Int)
  | hungarianClosed (steps : Nat)
  | denseOpened (size : Nat)
  | denseReached (row col : Nat) (cost : Int)
  | denseClosed (rows : Nat)
  | sparseOpened (size edges : Nat)
  | sparseReached (row col : Nat) (cost : Int) (visited : Nat)
  | sparseClosed
  deriving DecidableEq, Repr

namespace Event

def level : Event → Level
  | hungarianStage .. | hungarianPath .. | hungarianDelta .. | denseReached .. | sparseReached .. => .trace
  | _ => .debug

def cellText (cell : Nat × Nat) : String := s!"({cell.1}, {cell.2})"

def text : Event → String
  | opened rows cols method objective =>
    s!"solving {rows}x{cols} with {method.name} ({objective.name})"
  | closed pairs total => s!"assigned {pairs} pairs, total cost {total}"
  | hungarianOpened size realRows realCols =>
    s!"hungarian: solving {size}x{size} ({realRows} real rows, {realCols} real cols)"
  | hungarianStage before after => s!"hungarian: {before.name} -> {after.name}"
  | hungarianPath cells =>
    "hungarian: augmenting path [" ++ String.intercalate ", " (cells.map cellText) ++ "]"
  | hungarianDelta delta => s!"hungarian: delta {delta}"
  | hungarianClosed steps => s!"hungarian: done after {steps} steps"
  | denseOpened size => s!"shortest augmenting path: solving {size}x{size}"
  | denseReached row col cost =>
    s!"shortest augmenting path: row {row} reaches column {col} at {cost}"
  | denseClosed rows => s!"shortest augmenting path: done, {rows} rows assigned"
  | sparseOpened size edges =>
    s!"sparse shortest augmenting path: solving {size}x{size} with {edges} edges"
  | sparseReached row col cost visited =>
    s!"sparse shortest augmenting path: row {row} reaches column {col} at {cost}, {visited} rows visited"
  | sparseClosed => "sparse shortest augmenting path: done"

end Event
end OptimalMatching
