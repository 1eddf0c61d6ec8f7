import OptimalMatching.Hungarian.State

/-! The first step: every row gets a zero, and as many zeros as come first are starred, no two in one line. -/
namespace OptimalMatching.Hungarian

variable {n : Nat}

def reduceRows (w : Width) (costs : Costs n) : List (Fin n) → State n → Except Failure (State n)
  | [], s => .ok s
  | row :: rest, s =>
    match (costs[row].toList.filterMap id).min? with
    | none => .error (.infeasible row)
    | some least => do
      let moved ← w.keep (.fault .arithmetic) (0 - least)
      reduceRows w costs rest { s with rowShift := s.rowShift.set row moved row.isLt }

/-- Stars a zero whose row and column have no star yet. The covers remember which lines have one. -/
def starZeros (w : Width) (costs : Costs n) : List (Fin n × Fin n) → State n → Except Failure (State n)
  | [], s => .ok s
  | (row, col) :: rest, s => do
    let price ← s.price w costs row col
    if price = some 0 ∧ s.rowCovered[row] = false ∧ s.colCovered[col] = false then
      starZeros w costs rest (((s.setMark row col .star).coverRow row).coverCol col)
    else
      starZeros w costs rest s

def allCells (n : Nat) : List (Fin n × Fin n) :=
  (List.finRange n).flatMap fun row => (List.finRange n).map fun col => (row, col)

def reduce (w : Width) (costs : Costs n) (s : State n) : Except Failure (State n) := do
  let s ← reduceRows w costs (List.finRange n) s
  let s ← starZeros w costs (allCells n) s
  pure s.uncoverAll

end OptimalMatching.Hungarian
