import OptimalMatching.Hungarian.State

/-! The search for a zero outside the covered lines. It starts with the starred columns covered. A zero found in a
row that has a star moves the cover from the star's column to the row; one in a row without a star ends it. -/
namespace OptimalMatching.Hungarian

variable {n : Nat}

def openCol (w : Width) (costs : Costs n) (col : Fin n) : List (Fin n) → State n → Except Failure (State n)
  | [], s => .ok s
  | row :: rest, s => do
    match ← s.price w costs row col with
    | none => openCol w costs col rest s
    | some price => openCol w costs col rest (s.tighten row col price)

def openCols (w : Width) (costs : Costs n) : List (Fin n) → State n → Except Failure (State n)
  | [], s => .ok s
  | col :: rest, s => do
    let s ← openCol w costs col s.uncoveredRows s
    openCols w costs rest s

def coverStarred : List (Fin n) → State n → State n
  | [], s => s
  | col :: rest, s =>
    coverStarred rest (if (s.markInCol col .star).isSome then s.coverCol col else s)

def cover (w : Width) (costs : Costs n) (s : State n) : Except Failure (Phase n × State n) :=
  let s := coverStarred (List.finRange n) s
  let covered := s.coveredCols.length
  if covered ≠ s.stars then .error (.fault .starCount)
  else if covered < s.covered then .error (.fault .lostCover)
  else
    let s := { s with covered := covered }
    if covered = n then .ok (.done, s)
    else do
      let s ← openCols w costs s.uncoveredCols { s with slack := Vector.replicate n none }
      pure (.prime, s)

def uncoveredZero (s : State n) : Option (Fin n × Fin n) :=
  s.uncoveredRows.findSome? fun row =>
    match s.slack[row] with
    | none => none
    | some slack => if slack.price = 0 then some (row, slack.col) else none

/-- Primes a zero. A star in its row is traded for it: the row is covered and the star's column opened. A row
without a star ends the search. -/
def primeZero (w : Width) (costs : Costs n) (s : State n) : Except Failure (Phase n × State n) :=
  match uncoveredZero s with
  | none => .ok (.adjust, s)
  | some (row, col) =>
    let s := s.setMark row col .prime
    match s.markInRow row .star with
    | none => .ok (.augment row col, s)
    | some starred => do
      let s := (s.coverRow row).uncoverCol starred
      let s ← openCol w costs starred s.uncoveredRows s
      pure (.prime, s)

end OptimalMatching.Hungarian
