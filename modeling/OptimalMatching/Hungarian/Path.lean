import OptimalMatching.Hungarian.State
import OptimalMatching.Progress

/-! The alternating path from a primed zero in a row without a star, over stars and primes in turn, to a column
without a star. Flipping it makes one star more. -/
namespace OptimalMatching.Hungarian

variable {n : Nat}

def tracePath (s : State n) : Nat → Fin n → Except Failure (List (Fin n × Fin n))
  | 0, _ => .error (.fault .endlessPath)
  | fuel + 1, col =>
    match s.markInCol col .star with
    | none => .ok []
    | some row =>
      match s.markInRow row .prime with
      | none => .error (.fault (.unprimed row))
      | some next => do
        let rest ← tracePath s fuel next
        pure ((row, col) :: (row, next) :: rest)

/-- A path meets each column once at most, and one step finds that no star is left. -/
def pathFrom (s : State n) (row col : Fin n) : Except Failure (List (Fin n × Fin n)) := do
  let rest ← tracePath s (n + 1) col
  pure ((row, col) :: rest)

def flipMarks : List (Fin n × Fin n) → State n → Except Failure (State n)
  | [], s => .ok s
  | (row, col) :: rest, s =>
    match s.mark row col with
    | .empty => .error (.fault (.unmarked row col))
    | .star => flipMarks rest (s.setMark row col .empty)
    | .prime => flipMarks rest (s.setMark row col .star)

def dropPrimes (s : State n) : State n :=
  { s with marks := Vector.ofFn fun row => Vector.ofFn fun col =>
      if s.mark row col = .prime then .empty else s.mark row col }

def pathEvent (path : List (Fin n × Fin n)) : Event :=
  .hungarianPath (path.map fun cell => (cell.1.val, cell.2.val))

def augment (s : State n) (row col : Fin n) : Ended (State n) (Phase n) :=
  match pathFrom s row col with
  | .error failure => ⟨s, [], .error failure⟩
  | .ok path =>
    match flipMarks path s with
    | .error failure => ⟨s, [pathEvent path], .error failure⟩
    | .ok flipped => ⟨dropPrimes flipped.uncoverAll, [pathEvent path], .ok .cover⟩

end OptimalMatching.Hungarian
