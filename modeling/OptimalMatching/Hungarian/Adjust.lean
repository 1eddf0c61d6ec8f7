import OptimalMatching.Hungarian.State
import OptimalMatching.Progress

/-! The change of the shifts when no uncovered zero is left. Prices stay as they are on lines covered once, rise
where two covers cross, and fall where there is none. -/
namespace OptimalMatching.Hungarian

variable {n : Nat}

def leastSlack (s : State n) : Option Int :=
  (s.uncoveredRows.filterMap fun row => (s.slack[row]).map Slack.price).min?

def lowerRows (w : Width) (delta : Int) : List (Fin n) → State n → Except Failure (State n)
  | [], s => .ok s
  | row :: rest, s => do
    let moved ← w.keep (.overflow (.adjustment delta)) (s.rowShift[row] - delta)
    let s := { s with rowShift := s.rowShift.set row moved row.isLt }
    match s.slack[row] with
    | none => lowerRows w delta rest s
    | some slack => do
      let price ← w.keep (.fault .arithmetic) (slack.price - delta)
      lowerRows w delta rest { s with slack := s.slack.set row (some ⟨price, slack.col⟩) row.isLt }

def raiseCols (w : Width) (delta : Int) : List (Fin n) → State n → Except Failure (State n)
  | [], s => .ok s
  | col :: rest, s => do
    let moved ← w.keep (.overflow (.adjustment delta)) (s.colShift[col] + delta)
    raiseCols w delta rest { s with colShift := s.colShift.set col moved col.isLt }

def shiftBy (w : Width) (delta : Int) (s : State n) : Except Failure (State n) := do
  let s ← lowerRows w delta s.uncoveredRows s
  raiseCols w delta s.coveredCols s

/-- Makes a zero in an uncovered row and column. Where no uncovered row has a slack, all pairings lie under fewer
than `n` lines, and there is no matching. -/
def adjust (w : Width) (s : State n) : Ended (State n) (Phase n) :=
  match leastSlack s with
  | none => ⟨s, [], .error (.infeasible ((s.uncoveredRows.head?.map Fin.val).getD 0))⟩
  | some delta =>
    if 0 < delta then
      match shiftBy w delta s with
      | .error failure => ⟨s, [.hungarianDelta delta], .error failure⟩
      | .ok s => ⟨s, [.hungarianDelta delta], .ok .prime⟩
    else ⟨s, [], .error (.fault (.delta delta))⟩

end OptimalMatching.Hungarian
