import OptimalMatching.Event
import OptimalMatching.Square

/-! The state of the star and prime method. The costs are never rewritten: a pairing is priced at its cost plus the
shifts of its row and column. Stars are the matching found so far, primes the zeros that may enter it, and a
covered line is out of the search. -/
namespace OptimalMatching.Hungarian

inductive Mark
  | empty
  | star
  | prime
  deriving DecidableEq, Repr

structure Slack (n : Nat) where
  price : Int
  col : Fin n
  deriving DecidableEq, Repr

structure State (n : Nat) where
  rowShift : Vector Int n
  colShift : Vector Int n
  slack : Vector (Option (Slack n)) n
  marks : Vector (Vector Mark n) n
  rowCovered : Vector Bool n
  colCovered : Vector Bool n
  covered : Nat
  deriving DecidableEq, Repr

inductive Phase (n : Nat)
  | reduce
  | cover
  | prime
  | augment (row col : Fin n)
  | adjust
  | done
  deriving DecidableEq, Repr

variable {n : Nat}

def Phase.stage : Phase n → Stage
  | reduce => .reduce
  | cover => .cover
  | prime => .prime
  | augment .. => .augment
  | adjust => .adjust
  | done => .done

namespace State

def start (n : Nat) : State n where
  rowShift := Vector.replicate n 0
  colShift := Vector.replicate n 0
  slack := Vector.replicate n none
  marks := Vector.replicate n (Vector.replicate n .empty)
  rowCovered := Vector.replicate n false
  colCovered := Vector.replicate n false
  covered := 0

def mark (s : State n) (row col : Fin n) : Mark := s.marks[row][col]

def setMark (s : State n) (row col : Fin n) (mark : Mark) : State n :=
  { s with marks := s.marks.set row (s.marks[row].set col mark col.isLt) row.isLt }

theorem markSetMark (s : State n) (row col i j : Fin n) (mark : Mark) :
    (s.setMark row col mark).mark i j = if i = row ∧ j = col then mark else s.mark i j := by
  unfold State.mark setMark
  rw [readSet]
  by_cases line : i = row
  · rw [if_pos line, readSet, line]
    simp only [true_and]
  · rw [if_neg line, if_neg (fun both => line both.1)]

def markInRow (s : State n) (row : Fin n) (mark : Mark) : Option (Fin n) :=
  (List.finRange n).find? fun col => s.mark row col == mark

def markInCol (s : State n) (col : Fin n) (mark : Mark) : Option (Fin n) :=
  (List.finRange n).find? fun row => s.mark row col == mark

def coverRow (s : State n) (row : Fin n) : State n := { s with rowCovered := s.rowCovered.set row true row.isLt }

def coverCol (s : State n) (col : Fin n) : State n := { s with colCovered := s.colCovered.set col true col.isLt }

def uncoverCol (s : State n) (col : Fin n) : State n :=
  { s with colCovered := s.colCovered.set col false col.isLt }

def uncoverAll (s : State n) : State n :=
  { s with rowCovered := Vector.replicate n false, colCovered := Vector.replicate n false }

def uncoveredRows (s : State n) : List (Fin n) := (List.finRange n).filter fun row => !s.rowCovered[row]

def uncoveredCols (s : State n) : List (Fin n) := (List.finRange n).filter fun col => !s.colCovered[col]

def coveredCols (s : State n) : List (Fin n) := (List.finRange n).filter fun col => s.colCovered[col]

def stars (s : State n) : Nat := (s.marks.toList.flatMap Vector.toList).count .star

def price (w : Width) (costs : Costs n) (s : State n) (row col : Fin n) : Except Failure (Option Int) :=
  match costs[row][col] with
  | none => .ok none
  | some cost => do
    let shifted ← w.keep (.overflow (.reduced row col)) (cost + s.rowShift[row])
    let price ← w.keep (.overflow (.reduced row col)) (shifted + s.colShift[col])
    pure (some price)

theorem priceOk {w : Width} {costs : Costs n} {s : State n} {row col : Fin n} {cost price : Int}
    (has : costs[row][col] = some cost) :
    s.price w costs row col = .ok (some price) ↔
      price = cost + s.rowShift[row] + s.colShift[col] ∧ w.Holds (cost + s.rowShift[row]) ∧
        w.Holds (cost + s.rowShift[row] + s.colShift[col]) := by
  simp only [State.price, has, bindOk, pureOk, Width.keepIff, Option.some.injEq]
  constructor
  · rintro ⟨_, ⟨rfl, first⟩, _, ⟨rfl, second⟩, rfl⟩
    exact ⟨rfl, first, second⟩
  · rintro ⟨rfl, first, second⟩
    exact ⟨_, ⟨rfl, first⟩, _, ⟨rfl, second⟩, rfl⟩

def tighten (s : State n) (row col : Fin n) (price : Int) : State n :=
  match s.slack[row] with
  | none => { s with slack := s.slack.set row (some ⟨price, col⟩) row.isLt }
  | some known =>
    if price < known.price then { s with slack := s.slack.set row (some ⟨price, col⟩) row.isLt } else s

end State
end OptimalMatching.Hungarian
