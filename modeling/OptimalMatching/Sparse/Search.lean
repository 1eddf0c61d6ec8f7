import OptimalMatching.Graph.Grouped
import OptimalMatching.Potential
import OptimalMatching.Sparse.Frontier

/-! The search of the sparse solver. It looks only at edges, and it keeps its labels from one row to the next: what
a search has touched it puts back itself, so a row costs no more than its search. -/
namespace OptimalMatching.Sparse

structure Scratch (n : Nat) where
  labels : Labels n
  settled : Vector Bool n
  touched : List (Fin n)
  rows : List (Fin n)
  cols : List (Fin n)
  deriving DecidableEq, Repr

variable {n : Nat}

namespace Scratch

def blank (n : Nat) : Scratch n := ⟨.blank n, Vector.replicate n false, [], [], []⟩

def clearCols : List (Fin n) → Scratch n → Scratch n
  | [], s => s
  | col :: rest, s =>
    clearCols rest
      { s with labels := { s.labels with cost := s.labels.cost.set col none col.isLt }
               settled := s.settled.set col false col.isLt }

def reset (s : Scratch n) : Scratch n := { clearCols s.touched s with touched := [], rows := [], cols := [] }

def touch (s : Scratch n) (col : Fin n) : Scratch n :=
  if s.labels.cost[col] = none then { s with touched := col :: s.touched } else s

def write (s : Scratch n) (row col : Fin n) (cost : Int) : Scratch n :=
  { s with labels := s.labels.write row col cost }

def visit (s : Scratch n) (row : Fin n) : Scratch n := { s with rows := row :: s.rows }

def settle (s : Scratch n) (col : Fin n) : Scratch n :=
  { s with settled := s.settled.set col true col.isLt, cols := col :: s.cols }

/-- Whether a candidate still tells the label of its column, and the column is not settled. -/
def isCurrent (s : Scratch n) (c : Candidate n) : Bool :=
  !s.settled[c.col] && s.labels.cost[c.col] == some c.cost

end Scratch

def relax (w : Width) (p : Potentials n) (m : Matching n) (base : Int) (row : Fin n) :
    List (Arc n) → Frontier n → Scratch n → Except Failure (Frontier n × Scratch n)
  | [], frontier, s => .ok (frontier, s)
  | (col, price) :: rest, frontier, s =>
    if s.settled[col] then relax w p m base row rest frontier s
    else do
      let cost ← p.reach w base price row col
      if s.labels.improves col cost then
        relax w p m base row rest (frontier.insert ⟨cost, (m.rowOf[col]).isSome, col⟩)
          ((s.touch col).write row col cost)
      else
        relax w p m base row rest frontier s

def advance (w : Width) (graph : Grouped n n) (p : Potentials n) (m : Matching n) (row : Fin n)
    (base : Int) (frontier : Frontier n) (s : Scratch n) :
    Except Failure (Scratch n × Option (Candidate n × Frontier n)) := do
  let (frontier, s) ← relax w p m base row (graph.arcs row) frontier (s.visit row)
  match frontier.next? s.isCurrent with
  | none => pure (s, none)
  | some (chosen, frontier) => pure (s.settle chosen.col, some (chosen, frontier))

def searchFrom (w : Width) (graph : Grouped n n) (p : Potentials n) (m : Matching n) (first : Fin n) :
    Nat → Fin n → Int → Frontier n → Scratch n → Scratch n × Except Failure (Candidate n)
  | 0, _, _, _, s => (s.reset, .error (.infeasible first))
  | fuel + 1, row, base, frontier, s =>
    match advance w graph p m row base frontier s with
    | .error failure => (.blank n, .error failure)
    | .ok (s, none) => (s.reset, .error (.infeasible first))
    | .ok (s, some (chosen, frontier)) =>
      match m.rowOf[chosen.col] with
      | none => (s, .ok chosen)
      | some next => searchFrom w graph p m first fuel next chosen.cost frontier s

def search (w : Width) (graph : Grouped n n) (p : Potentials n) (m : Matching n) (first : Fin n)
    (s : Scratch n) : Scratch n × Except Failure (Candidate n) :=
  searchFrom w graph p m first n first 0 .empty s

end OptimalMatching.Sparse
