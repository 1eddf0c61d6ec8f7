import OptimalMatching.Matching
import OptimalMatching.Width

/-! Potentials of rows and columns, and the labels of a search for a shortest alternating path. A step from a row
to a column is priced at its cost less both potentials; a step back along a matched pair is free. -/
namespace OptimalMatching

structure Potentials (n : Nat) where
  row : Vector Int n
  col : Vector Int n
  deriving DecidableEq, Repr

def Potentials.zero (n : Nat) : Potentials n := ⟨Vector.replicate n 0, Vector.replicate n 0⟩

structure Labels (n : Nat) where
  cost : Vector (Option Int) n
  reachedFrom : Vector (Option (Fin n)) n
  deriving DecidableEq, Repr

namespace Labels
variable {n : Nat}

def blank (n : Nat) : Labels n := ⟨Vector.replicate n none, Vector.replicate n none⟩

/-- Forgets the costs for the next search. The rows are left as they are: one is read only where a cost stands. -/
def clear (l : Labels n) : Labels n := { l with cost := Vector.replicate n none }

def improves (l : Labels n) (col : Fin n) (cost : Int) : Bool :=
  match l.cost[col] with
  | none => true
  | some known => decide (cost < known)

def write (l : Labels n) (row col : Fin n) (cost : Int) : Labels n :=
  ⟨l.cost.set col (some cost) col.isLt, l.reachedFrom.set col (some row) col.isLt⟩

def offer (l : Labels n) (row col : Fin n) (cost : Int) : Labels n :=
  if l.improves col cost then l.write row col cost else l

theorem writeCost (l : Labels n) (row col j : Fin n) (cost : Int) :
    (l.write row col cost).cost[j] = if j = col then some cost else l.cost[j] :=
  readSet ..

theorem writeFrom (l : Labels n) (row col j : Fin n) (cost : Int) :
    (l.write row col cost).reachedFrom[j] = if j = col then some row else l.reachedFrom[j] :=
  readSet ..

theorem offerOther (l : Labels n) {row col j : Fin n} (cost : Int) (other : j ≠ col) :
    (l.offer row col cost).cost[j] = l.cost[j] := by
  unfold offer
  split
  · rw [writeCost, if_neg other]
  · rfl

end Labels

namespace Potentials
variable {n : Nat}

def reach (w : Width) (p : Potentials n) (base price : Int) (row col : Fin n) : Except Failure Int := do
  let far ← w.keep (.fault .arithmetic) (base + price)
  let less ← w.keep (.fault .arithmetic) (far - p.row[row])
  w.keep (.fault .arithmetic) (less - p.col[col])

theorem reachOk {w : Width} {p : Potentials n} {base price cost : Int} {row col : Fin n} :
    p.reach w base price row col = .ok cost ↔
      cost = base + price - p.row[row] - p.col[col] ∧ w.Holds (base + price) ∧
        w.Holds (base + price - p.row[row]) ∧ w.Holds (base + price - p.row[row] - p.col[col]) := by
  simp only [reach, bindOk, Width.keepIff]
  constructor
  · rintro ⟨_, ⟨rfl, far⟩, _, ⟨rfl, less⟩, rfl, last⟩
    exact ⟨rfl, far, less, last⟩
  · rintro ⟨rfl, far, less, last⟩
    exact ⟨_, ⟨rfl, far⟩, _, ⟨rfl, less⟩, rfl, last⟩

def gap (w : Width) (labels : Labels n) (reached : Int) (col : Fin n) : Except Failure Int :=
  w.keep (.fault .arithmetic) (reached - (labels.cost[col]).getD 0)

def raiseRow (w : Width) (p : Potentials n) (row : Fin n) (amount : Int) : Except Failure (Potentials n) := do
  let raised ← w.keep (.fault .arithmetic) (p.row[row] + amount)
  pure { p with row := p.row.set row raised row.isLt }

def lowerCol (w : Width) (p : Potentials n) (col : Fin n) (amount : Int) : Except Failure (Potentials n) := do
  let lowered ← w.keep (.fault .arithmetic) (p.col[col] - amount)
  pure { p with col := p.col.set col lowered col.isLt }

def raiseRows (w : Width) (m : Matching n) (labels : Labels n) (reached : Int) :
    List (Fin n) → Potentials n → Except Failure (Potentials n)
  | [], p => .ok p
  | row :: rest, p =>
    match m.colOf[row] with
    | none => .error (.fault (.unassigned row))
    | some col => do
      let gap ← gap w labels reached col
      let p ← raiseRow w p row gap
      raiseRows w m labels reached rest p

def lowerCols (w : Width) (labels : Labels n) (reached : Int) :
    List (Fin n) → Potentials n → Except Failure (Potentials n)
  | [], p => .ok p
  | col :: rest, p => do
    let gap ← gap w labels reached col
    let p ← lowerCol w p col gap
    lowerCols w labels reached rest p

def update (w : Width) (m : Matching n) (labels : Labels n) (first : Fin n) (reached : Int)
    (rows cols : List (Fin n)) (p : Potentials n) : Except Failure (Potentials n) := do
  let p ← raiseRow w p first reached
  let p ← raiseRows w m labels reached (rows.filter (· ≠ first)) p
  lowerCols w labels reached cols p

end Potentials
end OptimalMatching
