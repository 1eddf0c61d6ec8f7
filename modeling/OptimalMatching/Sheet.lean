import OptimalMatching.Width

/-! The storage of a table: its shape, and its cells row by row in one array. Cell `(row, col)` stands at place
`row * cols + col`. Nothing ties the array to the shape, so to touch a place outside of it is a fault. -/
namespace OptimalMatching

structure Sheet where
  rows : Nat
  cols : Nat
  costs : Array Int
  deriving DecidableEq, Repr

namespace Sheet

def checkShape (rows cols : Nat) : Except Failure Unit :=
  if rows = 0 ∨ cols = 0 then .error (.malformed (.empty rows cols)) else .ok ()

def checkCost (cost : Int) : Except Failure Unit :=
  if cost < 0 then .error (.malformed (.negative cost)) else .ok ()

theorem checkShapeOk {rows cols : Nat} : checkShape rows cols = .ok () ↔ 0 < rows ∧ 0 < cols := by
  unfold checkShape
  split <;> simp <;> omega

theorem checkCostOk {cost : Int} : checkCost cost = .ok () ↔ 0 ≤ cost := by
  unfold checkCost
  split <;> simp <;> omega

-- A row is measured before its costs are looked at, so of two faults in one row the width is reported.
def addLine (cols i : Nat) (costs : Array Int) (line : List Int) : Except Failure (Array Int) :=
  if line.length = cols then do
    line.forM checkCost
    pure (costs ++ line)
  else .error (.malformed (.ragged i line.length cols))

def addLines (cols : Nat) : Nat → Array Int → List (List Int) → Except Failure (Array Int)
  | _, costs, [] => .ok costs
  | i, costs, line :: rest => do
    let costs ← addLine cols i costs line
    addLines cols (i + 1) costs rest

def ofRows (lines : List (List Int)) : Except Failure Sheet := do
  let cols := (lines.head?.map List.length).getD 0
  checkShape lines.length cols
  let costs ← addLines cols 0 #[] lines
  pure ⟨lines.length, cols, costs⟩

def addCell (costs : Array Int) (cost : Int) : Except Failure (Array Int) := do
  checkCost cost
  pure (costs.push cost)

def ofFn (rows cols : Nat) (cost : Nat → Nat → Int) : Except Failure Sheet := do
  checkShape rows cols
  let costs ← (List.range rows).foldlM
    (fun costs i => (List.range cols).foldlM (fun costs j => addCell costs (cost i j)) costs) #[]
  pure ⟨rows, cols, costs⟩

def filled (rows cols : Nat) (cost : Int) : Except Failure Sheet := do
  checkShape rows cols
  checkCost cost
  pure ⟨rows, cols, Array.replicate (rows * cols) cost⟩

def read (s : Sheet) (place : Nat) : Except Failure Int :=
  match s.costs[place]? with
  | some cost => .ok cost
  | none => .error (.fault .layout)

def get (s : Sheet) (row col : Nat) : Except Failure (Option Int) :=
  if row < s.rows ∧ col < s.cols then (s.read (row * s.cols + col)).map some else .ok none

def cell (s : Sheet) (row col : Nat) : Except Failure Int :=
  if row < s.rows ∧ col < s.cols then s.read (row * s.cols + col) else .error (.fault .layout)

def line (s : Sheet) (row : Nat) : Except Failure (Array Int) :=
  if (row + 1) * s.cols ≤ s.costs.size then .ok (s.costs.extract (row * s.cols) ((row + 1) * s.cols))
  else .error (.fault .layout)

def write (s : Sheet) (place : Nat) (cost : Int) : Except Failure Sheet :=
  if inside : place < s.costs.size then .ok { s with costs := s.costs.set place cost inside }
  else .error (.fault .layout)

def set (s : Sheet) (row col : Nat) (cost : Int) : Except Failure Sheet :=
  if row < s.rows ∧ col < s.cols then do
    checkCost cost
    s.write (row * s.cols + col) cost
  else .error (.malformed (.outside row col s.rows s.cols))

def map (s : Sheet) (f : Int → Int) : Sheet := { s with costs := (s.costs.toList.map f).toArray }

def largest (w : Width) (s : Sheet) : Int := (s.costs.toList.filter (· ≠ w.blocked)).foldl max 0

def complement (w : Width) (s : Sheet) : Sheet :=
  let largest := s.largest w
  s.map fun cost => if cost = w.blocked then cost else largest - cost

def copyOver (costs cells : Array Int) (start stop : Nat) : Except Failure (Array Int) :=
  if stop ≤ costs.size ∧ cells.size = stop - start then
    .ok (costs.extract 0 start ++ cells ++ costs.extract stop costs.size)
  else .error (.fault .layout)

def copyLine (s : Sheet) (stride : Nat) (costs : Array Int) (row : Nat) : Except Failure (Array Int) := do
  let cells ← s.line row
  copyOver costs cells (row * stride) (row * stride + s.cols)

/-- The sheet, or a larger square one that begins with its rows and is blocked elsewhere. -/
def square (w : Width) (s : Sheet) : Except Failure Sheet :=
  if s.rows = s.cols then .ok s
  else do
    let n := max s.rows s.cols
    let costs ← (List.range s.rows).foldlM (s.copyLine n) (Array.replicate (n * n) w.blocked)
    pure ⟨n, n, costs⟩

end Sheet
end OptimalMatching
