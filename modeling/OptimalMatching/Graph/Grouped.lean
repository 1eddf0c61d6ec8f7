import OptimalMatching.Graph

/-! The edges of a graph grouped by row in one array: those of row `i` stand from `start[i]` up to `start[i + 1]`.
The array is filled in one pass over the edges, each going to the next free place of its row. -/
namespace OptimalMatching

abbrev Arc (cols : Nat) := Fin cols × Int

structure Grouped (rows cols : Nat) where
  start : Vector Nat (rows + 1)
  places : Array (Option (Arc cols))

namespace Grouped
variable {w : Width} {k rows cols : Nat}

def countRows : List (Edge rows cols) → Vector Nat rows → Vector Nat rows
  | [], degree => degree
  | e :: rest, degree => countRows rest (degree.set e.row (degree[e.row] + 1) e.row.isLt)

def runningTotals : Nat → List Nat → List Nat
  | total, [] => [total]
  | total, d :: rest => total :: runningTotals (total + d) rest

theorem runningTotalsLength (total : Nat) (degrees : List Nat) :
    (runningTotals total degrees).length = degrees.length + 1 := by
  induction degrees generalizing total with
  | nil => rfl
  | cons d rest ih => simp [runningTotals, ih]

def starts (degree : Vector Nat rows) : Vector Nat (rows + 1) :=
  ⟨(runningTotals 0 degree.toList).toArray, by simp [runningTotalsLength]⟩

def fill (start : Vector Nat (rows + 1)) :
    List (Edge rows cols) → Vector Nat rows → Array (Option (Arc cols)) →
    Except Failure (Array (Option (Arc cols)))
  | [], _, places => .ok places
  | e :: rest, used, places =>
    let k := start.get e.row.castSucc + used[e.row]
    if inside : k < places.size then
      fill start rest (used.set e.row (used[e.row] + 1) e.row.isLt) (places.set k (some (e.col, e.cost)))
    else .error (.fault .layout)

def ofGraph (g : Graph w rows cols) : Except Failure (Grouped rows cols) := do
  let edges := g.edges.toList
  let start := starts (countRows edges (Vector.replicate rows 0))
  let places ← fill start edges (Vector.replicate rows 0) (Array.replicate g.size none)
  if start.get (Fin.last rows) = g.size then pure ⟨start, places⟩ else .error (.fault .layout)

def resized {α : Type} (xs : Array α) (size : Nat) (x : α) : Array α :=
  (xs.toList.take size ++ List.replicate (size - xs.size) x).toArray

def emptied {α β : Type} (_ : Array α) : Array β := #[]

theorem resizedSize {α : Type} (xs : Array α) (size : Nat) (x : α) : (resized xs size x).size = size := by
  simp only [resized, List.size_toArray, List.length_append, List.length_take, Array.length_toList, List.length_replicate]
  omega

def addUp (degree : Vector Nat rows) : List (Fin rows) → Vector Nat (rows + 1) → Vector Nat (rows + 1)
  | [], start => start
  | i :: rest, start => addUp degree rest (start.set i.succ (start[i.castSucc] + degree[i]) i.succ.isLt)

def build (oldStart : Array Nat) (oldPlaces : Array (Option (Arc k))) (g : Graph w rows cols) :
    Except Failure (Grouped rows cols) := do
  let edges := g.edges.toList
  let zeros : Vector Nat (rows + 1) := ⟨resized (emptied oldStart) (rows + 1) 0, resizedSize _ _ _⟩
  let start := addUp (countRows edges (Vector.replicate rows 0)) (List.finRange rows) zeros
  let places ← fill start edges (Vector.replicate rows 0) (resized (emptied oldPlaces) g.size none)
  if start.get (Fin.last rows) = g.size then pure ⟨start, places⟩ else .error (.fault .layout)

def rebuild (old : Grouped k k) (g : Graph w rows cols) : Except Failure (Grouped rows cols) :=
  build old.start.toArray old.places g

def arcs (grouped : Grouped rows cols) (row : Fin rows) : List (Arc cols) :=
  let first := grouped.start.get row.castSucc
  (List.range' first (grouped.start.get row.succ - first)).filterMap fun k => (grouped.places[k]?).join

end Grouped
end OptimalMatching
