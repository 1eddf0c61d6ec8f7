import OptimalMatching.Table

/-! Assignments of the rows of a table to its columns, and their cost. A row may stay without a column. -/
namespace OptimalMatching

structure Assignment where
  colOf : List (Option Nat)
  rowOf : List (Option Nat)
  deriving DecidableEq, Repr

namespace Assignment

def trim (columns : List Nat) (rows cols : Nat) : List (Option Nat) :=
  (columns.take rows).map fun col => if col < cols then some col else none

theorem trimGet {columns : List Nat} {rows cols row col : Nat} :
    (trim columns rows cols)[row]? = some (some col) ↔ row < rows ∧ columns[row]? = some col ∧ col < cols := by
  simp only [trim, List.getElem?_map, List.getElem?_take, Option.map_eq_some_iff]
  constructor
  · rintro ⟨x, found, kept⟩
    grind
  · rintro ⟨inside, found, real⟩
    exact ⟨col, by simp [inside, found], by simp [real]⟩

def invert : Nat → List (Option Nat) → List (Option Nat) → List (Option Nat)
  | _, [], rowOf => rowOf
  | row, none :: rest, rowOf => invert (row + 1) rest rowOf
  | row, some col :: rest, rowOf => invert (row + 1) rest (rowOf.set col (some row))

def ofColumns (columns : List Nat) (rows cols : Nat) : Assignment :=
  let colOf := trim columns rows cols
  ⟨colOf, invert 0 colOf (List.replicate cols none)⟩

/- The columns are to be as many as the rows at least, and no row may claim the column of another. -/
def cut (columns : List Nat) (rows cols : Nat) : Except Failure (List (Option Nat)) :=
  if rows ≤ columns.length then .ok (trim columns rows cols) else .error (.fault (.short columns.length rows))

def enter : Nat → List (Option Nat) → List (Option Nat) → Except Failure (List (Option Nat))
  | _, [], rowOf => .ok rowOf
  | row, none :: rest, rowOf => enter (row + 1) rest rowOf
  | row, some col :: rest, rowOf =>
    match rowOf[col]? with
    | none => .error (.fault .layout)
    | some (some _) => .error (.fault (.claimed col))
    | some none => enter (row + 1) rest (rowOf.set col (some row))

def build (columns : List Nat) (rows cols : Nat) : Except Failure Assignment := do
  let colOf ← cut columns rows cols
  let rowOf ← enter 0 colOf (List.replicate cols none)
  pure ⟨colOf, rowOf⟩

def colAt (a : Assignment) (row : Nat) : Option Nat := (a.colOf[row]?).join

def rowAt (a : Assignment) (col : Nat) : Option Nat := (a.rowOf[col]?).join

def pairsFrom : Nat → List (Option Nat) → List (Nat × Nat)
  | _, [] => []
  | row, none :: rest => pairsFrom (row + 1) rest
  | row, some col :: rest => (row, col) :: pairsFrom (row + 1) rest

theorem memPairsFrom {start row col : Nat} {colOf : List (Option Nat)} :
    (row, col) ∈ pairsFrom start colOf ↔ start ≤ row ∧ colOf[row - start]? = some (some col) := by
  fun_induction pairsFrom start colOf with
  | case1 => simp
  | case2 start rest ih => grind
  | case3 start rest col ih => grind

def pairs (a : Assignment) : List (Nat × Nat) := pairsFrom 0 a.colOf

def size (a : Assignment) : Nat := a.colOf.countP Option.isSome

def signed (a : Assignment) : List Int :=
  a.colOf.map fun
    | none => -1
    | some col => col

end Assignment

namespace Table
variable {w : Width}

def totalFrom (t : Table w) : Nat → Int → List (Option Nat) → Except Failure Int
  | _, sum, [] => .ok sum
  | row, sum, none :: rest => t.totalFrom (row + 1) sum rest
  | row, sum, some col :: rest =>
    match t.get? row col with
    | none => .error (.malformed (.noColumn row col))
    | some cost =>
      if cost = w.blocked then .error (.infeasible row)
      else do
        let sum ← w.keep (.overflow (.total row)) (sum + cost)
        t.totalFrom (row + 1) sum rest

def total (t : Table w) (colOf : List (Option Nat)) : Except Failure Int :=
  if colOf.length = t.rows then t.totalFrom 0 0 colOf
  else .error (.malformed (.uncovered colOf.length t.rows))

end Table
end OptimalMatching
