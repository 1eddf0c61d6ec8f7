import OptimalMatching.Failure
import OptimalMatching.Lookup

/-! Partial matchings of `n` rows with `n` columns, kept from both sides, and the step that lengthens one along an
alternating path. -/
namespace OptimalMatching

structure Matching (n : Nat) where
  colOf : Vector (Option (Fin n)) n
  rowOf : Vector (Option (Fin n)) n
  deriving DecidableEq, Repr

namespace Matching
variable {n : Nat}

def empty (n : Nat) : Matching n := ⟨Vector.replicate n none, Vector.replicate n none⟩

def join (m : Matching n) (row col : Fin n) : Matching n :=
  ⟨m.colOf.set row (some col) row.isLt, m.rowOf.set col (some row) col.isLt⟩

theorem joinColOf (m : Matching n) (row col i : Fin n) :
    (m.join row col).colOf[i] = if i = row then some col else m.colOf[i] :=
  readSet ..

theorem joinRowOf (m : Matching n) (row col j : Fin n) :
    (m.join row col).rowOf[j] = if j = col then some row else m.rowOf[j] :=
  readSet ..

/-- Walks back from column `col` to the row where the search began. Each column goes to the row that it was
reached from, and that row hands its former column on. -/
def flip (reachedFrom : Vector (Option (Fin n)) n) (first : Fin n) :
    Nat → Fin n → Matching n → Except Failure (Matching n)
  | 0, _, _ => .error (.fault .endlessPath)
  | fuel + 1, col, m =>
    match reachedFrom[col] with
    | none => .error (.fault (.orphan col))
    | some row =>
      let former := m.colOf[row]
      let joined := m.join row col
      if row = first then
        match former with
        | none => .ok joined
        | some _ => .error (.fault (.reassigned row))
      else
        match former with
        | none => .error (.fault (.unassigned row))
        | some next => flip reachedFrom first fuel next joined

def flipPath (m : Matching n) (reachedFrom : Vector (Option (Fin n)) n) (first last : Fin n) :
    Except Failure (Matching n) :=
  flip reachedFrom first n last m

def columns (m : Matching n) : Except Failure (List Nat) :=
  (List.finRange n).mapM fun i =>
    match m.colOf[i] with
    | none => .error (.fault (.unassigned i))
    | some col => .ok col

end Matching
end OptimalMatching
