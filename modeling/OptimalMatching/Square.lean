import OptimalMatching.Table

/-! Square tables. A table with fewer rows than columns, or fewer columns than rows, is padded with lines that
any partner takes at no cost, so that every line gets a partner. -/
namespace OptimalMatching

inductive Pairing
  | price (cost : Int)
  | blocked
  | padding
  deriving DecidableEq, Repr

def Pairing.cost? : Pairing → Option Int
  | price cost => some cost
  | blocked => none
  | padding => some 0

abbrev Costs (n : Nat) := Vector (Vector (Option Int) n) n

structure Padded where
  sheet : Sheet
  realRows : Nat
  realCols : Nat
  deriving DecidableEq, Repr

namespace Padded

def ofSheet (w : Width) (s : Sheet) : Except Failure Padded := do
  let square ← s.square w
  pure ⟨square, s.rows, s.cols⟩

def pads (p : Padded) (row col : Nat) : Bool := decide (p.realRows ≤ row) || decide (p.realCols ≤ col)

theorem padsNot {p : Padded} {row col : Nat} : p.pads row col = false ↔ row < p.realRows ∧ col < p.realCols := by
  simp [pads]

/-- The cells outside the real rows and columns are never read as costs. -/
def entry (w : Width) (p : Padded) (row col : Nat) : Except Failure Pairing :=
  if p.pads row col then .ok .padding
  else do
    let cost ← p.sheet.cell row col
    pure (if cost = w.blocked then .blocked else .price cost)

end Padded

structure Square (w : Width) (n : Nat) where
  realRows : Nat
  realCols : Nat
  rowsFit : realRows ≤ n
  colsFit : realCols ≤ n
  cells : Array Int
  full : cells.size = n * n
  deriving DecidableEq, Repr

namespace Square
variable {w : Width} {n : Nat}

def toTable (s : Square w n) : Table w := ⟨⟨n, n, s.cells⟩, s.full⟩

def padded (s : Square w n) : Padded := ⟨s.toTable.toSheet, s.realRows, s.realCols⟩

def pads (s : Square w n) (row col : Nat) : Bool := s.padded.pads row col

def cell (s : Square w n) (i j : Fin n) : Int :=
  sure (s.toTable.cell i j) ((s.toTable.full.cell i.isLt j.isLt).imp fun _ found => found.2)

theorem getToTable (s : Square w n) (i j : Fin n) : s.toTable.get? i j = some (s.cell i j) := by
  obtain ⟨x, found, read⟩ := s.toTable.full.cell i.isLt j.isLt
  have same : s.cell i j = x := Except.ok.inj ((sureOk _ _).symm.trans read)
  rw [same]
  exact Table.getSome.mpr ⟨⟨i.isLt, j.isLt⟩, found⟩

theorem padsNot {s : Square w n} {row col : Nat} :
    s.pads row col = false ↔ row < s.realRows ∧ col < s.realCols := Padded.padsNot

theorem entryInside (s : Square w n) {row col : Nat} (real : row < s.realRows ∧ col < s.realCols) {x : Int}
    (found : s.toTable.get? row col = some x) :
    s.padded.entry w row col = .ok (if x = w.blocked then .blocked else .price x) := by
  have inside : s.padded.pads row col = false := padsNot.mpr real
  obtain ⟨⟨early, within⟩, place⟩ := Table.getSome.mp found
  obtain ⟨y, stored, read⟩ := s.toTable.full.cell early within
  obtain rfl : x = y := Option.some.inj (place.symm.trans stored)
  have cell : s.padded.sheet.cell row col = .ok x := read
  rw [Padded.entry, inside, cell]
  rfl

theorem entryComes (s : Square w n) (row col : Nat) : ∃ pairing, s.padded.entry w row col = .ok pairing := by
  cases inside : s.pads row col with
  | true => exact ⟨.padding, if_pos inside⟩
  | false =>
    have real := padsNot.mp inside
    have rowsFit := s.rowsFit
    have colsFit := s.colsFit
    exact ⟨_, s.entryInside real (s.getToTable ⟨row, by omega⟩ ⟨col, by omega⟩)⟩

def pairing (s : Square w n) (row col : Nat) : Pairing := sure (s.padded.entry w row col) (s.entryComes row col)

theorem pairingEntry (s : Square w n) (row col : Nat) : s.padded.entry w row col = .ok (s.pairing row col) := sureOk ..

theorem pairingReal {s : Square w n} {row col : Nat} (real : row < s.realRows ∧ col < s.realCols) {x : Int}
    (found : s.toTable.get? row col = some x) : s.pairing row col = if x = w.blocked then .blocked else .price x :=
  Except.ok.inj ((s.pairingEntry row col).symm.trans (s.entryInside real found))

theorem pairingPads {s : Square w n} {row col : Nat} :
    s.pairing row col = .padding ↔ s.pads row col = true := by
  cases inside : s.pads row col with
  | true =>
    have padding : s.padded.entry w row col = .ok .padding := if_pos inside
    simpa using Except.ok.inj ((s.pairingEntry row col).symm.trans padding)
  | false =>
    have real := padsNot.mp inside
    have rowsFit := s.rowsFit
    have colsFit := s.colsFit
    rw [pairingReal real (s.getToTable ⟨row, by omega⟩ ⟨col, by omega⟩)]
    split <;> simp

def costs (s : Square w n) : Costs n :=
  Vector.ofFn fun i => Vector.ofFn fun j => (s.pairing i j).cost?

theorem costsAt (s : Square w n) (i j : Fin n) : s.costs[i][j] = (s.pairing i j).cost? := by
  simp [costs]

def largest (s : Square w n) : Int := s.toTable.largest

structure Frames (t : Table w) (p : Padded) : Prop where
  realRows : p.realRows = t.rows
  realCols : p.realCols = t.cols
  rows : p.sheet.rows = max t.rows t.cols
  cols : p.sheet.cols = max t.rows t.cols
  full : p.sheet.Full
  cells : ∀ i j, i < max t.rows t.cols → j < max t.rows t.cols →
    p.sheet.costs[i * max t.rows t.cols + j]? = some ((t.get? i j).getD w.blocked)

theorem framed (t : Table w) : ∃ p, Padded.ofSheet w t.toSheet = .ok p ∧ Frames t p := by
  obtain ⟨square, made, full, ⟨rows, cols⟩, cells⟩ := t.full.square w
  refine ⟨⟨square, t.rows, t.cols⟩, ?_, rfl, rfl, rows, cols, full, ?_⟩
  · rw [Padded.ofSheet, made]
    rfl
  · intro i j row col
    rw [cells i j row col]
    split
    case isTrue inside =>
      obtain ⟨x, found⟩ := t.full.stored inside.1 inside.2
      rw [Table.getSome.mpr ⟨inside, found⟩, found, Option.getD_some]
    case isFalse outside => rw [Table.getNone.mpr (by omega), Option.getD_none]

def frame (t : Table w) : Padded := sure (Padded.ofSheet w t.toSheet) ((framed t).imp fun _ => And.left)

theorem frames (t : Table w) : Frames t (frame t) := sureHas (framed t)

def ofTable (t : Table w) : Square w (max t.rows t.cols) where
  realRows := (frame t).realRows
  realCols := (frame t).realCols
  rowsFit := (frames t).realRows ▸ Nat.le_max_left ..
  colsFit := (frames t).realCols ▸ Nat.le_max_right ..
  cells := (frame t).sheet.costs
  full := by
    have frames := frames t
    rw [frames.full, frames.rows, frames.cols]

theorem ofTablePadded (t : Table w) : Padded.ofSheet w t.toSheet = .ok (ofTable t).padded := by
  have made : Padded.ofSheet w t.toSheet = .ok (frame t) := sureOk ..
  obtain ⟨_, _, rows, cols, _, _⟩ := frames t
  have sheet : (frame t).sheet = (ofTable t).padded.sheet := Sheet.shaped rows cols
  rw [made]
  exact congrArg (fun sheet => Except.ok (Padded.mk sheet (frame t).realRows (frame t).realCols)) sheet

theorem realOfTable (t : Table w) : (ofTable t).realRows = t.rows ∧ (ofTable t).realCols = t.cols :=
  ⟨(frames t).realRows, (frames t).realCols⟩

theorem getOfTable (t : Table w) (i j : Nat) :
    (ofTable t).toTable.get? i j =
      if i < max t.rows t.cols ∧ j < max t.rows t.cols then some ((t.get? i j).getD w.blocked) else none := by
  rw [Table.getIs]
  exact ite_congr rfl (fun inside => (frames t).cells i j inside.1 inside.2) fun _ => rfl

theorem cellOfTable (t : Table w) (i j : Fin (max t.rows t.cols)) :
    (ofTable t).cell i j = (t.get? i j).getD w.blocked := by
  have found := (ofTable t).getToTable i j
  rw [getOfTable, if_pos ⟨i.isLt, j.isLt⟩] at found
  exact (Option.some.inj found).symm

end Square
end OptimalMatching
