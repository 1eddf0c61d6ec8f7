import OptimalMatching.Proofs.Padding
import OptimalMatching.Proofs.Selection
import OptimalMatching.Proofs.Duals

/-! Sheets under edits. No edit touches a place outside of the array; each keeps an array of just the places that its shape
needs and the range of the costs, so every session ends in a valid table. The ways to build a sheet agree wherever their
cells do. -/
namespace OptimalMatching.Sheet

variable {w : Width} {s next : Sheet} {row col : Nat} {cost : Int}

structure Stored (w : Width) (s : Sheet) : Prop where
  rows : 0 < s.rows
  cols : 0 < s.cols
  count : s.costs.size = s.rows * s.cols
  range : ∀ x ∈ s.costs, 0 ≤ x ∧ x ≤ w.top
  layout : ∀ i j, s.get i j = .ok (if i < s.rows ∧ j < s.cols then s.costs[i * s.cols + j]? else none)
  cell : ∀ i j, i < s.rows → j < s.cols → ∃ x, s.get i j = .ok (some x) ∧ s.cell i j = .ok x
  line : ∀ i, i < s.rows → ∃ cells, s.line i = .ok cells ∧ cells.size = s.cols ∧
    ∀ j, j < s.cols → s.get i j = .ok cells[j]?
  table : ∃ t : Table w, t.toSheet = s ∧ t.Valid

inductive Edit (w : Width)
  | set (row col : Nat) (cost : Int) (typed : w.Holds cost)
  | complement
  | square

-- A cost that is refused leaves the sheet as it is; a fault ends the session.
def edit (s : Sheet) : Edit w → Except Failure Sheet
  | .set row col cost _ =>
    match s.set row col cost with
    | .ok next => .ok next
    | .error (.malformed _) => .ok s
    | .error failure => .error failure
  | .complement => .ok (s.complement w)
  | .square => s.square w

def session (s : Sheet) (edits : List (Edit w)) : Except Failure Sheet := edits.foldlM edit s

structure Stores (w : Width) (s : Sheet) (row col : Nat) (cost : Int) : Prop where
  refused : (∃ failure, s.set row col cost = .error failure) ↔ ¬ (row < s.rows ∧ col < s.cols) ∨ cost < 0
  told : ∀ failure, s.set row col cost = .error failure → failure =
    .malformed (if row < s.rows ∧ col < s.cols then .negative cost else .outside row col s.rows s.cols)
  unchanged : ∀ failure, s.set row col cost = .error failure →
    ∀ typed : w.Holds cost, s.edit (.set row col cost typed) = .ok s
  shape : ∀ next, s.set row col cost = .ok next → next.rows = s.rows ∧ next.cols = s.cols
  written : ∀ next, s.set row col cost = .ok next → next.get row col = .ok (some cost)
  kept : ∀ next, s.set row col cost = .ok next → ∀ i j, ¬ (i = row ∧ j = col) → next.get i j = s.get i j
  place : ∀ next, s.set row col cost = .ok next → next.costs.toList = s.costs.toList.set (row * s.cols + col) cost

namespace Full

theorem setTold (full : s.Full) {failure : Failure} (failed : s.set row col cost = .error failure) : failure =
    .malformed (if row < s.rows ∧ col < s.cols then .negative cost else .outside row col s.rows s.cols) := by
  by_cases inside : row < s.rows ∧ col < s.cols
  · rw [if_pos inside]
    by_cases negative : cost < 0
    · rw [Sheet.set, if_pos inside, checkCost, if_pos negative] at failed
      cases failed
      rfl
    · obtain ⟨_, stored, _⟩ := full.set inside.1 inside.2 (Int.not_lt.mp negative)
      rw [stored] at failed
      cases failed
  · rw [Sheet.set, if_neg inside] at failed
    cases failed
    rw [if_neg inside]

theorem stores (full : s.Full) (row col : Nat) (cost : Int) : Stores w s row col cost := by
  constructor
  case refused =>
    constructor
    · rintro ⟨failure, failed⟩
      by_contra fine
      obtain ⟨_, stored, _⟩ := @Full.set s row col cost full (by omega) (by omega) (by omega)
      rw [stored] at failed
      cases failed
    · intro bad
      cases stored : s.set row col cost with
      | error failure => exact ⟨failure, rfl⟩
      | ok next =>
        obtain ⟨inside, nonneg⟩ := setOk stored
        omega
  case told => exact fun failure failed => full.setTold failed
  case unchanged =>
    intro failure failed typed
    obtain rfl := full.setTold failed
    simp only [edit, failed]
  case shape => exact fun next stored => (full.ofSet stored).2.1
  case written => exact fun next stored => by rw [full.getSet stored, if_pos ⟨rfl, rfl⟩]
  case kept => exact fun next stored i j other => by rw [full.getSet stored, if_neg other]
  case place =>
    intro next stored
    obtain ⟨⟨early, inside⟩, _⟩ := setOk stored
    obtain ⟨_, _, costs⟩ := full.ofSet stored
    have place : row * s.cols + col < s.costs.toList.length := by
      rw [Array.length_toList, full]
      exact placeEarly early inside
    refine List.ext_getElem? fun k => ?_
    rw [Array.getElem?_toList, costs, List.getElem?_set, if_pos place, Array.getElem?_toList]

end Full

theorem storedValid {t : Table w} (valid : t.Valid) : Stored w t.toSheet := by
  have full := t.full
  refine ⟨valid.rows, valid.cols, full, ?_, full.get, ?_, ?_, ⟨t, rfl, valid⟩⟩
  · intro x member
    obtain ⟨i, j, found⟩ := Table.memValues.mp (Array.mem_toList_iff.mpr member)
    exact valid.cost i j x found
  · intro i j early inside
    obtain ⟨x, found, read⟩ := full.cell early inside
    exact ⟨x, by rw [full.get, if_pos ⟨early, inside⟩, found], read⟩
  · intro i early
    obtain ⟨cells, read, width, same⟩ := full.line early
    refine ⟨cells, read, width, fun j inside => ?_⟩
    rw [full.get, if_pos ⟨early, inside⟩, same j inside]

theorem setValid {t next : Table w} (valid : t.Valid) (typed : w.Holds cost) (ok : t.set row col cost = .ok next) :
    next.Valid := by
  obtain ⟨_, ⟨rows, cols⟩, _⟩ := t.full.ofSet (Table.ofSheetOk.mp ok)
  refine ⟨rows ▸ valid.rows, cols ▸ valid.cols, ?_⟩
  intro i j x found
  rw [Table.getSet ok] at found
  split at found
  case isTrue =>
    cases found
    exact ⟨(Table.setOk.mp ⟨next, ok⟩).2, typed.2⟩
  case isFalse => exact valid.cost i j x found

theorem squareTable (t : Table w) : t.square w = .ok (Square.ofTable t).toTable.toSheet := by
  obtain ⟨square, made, same⟩ := bindOk.mp (Square.ofTablePadded t)
  rw [made]
  exact congrArg (fun p => Except.ok p.sheet) (pureOk.mp same)

theorem editValid {t : Table w} (valid : t.Valid) (e : Edit w) :
    ∃ next : Table w, t.toSheet.edit e = .ok next.toSheet ∧ next.Valid := by
  cases e with
  | set row col cost typed =>
    cases stored : t.set row col cost with
    | ok next =>
      refine ⟨next, ?_, setValid valid typed stored⟩
      simp only [edit, Table.ofSheetOk.mp stored]
    | error failure => exact ⟨t, (t.full.stores row col cost).unchanged failure (Table.ofSheetError.mp stored) typed, valid⟩
  | complement => exact ⟨t.complement, rfl, Table.complementValid valid⟩
  | square => exact ⟨_, squareTable t, Square.validOfTable valid⟩

theorem sessionValid {t : Table w} (valid : t.Valid) (edits : List (Edit w)) :
    ∃ last : Table w, t.toSheet.session edits = .ok last.toSheet ∧ last.Valid := by
  induction edits generalizing t with
  | nil => exact ⟨t, rfl, valid⟩
  | cons e rest ih =>
    obtain ⟨next, edited, validNext⟩ := editValid valid e
    obtain ⟨last, run, validLast⟩ := ih validNext
    refine ⟨last, ?_, validLast⟩
    rw [session, List.foldlM_cons, edited]
    exact run

inductive Opened (w : Width) : Sheet → Prop
  | rows {s : Sheet} (lines : List (List Int)) (typed : ∀ line ∈ lines, ∀ x ∈ line, w.Holds x)
      (made : ofRows lines = .ok s) : Opened w s
  | fn {s : Sheet} (rows cols : Nat) (cost : Nat → Nat → Int) (typed : ∀ i j, w.Holds (cost i j))
      (made : ofFn rows cols cost = .ok s) : Opened w s
  | filled {s : Sheet} (rows cols : Nat) (cost : Int) (typed : w.Holds cost)
      (made : filled rows cols cost = .ok s) : Opened w s

theorem ofFnRows {rows cols : Nat} (f : Nat → Nat → Int) (present : 0 < rows) : ofFn rows cols f = ofRows (grid rows cols f) := by
  have nonempty : grid rows cols f ≠ [] := by
    rw [← List.length_pos_iff, gridLength]
    exact present
  rw [ofRowsEven nonempty (gridEven rows cols f), gridLength, ofFnGrid]

theorem filledFn (rows cols : Nat) (cost : Int) : filled rows cols cost = ofFn rows cols fun _ _ => cost := by
  have cells : (grid rows cols fun _ _ => cost).flatten = List.replicate (rows * cols) cost := by
    simp only [grid, List.map_const', List.length_range, List.flatten_replicate_replicate]
  rw [filled, ofFnGrid, cells]
  cases shape : checkShape rows cols with
  | error failure => rfl
  | ok =>
    obtain ⟨height, width⟩ := checkShapeOk.mp shape
    by_cases negative : cost < 0
    · have first : (List.replicate (rows * cols) cost).find? (· < 0) = some cost := by
        rw [List.find?_replicate_of_length_pos (Nat.mul_pos height width), if_pos (decide_eq_true negative)]
      rw [addCellsRefused first, checkCost, if_pos negative]
      rfl
    · have nonneg := Int.not_lt.mp negative
      have added : (List.replicate (rows * cols) cost).foldlM addCell #[] = .ok (Array.replicate (rows * cols) cost) := by
        refine addCellsOk.mpr ⟨fun x member => ?_, Array.toList_replicate⟩
        rw [List.eq_of_mem_replicate member]
        exact nonneg
      rw [added, checkCostOk.mpr nonneg]
      rfl

theorem openedRows {lines : List (List Int)} (typed : ∀ line ∈ lines, ∀ x ∈ line, w.Holds x)
    (made : ofRows lines = .ok s) : ∃ t : Table w, t.toSheet = s ∧ t.Valid := by
  obtain ⟨⟨⟨rows, cols⟩, _⟩, nonneg, same⟩ := ofRowsOk.mp made
  refine ⟨⟨s, ofRowsFull made⟩, rfl, Table.validOfValues rows cols ?_⟩
  intro x member
  have inside : x ∈ lines.flatten := same ▸ member
  obtain ⟨line, atLine, here⟩ := List.mem_flatten.mp inside
  exact ⟨nonneg x inside, (typed line atLine x here).2⟩

theorem openedFn {rows cols : Nat} {f : Nat → Nat → Int} (typed : ∀ i j, w.Holds (f i j))
    (made : ofFn rows cols f = .ok s) : ∃ t : Table w, t.toSheet = s ∧ t.Valid := by
  obtain ⟨_, shape, _⟩ := bindOk.mp made
  rw [ofFnRows f (checkShapeOk.mp shape).1] at made
  refine openedRows ?_ made
  intro line member x inside
  obtain ⟨i, _, rfl⟩ := List.mem_map.mp member
  obtain ⟨j, _, rfl⟩ := List.mem_map.mp inside
  exact typed i j

theorem Opened.table (opened : Opened w s) : ∃ t : Table w, t.toSheet = s ∧ t.Valid := by
  cases opened with
  | rows lines typed made => exact openedRows typed made
  | fn rows cols f typed made => exact openedFn typed made
  | filled rows cols cost typed made =>
    rw [filledFn] at made
    exact openedFn (fun _ _ => typed) made

structure Reads (lines : List (List Int)) : Prop where
  accepted : (∃ s, ofRows lines = .ok s) ↔
    lines ≠ [] ∧ (∃ cols, 0 < cols ∧ ∀ line ∈ lines, line.length = cols) ∧ ∀ line ∈ lines, ∀ x ∈ line, 0 ≤ x
  same : ∀ s, ofRows lines = .ok s → s.rows = lines.length ∧ (∀ line ∈ lines, line.length = s.cols) ∧
    ∀ i j, s.get i j = .ok ((lines[i]?).bind fun cells => cells[j]?)

structure SameSheet (lines : List (List Int)) (cols : Nat) : Prop where
  fn : ∀ f : Nat → Nat → Int, (∀ i j x, (lines[i]?).bind (fun cells => cells[j]?) = some x → f i j = x) →
    ofFn lines.length cols f = ofRows lines
  filled : ∀ cost : Int, (∀ line ∈ lines, ∀ x ∈ line, x = cost) → filled lines.length cols cost = ofRows lines
  fault : ∀ x, lines.flatten.find? (· < 0) = some x → ofRows lines = .error (.malformed (.negative x))

theorem reads (lines : List (List Int)) : Reads lines := by
  constructor
  case accepted =>
    constructor
    · rintro ⟨s, made⟩
      obtain ⟨⟨⟨rows, cols⟩, height, even⟩, nonneg, _⟩ := ofRowsOk.mp made
      refine ⟨List.length_pos_iff.mp (height ▸ rows), ⟨s.cols, cols, even⟩, ?_⟩
      exact fun line member x inside => nonneg x (List.mem_flatten.mpr ⟨line, member, inside⟩)
    · rintro ⟨present, ⟨cols, positive, even⟩, nonneg⟩
      refine ⟨⟨lines.length, cols, lines.flatten.toArray⟩, ofRowsOk.mpr ?_⟩
      refine ⟨⟨⟨List.length_pos_iff.mpr present, positive⟩, rfl, even⟩, fun x inside => ?_, rfl⟩
      obtain ⟨line, member, here⟩ := List.mem_flatten.mp inside
      exact nonneg line member x here
  case same =>
    intro s made
    obtain ⟨⟨_, height, even⟩, _, same⟩ := ofRowsOk.mp made
    refine ⟨height.symm, even, fun i j => ?_⟩
    rw [(ofRowsFull made).get]
    refine congrArg Except.ok ?_
    by_cases inside : j < s.cols
    · rw [← flattenAt even inside, ← same, Array.getElem?_toList]
      by_cases early : i < s.rows
      · rw [if_pos ⟨early, inside⟩]
      · have behind : s.costs.size ≤ i * s.cols + j := by
          rw [ofRowsFull made]
          exact Nat.le_add_right_of_le (Nat.mul_le_mul_right s.cols (Nat.le_of_not_lt early))
        rw [if_neg fun within => early within.1, Array.getElem?_eq_none behind]
    · rw [if_neg fun within => inside within.2]
      cases atLine : lines[i]? with
      | none => rfl
      | some line =>
        rw [Option.bind_some, List.getElem?_eq_none]
        rw [even line (List.mem_of_getElem? atLine)]
        exact Nat.le_of_not_lt inside

theorem gridSame {cols : Nat} {lines : List (List Int)} {f : Nat → Nat → Int}
    (even : ∀ line ∈ lines, line.length = cols)
    (agree : ∀ i j x, (lines[i]?).bind (fun cells => cells[j]?) = some x → f i j = x) :
    grid lines.length cols f = lines := by
  refine List.ext_getElem (gridLength _ _ f) ?_
  intro i _ early
  have width := even lines[i] (List.getElem_mem early)
  refine List.ext_getElem ?_ ?_
  · rw [width]
    exact gridEven _ _ f _ (List.getElem_mem _)
  · intro j _ inside
    have found : (lines[i]?).bind (fun cells => cells[j]?) = some lines[i][j] := by
      rw [List.getElem?_eq_getElem early, Option.bind_some, List.getElem?_eq_getElem inside]
    have cell := agree i j _ found
    simpa only [grid, List.getElem_map, List.getElem_range] using cell

theorem sameSheet {lines : List (List Int)} {cols : Nat} (present : lines ≠ []) (even : ∀ line ∈ lines, line.length = cols) :
    SameSheet lines cols := by
  have fn : ∀ f : Nat → Nat → Int, (∀ i j x, (lines[i]?).bind (fun cells => cells[j]?) = some x → f i j = x) →
      ofFn lines.length cols f = ofRows lines := by
    intro f agree
    rw [ofFnRows f (List.length_pos_iff.mpr present), gridSame even agree]
  refine ⟨fn, ?_, ?_⟩
  · intro cost all
    rw [filledFn]
    refine fn _ ?_
    intro i j x found
    obtain ⟨line, atLine, atCell⟩ := Option.bind_eq_some_iff.mp found
    exact (all line (List.mem_of_getElem? atLine) x (List.mem_of_getElem? atCell)).symm
  · intro x first
    obtain ⟨line, member, inside⟩ := List.mem_flatten.mp (List.mem_of_find?_eq_some first)
    have positive : 0 < cols := even line member ▸ List.length_pos_of_mem inside
    have shape : checkShape lines.length cols = .ok () := checkShapeOk.mpr ⟨List.length_pos_iff.mpr present, positive⟩
    rw [ofRowsEven present even, shape, addCellsRefused first]
    rfl

theorem storageKept (w : Width) :
    (∀ s, Opened w s → ∀ edits : List (Edit w), ∃ last, s.session edits = .ok last ∧ Stored w last ∧
      ∀ row col cost, Stores w last row col cost) ∧
    (∀ lines, Reads lines) ∧
    ∀ lines cols, lines ≠ [] → (∀ line ∈ lines, line.length = cols) → SameSheet lines cols := by
  refine ⟨?_, reads, fun lines cols present even => sameSheet present even⟩
  intro s opened edits
  obtain ⟨t, rfl, valid⟩ := opened.table
  obtain ⟨last, run, validLast⟩ := sessionValid valid edits
  exact ⟨last.toSheet, run, storedValid validLast, last.full.stores⟩

def roughEdits : List (Edit byteWidth) :=
  [.set 1 2 7 (by decide), .set 2 0 5 (by decide), .set 0 0 (-1) (by decide), .complement, .square, .set 2 2 6 (by decide)]

theorem storageKeptRough : ∃ s last, ofRows [[3, 1, 4], [1, 5, 9]] = .ok s ∧ s.session roughEdits = .ok last ∧
    Stored byteWidth last ∧ last.costs = #[4, 6, 3, 6, 2, 0, 127, 127, 6] ∧ Stores byteWidth last 1 2 8 ∧
    SameSheet [[3, 1, 4], [1, 5, 9]] 3 := by
  obtain ⟨kept, _, same⟩ := storageKept byteWidth
  have made : ofRows [[3, 1, 4], [1, 5, 9]] = .ok ⟨2, 3, #[3, 1, 4, 1, 5, 9]⟩ := rfl
  obtain ⟨last, run, stored, stores⟩ := kept _ (.rows _ (by decide) made) roughEdits
  have cells : last = ⟨3, 3, #[4, 6, 3, 6, 2, 0, 127, 127, 6]⟩ := Except.ok.inj (run.symm.trans rfl)
  exact ⟨_, last, made, run, stored, congrArg Sheet.costs cells, stores 1 2 8, same _ _ (by decide) (by decide)⟩

end OptimalMatching.Sheet
