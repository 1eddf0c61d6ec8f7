import OptimalMatching.Sheet

/-! A sheet is full when its array has a place for every cell and no other. The ways to build a sheet end in full ones, the
operations keep them full, and on a full sheet none of them touches a place outside. -/
namespace OptimalMatching.Sheet

def Full (s : Sheet) : Prop := s.costs.size = s.rows * s.cols

theorem shaped {s : Sheet} {rows cols : Nat} (height : s.rows = rows) (width : s.cols = cols) : s = ⟨rows, cols, s.costs⟩ := by
  subst height
  subst width
  rfl

theorem placeEarly {rows cols i j : Nat} (early : i < rows) (inside : j < cols) : i * cols + j < rows * cols :=
  calc i * cols + j < i * cols + cols := Nat.add_lt_add_left inside _
    _ = (i + 1) * cols := (Nat.succ_mul i cols).symm
    _ ≤ rows * cols := Nat.mul_le_mul_right cols early

theorem placeInj {cols i j k l : Nat} (left : j < cols) (right : l < cols) :
    i * cols + j = k * cols + l ↔ i = k ∧ j = l := by
  constructor
  · intro same
    have sameRow : i = k := by
      have divs := congrArg (· / cols) same
      simpa only [Nat.mul_comm _ cols, Nat.mul_add_div (Nat.zero_lt_of_lt left), Nat.div_eq_of_lt left,
        Nat.div_eq_of_lt right, Nat.add_zero] using divs
    subst sameRow
    exact ⟨rfl, Nat.add_left_cancel same⟩
  · rintro ⟨rfl, rfl⟩
    rfl

theorem flattenLength {cols : Nat} {lines : List (List Int)} (even : ∀ line ∈ lines, line.length = cols) :
    lines.flatten.length = lines.length * cols := by
  rw [List.length_flatten, List.map_congr_left even, List.map_const']
  simp

theorem flattenAt {cols : Nat} {lines : List (List Int)} (even : ∀ line ∈ lines, line.length = cols) {i j : Nat}
    (inside : j < cols) : lines.flatten[i * cols + j]? = (lines[i]?).bind fun cells => cells[j]? := by
  induction lines generalizing i with
  | nil => rfl
  | cons line rest ih =>
    obtain ⟨width, evenRest⟩ := List.forall_mem_cons.mp even
    rw [List.flatten_cons]
    cases i with
    | zero => rw [Nat.zero_mul, Nat.zero_add, List.getElem?_append_left (by omega)]; rfl
    | succ i =>
      have behind : (i + 1) * cols + j - line.length = i * cols + j := by rw [width, Nat.add_mul]; omega
      rw [List.getElem?_append_right (by rw [width, Nat.add_mul]; omega), behind, ih evenRest]
      rfl

section Building
variable {rows cols i : Nat} {costs next : Array Int} {s : Sheet}

theorem addCellOk {cost : Int} : addCell costs cost = .ok next ↔ 0 ≤ cost ∧ next = costs.push cost := by
  rw [addCell, bindOk, ← checkCostOk]
  exact ⟨fun ⟨_, fine, same⟩ => ⟨fine, (pureOk.mp same).symm⟩, fun ⟨fine, same⟩ => ⟨(), fine, pureOk.mpr same.symm⟩⟩

theorem addCellsOk {xs : List Int} :
    xs.foldlM addCell costs = .ok next ↔ (∀ x ∈ xs, 0 ≤ x) ∧ next.toList = costs.toList ++ xs := by
  induction xs generalizing costs with
  | nil =>
    rw [List.foldlM_nil, pureOk, ← Array.toList_inj]
    simp [eq_comm]
  | cons x rest ih =>
    rw [List.foldlM_cons, bindOk, List.forall_mem_cons]
    constructor
    · rintro ⟨_, added, later⟩
      obtain ⟨fine, rfl⟩ := addCellOk.mp added
      obtain ⟨all, same⟩ := ih.mp later
      exact ⟨⟨fine, all⟩, by simpa using same⟩
    · rintro ⟨⟨fine, all⟩, same⟩
      exact ⟨_, addCellOk.mpr ⟨fine, rfl⟩, ih.mpr ⟨all, by simpa using same⟩⟩

theorem addCellsRefused {xs : List Int} {x : Int} (first : xs.find? (· < 0) = some x) (costs : Array Int) :
    xs.foldlM addCell costs = .error (.malformed (.negative x)) := by
  induction xs generalizing costs with
  | nil => cases first
  | cons y rest ih =>
    rw [List.foldlM_cons]
    by_cases negative : y < 0
    · obtain rfl : y = x := by simpa [negative] using first
      simp only [addCell, checkCost, if_pos negative]
      rfl
    · have later : rest.find? (· < 0) = some x := by simpa [negative] using first
      rw [addCellOk.mpr ⟨Int.not_lt.mp negative, rfl⟩]
      exact ih later _

theorem checkedCells (line : List Int) (costs : Array Int) :
    (do line.forM checkCost; pure (costs ++ line)) = line.foldlM addCell costs := by
  induction line generalizing costs with
  | nil => exact congrArg Except.ok (Array.toList_inj.mp (by simp))
  | cons x rest ih =>
    have pushed : costs ++ x :: rest = costs.push x ++ rest := Array.toList_inj.mp (by simp)
    rw [List.foldlM_cons, pushed, addCell, bind_assoc]
    simp only [pure_bind, ← ih]
    exact bind_assoc ..

theorem addLinesEven {lines : List (List Int)} (even : ∀ line ∈ lines, line.length = cols) (costs : Array Int) :
    addLines cols i costs lines = lines.flatten.foldlM addCell costs := by
  induction lines generalizing i costs with
  | nil => rfl
  | cons line rest ih =>
    obtain ⟨width, evenRest⟩ := List.forall_mem_cons.mp even
    simp only [addLines, addLine, if_pos width, checkedCells, List.flatten_cons, List.foldlM_append, ih evenRest]

theorem addLinesWide {lines : List (List Int)} (added : addLines cols i costs lines = .ok next) :
    ∀ line ∈ lines, line.length = cols := by
  induction lines generalizing i costs with
  | nil => nofun
  | cons line rest ih =>
    obtain ⟨_, first, later⟩ := bindOk.mp added
    unfold addLine at first
    split at first
    case isTrue width => exact List.forall_mem_cons.mpr ⟨width, ih later⟩
    case isFalse => cases first

theorem ofRowsEven {lines : List (List Int)} (present : lines ≠ []) (even : ∀ line ∈ lines, line.length = cols) :
    ofRows lines = (do
      checkShape lines.length cols
      let costs ← lines.flatten.foldlM addCell #[]
      pure ⟨lines.length, cols, costs⟩) := by
  cases lines with
  | nil => exact absurd rfl present
  | cons line rest =>
    obtain rfl : line.length = cols := even line List.mem_cons_self
    simp only [ofRows, List.head?_cons, Option.map_some, Option.getD_some, addLinesEven even]

theorem ofRowsOk {lines : List (List Int)} : ofRows lines = .ok s ↔
    ((0 < s.rows ∧ 0 < s.cols) ∧ lines.length = s.rows ∧ ∀ line ∈ lines, line.length = s.cols) ∧
      (∀ x ∈ lines.flatten, 0 ≤ x) ∧ s.costs.toList = lines.flatten := by
  constructor
  · intro made
    simp only [ofRows, bindOk, pureOk] at made
    obtain ⟨_, shape, costs, added, rfl⟩ := made
    have wide := addLinesWide added
    rw [addLinesEven wide, addCellsOk] at added
    exact ⟨⟨checkShapeOk.mp shape, rfl, wide⟩, added.1, by simpa using added.2⟩
  · rintro ⟨⟨shape, height, wide⟩, nonneg, same⟩
    have present : lines ≠ [] := List.length_pos_iff.mp (height ▸ shape.1)
    rw [ofRowsEven present wide, height]
    simp only [bindOk, pureOk]
    exact ⟨(), checkShapeOk.mpr shape, s.costs, addCellsOk.mpr ⟨nonneg, by simpa using same⟩, rfl⟩

def grid (rows cols : Nat) (f : Nat → Nat → Int) : List (List Int) :=
  (List.range rows).map fun i => (List.range cols).map (f i)

theorem gridLength (rows cols : Nat) (f : Nat → Nat → Int) : (grid rows cols f).length = rows := by
  rw [grid, List.length_map, List.length_range]

theorem gridEven (rows cols : Nat) (f : Nat → Nat → Int) : ∀ line ∈ grid rows cols f, line.length = cols := by
  intro line member
  obtain ⟨i, _, rfl⟩ := List.mem_map.mp member
  rw [List.length_map, List.length_range]

theorem ofFnGrid (rows cols : Nat) (f : Nat → Nat → Int) : ofFn rows cols f = (do
    checkShape rows cols
    let costs ← (grid rows cols f).flatten.foldlM addCell #[]
    pure ⟨rows, cols, costs⟩) := by
  have nested : ∀ (lines : List (List Int)) (costs : Array Int),
      lines.flatten.foldlM addCell costs = lines.foldlM (fun costs line => line.foldlM addCell costs) costs := by
    intro lines
    induction lines with
    | nil => exact fun _ => rfl
    | cons line rest ih =>
      intro costs
      simp only [List.flatten_cons, List.foldlM_append, List.foldlM_cons, ih]
  simp only [ofFn, nested, grid, List.foldlM_map]

theorem ofRowsFull {lines : List (List Int)} (made : ofRows lines = .ok s) : s.Full := by
  obtain ⟨⟨_, height, wide⟩, _, same⟩ := ofRowsOk.mp made
  rw [Full, ← Array.length_toList, same, flattenLength wide, height]

theorem ofFnFull {f : Nat → Nat → Int} (made : ofFn rows cols f = .ok s) : s.Full := by
  simp only [ofFnGrid, bindOk, pureOk] at made
  obtain ⟨_, _, costs, added, rfl⟩ := made
  have same := (addCellsOk.mp added).2
  rw [Full, ← Array.length_toList, same, List.nil_append, flattenLength (gridEven rows cols f), gridLength]

theorem filledFull {cost : Int} (made : filled rows cols cost = .ok s) : s.Full := by
  simp only [filled, bindOk, pureOk] at made
  obtain ⟨_, _, _, _, rfl⟩ := made
  exact Array.size_replicate

end Building

section Writing
variable {s next : Sheet} {row col : Nat} {cost : Int}

theorem setOk (stored : s.set row col cost = .ok next) : (row < s.rows ∧ col < s.cols) ∧ 0 ≤ cost := by
  unfold set at stored
  split at stored
  case isTrue inside =>
    obtain ⟨_, checked, _⟩ := bindOk.mp stored
    exact ⟨inside, checkCostOk.mp checked⟩
  case isFalse => cases stored

end Writing

namespace Full
variable {s next : Sheet} {row col place : Nat} {cost : Int}

theorem stored (full : s.Full) (early : row < s.rows) (inside : col < s.cols) :
    ∃ x, s.costs[row * s.cols + col]? = some x := by
  have place : row * s.cols + col < s.costs.size := full ▸ placeEarly early inside
  exact ⟨_, Array.getElem?_eq_getElem place⟩

theorem home (full : s.Full) {x : Int} (found : s.costs[place]? = some x) :
    (place / s.cols < s.rows ∧ place % s.cols < s.cols) ∧ place / s.cols * s.cols + place % s.cols = place := by
  obtain ⟨early, _⟩ := Array.getElem?_eq_some_iff.mp found
  rw [full] at early
  have positive : 0 < s.cols := Nat.pos_of_lt_mul_left early
  exact ⟨⟨Nat.div_lt_of_lt_mul (Nat.mul_comm s.rows s.cols ▸ early), Nat.mod_lt _ positive⟩, Nat.div_add_mod' ..⟩

theorem cell (full : s.Full) (early : row < s.rows) (inside : col < s.cols) :
    ∃ x, s.costs[row * s.cols + col]? = some x ∧ s.cell row col = .ok x := by
  obtain ⟨x, found⟩ := full.stored early inside
  refine ⟨x, found, ?_⟩
  rw [Sheet.cell, if_pos ⟨early, inside⟩, read, found]

theorem get (full : s.Full) (row col : Nat) :
    s.get row col = .ok (if row < s.rows ∧ col < s.cols then s.costs[row * s.cols + col]? else none) := by
  unfold Sheet.get
  split
  case isTrue inside =>
    obtain ⟨x, found⟩ := full.stored inside.1 inside.2
    rw [read, found]
    rfl
  case isFalse => rfl

theorem write (full : s.Full) (early : row < s.rows) (inside : col < s.cols) (cost : Int) :
    ∃ next, s.write (row * s.cols + col) cost = .ok next ∧ next.Full ∧ (next.rows = s.rows ∧ next.cols = s.cols) ∧
      ∀ k, next.costs[k]? = if row * s.cols + col = k then some cost else s.costs[k]? := by
  have place : row * s.cols + col < s.costs.size := full ▸ placeEarly early inside
  exact ⟨_, dif_pos place, (Array.size_set place).trans full, ⟨rfl, rfl⟩, fun k => Array.getElem?_set place⟩

theorem set (full : s.Full) (early : row < s.rows) (inside : col < s.cols) (nonneg : 0 ≤ cost) :
    ∃ next, s.set row col cost = .ok next ∧ next.Full ∧ (next.rows = s.rows ∧ next.cols = s.cols) ∧
      ∀ k, next.costs[k]? = if row * s.cols + col = k then some cost else s.costs[k]? := by
  obtain ⟨next, written, kept⟩ := full.write early inside cost
  refine ⟨next, ?_, kept⟩
  rw [Sheet.set, if_pos ⟨early, inside⟩, checkCostOk.mpr nonneg]
  exact written

theorem ofSet (full : s.Full) (stored : s.set row col cost = .ok next) :
    next.Full ∧ (next.rows = s.rows ∧ next.cols = s.cols) ∧
      ∀ k, next.costs[k]? = if row * s.cols + col = k then some cost else s.costs[k]? := by
  obtain ⟨⟨early, inside⟩, nonneg⟩ := setOk stored
  obtain ⟨_, same, kept⟩ := full.set early inside nonneg
  rw [stored] at same
  cases same
  exact kept

theorem getSet (full : s.Full) (stored : s.set row col cost = .ok next) (i j : Nat) :
    next.get i j = if i = row ∧ j = col then .ok (some cost) else s.get i j := by
  obtain ⟨⟨_, inside⟩, _⟩ := setOk stored
  obtain ⟨fullNext, ⟨rows, cols⟩, costs⟩ := full.ofSet stored
  rw [fullNext.get, full.get, rows, cols, costs]
  by_cases within : i < s.rows ∧ j < s.cols
  · have place := @placeInj s.cols row col i j inside within.2
    simp only [if_pos within, place, eq_comm]
    split <;> rfl
  · have other : ¬ (i = row ∧ j = col) := by omega
    rw [if_neg within, if_neg within, if_neg other]

theorem map (full : s.Full) (f : Int → Int) : (s.map f).Full := by
  rw [Full, Sheet.map, List.size_toArray, List.length_map]
  exact full

theorem complement (full : s.Full) (w : Width) : (s.complement w).Full := full.map _

theorem line (full : s.Full) (early : row < s.rows) : ∃ cells, s.line row = .ok cells ∧ cells.size = s.cols ∧
    ∀ j, j < s.cols → cells[j]? = s.costs[row * s.cols + j]? := by
  have fits : (row + 1) * s.cols ≤ s.costs.size := full ▸ Nat.mul_le_mul_right s.cols early
  have width : (row + 1) * s.cols - row * s.cols = s.cols := by
    rw [Nat.succ_mul]
    omega
  refine ⟨_, if_pos fits, ?_, ?_⟩
  · rw [Array.size_extract, Nat.min_eq_left fits, width]
  · intro j inside
    rw [Array.getElem?_extract, Nat.min_eq_left fits, width, if_pos inside]

end Full

theorem copyOverOk {costs cells : Array Int} {start stop : Nat} (le : start ≤ stop) (fits : stop ≤ costs.size)
    (width : cells.size = stop - start) : ∃ next, copyOver costs cells start stop = .ok next ∧ next.size = costs.size ∧
      ∀ k, next[k]? = if start ≤ k ∧ k < stop then cells[k - start]? else costs[k]? := by
  have front : (costs.extract 0 start).size = start := by
    rw [Array.size_extract]
    omega
  refine ⟨_, if_pos ⟨fits, width⟩, ?_, ?_⟩
  · simp only [Array.size_append, front, width, Array.size_extract]
    omega
  · intro k
    rw [Array.append_assoc, Array.getElem?_append, Array.getElem?_append, front, width]
    by_cases before : k < start
    · rw [if_pos before, if_neg (by omega), Array.getElem?_extract, if_pos (by omega), Nat.zero_add]
    · rw [if_neg before]
      by_cases inside : k < stop
      · rw [if_pos (by omega), if_pos (by omega)]
      · have place : stop + (k - start - (stop - start)) = k := by omega
        rw [if_neg (by omega), if_neg (by omega), Array.getElem?_extract, place]
        by_cases early : k < costs.size
        · rw [if_pos (by omega)]
        · rw [if_neg (by omega), Array.getElem?_eq_none (by omega)]

/-- The first `k` rows have been copied: they stand at the new stride, and the rest is as it was. -/
structure Copied (s : Sheet) (stride : Nat) (blank : Int) (k : Nat) (costs : Array Int) : Prop where
  size : costs.size = stride * stride
  cells : ∀ i j, i < stride → j < stride →
    costs[i * stride + j]? = if i < k ∧ j < s.cols then s.costs[i * s.cols + j]? else some blank

namespace Full
variable {s : Sheet}

theorem copied (full : s.Full) {stride : Nat} (tall : s.rows ≤ stride) (wide : s.cols ≤ stride) (blank : Int) {k : Nat}
    (early : k ≤ s.rows) : ∃ costs,
      (List.range k).foldlM (s.copyLine stride) (Array.replicate (stride * stride) blank) = .ok costs ∧
        Copied s stride blank k costs := by
  induction k with
  | zero =>
    refine ⟨_, rfl, Array.size_replicate, ?_⟩
    intro i j row col
    rw [Array.getElem?_replicate, if_pos (placeEarly row col), if_neg (by omega)]
  | succ k ih =>
    obtain ⟨costs, sofar, size, cells⟩ := ih (by omega)
    obtain ⟨line, read, width, same⟩ := full.line (Nat.lt_of_succ_le early)
    have fits : k * stride + s.cols ≤ costs.size := by
      rw [size]
      calc k * stride + s.cols ≤ (k + 1) * stride := by rw [Nat.succ_mul]; omega
        _ ≤ stride * stride := Nat.mul_le_mul_right stride (by omega)
    obtain ⟨next, copied, sameSize, now⟩ := copyOverOk (Nat.le_add_right (k * stride) s.cols) fits
      (width.trans (Nat.add_sub_cancel_left ..).symm)
    refine ⟨next, ?_, sameSize.trans size, ?_⟩
    · rw [List.range_succ, List.foldlM_append, sofar]
      simp only [List.foldlM_cons, List.foldlM_nil, copyLine, read]
      exact congrArg (· >>= pure) copied
    · intro i j row col
      rw [now, cells i j row col]
      by_cases here : i = k
      · subst here
        by_cases inside : j < s.cols
        · have place : i * stride + j - i * stride = j := by omega
          rw [if_pos (by omega), if_pos (by omega), place, same j inside]
        · rw [if_neg (by omega), if_neg (by omega), if_neg (by omega)]
      · -- A cell of another row lies before or behind the places that this row is copied to.
        have apart : ¬ (k * stride ≤ i * stride + j ∧ i * stride + j < k * stride + s.cols) := by
          rcases Nat.lt_or_gt_of_ne here with above | below
          · have before := placeEarly above col
            omega
          · have behind := Nat.mul_le_mul_right stride below
            rw [Nat.succ_mul] at behind
            omega
        have later : i < k + 1 ∧ j < s.cols ↔ i < k ∧ j < s.cols := by omega
        simp only [if_neg apart, later]

theorem square (full : s.Full) (w : Width) : ∃ next, s.square w = .ok next ∧ next.Full ∧
    (next.rows = max s.rows s.cols ∧ next.cols = max s.rows s.cols) ∧
    ∀ i j, i < max s.rows s.cols → j < max s.rows s.cols → next.costs[i * max s.rows s.cols + j]? =
      if i < s.rows ∧ j < s.cols then s.costs[i * s.cols + j]? else some w.blocked := by
  unfold Sheet.square
  split
  case isTrue same =>
    refine ⟨s, rfl, full, by omega, ?_⟩
    intro i j row col
    have width : max s.rows s.cols = s.cols := by omega
    rw [if_pos (by omega), width]
  case isFalse =>
    obtain ⟨costs, made, size, cells⟩ := full.copied (Nat.le_max_left ..) (Nat.le_max_right ..) w.blocked (Nat.le_refl _)
    exact ⟨⟨_, _, costs⟩, by simp only [made]; rfl, size, ⟨rfl, rfl⟩, cells⟩

end Full
end OptimalMatching.Sheet
