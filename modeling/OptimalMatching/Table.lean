import OptimalMatching.Lookup
import OptimalMatching.Sheet.Full

/-! Tables of costs, not necessarily square: full sheets, with the operations of sheets. A cell holds a price or the blocked
value of the cost type. Every way to build a table refuses an empty shape and a negative cell; `Valid` states what they all
keep. -/
namespace OptimalMatching

structure Table (w : Width) extends Sheet where
  full : toSheet.Full
  deriving DecidableEq, Repr

namespace Table
variable {w : Width}

def ofSheet (made : Except Failure Sheet) (full : ∀ s, made = .ok s → s.Full) : Except Failure (Table w) :=
  match made, full with
  | .ok s, full => .ok ⟨s, full s rfl⟩
  | .error failure, _ => .error failure

theorem ofSheetOk {made : Except Failure Sheet} {full : ∀ s, made = .ok s → s.Full} {t : Table w} :
    ofSheet made full = .ok t ↔ made = .ok t.toSheet := by
  cases made with
  | error failure => exact ⟨nofun, nofun⟩
  | ok s =>
    rw [Except.ok.injEq]
    refine ⟨fun same => ?_, fun same => congrArg Except.ok ?_⟩
    · cases same
      rfl
    · subst same
      rfl

theorem ofSheetError {made : Except Failure Sheet} {full : ∀ s, made = .ok s → s.Full} {failure : Failure} :
    (ofSheet made full : Except Failure (Table w)) = .error failure ↔ made = .error failure := by
  cases made <;> simp [ofSheet]

theorem sheetInj {t s : Table w} (same : t.toSheet = s.toSheet) : t = s := by
  obtain ⟨_, _⟩ := t
  obtain ⟨_, _⟩ := s
  cases same
  rfl

def ofRows (w : Width) (lines : List (List Int)) : Except Failure (Table w) :=
  ofSheet (Sheet.ofRows lines) fun _ => Sheet.ofRowsFull

def ofFn (w : Width) (rows cols : Nat) (cost : Nat → Nat → Int) : Except Failure (Table w) :=
  ofSheet (Sheet.ofFn rows cols cost) fun _ => Sheet.ofFnFull

def replicate (w : Width) (rows cols : Nat) (cost : Int) : Except Failure (Table w) :=
  ofSheet (Sheet.filled rows cols cost) fun _ => Sheet.filledFull

def isSquare (t : Table w) : Bool := t.rows == t.cols

def get? (t : Table w) (row col : Nat) : Option Int := sure (t.toSheet.get row col) ⟨_, t.full.get row col⟩

theorem getSheet (t : Table w) (row col : Nat) : t.toSheet.get row col = .ok (t.get? row col) := sureOk ..

theorem getIs (t : Table w) (row col : Nat) :
    t.get? row col = if row < t.rows ∧ col < t.cols then t.costs[row * t.cols + col]? else none :=
  Except.ok.inj ((t.getSheet row col).symm.trans (t.full.get row col))

theorem getSome {t : Table w} {row col : Nat} {x : Int} :
    t.get? row col = some x ↔ (row < t.rows ∧ col < t.cols) ∧ t.costs[row * t.cols + col]? = some x := by
  rw [getIs]
  split
  case isTrue inside => exact (and_iff_right inside).symm
  case isFalse outside => exact ⟨nofun, fun found => absurd found.1 outside⟩

theorem getInside {t : Table w} {row col : Nat} (inside : row < t.rows ∧ col < t.cols) : ∃ x, t.get? row col = some x := by
  obtain ⟨x, found⟩ := t.full.stored inside.1 inside.2
  exact ⟨x, getSome.mpr ⟨inside, found⟩⟩

theorem getNone {t : Table w} {row col : Nat} : t.get? row col = none ↔ t.rows ≤ row ∨ t.cols ≤ col := by
  constructor
  · intro none
    refine Decidable.byContradiction fun outside => ?_
    obtain ⟨x, found⟩ := @getInside w t row col (by omega)
    rw [none] at found
    cases found
  · intro outside
    rw [getIs, if_neg (by omega)]

def row? (t : Table w) (row : Nat) : Option (List Int) := (t.line row).toOption.map Array.toList

def set (t : Table w) (row col : Nat) (cost : Int) : Except Failure (Table w) :=
  ofSheet (t.toSheet.set row col cost) fun _ stored => (t.full.ofSet stored).1

theorem setOk {t : Table w} {row col : Nat} {cost : Int} :
    (∃ next, t.set row col cost = .ok next) ↔ (row < t.rows ∧ col < t.cols) ∧ 0 ≤ cost := by
  constructor
  · rintro ⟨next, stored⟩
    exact Sheet.setOk (ofSheetOk.mp stored)
  · intro ⟨⟨early, inside⟩, nonneg⟩
    obtain ⟨next, stored, full, _⟩ := t.full.set early inside nonneg
    exact ⟨⟨next, full⟩, ofSheetOk.mpr stored⟩

theorem getSet {t next : Table w} {row col : Nat} {cost : Int} (ok : t.set row col cost = .ok next)
    (i j : Nat) : next.get? i j = if i = row ∧ j = col then some cost else t.get? i j := by
  have same := t.full.getSet (ofSheetOk.mp ok) i j
  rw [getSheet, getSheet, ← apply_ite Except.ok] at same
  exact Except.ok.inj same

def toLists (t : Table w) : List (List Int) := (List.range t.rows).map fun i => (t.row? i).getD []

def values (t : Table w) : List Int := t.costs.toList

def map (t : Table w) (f : Int → Int) : Table w := ⟨t.toSheet.map f, t.full.map f⟩

theorem memValues {t : Table w} {x : Int} : x ∈ t.values ↔ ∃ i j, t.get? i j = some x := by
  rw [values, List.mem_iff_getElem?]
  constructor
  · rintro ⟨place, found⟩
    rw [Array.getElem?_toList] at found
    obtain ⟨inside, home⟩ := t.full.home found
    exact ⟨_, _, getSome.mpr ⟨inside, by rw [home]; exact found⟩⟩
  · rintro ⟨i, j, found⟩
    exact ⟨_, Array.getElem?_toList.trans (getSome.mp found).2⟩

theorem getMap (t : Table w) (f : Int → Int) (i j : Nat) : (t.map f).get? i j = (t.get? i j).map f := by
  rw [getIs, getIs, apply_ite (Option.map f)]
  refine ite_congr rfl (fun _ => ?_) fun _ => rfl
  have mapped : (t.map f).costs = (t.costs.toList.map f).toArray := rfl
  rw [mapped, List.getElem?_toArray, List.getElem?_map, Array.getElem?_toList]
  rfl

def largest (t : Table w) : Int := t.toSheet.largest w

def complement (t : Table w) : Table w := ⟨t.toSheet.complement w, t.full.complement w⟩

theorem complementMap (t : Table w) :
    t.complement = t.map fun cost => if cost = w.blocked then cost else t.largest - cost := rfl

structure Valid (t : Table w) : Prop where
  rows : 0 < t.rows
  cols : 0 < t.cols
  cost : ∀ i j x, t.get? i j = some x → 0 ≤ x ∧ x ≤ w.top

end Table
end OptimalMatching
