import OptimalMatching.Proofs.Table
import OptimalMatching.Solution

/-! What a solution is measured by: all full selections of cells of a table, no two in one line. Turning the costs around
turns the cheapest selection into the dearest, because all full selections have equally many cells. -/
namespace OptimalMatching

variable {w : Width}

def Objective.Prefers : Objective → Int → Int → Prop
  | .minimize, a, b => a ≤ b
  | .maximize, a, b => b ≤ a

namespace Table
variable {t : Table w} {cells : Finset (Nat × Nat)}

def Prices (t : Table w) (c : Nat × Nat) : Prop := ∃ x, t.get? c.1 c.2 = some x ∧ x ≠ w.blocked

structure Full (t : Table w) (cells : Finset (Nat × Nat)) : Prop where
  size : cells.card = min t.rows t.cols
  prices : ∀ c ∈ cells, t.Prices c
  row : ∀ c ∈ cells, ∀ d ∈ cells, c.1 = d.1 → c = d
  col : ∀ c ∈ cells, ∀ d ∈ cells, c.2 = d.2 → c = d

def worth (t : Table w) (cells : Finset (Nat × Nat)) : Int := ∑ c ∈ cells, (t.get? c.1 c.2).getD 0

structure Best (t : Table w) (objective : Objective) (cells : Finset (Nat × Nat)) : Prop where
  full : t.Full cells
  best : ∀ other, t.Full other → objective.Prefers (t.worth cells) (t.worth other)

theorem pricesInside {c : Nat × Nat} (prices : t.Prices c) : c.1 < t.rows ∧ c.2 < t.cols := by
  obtain ⟨x, found, _⟩ := prices
  exact (getSome.mp found).1

theorem getComplement (t : Table w) (i j : Nat) :
    t.complement.get? i j = (t.get? i j).map fun cost => if cost = w.blocked then cost else t.largest - cost :=
  getMap t _ i j

theorem complementSome (valid : t.Valid) {i j : Nat} {x : Int} (found : t.get? i j = some x) (price : x ≠ w.blocked) :
    t.complement.get? i j = some (t.largest - x) ∧ 0 ≤ t.largest - x ∧ t.largest - x < w.top := by
  have range := valid.cost i j x found
  have bound := largestBounds found price
  have top := largestPrice valid
  refine ⟨?_, by omega, by omega⟩
  rw [getComplement, found, Option.map_some, if_neg price]

theorem complementPrices (valid : t.Valid) (c : Nat × Nat) : t.complement.Prices c ↔ t.Prices c := by
  refine ⟨?_, ?_⟩
  · intro ⟨x, found, price⟩
    rw [getComplement, Option.map_eq_some_iff] at found
    obtain ⟨y, before, same⟩ := found
    refine ⟨y, before, ?_⟩
    intro blocked
    rw [if_pos blocked, blocked] at same
    exact price same.symm
  · intro ⟨x, found, price⟩
    obtain ⟨now, _, small⟩ := complementSome valid found price
    exact ⟨_, now, Int.ne_of_lt small⟩

theorem complementValid (valid : t.Valid) : t.complement.Valid := by
  refine ⟨valid.rows, valid.cols, ?_⟩
  intro i j x found
  rw [getComplement, Option.map_eq_some_iff] at found
  obtain ⟨y, before, same⟩ := found
  have range := valid.cost i j y before
  have top := largestPrice valid
  split at same
  case isTrue => omega
  case isFalse price =>
    have bound := largestBounds before price
    omega

theorem complementFull (valid : t.Valid) : t.complement.Full cells ↔ t.Full cells := by
  refine ⟨?_, ?_⟩
  · intro full
    exact ⟨full.size, fun c member => (complementPrices valid c).mp (full.prices c member), full.row, full.col⟩
  · intro full
    exact ⟨full.size, fun c member => (complementPrices valid c).mpr (full.prices c member), full.row, full.col⟩

theorem complementWorth (valid : t.Valid) (full : t.Full cells) :
    t.complement.worth cells = cells.card * t.largest - t.worth cells := by
  have each : ∀ c ∈ cells, (t.complement.get? c.1 c.2).getD 0 = t.largest - (t.get? c.1 c.2).getD 0 := by
    intro c member
    obtain ⟨x, found, price⟩ := full.prices c member
    rw [(complementSome valid found price).1, found, Option.getD_some, Option.getD_some]
  rw [worth, Finset.sum_congr rfl each, Finset.sum_sub_distrib, Finset.sum_const, nsmul_eq_mul, worth]

theorem complementBest (valid : t.Valid) (best : t.complement.Best .minimize cells) : t.Best .maximize cells := by
  have full := (complementFull valid).mp best.full
  refine ⟨full, ?_⟩
  intro other fullOther
  have le : t.complement.worth cells ≤ t.complement.worth other :=
    best.best other ((complementFull valid).mpr fullOther)
  rw [complementWorth valid full, complementWorth valid fullOther, full.size, fullOther.size] at le
  simp only [Objective.Prefers]
  omega

end Table

namespace Solution
variable {t : Table w} {cells : Finset (Nat × Nat)}

theorem workingShape (t : Table w) (objective : Objective) :
    (working t objective).rows = t.rows ∧ (working t objective).cols = t.cols := by
  cases objective <;> exact ⟨rfl, rfl⟩

theorem workingValid (valid : t.Valid) (objective : Objective) : (working t objective).Valid := by
  cases objective with
  | minimize => exact valid
  | maximize => exact Table.complementValid valid

theorem workingFull (valid : t.Valid) (objective : Objective) : (working t objective).Full cells ↔ t.Full cells := by
  cases objective with
  | minimize => exact Iff.rfl
  | maximize => exact Table.complementFull valid

theorem workingBest (valid : t.Valid) {objective : Objective} (best : (working t objective).Best .minimize cells) :
    t.Best objective cells := by
  cases objective with
  | minimize => exact best
  | maximize => exact Table.complementBest valid best

end Solution
end OptimalMatching
