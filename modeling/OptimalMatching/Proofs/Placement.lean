import Mathlib.Algebra.Order.BigOperators.Group.Finset
import Mathlib.Data.Fintype.BigOperators
import Mathlib.Tactic.Linarith
import OptimalMatching.Square

/-! Placements of the first rows of a square on columns of their own, and what they cost. Prices of the lines whose
sum never exceeds a cost bound every placement from below; a set of rows with too few columns admits none. -/
namespace OptimalMatching

variable {n : Nat}

structure Placement (costs : Costs n) (k : Nat) (col : Fin n → Fin n) : Prop where
  allowed : ∀ i : Fin n, i.val < k → ∃ cost, costs[i][col i] = some cost
  apart : ∀ i j : Fin n, i.val < k → j.val < k → col i = col j → i = j

def rowsBefore (n k : Nat) : Finset (Fin n) := Finset.univ.filter fun i => i.val < k

theorem memRowsBefore {k : Nat} {i : Fin n} : i ∈ rowsBefore n k ↔ i.val < k := by
  simp [rowsBefore]

def placementCost (costs : Costs n) (k : Nat) (col : Fin n → Fin n) : Int :=
  ∑ i ∈ rowsBefore n k, (costs[i][col i]).getD 0

structure LeastCost (costs : Costs n) (k : Nat) (total : Int) : Prop where
  reached : ∃ col, Placement costs k col ∧ placementCost costs k col = total
  least : ∀ col, Placement costs k col → total ≤ placementCost costs k col

theorem leastCostUnique {costs : Costs n} {k : Nat} {a b : Int} (left : LeastCost costs k a)
    (right : LeastCost costs k b) : a = b := by
  obtain ⟨col, place, cost⟩ := left.reached
  obtain ⟨other, otherPlace, otherCost⟩ := right.reached
  have le := left.least other otherPlace
  have ge := right.least col place
  omega

theorem sumEarly {k : Nat} {f : Fin n → Int} (later : ∀ i : Fin n, k ≤ i.val → f i = 0) :
    ∑ i, f i = ∑ i ∈ rowsBefore n k, f i := by
  refine (Finset.sum_subset (Finset.subset_univ _) ?_).symm
  intro i _ outside
  rw [memRowsBefore] at outside
  exact later i (by omega)

theorem sumUsed {k : Nat} {col : Fin n → Fin n} (f : Fin n → Int)
    (apart : ∀ i j : Fin n, i.val < k → j.val < k → col i = col j → i = j) :
    ∑ j ∈ (rowsBefore n k).image col, f j = ∑ i ∈ rowsBefore n k, f (col i) := by
  refine Finset.sum_image ?_
  intro i hi j hj same
  exact apart i j (memRowsBefore.mp hi) (memRowsBefore.mp hj) same

theorem sumPlaced {k : Nat} {col : Fin n → Fin n} {f : Fin n → Int}
    (apart : ∀ i j : Fin n, i.val < k → j.val < k → col i = col j → i = j)
    (free : ∀ j, (∀ i : Fin n, i.val < k → col i ≠ j) → f j = 0) :
    ∑ j, f j = ∑ i ∈ rowsBefore n k, f (col i) := by
  rw [← sumUsed f apart]
  refine (Finset.sum_subset (Finset.subset_univ _) ?_).symm
  intro j _ outside
  refine free j ?_
  intro i hi same
  exact outside (Finset.mem_image.mpr ⟨i, memRowsBefore.mpr hi, same⟩)

/- Every row that is placed pays at least its price and the price of its column, and the columns that are left
over have prices of at most zero. -/
theorem pricesBelow {costs : Costs n} {k : Nat} {u v : Fin n → Int}
    (fits : ∀ (i j : Fin n) cost, costs[i][j] = some cost → u i + v j ≤ cost)
    (later : ∀ i : Fin n, k ≤ i.val → u i = 0) (low : ∀ j, v j ≤ 0)
    {col : Fin n → Fin n} (place : Placement costs k col) :
    ∑ i, u i + ∑ j, v j ≤ placementCost costs k col := by
  have rows := sumEarly later
  have cols : ∑ j, v j ≤ ∑ i ∈ rowsBefore n k, v (col i) := by
    rw [← sumUsed v place.apart]
    exact Finset.sum_le_sum_of_subset_of_nonpos' (Finset.subset_univ _) fun j _ _ => low j
  have cells : ∑ i ∈ rowsBefore n k, (u i + v (col i)) ≤ placementCost costs k col := by
    refine Finset.sum_le_sum ?_
    intro i hi
    obtain ⟨cost, found⟩ := place.allowed i (memRowsBefore.mp hi)
    rw [found]
    exact fits i (col i) cost found
  rw [Finset.sum_add_distrib] at cells
  omega

theorem pricesReached {costs : Costs n} {k : Nat} {u v : Fin n → Int} {col : Fin n → Fin n}
    (later : ∀ i : Fin n, k ≤ i.val → u i = 0)
    (free : ∀ j, (∀ i : Fin n, i.val < k → col i ≠ j) → v j = 0)
    (apart : ∀ i j : Fin n, i.val < k → j.val < k → col i = col j → i = j)
    (exact : ∀ i : Fin n, i.val < k → costs[i][col i] = some (u i + v (col i))) :
    placementCost costs k col = ∑ i, u i + ∑ j, v j := by
  have cells : placementCost costs k col = ∑ i ∈ rowsBefore n k, (u i + v (col i)) := by
    refine Finset.sum_congr rfl ?_
    intro i hi
    rw [exact i (memRowsBefore.mp hi), Option.getD_some]
  rw [cells, Finset.sum_add_distrib, sumEarly later, sumPlaced apart free]

structure Crowded (costs : Costs n) (k : Nat) (rows cols : List (Fin n)) : Prop where
  early : ∀ i ∈ rows, i.val < k
  distinct : rows.Nodup
  closed : ∀ i ∈ rows, ∀ j cost, costs[i][j] = some cost → j ∈ cols
  fewer : cols.length < rows.length

theorem crowdedNone {costs : Costs n} {k : Nat} {rows cols : List (Fin n)} (crowded : Crowded costs k rows cols)
    (col : Fin n → Fin n) : ¬ Placement costs k col := by
  intro place
  have inside : ∀ i ∈ rows.toFinset, col i ∈ cols.toFinset := by
    intro i hi
    rw [List.mem_toFinset] at hi ⊢
    obtain ⟨cost, found⟩ := place.allowed i (crowded.early i hi)
    exact crowded.closed i hi _ cost found
  have injective : Set.InjOn col rows.toFinset := by
    intro i hi j hj same
    rw [Finset.mem_coe, List.mem_toFinset] at hi hj
    exact place.apart i j (crowded.early i hi) (crowded.early j hj) same
  have le := Finset.card_le_card_of_injOn col inside injective
  rw [List.toFinset_card_of_nodup crowded.distinct] at le
  have few := List.toFinset_card_le cols
  have fewer := crowded.fewer
  omega

theorem Crowded.mono {costs : Costs n} {k l : Nat} {rows cols : List (Fin n)} (crowded : Crowded costs k rows cols)
    (le : k ≤ l) : Crowded costs l rows cols := by
  refine ⟨?_, crowded.distinct, crowded.closed, crowded.fewer⟩
  intro i member
  have early := crowded.early i member
  omega

def CrowdedFrom (costs : Costs n) (row : Nat) : Prop :=
  ∃ rows cols, Crowded costs n rows cols ∧ (∃ i ∈ rows, i.val = row) ∧ ∀ i ∈ rows, row ≤ i.val

def Optimum (costs : Costs n) (columns : List Nat) : Prop :=
  ∃ col, Placement costs n col ∧
    (∀ other, Placement costs n other → placementCost costs n col ≤ placementCost costs n other) ∧
    columns = (List.finRange n).map fun i => (col i).val

end OptimalMatching
