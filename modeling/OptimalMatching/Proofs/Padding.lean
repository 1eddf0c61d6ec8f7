import Mathlib.Data.Fintype.Fin
import Mathlib.Data.Fintype.Sum
import OptimalMatching.Proofs.Selection

/-! Padding to a square. The real cells of a placement of all rows of the square are a full selection of the table, and
every full selection is that of some placement; both cost the same, because padding costs nothing. -/
namespace OptimalMatching

variable {w : Width} {n : Nat}

def realCells (rows cols : Nat) (col : Fin n → Fin n) : Finset (Nat × Nat) :=
  (Finset.univ.filter fun i : Fin n => i.val < rows ∧ (col i).val < cols).image fun i => (i.val, (col i).val)

theorem memRealCells {rows cols : Nat} {col : Fin n → Fin n} {c : Nat × Nat} :
    c ∈ realCells rows cols col ↔ ∃ i : Fin n, (i.val < rows ∧ (col i).val < cols) ∧ (i.val, (col i).val) = c := by
  simp [realCells]

theorem cellInjective (col : Fin n → Fin n) : Function.Injective fun i : Fin n => (i.val, (col i).val) :=
  fun _ _ same => Fin.ext (Prod.mk.inj same).1

theorem realCellsCard {rows cols : Nat} {col : Fin n → Fin n} (size : n = max rows cols)
    (injective : Function.Injective col) : (realCells rows cols col).card = min rows cols := by
  rw [realCells, Finset.card_image_of_injective _ (cellInjective col)]
  by_cases wide : rows ≤ cols
  · have inside : ∀ i : Fin n, (i.val < rows ∧ (col i).val < cols) ↔ i.val < rows := by
      intro i
      have lt := (col i).isLt
      omega
    simp only [inside]
    rw [Fin.card_filter_val_lt]
    omega
  · have inside : ∀ i : Fin n, (i.val < rows ∧ (col i).val < cols) ↔ (col i).val < cols := by
      intro i
      have lt := i.isLt
      omega
    simp only [inside]
    have onto := (Finite.injective_iff_surjective.mp injective)
    have image : (Finset.univ.filter fun i => (col i).val < cols).image col =
        Finset.univ.filter fun j : Fin n => j.val < cols := by
      ext j
      simp only [Finset.mem_image, Finset.mem_filter, Finset.mem_univ, true_and]
      refine ⟨?_, ?_⟩
      · intro ⟨i, small, same⟩
        rwa [← same]
      · intro small
        obtain ⟨i, same⟩ := onto j
        exact ⟨i, by rwa [same], same⟩
    rw [← Finset.card_image_of_injective _ injective, image, Fin.card_filter_val_lt]
    omega

namespace Square
variable {t : Table w}

theorem costReal {i j : Fin (max t.rows t.cols)} (real : i.val < t.rows ∧ j.val < t.cols) {x : Int} :
    (ofTable t).costs[i][j] = some x ↔ t.get? i j = some x ∧ x ≠ w.blocked := by
  obtain ⟨y, found⟩ := Table.getInside real
  obtain ⟨rows, cols⟩ := realOfTable t
  rw [costSome, cellOfTable, rows, cols, found, Option.getD_some, Option.some.injEq]
  tauto

theorem costPadding {i j : Fin (max t.rows t.cols)} (outside : ¬ (i.val < t.rows ∧ j.val < t.cols)) :
    (ofTable t).costs[i][j] = some 0 :=
  costSome.mpr (.inr ⟨by rw [(realOfTable t).1, (realOfTable t).2]; exact outside, rfl⟩)

theorem validOfTable (valid : t.Valid) : (ofTable t).toTable.Valid := by
  have wide := w.wide
  have rows := valid.rows
  refine ⟨Nat.lt_of_lt_of_le rows (Nat.le_max_left ..), Nat.lt_of_lt_of_le rows (Nat.le_max_left ..), ?_⟩
  intro i j x found
  rw [getOfTable] at found
  split at found
  case isFalse => cases found
  case isTrue =>
    have same := Option.some.inj found
    cases before : t.get? i j with
    | none =>
      rw [before, Option.getD_none] at same
      have top : w.blocked = w.top := rfl
      omega
    | some y =>
      rw [before, Option.getD_some] at same
      rw [← same]
      exact valid.cost i j y before

theorem largestOfTable (t : Table w) : (ofTable t).largest = t.largest := by
  refine Int.le_antisymm ?_ ?_
  · rcases Table.largestFound (ofTable t).toTable with zero | ⟨row, col, found, price⟩
    · rw [largest, zero]
      exact Table.largestNonneg t
    · rw [getOfTable] at found
      split at found
      case isFalse => cases found
      case isTrue =>
        have same := Option.some.inj found
        cases before : t.get? row col with
        | none =>
          rw [before, Option.getD_none] at same
          exact absurd same.symm price
        | some y =>
          rw [before, Option.getD_some] at same
          rw [same] at before
          exact Table.largestBounds before price
  · rcases Table.largestFound t with zero | ⟨row, col, found, price⟩
    · rw [zero]
      exact Table.largestNonneg _
    · obtain ⟨⟨i, j⟩, _⟩ := Table.getSome.mp found
      refine @Table.largestBounds w (ofTable t).toTable row col _ ?_ price
      rw [getOfTable, if_pos ⟨Nat.lt_of_lt_of_le i (Nat.le_max_left ..), Nat.lt_of_lt_of_le j (Nat.le_max_right ..)⟩,
        found, Option.getD_some]

end Square

section Cells
variable {t : Table w} {col : Fin (max t.rows t.cols) → Fin (max t.rows t.cols)}

theorem placedInjective {costs : Costs n} {col : Fin n → Fin n} (place : Placement costs n col) :
    Function.Injective col := fun i j same => place.apart i j i.isLt j.isLt same

theorem placedFull (place : Placement (Square.ofTable t).costs (max t.rows t.cols) col) :
    t.Full (realCells t.rows t.cols col) := by
  refine ⟨realCellsCard rfl (placedInjective place), ?_, ?_, ?_⟩
  · intro c member
    obtain ⟨i, real, same⟩ := memRealCells.mp member
    obtain ⟨x, has⟩ := place.allowed i i.isLt
    rw [← same]
    exact ⟨x, (Square.costReal real).mp has⟩
  · intro c left d right same
    obtain ⟨i, _, isC⟩ := memRealCells.mp left
    obtain ⟨j, _, isD⟩ := memRealCells.mp right
    rw [← isC, ← isD] at same ⊢
    obtain rfl : i = j := Fin.ext same
    rfl
  · intro c left d right same
    obtain ⟨i, _, isC⟩ := memRealCells.mp left
    obtain ⟨j, _, isD⟩ := memRealCells.mp right
    rw [← isC, ← isD] at same ⊢
    obtain rfl : i = j := placedInjective place (Fin.ext same)
    rfl

theorem placedWorth (place : Placement (Square.ofTable t).costs (max t.rows t.cols) col) :
    placementCost (Square.ofTable t).costs (max t.rows t.cols) col = t.worth (realCells t.rows t.cols col) := by
  have all : rowsBefore (max t.rows t.cols) (max t.rows t.cols) = Finset.univ := by
    ext i
    rw [memRowsBefore]
    exact ⟨fun _ => Finset.mem_univ i, fun _ => i.isLt⟩
  rw [placementCost, all, Table.worth, realCells, Finset.sum_image (cellInjective col).injOn]
  rw [← Finset.sum_filter_add_sum_filter_not Finset.univ
    fun i : Fin (max t.rows t.cols) => i.val < t.rows ∧ (col i).val < t.cols]
  have real : ∀ i ∈ Finset.univ.filter fun i : Fin (max t.rows t.cols) => i.val < t.rows ∧ (col i).val < t.cols,
      ((Square.ofTable t).costs[i][col i]).getD 0 = (t.get? i.val (col i).val).getD 0 := by
    intro i member
    have real := (Finset.mem_filter.mp member).2
    obtain ⟨x, has⟩ := place.allowed i i.isLt
    rw [has, ((Square.costReal real).mp has).1]
  have padding : ∀ i ∈ Finset.univ.filter fun i : Fin (max t.rows t.cols) => ¬ (i.val < t.rows ∧ (col i).val < t.cols),
      ((Square.ofTable t).costs[i][col i]).getD 0 = 0 := by
    intro i member
    rw [Square.costPadding (Finset.mem_filter.mp member).2, Option.getD_some]
  rw [Finset.sum_congr rfl real, Finset.sum_eq_zero padding, add_zero]

end Cells

namespace Table.Full
variable {t : Table w} {cells : Finset (Nat × Nat)}

theorem usesRow (full : t.Full cells) (wide : t.rows ≤ t.cols) {i : Nat} (real : i < t.rows) : ∃ j, (i, j) ∈ cells := by
  have inside : cells.image Prod.fst ⊆ Finset.range t.rows := by
    intro i member
    obtain ⟨c, here, same⟩ := Finset.mem_image.mp member
    rw [← same]
    exact Finset.mem_range.mpr (pricesInside (full.prices c here)).1
  have all : cells.image Prod.fst = Finset.range t.rows := by
    refine Finset.eq_of_subset_of_card_le inside ?_
    rw [Finset.card_image_of_injOn fun c left d right same => full.row c left d right same, full.size,
      Finset.card_range]
    omega
  have member := all ▸ Finset.mem_range.mpr real
  obtain ⟨c, here, same⟩ := Finset.mem_image.mp member
  exact ⟨c.2, by rw [← same]; exact here⟩

theorem usesCol (full : t.Full cells) (tall : t.cols ≤ t.rows) {j : Nat} (real : j < t.cols) : ∃ i, (i, j) ∈ cells := by
  have inside : cells.image Prod.snd ⊆ Finset.range t.cols := by
    intro j member
    obtain ⟨c, here, same⟩ := Finset.mem_image.mp member
    rw [← same]
    exact Finset.mem_range.mpr (pricesInside (full.prices c here)).2
  have all : cells.image Prod.snd = Finset.range t.cols := by
    refine Finset.eq_of_subset_of_card_le inside ?_
    rw [Finset.card_image_of_injOn fun c left d right same => full.col c left d right same, full.size,
      Finset.card_range]
    omega
  have member := all ▸ Finset.mem_range.mpr real
  obtain ⟨c, here, same⟩ := Finset.mem_image.mp member
  exact ⟨c.1, by rw [← same]; exact here⟩

/- The selection says where some rows of the square go; the others go where there is room. -/
theorem extend (full : t.Full cells) : ∃ col : Fin (max t.rows t.cols) → Fin (max t.rows t.cols),
    Function.Injective col ∧ ∀ i j : Fin (max t.rows t.cols), (i.val, j.val) ∈ cells → col i = j := by
  classical
  let used : Finset (Fin (max t.rows t.cols)) :=
    Finset.univ.filter fun i => ∃ j : Fin (max t.rows t.cols), (i.val, j.val) ∈ cells
  let pick : Fin (max t.rows t.cols) → Fin (max t.rows t.cols) :=
    fun i => if h : ∃ j : Fin (max t.rows t.cols), (i.val, j.val) ∈ cells then h.choose else i
  have picked : ∀ i j : Fin (max t.rows t.cols), (i.val, j.val) ∈ cells → pick i = j := by
    intro i j member
    have some_ : ∃ j : Fin (max t.rows t.cols), (i.val, j.val) ∈ cells := ⟨j, member⟩
    have chosen : pick i = some_.choose := dif_pos some_
    have same := full.row _ some_.choose_spec _ member rfl
    rw [chosen]
    exact Fin.ext (Prod.mk.inj same).2
  have apart : Set.InjOn pick used := by
    intro i left i' right same
    obtain ⟨j, member⟩ := (Finset.mem_filter.mp left).2
    obtain ⟨j', member'⟩ := (Finset.mem_filter.mp right).2
    rw [picked i j member, picked i' j' member'] at same
    subst same
    exact Fin.ext (Prod.mk.inj (full.col _ member _ member' rfl)).1
  obtain ⟨whole, agrees⟩ := Finset.exists_equiv_extend_of_card_eq (t := Finset.univ) (s := used) (f := pick)
    (Finset.card_univ).symm (Finset.subset_univ _) apart
  refine ⟨fun i => (whole i).val, Subtype.val_injective.comp whole.injective, ?_⟩
  intro i j member
  have isUsed : i ∈ used := Finset.mem_filter.mpr ⟨Finset.mem_univ i, j, member⟩
  exact (agrees i isUsed).trans (picked i j member)

theorem placement (full : t.Full cells) : ∃ col, Placement (Square.ofTable t).costs (max t.rows t.cols) col ∧
    realCells t.rows t.cols col = cells := by
  obtain ⟨col, injective, agrees⟩ := full.extend
  -- A row that goes to a real column is one of the selection: all rows are, or all columns.
  have chosen : ∀ i : Fin (max t.rows t.cols), i.val < t.rows → (col i).val < t.cols →
      (i.val, (col i).val) ∈ cells := by
    intro i row real
    by_cases wide : t.rows ≤ t.cols
    · obtain ⟨j, member⟩ := full.usesRow wide row
      have inside : j < max t.rows t.cols := by
        have lt := (pricesInside (full.prices _ member)).2
        simp only at lt
        omega
      rw [agrees i ⟨j, inside⟩ member]
      exact member
    · obtain ⟨k, member⟩ := full.usesCol (by omega) real
      have inside : k < max t.rows t.cols := by
        have lt := (pricesInside (full.prices _ member)).1
        simp only at lt
        omega
      have same : (⟨k, inside⟩ : Fin (max t.rows t.cols)) = i := injective (agrees ⟨k, inside⟩ (col i) member)
      have row : k = i.val := congrArg Fin.val same
      rw [← row]
      exact member
  refine ⟨col, ⟨?_, fun i j _ _ same => injective same⟩, ?_⟩
  · intro i _
    by_cases real : i.val < t.rows ∧ (col i).val < t.cols
    · obtain ⟨x, found, price⟩ := full.prices _ (chosen i real.1 real.2)
      exact ⟨x, (Square.costReal real).mpr ⟨found, price⟩⟩
    · exact ⟨0, Square.costPadding real⟩
  · ext c
    rw [memRealCells]
    refine ⟨?_, ?_⟩
    · intro ⟨i, real, same⟩
      rw [← same]
      exact chosen i real.1 real.2
    · intro member
      obtain ⟨row, real⟩ := pricesInside (full.prices c member)
      have at_ := agrees ⟨c.1, by omega⟩ ⟨c.2, by omega⟩ member
      refine ⟨⟨c.1, by omega⟩, ?_, ?_⟩
      · rw [at_]
        exact ⟨row, real⟩
      · rw [at_]

end Table.Full

theorem optimumBest {t : Table w} {columns : List Nat} (optimum : Optimum (Square.ofTable t).costs columns) :
    ∃ col : Fin (max t.rows t.cols) → Fin (max t.rows t.cols), Function.Injective col ∧
      columns = ((List.finRange _).map fun i => (col i).val) ∧ t.Best .minimize (realCells t.rows t.cols col) := by
  obtain ⟨col, place, least, same⟩ := optimum
  refine ⟨col, placedInjective place, same, placedFull place, ?_⟩
  intro other full
  obtain ⟨col', place', cells⟩ := full.placement
  have le := least col' place'
  rw [placedWorth place, placedWorth place', cells] at le
  exact le

theorem crowdedFull {t : Table w} {rows cols : List (Fin (max t.rows t.cols))}
    (crowded : Crowded (Square.ofTable t).costs (max t.rows t.cols) rows cols) (cells : Finset (Nat × Nat)) :
    ¬ t.Full cells := by
  intro full
  obtain ⟨col, place, _⟩ := full.placement
  exact crowdedNone crowded col place

end OptimalMatching
