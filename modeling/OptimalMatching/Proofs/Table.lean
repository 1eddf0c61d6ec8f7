import OptimalMatching.Proofs.Scan

/-! The largest cost of a table and of a square. It bounds every cost that a solver sees, padding included. A row of the
padding is never short of columns. -/
namespace OptimalMatching

theorem foldlMax (start : Int) (xs : List Int) :
    start ≤ xs.foldl max start ∧ (∀ x ∈ xs, x ≤ xs.foldl max start) ∧
      (xs.foldl max start = start ∨ xs.foldl max start ∈ xs) := by
  induction xs generalizing start with
  | nil => exact ⟨Int.le_refl _, by simp, .inl rfl⟩
  | cons x rest ih =>
    obtain ⟨le, all, same⟩ := ih (max start x)
    rw [List.foldl_cons]
    refine ⟨by omega, ?_, ?_⟩
    · intro y member
      rcases List.mem_cons.mp member with isHead | inside
      · omega
      · exact all y inside
    · rcases same with kept | inside
      · by_cases less : start ≤ x
        · exact .inr (by rw [kept, Int.max_eq_right less]; exact List.mem_cons_self)
        · exact .inl (by rw [kept]; omega)
      · exact .inr (List.mem_cons_of_mem _ inside)

namespace Table
variable {w : Width} {t : Table w}

theorem validOfValues (rows : 0 < t.rows) (cols : 0 < t.cols) (within : ∀ x ∈ t.values, 0 ≤ x ∧ x ≤ w.top) : t.Valid :=
  ⟨rows, cols, fun i j x found => within x (memValues.mpr ⟨i, j, found⟩)⟩

theorem largestNonneg (t : Table w) : 0 ≤ t.largest := (foldlMax 0 _).1

theorem largestBounds {row col : Nat} {x : Int} (found : t.get? row col = some x) (price : x ≠ w.blocked) :
    x ≤ t.largest := by
  refine (foldlMax 0 _).2.1 x (List.mem_filter.mpr ⟨memValues.mpr ⟨row, col, found⟩, ?_⟩)
  simpa using price

theorem largestFound (t : Table w) :
    t.largest = 0 ∨ ∃ row col, t.get? row col = some t.largest ∧ t.largest ≠ w.blocked := by
  refine (foldlMax 0 _).2.2.imp_right ?_
  intro member
  obtain ⟨inside, price⟩ := List.mem_filter.mp member
  obtain ⟨row, col, found⟩ := memValues.mp inside
  exact ⟨row, col, found, of_decide_eq_true price⟩

theorem largestPrice (valid : t.Valid) : t.largest < w.top := by
  have wide := w.wide
  rcases t.largestFound with zero | ⟨row, col, found, price⟩
  · omega
  · have range := valid.cost row col _ found
    have apart : t.largest ≠ w.top := price
    omega

end Table

namespace Square
variable {w : Width} {n : Nat}

def whole (cells : Vector (Vector Int n) n) : Square w n where
  realRows := n
  realCols := n
  rowsFit := Nat.le_refl n
  colsFit := Nat.le_refl n
  cells := (cells.toList.map Vector.toList).flatten.toArray
  full := by
    have even : ∀ line ∈ cells.toList.map Vector.toList, line.length = n := by
      intro line member
      obtain ⟨row, _, rfl⟩ := List.mem_map.mp member
      exact Vector.length_toList
    rw [List.size_toArray, Sheet.flattenLength even, List.length_map, Vector.length_toList]

theorem costSome {s : Square w n} {i j : Fin n} {cost : Int} :
    s.costs[i][j] = some cost ↔
      (i.val < s.realRows ∧ j.val < s.realCols ∧ s.cell i j = cost ∧ cost ≠ w.blocked) ∨
      (¬ (i.val < s.realRows ∧ j.val < s.realCols) ∧ cost = 0) := by
  rw [costsAt]
  by_cases real : i.val < s.realRows ∧ j.val < s.realCols
  · rw [pairingReal real (s.getToTable i j)]
    simp only [real, not_true_eq_false, false_and, or_false, true_and]
    split
    case isTrue blocked =>
      simp only [Pairing.cost?, reduceCtorEq, false_iff, not_and, not_not]
      intro same
      rw [← same, blocked]
    case isFalse price =>
      simp only [Pairing.cost?, Option.some.injEq]
      refine ⟨fun same => ⟨same, same ▸ price⟩, fun h => h.1⟩
  · have padding : s.pairing i j = .padding := by
      rw [pairingPads, ← Bool.not_eq_false, padsNot]
      exact real
    rw [padding]
    simp only [Pairing.cost?, Option.some.injEq, real, not_false_eq_true, true_and]
    refine ⟨fun same => .inr same.symm, ?_⟩
    intro way
    rcases way with inside | zero
    · exact absurd ⟨inside.1, inside.2.1⟩ real
    · exact zero.symm

theorem costsWithin {s : Square w n} (valid : s.toTable.Valid) : CostsWithin s.costs s.largest := by
  intro i j cost has
  have nonneg := Table.largestNonneg s.toTable
  rcases costSome.mp has with ⟨_, _, same, price⟩ | ⟨_, zero⟩
  · have found := getToTable s i j
    rw [same] at found
    exact ⟨(valid.cost i j cost found).1, Table.largestBounds found price⟩
  · rw [zero]
    exact ⟨Int.le_refl 0, nonneg⟩

/- A row of the padding may take any column, so it does not stand among rows with too few. -/
theorem crowdedReal {s : Square w n} {k : Nat} {rows cols : List (Fin n)} (crowded : Crowded s.costs k rows cols)
    {i : Fin n} (member : i ∈ rows) : i.val < s.realRows := by
  by_contra padding
  have all : ∀ j ∈ List.finRange n, j ∈ cols :=
    fun j _ => crowded.closed i member j 0 (costSome.mpr (.inr ⟨by omega, rfl⟩))
  have many := ((List.nodup_finRange n).subperm all).length_le
  have few := crowded.distinct.length_le_card
  rw [List.length_finRange] at many
  rw [Fintype.card_fin] at few
  have fewer := crowded.fewer
  omega

end Square
end OptimalMatching
