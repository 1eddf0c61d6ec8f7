import OptimalMatching.Potential
import OptimalMatching.Square

/-! Labels of a search, seen from their columns. Offering a row to the open columns changes a label where the way over
this row is cheaper than all before it, and nowhere else. -/
namespace OptimalMatching

variable {n : Nat}

namespace Labels

def dist (l : Labels n) (col : Fin n) : Int := (l.cost[col]).getD 0

theorem distSome {l : Labels n} {col : Fin n} {x : Int} (found : l.cost[col] = some x) : l.dist col = x := by
  rw [dist, found, Option.getD_some]

theorem improvesIff {l : Labels n} {col : Fin n} {x : Int} :
    l.improves col x = true ↔ ∀ y, l.cost[col] = some y → x < y := by
  unfold improves
  cases l.cost[col] with
  | none => simp
  | some known => simp

theorem offerCases (l : Labels n) (row col : Fin n) (x : Int) :
    ((l.offer row col x).cost[col] = some x ∧ (l.offer row col x).reachedFrom[col] = some row ∧
      ∀ y, l.cost[col] = some y → x < y) ∨
    (l.offer row col x = l ∧ ∃ y, l.cost[col] = some y ∧ y ≤ x) := by
  unfold offer
  by_cases better : l.improves col x = true
  · rw [if_pos better]
    refine .inl ⟨?_, ?_, improvesIff.mp better⟩
    · rw [writeCost, if_pos rfl]
    · rw [writeFrom, if_pos rfl]
  · rw [if_neg better]
    simp only [improvesIff, Classical.not_forall, Int.not_lt] at better
    obtain ⟨y, known, le⟩ := better
    exact .inr ⟨rfl, y, known, le⟩

theorem offerOtherFrom (l : Labels n) {row col j : Fin n} (cost : Int) (other : j ≠ col) :
    (l.offer row col cost).reachedFrom[j] = l.reachedFrom[j] := by
  unfold offer
  split
  · rw [writeFrom, if_neg other]
  · rfl

theorem offerAt {l other : Labels n} {col : Fin n} (cost : l.cost[col] = other.cost[col])
    (from_ : l.reachedFrom[col] = other.reachedFrom[col]) (row : Fin n) (x : Int) :
    (l.offer row col x).cost[col] = (other.offer row col x).cost[col] ∧
      (l.offer row col x).reachedFrom[col] = (other.offer row col x).reachedFrom[col] := by
  have same : l.improves col x = other.improves col x := by
    unfold improves
    rw [cost]
  unfold offer
  rw [same]
  split
  · simp only [writeCost, writeFrom, if_true, and_self]
  · exact ⟨cost, from_⟩

end Labels

structure Offered (costs : Costs n) (p : Potentials n) (row : Fin n) (base : Int) (closed : List (Fin n))
    (old new : Labels n) : Prop where
  kept : ∀ j : Fin n, j ∈ closed ∨ costs[row][j] = none →
    new.cost[j] = old.cost[j] ∧ new.reachedFrom[j] = old.reachedFrom[j]
  told : ∀ (j : Fin n) cost, j ∉ closed → costs[row][j] = some cost →
    new.cost[j] = (old.offer row j (base + cost - p.row[row] - p.col[j])).cost[j] ∧
      new.reachedFrom[j] = (old.offer row j (base + cost - p.row[row] - p.col[j])).reachedFrom[j]

namespace Offered
variable {costs : Costs n} {p : Potentials n} {row : Fin n} {base : Int} {closed : List (Fin n)} {old new : Labels n}

theorem cases (offered : Offered costs p row base closed old new) {j : Fin n} {x : Int} (found : new.cost[j] = some x) :
    (old.cost[j] = some x ∧ new.reachedFrom[j] = old.reachedFrom[j]) ∨
    (new.reachedFrom[j] = some row ∧ ∃ cost, costs[row][j] = some cost ∧ x = base + cost - p.row[row] - p.col[j]) := by
  by_cases shut : j ∈ closed
  · obtain ⟨label, origin⟩ := offered.kept j (.inl shut)
    exact .inl ⟨label ▸ found, origin⟩
  · cases price : costs[row][j] with
    | none =>
      obtain ⟨label, origin⟩ := offered.kept j (.inr price)
      exact .inl ⟨label ▸ found, origin⟩
    | some cost =>
      obtain ⟨label, origin⟩ := offered.told j cost shut price
      rw [label] at found
      rcases old.offerCases row j (base + cost - p.row[row] - p.col[j]) with ⟨made, by_, _⟩ | ⟨same, _⟩
      · rw [made] at found
        exact .inr ⟨by rw [origin, by_], cost, rfl, (Option.some.inj found).symm⟩
      · rw [same] at found origin
        exact .inl ⟨found, origin⟩

theorem least (offered : Offered costs p row base closed old new) {j : Fin n} {cost : Int} (shut : j ∉ closed)
    (found : costs[row][j] = some cost) :
    ∃ x, new.cost[j] = some x ∧ x ≤ base + cost - p.row[row] - p.col[j] := by
  obtain ⟨label, _⟩ := offered.told j cost shut found
  rcases old.offerCases row j (base + cost - p.row[row] - p.col[j]) with ⟨made, _⟩ | ⟨same, y, known, le⟩
  · exact ⟨_, by rw [label, made], Int.le_refl _⟩
  · exact ⟨y, by rw [label, same, known], le⟩

theorem falls (offered : Offered costs p row base closed old new) {j : Fin n} {x : Int} (known : old.cost[j] = some x) :
    ∃ y, new.cost[j] = some y ∧ y ≤ x := by
  by_cases shut : j ∈ closed
  · exact ⟨x, by rw [(offered.kept j (.inl shut)).1, known], Int.le_refl _⟩
  · cases found : costs[row][j] with
    | none => exact ⟨x, by rw [(offered.kept j (.inr found)).1, known], Int.le_refl _⟩
    | some cost =>
      obtain ⟨label, _⟩ := offered.told j cost shut found
      rcases old.offerCases row j (base + cost - p.row[row] - p.col[j]) with ⟨made, _, less⟩ | ⟨same, _⟩
      · exact ⟨_, by rw [label, made], Int.le_of_lt (less x known)⟩
      · exact ⟨x, by rw [label, same, known], Int.le_refl _⟩

theorem dist (offered : Offered costs p row base closed old new) {j : Fin n} (shut : j ∈ closed) :
    new.dist j = old.dist j := by
  rw [Labels.dist, Labels.dist, (offered.kept j (.inl shut)).1]

end Offered
end OptimalMatching
