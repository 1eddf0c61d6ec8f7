import OptimalMatching.Potential
import OptimalMatching.Proofs.Matching
import OptimalMatching.Proofs.Placement

/-! Potentials that certify a matching. They price no pairing below zero and the matched ones at zero; a row that is
not matched yet and a column without a row are worth nothing. Such a matching is a cheapest placement of its rows. -/
namespace OptimalMatching

variable {n : Nat}

structure Certificate (costs : Costs n) (k : Nat) (p : Potentials n) (m : Matching n) : Prop where
  pairs : Pairs k m
  feasible : ∀ (i j : Fin n) cost, costs[i][j] = some cost → 0 ≤ cost - p.row[i] - p.col[j]
  tight : ∀ i j : Fin n, m.colOf[i] = some j →
    ∃ cost, costs[i][j] = some cost ∧ cost - p.row[i] - p.col[j] = 0
  rowSign : ∀ i : Fin n, 0 ≤ p.row[i]
  colSign : ∀ j : Fin n, p.col[j] ≤ 0
  colFree : ∀ j : Fin n, m.rowOf[j] = none → p.col[j] = 0
  rowLater : ∀ i : Fin n, k ≤ i.val → p.row[i] = 0

namespace Certificate
variable {costs : Costs n} {k : Nat} {p : Potentials n} {m : Matching n}

theorem placement (c : Certificate costs k p m) : Placement costs k m.colAt := by
  refine ⟨?_, c.pairs.apart⟩
  intro i early
  obtain ⟨cost, found, _⟩ := c.tight i _ (c.pairs.colAt early)
  exact ⟨cost, found⟩

theorem cost (c : Certificate costs k p m) :
    placementCost costs k m.colAt = ∑ i : Fin n, p.row[i] + ∑ j : Fin n, p.col[j] := by
  refine pricesReached c.rowLater (fun j none => c.colFree j (c.pairs.unused none)) c.pairs.apart ?_
  intro i early
  obtain ⟨cost, found, zero⟩ := c.tight i _ (c.pairs.colAt early)
  rw [found]
  exact congrArg some (by omega)

theorem below (c : Certificate costs k p m) {col : Fin n → Fin n} (place : Placement costs k col) :
    ∑ i : Fin n, p.row[i] + ∑ j : Fin n, p.col[j] ≤ placementCost costs k col := by
  refine pricesBelow ?_ c.rowLater c.colSign place
  intro i j cost found
  have nonneg := c.feasible i j cost found
  omega

theorem leastCost (c : Certificate costs k p m) :
    LeastCost costs k (∑ i : Fin n, p.row[i] + ∑ j : Fin n, p.col[j]) :=
  ⟨⟨m.colAt, c.placement, c.cost⟩, fun _ place => c.below place⟩

end Certificate

theorem certificateStart {costs : Costs n} (nonneg : ∀ (i j : Fin n) cost, costs[i][j] = some cost → 0 ≤ cost) :
    Certificate costs 0 (.zero n) (.empty n) := by
  refine ⟨pairsEmpty n, ?_, ?_, ?_, ?_, ?_, ?_⟩
  · intro i j cost found
    simpa [Potentials.zero] using nonneg i j cost found
  · intro i j found
    simp [Matching.empty] at found
  · simp [Potentials.zero]
  · simp [Potentials.zero]
  · simp [Potentials.zero]
  · simp [Potentials.zero]

end OptimalMatching
