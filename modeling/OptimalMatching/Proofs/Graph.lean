import OptimalMatching.Proofs.Grouped
import OptimalMatching.Proofs.Table

/-! What a pair of a graph costs: as much as its cheapest edge. -/
namespace OptimalMatching

namespace Graph
variable {w : Width} {rows cols n : Nat}

def Valid (g : Graph w rows cols) : Prop := ∀ e ∈ g.edges.toList, 0 ≤ e.cost ∧ e.cost < w.top

theorem validEmpty : (empty : Graph w rows cols).Valid := by
  simp [Valid, empty]

theorem validInsert {g : Graph w rows cols} (valid : g.Valid) {row col : Nat} {cost : Int} (inside : cost ≤ w.top) :
    (g.insert row col cost).Valid := by
  rcases g.insertCases row col cost with ⟨ok, pushed⟩ | ⟨_, same⟩
  · rw [pushed]
    intro e member
    rw [pushEdges, List.mem_append, List.mem_singleton] at member
    rcases member with old | new
    · exact valid e old
    · obtain ⟨_, nonneg, price⟩ := ok
      have apart : cost ≠ w.top := price
      rw [new]
      exact ⟨nonneg, by simp only; omega⟩
  · rw [same]
    exact valid

theorem largestNonneg (g : Graph w rows cols) : 0 ≤ g.largest := (foldlMax 0 _).1

theorem largestBounds {g : Graph w rows cols} {e : Edge rows cols} (member : e ∈ g.edges.toList) :
    e.cost ≤ g.largest :=
  (foldlMax 0 _).2.1 _ (List.mem_map.mpr ⟨e, member, rfl⟩)

theorem edgesWithin {g : Graph w rows cols} (valid : g.Valid) : ∀ e ∈ g.edges.toList, 0 ≤ e.cost ∧ e.cost ≤ g.largest :=
  fun e member => ⟨(valid e member).1, largestBounds member⟩

def cheapest (g : Graph w n n) : Costs n :=
  Vector.ofFn fun i => Vector.ofFn fun j =>
    ((g.edges.toList.filter fun e => e.row = i ∧ e.col = j).map Edge.cost).min?

theorem cheapestSome {g : Graph w n n} {i j : Fin n} {cost : Int} :
    g.cheapest[i][j] = some cost ↔
      ⟨i, j, cost⟩ ∈ g.edges.toList ∧ ∀ other, ⟨i, j, other⟩ ∈ g.edges.toList → cost ≤ other := by
  have prices : ∀ x, x ∈ (g.edges.toList.filter fun e => e.row = i ∧ e.col = j).map Edge.cost ↔
      ⟨i, j, x⟩ ∈ g.edges.toList := by
    intro x
    simp only [List.mem_map, List.mem_filter, decide_eq_true_eq]
    refine ⟨?_, fun member => ⟨_, ⟨member, rfl, rfl⟩, rfl⟩⟩
    intro ⟨e, ⟨member, isRow, isCol⟩, same⟩
    obtain ⟨row, col, price⟩ := e
    simp only at isRow isCol same
    rw [← isRow, ← isCol, ← same]
    exact member
  simp only [cheapest, readVal, Vector.getElem_ofFn, Fin.eta, List.min?_eq_some_iff, prices]

theorem cheapestNone {g : Graph w n n} {i j : Fin n} :
    g.cheapest[i][j] = none ↔ ∀ cost, ⟨i, j, cost⟩ ∉ g.edges.toList := by
  simp only [cheapest, readVal, Vector.getElem_ofFn, Fin.eta, List.min?_eq_none_iff, List.map_eq_nil_iff,
    List.filter_eq_nil_iff, decide_eq_true_eq, not_and]
  refine ⟨?_, ?_⟩
  · intro none cost member
    exact none _ member rfl rfl
  · intro none e member isRow isCol
    obtain ⟨row, col, cost⟩ := e
    simp only at isRow isCol
    rw [isRow, isCol] at member
    exact none cost member

theorem cheapestWithin {g : Graph w n n} (valid : g.Valid) : CostsWithin g.cheapest g.largest := by
  intro i j cost has
  have member := (cheapestSome.mp has).1
  exact ⟨(valid _ member).1, largestBounds member⟩

theorem cheapestOfCosts (costs : Costs n) : (@ofCosts w n costs).cheapest = costs := by
  have edges : ∀ (i j : Fin n) cost, ⟨i, j, cost⟩ ∈ (@ofCosts w n costs).edges.toList ↔ costs[i][j] = some cost := by
    intro i j cost
    rw [Array.mem_toList_iff, memOfCosts]
  have same : ∀ i j : Fin n, (@ofCosts w n costs).cheapest[i][j] = costs[i][j] := by
    intro i j
    cases has : costs[i][j] with
    | none =>
      rw [cheapestNone]
      intro cost member
      rw [edges, has] at member
      cases member
    | some cost =>
      rw [cheapestSome]
      refine ⟨(edges i j cost).mpr has, ?_⟩
      intro other member
      rw [edges, has] at member
      exact Int.le_of_eq (Option.some.inj member)
  refine Vector.ext ?_
  intro i hi
  refine Vector.ext ?_
  intro j hj
  exact same ⟨i, hi⟩ ⟨j, hj⟩

theorem validOfSquare {s : Square w n} (valid : s.toTable.Valid) : (ofSquare s).Valid := by
  intro e member
  rw [Array.mem_toList_iff] at member
  have has := memOfCosts.mp member
  have wide := w.wide
  rcases Square.costSome.mp has with ⟨_, _, same, price⟩ | ⟨_, zero⟩
  · have found := Square.getToTable s e.row e.col
    rw [same] at found
    have range := valid.cost _ _ _ found
    have apart : e.cost ≠ w.top := price
    omega
  · omega

theorem largestOfSquareLe {s : Square w n} (valid : s.toTable.Valid) : (ofSquare s).largest ≤ s.largest := by
  rcases (foldlMax 0 ((ofSquare s).edges.toList.map Edge.cost)).2.2 with zero | member
  · rw [largest, zero]
    exact Table.largestNonneg _
  · obtain ⟨e, inside, same⟩ := List.mem_map.mp member
    rw [Array.mem_toList_iff] at inside
    rw [largest, ← same]
    exact (Square.costsWithin valid e.row e.col _ (memOfCosts.mp inside)).2

theorem largestOfSquare {s : Square w n} (valid : s.toTable.Valid)
    (padded : ∀ i j : Fin n, ¬ (i.val < s.realRows ∧ j.val < s.realCols) → s.cell i j = w.blocked) :
    (ofSquare s).largest = s.largest := by
  refine Int.le_antisymm (largestOfSquareLe valid) ?_
  rcases Table.largestFound s.toTable with zero | ⟨row, col, found, price⟩
  · rw [Square.largest, zero]
    exact largestNonneg _
  · obtain ⟨⟨i, j⟩, _⟩ := Table.getSome.mp found
    have cell : s.cell ⟨row, i⟩ ⟨col, j⟩ = s.largest :=
      Option.some.inj ((s.getToTable ⟨row, i⟩ ⟨col, j⟩).symm.trans found)
    have real : row < s.realRows ∧ col < s.realCols := by
      by_contra outside
      exact price (cell.symm.trans (padded ⟨row, i⟩ ⟨col, j⟩ outside))
    have has : s.costs[(⟨row, i⟩ : Fin n)][(⟨col, j⟩ : Fin n)] = some s.largest :=
      Square.costSome.mpr (.inl ⟨real.1, real.2, cell, price⟩)
    exact largestBounds (Array.mem_toList_iff.mpr (@memOfCosts w n s.costs ⟨_, _, _⟩ |>.mpr has))

end Graph
end OptimalMatching
