import Mathlib.Tactic.Ring
import OptimalMatching.Headroom
import OptimalMatching.Proofs.Certificate
import OptimalMatching.Proofs.Sweep

/-! The search of a solver that has matched the rows before. A scan is a sweep whose labels are as small as its visited
rows, so that the headroom is enough for every step. Both solvers keep a scan, whatever they settle among columns of
least label. -/
namespace OptimalMatching

variable {n : Nat}

def Estimate (costs : Costs n) (p : Potentials n) (m : Matching n) (first : Fin n) (g : Fin n → Int) : Prop :=
  ∀ (i j : Fin n) cost, i.val ≤ first.val → costs[i][j] = some cost →
    g j ≤ entry m g i + (cost - p.row[i] - p.col[j])

def CostsWithin (costs : Costs n) (most : Int) : Prop :=
  ∀ (i j : Fin n) cost, costs[i][j] = some cost → 0 ≤ cost ∧ cost ≤ most

structure Ready (costs : Costs n) (most : Int) (k : Nat) (p : Potentials n) (m : Matching n) : Prop where
  certificate : Certificate costs k p m
  within : CostsWithin costs most
  nonneg : 0 ≤ most
  colRange : ∀ j : Fin n, 0 ≤ p.col[j] + 2 * (k * most)

/-- What a search from row `first` knows when it has visited `rows` and settled `cols`, the latest at cost `base`: the
labels are long enough for every estimate, and no longer than the visited rows can make them. -/
structure Scan (costs : Costs n) (most : Int) (p : Potentials n) (m : Matching n) (first : Fin n) (labels : Labels n)
    (rows cols : List (Fin n)) (base : Int) : Prop extends Sweep costs p m first labels rows cols base where
  least : ∀ g, Estimate costs p m first g → ∀ (j : Fin n) x, labels.cost[j] = some x → g j ≤ x
  low : ∀ (j : Fin n) x, labels.cost[j] = some x → most ≤ x + p.col[j] + rows.length * most
  high : ∀ (j : Fin n) x, labels.cost[j] = some x → x + p.col[j] ≤ rows.length * most

structure Found (costs : Costs n) (most : Int) (p : Potentials n) (m : Matching n) (first : Fin n) (labels : Labels n)
    (rows older : List (Fin n)) (sink : Fin n) (reached : Int) : Prop where
  scan : Scan costs most p m first labels rows (sink :: older) reached
  swept : Swept m first rows older
  free : m.rowOf[sink] = none
  label : labels.cost[sink] = some reached

theorem rowProduct {most : Int} (k : Fin n) (nonneg : 0 ≤ most) :
    0 ≤ k.val * most ∧ k.val * most + most ≤ n * most := by
  have le : ((k.val + 1 : Nat) : Int) * most ≤ n * most :=
    Int.mul_le_mul_of_nonneg_right (by exact_mod_cast k.isLt) nonneg
  rw [Int.natCast_add, Int.add_mul] at le
  exact ⟨Int.mul_nonneg (Int.natCast_nonneg _) nonneg, by simpa using le⟩

theorem Pending.early {base : Int} {m : Matching n} {first row : Fin n} {labels : Labels n} {rows cols : List (Fin n)}
    (pending : Pending m first labels rows cols row base) (pairs : Pairs first.val m) :
    row.val < first.val + 1 := by
  rcases pending.way with same | ⟨c, _, partner⟩
  · rw [same]
    omega
  · have early := pairs.early partner
    omega

structure StepFits (w : Width) (p : Potentials n) (base price : Int) (row col : Fin n) : Prop where
  far : w.Holds (base + price)
  less : w.Holds (base + price - p.row[row])
  whole : w.Holds (base + price - p.row[row] - p.col[col])

theorem StepFits.reach {w : Width} {p : Potentials n} {base price : Int} {row col : Fin n}
    (fits : StepFits w p base price row col) :
    p.reach w base price row col = .ok (base + price - p.row[row] - p.col[col]) :=
  Potentials.reachOk.mpr ⟨rfl, fits.far, fits.less, fits.whole⟩

theorem roomHolds {w : Width} {most x : Int} (room : most * roomFactor n ≤ w.top)
    (low : 0 ≤ x + (4 * (n * most) + 4 * most)) (high : x ≤ 4 * (n * most) + 4 * most) : w.Holds x := by
  have balanced := w.balanced
  have wide : most * roomFactor n = 4 * (n * most) + 4 * most := by
    unfold roomFactor
    push_cast
    ring
  exact ⟨by omega, by omega⟩

theorem Potentials.rowRange {costs : Costs n} {most : Int} {k : Nat} {p : Potentials n} {m : Matching n}
    (ready : Ready costs most k p m) (i : Fin n) : p.row[i] ≤ 2 * (k * most) + most := by
  cases found : m.colOf[i] with
  | none =>
    have late : k ≤ i.val := by
      by_contra early
      obtain ⟨j, matched⟩ := (ready.certificate.pairs.rows i).mpr (by omega)
      rw [found] at matched
      cases matched
    have zero := ready.certificate.rowLater i late
    have nonneg := ready.nonneg
    have product : 0 ≤ k * most := Int.mul_nonneg (Int.natCast_nonneg k) nonneg
    omega
  | some j =>
    obtain ⟨cost, has, tight⟩ := ready.certificate.tight i j found
    have range := ready.colRange j
    have bound := ready.within i j cost has
    omega

theorem zeroEstimate {costs : Costs n} {k : Nat} {p : Potentials n} {m : Matching n} {first : Fin n}
    (c : Certificate costs k p m) : Estimate costs p m first fun _ => 0 := by
  intro i j cost _ found
  have nonneg := c.feasible i j cost found
  have start : entry m (fun _ => 0) i = 0 := by
    unfold entry
    split <;> rfl
  simp only [start]
  omega

namespace Scan
variable {costs : Costs n} {most base : Int} {p : Potentials n} {m : Matching n} {first row : Fin n}
  {labels next : Labels n} {rows cols : List (Fin n)}

theorem start (blank : ∀ j : Fin n, labels.cost[j] = none) : Scan costs most p m first labels [] [] 0 := by
  have unlabelled : ∀ (j : Fin n) x, labels.cost[j] ≠ some x := by
    intro j x found
    rw [blank] at found
    cases found
  refine ⟨Sweep.start blank, ?_, ?_, ?_⟩
  · exact fun g _ j x found => absurd found (unlabelled j x)
  · exact fun j x found => absurd found (unlabelled j x)
  · exact fun j x found => absurd found (unlabelled j x)

theorem nonneg (scan : Scan costs most p m first labels rows cols base) {k : Nat} (c : Certificate costs k p m)
    {j : Fin n} {x : Int} (found : labels.cost[j] = some x) : 0 ≤ x :=
  scan.least _ (zeroEstimate c) j x found

theorem pendingNonneg (scan : Scan costs most p m first labels rows cols base) {k : Nat} (c : Certificate costs k p m)
    (waiting : m.colOf[first] = none) (pending : Pending m first labels rows cols row base) : 0 ≤ base := by
  rcases pending.way with same | ⟨col, inside, partner⟩
  · have entered := pending.entered
    rw [same, entryNone waiting] at entered
    omega
  · have entered := pending.entered
    rw [entrySome partner] at entered
    rw [← entered]
    exact scan.nonneg c (scan.distSettled inside).1

theorem pendingRange (scan : Scan costs most p m first labels rows cols base) (ready : Ready costs most first.val p m)
    (pending : Pending m first labels rows cols row base) :
    0 ≤ base - p.row[row] + rows.length * most ∧ base - p.row[row] ≤ rows.length * most := by
  have waiting := ready.certificate.pairs.late (Nat.le_refl first.val)
  have product : 0 ≤ rows.length * most := Int.mul_nonneg (Int.natCast_nonneg _) ready.nonneg
  have entered := pending.entered
  rcases pending.way with same | ⟨col, inside, partner⟩
  · have zero := ready.certificate.rowLater first (Nat.le_refl _)
    rw [same, entryNone waiting] at entered
    rw [same]
    omega
  · obtain ⟨cost, has, tight⟩ := ready.certificate.tight row col partner
    have bound := ready.within row col cost has
    have found := (scan.distSettled inside).1
    have low := scan.low col _ found
    have high := scan.high col _ found
    rw [entrySome partner] at entered
    omega

theorem pendingLeast (scan : Scan costs most p m first labels rows cols base) (waiting : m.colOf[first] = none)
    (pending : Pending m first labels rows cols row base) {g : Fin n → Int} (estimate : Estimate costs p m first g) :
    entry m g row ≤ base := by
  have entered := pending.entered
  rcases pending.way with same | ⟨col, inside, partner⟩
  · rw [same, entryNone waiting] at entered ⊢
    exact Int.le_of_eq entered
  · rw [entrySome partner] at entered ⊢
    rw [← entered]
    exact scan.least g estimate col _ (scan.distSettled inside).1

section Relax
variable (scan : Scan costs most p m first labels rows cols base) (ready : Ready costs most first.val p m)
  (pending : Pending m first labels rows cols row base) (offered : Offered costs p row base cols labels next)
include scan ready pending offered

theorem relaxLeast {g : Fin n → Int} (estimate : Estimate costs p m first g) {j : Fin n} {x : Int}
    (found : next.cost[j] = some x) : g j ≤ x := by
  have pairs := ready.certificate.pairs
  rcases offered.cases found with ⟨before, _⟩ | ⟨_, cost, has, exact⟩
  · exact scan.least g estimate j x before
  · have le := scan.pendingLeast (pairs.late (Nat.le_refl _)) pending estimate
    have step := estimate row j cost (Nat.le_of_lt_succ (pending.early pairs)) has
    omega

theorem relaxRange {j : Fin n} {x : Int} (found : next.cost[j] = some x) :
    most ≤ x + p.col[j] + (row :: rows).length * most ∧ x + p.col[j] ≤ (row :: rows).length * most := by
  have longer : ((row :: rows).length : Int) * most = rows.length * most + most := by
    rw [List.length_cons, Int.natCast_add, Int.add_mul]
    simp
  have nonneg := ready.nonneg
  rw [longer]
  rcases offered.cases found with ⟨before, _⟩ | ⟨_, cost, has, exact⟩
  · have low := scan.low j x before
    have high := scan.high j x before
    omega
  · have range := scan.pendingRange ready pending
    have bound := ready.within row j cost has
    omega

theorem relax : Scan costs most p m first next (row :: rows) cols base := by
  have waiting := ready.certificate.pairs.late (Nat.le_refl first.val)
  refine ⟨scan.toSweep.relax waiting pending offered ready.certificate.feasible, ?_, ?_, ?_⟩
  · exact fun g estimate j x found => scan.relaxLeast ready pending offered estimate found
  · exact fun j x found => (scan.relaxRange ready pending offered found).1
  · exact fun j x found => (scan.relaxRange ready pending offered found).2

end Relax

theorem settle (scan : Scan costs most p m first labels rows cols base) {col : Fin n} {x : Int}
    (fresh : col ∉ cols) (found : labels.cost[col] = some x)
    (min : ∀ (j : Fin n) y, j ∉ cols → labels.cost[j] = some y → x ≤ y) :
    Scan costs most p m first labels rows (col :: cols) x :=
  ⟨scan.toSweep.settle fresh found min, scan.least, scan.low, scan.high⟩

theorem early (scan : Scan costs most p m first labels rows cols base) (pairs : Pairs first.val m) {i : Fin n}
    (member : i ∈ rows) : i.val < first.val + 1 := by
  rcases scan.visited i member with same | ⟨c, _, partner⟩
  · rw [same]
    omega
  · have early := pairs.early partner
    omega

theorem crowded (scan : Scan costs most p m first labels rows cols base) (pairs : Pairs first.val m)
    (swept : Swept m first rows cols) (none : ∀ j : Fin n, j ∉ cols → labels.cost[j] = none) :
    Crowded costs (first.val + 1) rows cols := by
  refine ⟨fun i member => scan.early pairs member, scan.distinct, ?_, ?_⟩
  · intro i member j cost has
    by_contra outside
    obtain ⟨x, found, _⟩ := scan.offered i member j cost has
    rw [none j outside] at found
    cases found
  · have size := swept.size
    omega

end Scan

theorem nodupLength {k : Nat} {rows : List (Fin n)} (distinct : rows.Nodup) (early : ∀ i ∈ rows, i.val < k) :
    rows.length ≤ k := by
  have values := distinct.map Fin.val_injective
  have inside : rows.map Fin.val ⊆ List.range k := by
    intro x member
    obtain ⟨i, here, same⟩ := List.mem_map.mp member
    rw [← same]
    exact List.mem_range.mpr (early i here)
  have le := (values.subperm inside).length_le
  rw [List.length_map, List.length_range] at le
  exact le

namespace Pending
variable {costs : Costs n} {most base : Int} {p : Potentials n} {m : Matching n} {first row : Fin n}
  {labels : Labels n} {rows cols : List (Fin n)}

theorem fewRows (scan : Scan costs most p m first labels rows cols base)
    (pending : Pending m first labels rows cols row base) (pairs : Pairs first.val m) : rows.length ≤ first.val := by
  have le : (row :: rows).length ≤ first.val + 1 := by
    refine nodupLength (List.nodup_cons.mpr ⟨pending.fresh, scan.distinct⟩) ?_
    intro i member
    rcases List.mem_cons.mp member with same | inside
    · rw [same]
      exact pending.early pairs
    · exact scan.early pairs inside
  rw [List.length_cons] at le
  omega

theorem fits (scan : Scan costs most p m first labels rows cols base)
    (pending : Pending m first labels rows cols row base) (ready : Ready costs most first.val p m) {w : Width}
    (room : most * roomFactor n ≤ w.top) (j : Fin n) {cost : Int} (bound : 0 ≤ cost ∧ cost ≤ most) :
    StepFits w p base cost row j := by
  have pairs := ready.certificate.pairs
  have waiting := pairs.late (Nat.le_refl first.val)
  have positive := scan.pendingNonneg ready.certificate waiting pending
  have range := scan.pendingRange ready pending
  have few : rows.length * most ≤ first.val * most :=
    Int.mul_le_mul_of_nonneg_right (by exact_mod_cast fewRows scan pending pairs) ready.nonneg
  have inside := rowProduct first ready.nonneg
  have rowSign := ready.certificate.rowSign row
  have rowBound := p.rowRange ready row
  have colSign := ready.certificate.colSign j
  have colBound := ready.colRange j
  refine ⟨roomHolds room ?_ ?_, roomHolds room ?_ ?_, roomHolds room ?_ ?_⟩ <;> omega

end Pending
end OptimalMatching
