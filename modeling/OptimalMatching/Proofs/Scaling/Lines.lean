import Mathlib.Tactic.LinearCombination
import OptimalMatching.Event
import OptimalMatching.Proofs.Augment

/-! Two problems of one size, the second with the costs of the first times a positive factor and with an amount of its own
added in each row. A search from a row sees every way of the second at the cost of the first, changed by the factor and
by the amount of the row in which the search began. So all comparisons come out alike, and so do all ties. -/
namespace OptimalMatching

variable {n : Nat}

structure Scale (n : Nat) where
  factor : Int
  lift : Fin n → Int
  positive : 0 < factor

namespace Scale
variable {z : Scale n} {row : Fin n} {x y : Int}

def cost (z : Scale n) (row : Fin n) (x : Int) : Int := z.factor * x + z.lift row

def same (n : Nat) : Scale n := ⟨1, fun _ => 0, by decide⟩

theorem sameCost : (same n).cost row x = x := by
  simp [cost, same]

theorem costLt : z.cost row x < z.cost row y ↔ x < y := by
  unfold cost
  rw [Int.add_lt_add_iff_right]
  exact Int.mul_lt_mul_left z.positive

theorem costLe : z.cost row x ≤ z.cost row y ↔ x ≤ y := by
  rw [← Int.not_lt, ← Int.not_lt, costLt]

theorem costInj : z.cost row x = z.cost row y ↔ x = y := by
  refine ⟨fun equal => ?_, congrArg _⟩
  exact Int.le_antisymm (costLe.mp (Int.le_of_eq equal)) (costLe.mp (Int.le_of_eq equal.symm))

end Scale

def ScaledCosts (z : Scale n) (costs costs' : Costs n) : Prop :=
  ∀ i j : Fin n, costs'[i][j] = (costs[i][j]).map (z.cost i)

theorem scaledSame (costs : Costs n) : ScaledCosts (.same n) costs costs := by
  intro i j
  have same : (Scale.same n).cost i = id := funext fun _ => Scale.sameCost
  rw [same, Option.map_id, id]

structure ScaledLabels (z : Scale n) (first : Fin n) (l l' : Labels n) : Prop where
  cost : ∀ j : Fin n, l'.cost[j] = (l.cost[j]).map (z.cost first)
  origin : ∀ j : Fin n, l'.reachedFrom[j] = l.reachedFrom[j]

structure ScaledPotentials (z : Scale n) (k : Nat) (p p' : Potentials n) : Prop where
  row : ∀ i : Fin n, i.val < k → p'.row[i] = z.cost i p.row[i]
  late : ∀ i : Fin n, k ≤ i.val → p.row[i] = 0 ∧ p'.row[i] = 0
  col : ∀ j : Fin n, p'.col[j] = z.factor * p.col[j]

def ScaledEntry (z : Scale n) (first : Fin n) (p p' : Potentials n) (row : Fin n) (base base' : Int) : Prop :=
  base' - p'.row[row] + z.lift row = z.cost first (base - p.row[row])

inductive ScaledReport (z : Scale n) : Event → Event → Prop
  | dense (row : Fin n) (col : Nat) (cost : Int) :
      ScaledReport z (.denseReached row col cost) (.denseReached row col (z.cost row cost))
  | sparse (row : Fin n) (col : Nat) (cost : Int) (visited : Nat) :
      ScaledReport z (.sparseReached row col cost visited) (.sparseReached row col (z.cost row cost) visited)

variable {z : Scale n} {costs costs' : Costs n} {p p' q q' : Potentials n} {m : Matching n} {first row : Fin n}
  {base base' : Int} {l l' : Labels n}

namespace ScaledPotentials

theorem zero (z : Scale n) : ScaledPotentials z 0 (.zero n) (.zero n) := by
  refine ⟨fun i early => absurd early (Nat.not_lt_zero _), ?_, ?_⟩ <;> simp [Potentials.zero]

/- The first row has no amount in its potential yet, so the amount goes into the ways that start from it. -/
theorem enterFirst (potentials : ScaledPotentials z first.val p p') : ScaledEntry z first p p' first 0 0 := by
  obtain ⟨one, two⟩ := potentials.late first (Nat.le_refl _)
  unfold ScaledEntry Scale.cost
  rw [one, two]
  ring

theorem enter (potentials : ScaledPotentials z first.val p p') (early : row.val < first.val) :
    ScaledEntry z first p p' row base (z.cost first base) := by
  unfold ScaledEntry
  rw [potentials.row row early]
  unfold Scale.cost
  ring

theorem way (potentials : ScaledPotentials z first.val p p') (entry : ScaledEntry z first p p' row base base')
    (col : Fin n) (price : Int) : base' + z.cost row price - p'.row[row] - p'.col[col] =
      z.cost first (base + price - p.row[row] - p.col[col]) := by
  unfold ScaledEntry at entry
  rw [potentials.col col]
  unfold Scale.cost at entry ⊢
  linear_combination entry

theorem moved {dist dist' : Fin n → Int} {reached : Int} (potentials : ScaledPotentials z first.val p p')
    (pairs : Pairs first.val m) (move : Moved m first dist reached p q)
    (move' : Moved m first dist' (z.cost first reached) p' q') (levels : ∀ j, dist' j = z.cost first (dist j)) :
    ScaledPotentials z (first.val + 1) q q' := by
  refine ⟨?_, ?_, ?_⟩
  · intro i early
    rw [move.rowUp i (by omega), move'.rowUp i (by omega)]
    by_cases isFirst : i = first
    · obtain ⟨one, two⟩ := potentials.late first (Nat.le_refl _)
      have waiting := pairs.late (Nat.le_refl first.val)
      rw [isFirst, entryNone waiting, entryNone waiting, one, two]
      unfold Scale.cost
      ring
    · have before : i.val < first.val := by
        rw [Fin.ext_iff] at isFirst
        omega
      have partner := pairs.colAt before
      rw [entrySome partner, entrySome partner, levels, potentials.row i before]
      unfold Scale.cost
      ring
  · intro i late
    rw [move.rowSame i (by omega), move'.rowSame i (by omega)]
    exact potentials.late i (by omega)
  · intro j
    rw [move.colDown j, move'.colDown j, levels, potentials.col]
    unfold Scale.cost
    ring

end ScaledPotentials

namespace ScaledLabels

theorem offer (labels : ScaledLabels z first l l') (row j : Fin n) (x : Int) :
    (l'.offer row j (z.cost first x)).cost[j] = ((l.offer row j x).cost[j]).map (z.cost first) ∧
      (l'.offer row j (z.cost first x)).reachedFrom[j] = (l.offer row j x).reachedFrom[j] := by
  have same : l'.improves j (z.cost first x) = l.improves j x := by
    unfold Labels.improves
    rw [labels.cost j]
    cases l.cost[j] with
    | none => rfl
    | some known => exact decide_eq_decide.mpr Scale.costLt
  unfold Labels.offer
  rw [same]
  split
  · simp only [Labels.writeCost, Labels.writeFrom, if_true, Option.map_some, and_self]
  · exact ⟨labels.cost j, labels.origin j⟩

theorem offered {closed : List (Fin n)} {next next' : Labels n} (labels : ScaledLabels z first l l')
    (scaled : ScaledCosts z costs costs') (potentials : ScaledPotentials z first.val p p')
    (entry : ScaledEntry z first p p' row base base') (told : Offered costs p row base closed l next)
    (told' : Offered costs' p' row base' closed l' next') : ScaledLabels z first next next' := by
  have each : ∀ j : Fin n, next'.cost[j] = (next.cost[j]).map (z.cost first) ∧
      next'.reachedFrom[j] = next.reachedFrom[j] := by
    intro j
    by_cases shut : j ∈ closed
    · obtain ⟨cost, origin⟩ := told.kept j (.inl shut)
      obtain ⟨cost', origin'⟩ := told'.kept j (.inl shut)
      rw [cost, cost', origin, origin']
      exact ⟨labels.cost j, labels.origin j⟩
    · have price' := scaled row j
      cases price : costs[row][j] with
      | none =>
        rw [price, Option.map_none] at price'
        obtain ⟨cost, origin⟩ := told.kept j (.inr price)
        obtain ⟨cost', origin'⟩ := told'.kept j (.inr price')
        rw [cost, cost', origin, origin']
        exact ⟨labels.cost j, labels.origin j⟩
      | some x =>
        rw [price, Option.map_some] at price'
        obtain ⟨cost, origin⟩ := told.told j x shut price
        obtain ⟨cost', origin'⟩ := told'.told j _ shut price'
        rw [cost, cost', origin, origin', potentials.way entry j x]
        exact labels.offer row j _
  exact ⟨fun j => (each j).1, fun j => (each j).2⟩

theorem level (labels : ScaledLabels z first l l') {cols : List (Fin n)} (reached : Int)
    (settled : ∀ c ∈ cols, ∃ x, l.cost[c] = some x) (j : Fin n) :
    level l' cols (z.cost first reached) j = z.cost first (OptimalMatching.level l cols reached j) := by
  unfold OptimalMatching.level
  split
  case isFalse => rfl
  case isTrue member =>
    obtain ⟨x, known⟩ := settled j member
    have known' := labels.cost j
    rw [known, Option.map_some] at known'
    rw [Labels.distSome known, Labels.distSome known']

end ScaledLabels

theorem scaledCommit {most most' reached : Int} {rows older : List (Fin n)} {sink : Fin n}
    (labels : ScaledLabels z first l l') (potentials : ScaledPotentials z first.val p p')
    (found : Found costs most p m first l rows older sink reached)
    (found' : Found costs' most' p' m first l' rows older sink (z.cost first reached))
    (ready : Ready costs most first.val p m) (ready' : Ready costs' most' first.val p' m) {w w' : Width}
    (room : most * roomFactor n ≤ w.top) (room' : most' * roomFactor n ≤ w'.top) :
    ∃ q q' new, p.update w m l first reached rows (sink :: older) = .ok q ∧
      p'.update w' m l' first (z.cost first reached) rows (sink :: older) = .ok q' ∧
      m.flipPath l.reachedFrom first sink = .ok new ∧ m.flipPath l'.reachedFrom first sink = .ok new ∧
      ScaledPotentials z (first.val + 1) q q' ∧ Ready costs most (first.val + 1) q new ∧
      Ready costs' most' (first.val + 1) q' new := by
  have origins : l'.reachedFrom = l.reachedFrom := Vector.ext fun j inside => labels.origin ⟨j, inside⟩
  have settled : ∀ c ∈ sink :: older, ∃ x, l.cost[c] = some x :=
    fun c member => (found.scan.settled c member).imp fun _ known => known.1
  obtain ⟨q, updated, moved⟩ := found.update ready room
  obtain ⟨q', updated', moved'⟩ := found'.update ready' room'
  obtain ⟨_, new, walked, _, _, flipped, pairs⟩ := flipPathOk ready.certificate.pairs found.free found.scan.trail
  have walked' : m.flipPath l'.reachedFrom first sink = .ok new := by rw [origins, walked]
  have flipped' : Flipped l'.reachedFrom first sink (sink :: older) m new := by rwa [origins]
  have certificate := found.certificate ready moved pairs flipped
  have certificate' := found'.certificate ready' moved' pairs flipped'
  exact ⟨q, q', new, updated, updated', walked, walked',
    potentials.moved ready.certificate.pairs moved moved' (labels.level reached settled),
    found.ready ready moved certificate, found'.ready ready' moved' certificate'⟩

end OptimalMatching
