import OptimalMatching.Hungarian
import OptimalMatching.Proofs.Ending
import OptimalMatching.Proofs.Hungarian.Stars

/-! The shifts of the star and prime method. They price no pairing below zero and the starred ones at zero, and they are
bounded by how far the rows without a star have been lowered. With a star in every row they prove it of least cost. -/
namespace OptimalMatching.Hungarian

variable {α β : Type} {w : Width} {n : Nat} {costs : Costs n} {most drift : Int} {s t : State n}

def Ends (roomy : Prop) (stuck : Nat → Prop) (good : α → Prop) : Except Failure α → Prop
  | .ok a => good a
  | .error (.overflow _) => ¬ roomy
  | .error (.infeasible row) => stuck row
  | .error _ => False

namespace Ends
variable {roomy : Prop} {stuck : Nat → Prop} {good : α → Prop} {after : β → Prop}

theorem bind {x : Except Failure α} {f : α → Except Failure β} (first : Ends roomy stuck good x)
    (next : ∀ a, good a → Ends roomy stuck after (f a)) : Ends roomy stuck after (x >>= f) := by
  cases x with
  | ok a => exact next a first
  | error failure => cases failure <;> exact first

theorem imp {better : α → Prop} {x : Except Failure α} (ends : Ends roomy stuck good x)
    (next : ∀ a, good a → better a) : Ends roomy stuck better x := by
  cases x with
  | ok a => exact next a ends
  | error failure => cases failure <;> exact ends

theorem keep {cause : Overflow} {x : Int} (fits : roomy → w.Holds x) :
    Ends roomy stuck (fun y => y = x ∧ w.Holds x) (w.keep (.overflow cause) x) := by
  unfold Width.keep
  split
  case isTrue inside => exact ⟨rfl, inside⟩
  case isFalse outside => exact fun room => outside (fits room)

end Ends

structure Priced (w : Width) (costs : Costs n) (most : Int) : Prop where
  within : CostsWithin costs most
  nonneg : 0 ≤ most
  small : most ≤ w.top

def priceAt (costs : Costs n) (s : State n) (i j : Fin n) : Option Int :=
  (costs[i][j]).map fun cost => cost + s.rowShift[i] + s.colShift[j]

theorem priceAtSome {i j : Fin n} {x : Int} :
    priceAt costs s i j = some x ↔ ∃ cost, costs[i][j] = some cost ∧ cost + s.rowShift[i] + s.colShift[j] = x := by
  simp [priceAt]

theorem priceAtNone {i j : Fin n} : priceAt costs s i j = none ↔ costs[i][j] = none := by
  simp [priceAt]

structure Shifts (costs : Costs n) (most drift : Int) (s : State n) : Prop where
  apart : Apart s
  feasible : ∀ (i j : Fin n) x, priceAt costs s i j = some x → 0 ≤ x
  tight : ∀ i j : Fin n, s.mark i j = .star → priceAt costs s i j = some 0
  rowSign : ∀ i : Fin n, s.rowShift[i] ≤ 0
  colSign : ∀ j : Fin n, 0 ≤ s.colShift[j]
  colFree : ∀ j : Fin n, (∀ i, s.mark i j ≠ .star) → s.colShift[j] = 0
  rowFall : ∀ i : Fin n, 0 ≤ s.rowShift[i] + most + drift
  colRise : ∀ j : Fin n, s.colShift[j] ≤ drift
  waiting : ∀ i : Fin n, (∀ j, s.mark i j ≠ .star) → s.rowShift[i] + drift ≤ 0
  positive : 0 ≤ drift

namespace Shifts

theorem restar (shifts : Shifts costs most drift s) (row : t.rowShift = s.rowShift) (col : t.colShift = s.colShift)
    (apart : Apart t) (zero : ∀ i j : Fin n, t.mark i j = .star → priceAt costs s i j = some 0)
    (rows : ∀ i : Fin n, (∃ j, s.mark i j = .star) → ∃ j, t.mark i j = .star)
    (cols : ∀ j : Fin n, (∃ i, s.mark i j = .star) → ∃ i, t.mark i j = .star) : Shifts costs most drift t := by
  have price : ∀ i j, priceAt costs t i j = priceAt costs s i j := by
    intro i j
    rw [priceAt, priceAt, row, col]
  refine ⟨apart, ?_, ?_, ?_, ?_, ?_, ?_, ?_, ?_, shifts.positive⟩
  · intro i j x
    rw [price]
    exact shifts.feasible i j x
  · intro i j star
    rw [price]
    exact zero i j star
  · rw [row]
    exact shifts.rowSign
  · rw [col]
    exact shifts.colSign
  · intro j free
    rw [col]
    refine shifts.colFree j ?_
    intro i star
    obtain ⟨i', now⟩ := cols j ⟨i, star⟩
    exact free i' now
  · rw [row]
    exact shifts.rowFall
  · rw [col]
    exact shifts.colRise
  · intro i free
    rw [row]
    refine shifts.waiting i ?_
    intro j star
    obtain ⟨j', now⟩ := rows i ⟨j, star⟩
    exact free j' now

theorem congr (shifts : Shifts costs most drift s) (row : t.rowShift = s.rowShift) (col : t.colShift = s.colShift)
    (same : ∀ i j : Fin n, t.mark i j = .star ↔ s.mark i j = .star) : Shifts costs most drift t := by
  refine shifts.restar row col (starsCongr same shifts.apart).1 ?_ ?_ ?_
  · intro i j star
    exact shifts.tight i j ((same i j).mp star)
  · intro i ⟨j, star⟩
    exact ⟨j, (same i j).mpr star⟩
  · intro j ⟨i, star⟩
    exact ⟨i, (same i j).mpr star⟩

theorem fits (shifts : Shifts costs most drift s) (priced : Priced w costs most) (range : drift ≤ 2 * (n * most))
    (room : most * roomFactor n ≤ w.top) {i j : Fin n} {cost : Int} (has : costs[i][j] = some cost) :
    w.Holds (cost + s.rowShift[i]) ∧ w.Holds (cost + s.rowShift[i] + s.colShift[j]) := by
  have bound := priced.within i j cost has
  have nonneg := priced.nonneg
  have product : 0 ≤ n * most := Int.mul_nonneg (Int.natCast_nonneg n) nonneg
  have fall := shifts.rowFall i
  have rowSign := shifts.rowSign i
  have rise := shifts.colRise j
  have colSign := shifts.colSign j
  exact ⟨roomHolds room (by omega) (by omega), roomHolds room (by omega) (by omega)⟩

theorem price (shifts : Shifts costs most drift s) (priced : Priced w costs most) (range : drift ≤ 2 * (n * most))
    {stuck : Nat → Prop} (i j : Fin n) :
    Ends (most * roomFactor n ≤ w.top) stuck (fun x => x = priceAt costs s i j ∧ ∀ y, x = some y → y ≤ w.top)
      (s.price w costs i j) := by
  cases has : costs[i][j] with
  | none =>
    simp only [State.price, has]
    exact ⟨(priceAtNone.mpr has).symm, by rintro _ ⟨⟩⟩
  | some cost =>
    simp only [State.price, has]
    refine Ends.bind (Ends.keep fun room => (shifts.fits priced range room has).1) ?_
    rintro a ⟨first, _⟩
    rw [first]
    refine Ends.bind (Ends.keep fun room => (shifts.fits priced range room has).2) ?_
    rintro b ⟨second, holds⟩
    rw [second]
    refine ⟨(priceAtSome.mpr ⟨cost, has, rfl⟩).symm, ?_⟩
    intro y same
    rw [← Option.some.inj same]
    exact holds.2

end Shifts

def starAt (s : State n) (i : Fin n) : Fin n := (s.markInRow i .star).getD i

theorem starAtStar {i : Fin n} (has : ∃ j, s.mark i j = .star) :
    s.markInRow i .star = some (starAt s i) ∧ s.mark i (starAt s i) = .star := by
  cases found : s.markInRow i .star with
  | none =>
    obtain ⟨j, star⟩ := has
    exact absurd star (markInRowNone.mp found j)
  | some j =>
    have at_ : starAt s i = j := by rw [starAt, found, Option.getD_some]
    rw [at_]
    exact ⟨rfl, markInRowSome found⟩

namespace Shifts

/- Stars in all rows are a placement of least cost: it attains the bound that the shifts give. -/
theorem optimal (shifts : Shifts costs most drift s) (all : ∀ i : Fin n, ∃ j, s.mark i j = .star) :
    Placement costs n (starAt s) ∧ ∀ col, Placement costs n col →
      placementCost costs n (starAt s) ≤ placementCost costs n col := by
  have tight : ∀ i : Fin n, ∃ cost, costs[i][starAt s i] = some cost ∧
      cost + s.rowShift[i] + s.colShift[starAt s i] = 0 :=
    fun i => priceAtSome.mp (shifts.tight i _ (starAtStar (all i)).2)
  have apart : ∀ i j : Fin n, i.val < n → j.val < n → starAt s i = starAt s j → i = j := by
    intro i j _ _ same
    have left := (starAtStar (all i)).2
    have right := (starAtStar (all j)).2
    rw [same] at left
    exact shifts.apart.col i j _ left right
  refine ⟨⟨?_, apart⟩, ?_⟩
  · intro i _
    obtain ⟨cost, has, _⟩ := tight i
    exact ⟨cost, has⟩
  · intro col place
    have reached := @pricesReached n costs n (fun i => -s.rowShift[i]) (fun j => -s.colShift[j]) (starAt s)
      (fun i late => absurd i.isLt (by omega)) (by
        intro j apart
        have free : ∀ i, s.mark i j ≠ .star := by
          intro i star
          exact apart i i.isLt (shifts.apart.row i _ _ (starAtStar (all i)).2 star)
        simp only [shifts.colFree j free, Int.neg_zero]) apart (by
        intro i _
        obtain ⟨cost, has, zero⟩ := tight i
        rw [has]
        exact congrArg some (by omega))
    have below := @pricesBelow n costs n (fun i => -s.rowShift[i]) (fun j => -s.colShift[j]) (by
        intro i j cost has
        have nonneg := shifts.feasible i j _ (priceAtSome.mpr ⟨cost, has, rfl⟩)
        omega) (fun i late => absurd i.isLt (by omega)) (by
        intro j
        have sign := shifts.colSign j
        omega) col place
    omega

end Shifts

theorem columnsOk (all : ∀ i : Fin n, ∃ j, s.mark i j = .star) :
    columns s = .ok ((List.finRange n).map fun i => (starAt s i).val) := by
  refine mapMOk ?_
  intro i _
  rw [(starAtStar (all i)).1]

end OptimalMatching.Hungarian
