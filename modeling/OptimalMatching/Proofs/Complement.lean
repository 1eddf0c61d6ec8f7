import OptimalMatching.Proofs.Duals
import OptimalMatching.Proofs.Selection

/-! Tables turned around. Turning a table around twice takes its smallest cost off every price, so a third time changes what
the first did and nothing else; and an amount added to every price is lost at once. The largest cost is looked for anew
each time, among the prices only. -/
namespace OptimalMatching

variable {w : Width}

namespace Table
variable {t : Table w}

def raised (t : Table w) (amount : Int) : Table w :=
  t.map fun cost => if cost = w.blocked then cost else cost + amount

def smallest (t : Table w) : Int := ((t.values.filter (· ≠ w.blocked)).min?).getD 0

structure TurnedAround (t turned : Table w) : Prop where
  shape : turned.rows = t.rows ∧ turned.cols = t.cols
  blocked : ∀ i j, turned.get? i j = some w.blocked ↔ t.get? i j = some w.blocked
  price : ∀ i j x, t.get? i j = some x → x ≠ w.blocked → ∃ y, turned.get? i j = some y ∧ 0 ≤ y ∧ y < w.top
  reversed : ∀ i j k l x y x' y', t.get? i j = some x → x ≠ w.blocked → t.get? k l = some y → y ≠ w.blocked →
    turned.get? i j = some x' → turned.get? k l = some y' → (x < y ↔ y' < x')

theorem mapMap (t : Table w) (f g : Int → Int) : (t.map f).map g = t.map fun x => g (f x) := by
  refine sheetInj ?_
  simp only [map, Sheet.map, List.map_map]
  rfl

theorem mapCongr {f g : Int → Int} (same : ∀ i j x, t.get? i j = some x → f x = g x) : t.map f = t.map g := by
  have cells : t.costs.toList.map f = t.costs.toList.map g := by
    refine List.map_congr_left fun x member => ?_
    obtain ⟨i, j, found⟩ := memValues.mp member
    exact same i j x found
  refine sheetInj ?_
  simp only [map, Sheet.map, cells]

theorem mapSame {f : Int → Int} (same : ∀ i j x, t.get? i j = some x → f x = x) : t.map f = t := by
  have whole : t.map (fun x => x) = t := by
    refine sheetInj ?_
    simp only [map, Sheet.map, List.map_id', Array.toArray_toList]
  rw [mapCongr same, whole]

theorem largestIs {i j : Nat} {x : Int} (found : t.get? i j = some x) (price : x ≠ w.blocked) (nonneg : 0 ≤ x)
    (bound : ∀ k l y, t.get? k l = some y → y ≠ w.blocked → y ≤ x) : t.largest = x := by
  refine Int.le_antisymm ?_ (largestBounds found price)
  rcases t.largestFound with zero | ⟨k, l, other, isPrice⟩
  · rw [zero]
    exact nonneg
  · exact bound k l _ other isPrice

structure Smallest (t : Table w) (low : Int) : Prop where
  found : ∃ i j, t.get? i j = some low ∧ low ≠ w.blocked
  least : ∀ i j x, t.get? i j = some x → x ≠ w.blocked → low ≤ x

def Unpriced (t : Table w) : Prop := ∀ i j x, t.get? i j = some x → x = w.blocked

theorem smallestCases (t : Table w) : t.Smallest t.smallest ∨ t.Unpriced := by
  have prices : ∀ x, x ∈ t.values.filter (· ≠ w.blocked) ↔ (∃ i j, t.get? i j = some x) ∧ x ≠ w.blocked := by
    intro x
    rw [List.mem_filter, memValues, decide_eq_true_eq]
  unfold smallest
  cases least : (t.values.filter (· ≠ w.blocked)).min? with
  | none =>
    refine .inr ?_
    intro i j x found
    by_contra price
    have member := (prices x).mpr ⟨⟨i, j, found⟩, price⟩
    rw [List.min?_eq_none_iff.mp least] at member
    cases member
  | some low =>
    obtain ⟨member, below⟩ := List.min?_eq_some_iff.mp least
    obtain ⟨⟨i, j, found⟩, price⟩ := (prices low).mp member
    exact .inl ⟨⟨i, j, found, price⟩, fun k l x at_ isPrice => below x ((prices x).mpr ⟨⟨k, l, at_⟩, isPrice⟩)⟩

theorem largestCases (valid : t.Valid) : (∃ i j, t.get? i j = some t.largest ∧ t.largest ≠ w.blocked) ∨ t.Unpriced := by
  rcases t.smallestCases with ⟨⟨i, j, found, price⟩, _⟩ | none
  · refine .inl ?_
    rcases t.largestFound with zero | attained
    · have nonneg := (valid.cost i j _ found).1
      have bound := largestBounds found price
      have same : t.smallest = t.largest := by omega
      rw [same] at found price
      exact ⟨i, j, found, price⟩
    · exact attained
  · exact .inr none

theorem unpricedMap (none : t.Unpriced) (f : Int → Int) :
    (t.map fun cost => if cost = w.blocked then cost else f cost) = t :=
  mapSame fun i j x found => if_pos (none i j x found)

theorem complementTurned (valid : t.Valid) : TurnedAround t t.complement := by
  refine ⟨⟨rfl, rfl⟩, ?_, ?_, ?_⟩
  · intro i j
    rw [getComplement, Option.map_eq_some_iff]
    constructor
    · rintro ⟨x, found, same⟩
      by_cases price : x = w.blocked
      · rw [← price]
        exact found
      · have small := (complementSome valid found price).2.2
        rw [if_neg price] at same
        exact absurd same (Int.ne_of_lt small)
    · intro found
      exact ⟨w.blocked, found, if_pos rfl⟩
  · intro i j x found price
    exact ⟨_, complementSome valid found price⟩
  · intro i j k l x y x' y' foundX priceX foundY priceY turnedX turnedY
    rw [(complementSome valid foundX priceX).1] at turnedX
    rw [(complementSome valid foundY priceY).1] at turnedY
    cases turnedX
    cases turnedY
    omega

structure Raisable (t : Table w) (amount : Int) : Prop where
  valid : (t.raised amount).Valid
  price : ∀ i j x, t.get? i j = some x → x ≠ w.blocked → x + amount ≠ w.blocked

theorem getRaised (t : Table w) (amount : Int) (i j : Nat) : (t.raised amount).get? i j =
    (t.get? i j).map fun cost => if cost = w.blocked then cost else cost + amount :=
  getMap t _ i j

theorem raisedSome {amount : Int} {i j : Nat} {x : Int} (found : t.get? i j = some x) (price : x ≠ w.blocked) :
    (t.raised amount).get? i j = some (x + amount) := by
  rw [getRaised, found, Option.map_some, if_neg price]

theorem raisedPrice {amount : Int} {i j : Nat} {y : Int} (found : (t.raised amount).get? i j = some y)
    (price : y ≠ w.blocked) : t.get? i j = some (y - amount) ∧ y - amount ≠ w.blocked := by
  rw [getRaised, Option.map_eq_some_iff] at found
  obtain ⟨x, before, same⟩ := found
  split at same
  case isTrue isBlocked => exact absurd (same ▸ isBlocked) price
  case isFalse isPrice =>
    obtain rfl : x = y - amount := by omega
    exact ⟨before, isPrice⟩

theorem complementRaised (valid : t.Valid) {amount : Int} (raisable : t.Raisable amount) :
    (t.raised amount).complement = t.complement := by
  rcases largestCases valid with ⟨i, j, found, price⟩ | none
  · have now := @raisedSome w t amount i j _ found price
    have largest : (t.raised amount).largest = t.largest + amount := by
      refine largestIs now (raisable.price i j _ found price) (raisable.valid.cost i j _ now).1 ?_
      intro k l y at_ isPrice
      obtain ⟨before, wasPrice⟩ := raisedPrice at_ isPrice
      have bound := largestBounds before wasPrice
      omega
    rw [complementMap, complementMap, largest, raised, mapMap]
    refine mapCongr ?_
    intro k l x at_
    by_cases isBlocked : x = w.blocked
    · simp only [isBlocked, if_true]
    · have still := raisable.price k l x at_ isBlocked
      simp only [if_neg isBlocked, if_neg still]
      omega
  · have same : t.raised amount = t := unpricedMap none (· + amount)
    rw [same]

theorem largestComplement (valid : t.Valid) {low : Int} (smallest : t.Smallest low) :
    t.complement.largest = t.largest - low := by
  obtain ⟨⟨i, j, found, price⟩, least⟩ := smallest
  obtain ⟨now, nonneg, small⟩ := complementSome valid found price
  refine largestIs now (Int.ne_of_lt small) nonneg ?_
  intro k l y at_ isPrice
  rw [getComplement, Option.map_eq_some_iff] at at_
  obtain ⟨x, before, same⟩ := at_
  split at same
  case isTrue isBlocked => exact absurd (same ▸ isBlocked) isPrice
  case isFalse wasPrice =>
    have below := least k l x before wasPrice
    omega

theorem complementTwice (valid : t.Valid) : t.complement.complement = t.raised (-t.smallest) := by
  rcases t.smallestCases with smallest | none
  · have largest := largestComplement valid smallest
    have twice : t.complement.complement = (t.complement).map fun cost =>
        if cost = w.blocked then cost else t.complement.largest - cost := rfl
    rw [twice, largest, complementMap, mapMap]
    refine mapCongr ?_
    intro i j x found
    by_cases isBlocked : x = w.blocked
    · simp only [isBlocked, if_true]
    · have turned : t.largest - x ≠ w.blocked := Int.ne_of_lt (complementSome valid found isBlocked).2.2
      simp only [if_neg isBlocked, if_neg turned]
      omega
  · have once : t.complement = t := unpricedMap none (t.largest - ·)
    have same : t.raised (-t.smallest) = t := unpricedMap none (· + -t.smallest)
    rw [once, once, same]

theorem raisableSmallest (valid : t.Valid) : t.Raisable (-t.smallest) := by
  have twice := complementTwice valid
  refine ⟨twice ▸ complementValid (complementValid valid), ?_⟩
  intro i j x found price
  obtain ⟨now, _, small⟩ := complementSome valid found price
  have turned := complementSome (complementValid valid) now (Int.ne_of_lt small)
  rw [twice, raisedSome found price] at turned
  rw [Option.some.inj turned.1]
  exact Int.ne_of_lt turned.2.2

theorem complementLaws (valid : t.Valid) :
    TurnedAround t t.complement ∧ t.complement.complement = t.raised (-t.smallest) ∧
    (t.Smallest t.smallest ∨ t.Unpriced) ∧ t.complement.complement.complement = t.complement ∧
    ∀ amount, t.Raisable amount → (t.raised amount).complement = t.complement ∧
      ∀ method watch emitted,
        Solution.columns method watch emitted (Square.ofTable (Solution.working (t.raised amount) .maximize)) =
          Solution.columns method watch emitted (Square.ofTable (Solution.working t .maximize)) := by
  have twice := complementTwice valid
  refine ⟨complementTurned valid, twice, t.smallestCases, ?_, ?_⟩
  · rw [twice]
    exact complementRaised valid (raisableSmallest valid)
  · intro amount raisable
    have same := complementRaised valid raisable
    refine ⟨same, ?_⟩
    intro method watch emitted
    simp only [Solution.working]
    rw [same]

def highTable : Table byteWidth := ⟨⟨2, 2, #[126, 127, 3, 3]⟩, rfl⟩

theorem highTableValid : highTable.Valid := validOfValues (by decide) (by decide) (by decide)

theorem highTableRaisable : highTable.Raisable (-2) := by
  refine ⟨validOfValues (by decide) (by decide) (by decide), ?_⟩
  intro i j x found price
  have range := (highTableValid.cost i j x found).2
  have apart : x ≠ byteWidth.top := price
  change x + -2 ≠ byteWidth.top
  omega

theorem complementLawsHigh : highTable.complement.get? 0 1 = some byteWidth.blocked ∧
    highTable.complement.complement = highTable.raised (-3) ∧
    highTable.complement.complement.complement = highTable.complement ∧
    (highTable.raised (-2)).complement = highTable.complement ∧
    Solution.columns .dense .never 0 (Square.ofTable (Solution.working (highTable.raised (-2)) .maximize)) =
      Solution.columns .dense .never 0 (Square.ofTable (Solution.working highTable .maximize)) := by
  obtain ⟨turned, twice, _, thrice, raised⟩ := complementLaws highTableValid
  obtain ⟨same, solved⟩ := raised (-2) highTableRaisable
  have smallest : highTable.smallest = 3 := by decide
  rw [smallest] at twice
  exact ⟨(turned.blocked 0 1).mpr rfl, twice, thrice, same, solved .dense .never 0⟩

end Table
end OptimalMatching
