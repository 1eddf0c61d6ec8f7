import OptimalMatching.Proofs.Scaling.Dense
import OptimalMatching.Proofs.Scaling.Hungarian
import OptimalMatching.Proofs.Scaling.Sparse
import OptimalMatching.Proofs.StuckRow

/-! A table whose costs are multiplied by a factor and raised row by row is solved as the table itself, by every method:
no comparison of a run comes out otherwise, so no tie does. -/
namespace OptimalMatching

variable {w : Width} {n : Nat}

/-- The second table has the costs of the first times a factor and, on top, an amount for each row. A row with padding in
it has no amount, since the padding stays free. -/
structure Rescaled (t : Int) (lift : Fin n → Int) (a b : Square w n) : Prop where
  factor : 1 ≤ t
  lifts : ∀ i, 0 ≤ lift i
  realRows : b.realRows = a.realRows
  realCols : b.realCols = a.realCols
  padded : ∀ i j : Fin n, a.pads i j = true → lift i = 0
  blocked : ∀ i j : Fin n, a.pads i j = false → (b.cell i j = w.blocked ↔ a.cell i j = w.blocked)
  priced : ∀ i j : Fin n, a.pads i j = false → a.cell i j ≠ w.blocked → b.cell i j = t * a.cell i j + lift i

namespace Rescaled
variable {t : Int} {lift : Fin n → Int} {a b : Square w n}

def scale (rescaled : Rescaled t lift a b) : Scale n := ⟨t, lift, Int.lt_of_lt_of_le Int.one_pos rescaled.factor⟩

theorem costs (rescaled : Rescaled t lift a b) : ScaledCosts rescaled.scale a.costs b.costs := by
  intro i j
  rw [Square.costsAt, Square.costsAt]
  cases pads : a.pads i j with
  | true =>
    have padsToo : b.pads i j = true := by
      rw [← pads]
      unfold Square.pads Padded.pads Square.padded
      rw [rescaled.realRows, rescaled.realCols]
    rw [Square.pairingPads.mpr pads, Square.pairingPads.mpr padsToo]
    refine congrArg some ?_
    rw [Scale.cost, Int.mul_zero, Int.zero_add]
    exact (rescaled.padded i j pads).symm
  | false =>
    have blocked := rescaled.blocked i j pads
    have priced := rescaled.priced i j pads
    have real := Square.padsNot.mp pads
    have realToo : i.val < b.realRows ∧ j.val < b.realCols := by
      rw [rescaled.realRows, rescaled.realCols]
      exact real
    rw [Square.pairingReal real (a.getToTable i j), Square.pairingReal realToo (b.getToTable i j)]
    by_cases none : a.cell i j = w.blocked
    · rw [if_pos none, if_pos (blocked.mpr none)]
      rfl
    · rw [if_neg none, if_neg fun other => none (blocked.mp other), priced none]
      rfl

end Rescaled

def Answers (result : Except Failure (List Nat)) : Prop :=
  (∃ columns, result = .ok columns) ∨ ∃ row, result = .error (.infeasible row)

theorem Stops.answers {watch : Watch} {roomy : Prop} {stuck : Nat → Prop} {good : List Nat → Prop}
    {result : Except Failure (List Nat)} (stops : Stops watch roomy stuck good result) (room : roomy)
    (quiet : ∀ emitted, watch.raised emitted = false) : Answers result := by
  cases result with
  | ok columns => exact .inl ⟨columns, rfl⟩
  | error failure =>
    cases failure with
    | infeasible row => exact .inr ⟨row, rfl⟩
    | overflow => exact absurd room stops
    | cancelled =>
      obtain ⟨emitted, raised⟩ := stops
      rw [quiet] at raised
      cases raised
    | malformed => exact stops.elim
    | fault => exact stops.elim

structure RescaledPotentials (t : Int) (lift : Fin n → Int) (p p' : Potentials n) : Prop where
  row : ∀ i : Fin n, p'.row[i] = t * p.row[i] + lift i
  col : ∀ j : Fin n, p'.col[j] = t * p.col[j]

theorem ScaledPotentials.whole {z : Scale n} {p p' : Potentials n} (potentials : ScaledPotentials z n p p') :
    RescaledPotentials z.factor z.lift p p' :=
  ⟨fun i => potentials.row i i.isLt, potentials.col⟩

theorem wordRefuses {largest : Int} (word : ¬ roomFactor n < wordLimit) :
    requireRoom w largest n = .error (.overflow (.size n)) := if_neg fun fits => word fits.1

theorem Dense.rescaled {t : Int} {lift : Fin n → Int} {a b : Square w n} (rescaled : Rescaled t lift a b)
    (valid : a.toTable.Valid) (valid' : b.toTable.Valid) (factor : (roomFactor n : Int) ≤ w.top)
    (room : a.largest * roomFactor n ≤ w.top) (room' : b.largest * roomFactor n ≤ w.top) (watch : Watch)
    (emitted : Nat) :
    (solve watch emitted b).result = (solve watch emitted a).result ∧
      ∀ columns, (solve watch emitted a).result = .ok columns →
        ∃ s s', (solve watch emitted a).state = some s ∧ (solve watch emitted b).state = some s' ∧
          RescaledPotentials t lift s.potentials s'.potentials := by
  by_cases word : roomFactor n < wordLimit
  · obtain ⟨result, s, s', l, state, state', potentials, all⟩ :=
      solveAlike rescaled.costs valid valid' ⟨word, factor, room⟩ ⟨word, factor, room'⟩ watch emitted
    refine ⟨result, fun columns done => ⟨s, s', state, state', ?_⟩⟩
    rw [all columns done] at potentials
    exact potentials.whole
  · simp only [solve, wordRefuses word]
    exact ⟨trivial, by rintro _ ⟨⟩⟩

theorem Sparse.rescaled {t : Int} {lift : Fin n → Int} {a b : Square w n} (rescaled : Rescaled t lift a b)
    (valid : a.toTable.Valid) (valid' : b.toTable.Valid) (factor : (roomFactor n : Int) ≤ w.top)
    (room : a.largest * roomFactor n ≤ w.top) (room' : b.largest * roomFactor n ≤ w.top) (watch : Watch)
    (emitted : Nat) :
    (solve watch emitted (Graph.ofSquare b)).result = (solve watch emitted (Graph.ofSquare a)).result ∧
      ∀ columns, (solve watch emitted (Graph.ofSquare a)).result = .ok columns →
        ∃ s s', (solve watch emitted (Graph.ofSquare a)).state = some s ∧
          (solve watch emitted (Graph.ofSquare b)).state = some s' ∧
          RescaledPotentials t lift s.potentials s'.potentials := by
  have size : n ≠ 0 := Nat.ne_of_gt valid.rows
  have square : ∀ g : Graph w n n, solve watch emitted g = solveSquare watch emitted g := fun g => dif_pos ⟨size, rfl⟩
  rw [square, square]
  by_cases word : roomFactor n < wordLimit
  · have scaled : ScaledCosts rescaled.scale (Graph.ofSquare a).cheapest (Graph.ofSquare b).cheapest := by
      unfold Graph.ofSquare
      rw [Graph.cheapestOfCosts, Graph.cheapestOfCosts]
      exact rescaled.costs
    have fits : Roomy w a.largest n := ⟨word, factor, room⟩
    have fits' : Roomy w b.largest n := ⟨word, factor, room'⟩
    obtain ⟨result, _, s, s', l, state, state', potentials, all⟩ :=
      solveAlike scaled (Graph.validOfSquare valid) (Graph.validOfSquare valid') (fits.ofSquare valid)
        (fits'.ofSquare valid') watch emitted
    refine ⟨result, fun columns done => ⟨s, s', state, state', ?_⟩⟩
    rw [all columns done] at potentials
    exact potentials.whole
  · simp only [solveSquare, wordRefuses word]
    exact ⟨trivial, by rintro _ ⟨⟩⟩

theorem sameRescaled {t : Int} {lift : Fin n → Int} {a b : Square w n} (rescaled : Rescaled t lift a b)
    (valid : a.toTable.Valid) (valid' : b.toTable.Valid) (factor : (roomFactor n : Int) ≤ w.top)
    (room : a.largest * roomFactor n ≤ w.top) (room' : b.largest * roomFactor n ≤ w.top) (watch : Watch)
    (emitted : Nat) :
    (Hungarian.solve watch emitted b).result = (Hungarian.solve watch emitted a).result ∧
    (Dense.solve watch emitted b).result = (Dense.solve watch emitted a).result ∧
    (Sparse.solve watch emitted (Graph.ofSquare b)).result = (Sparse.solve watch emitted (Graph.ofSquare a)).result ∧
    ((∀ emitted, watch.raised emitted = false) → Answers (Hungarian.solve watch emitted a).result ∧
      (roomFactor n < wordLimit → Answers (Dense.solve watch emitted a).result ∧
        Answers (Sparse.solve watch emitted (Graph.ofSquare a)).result)) ∧
    (∀ columns, (Dense.solve watch emitted a).result = .ok columns →
      ∃ s s', (Dense.solve watch emitted a).state = some s ∧ (Dense.solve watch emitted b).state = some s' ∧
        RescaledPotentials t lift s.potentials s'.potentials) ∧
    ∀ columns, (Sparse.solve watch emitted (Graph.ofSquare a)).result = .ok columns →
      ∃ s s', (Sparse.solve watch emitted (Graph.ofSquare a)).state = some s ∧
        (Sparse.solve watch emitted (Graph.ofSquare b)).state = some s' ∧
        RescaledPotentials t lift s.potentials s'.potentials := by
  have size : n ≠ 0 := Nat.ne_of_gt valid.rows
  obtain ⟨dense, densePotentials⟩ := Dense.rescaled rescaled valid valid' factor room room' watch emitted
  obtain ⟨sparse, sparsePotentials⟩ := Sparse.rescaled rescaled valid valid' factor room room' watch emitted
  refine ⟨Hungarian.solveAlike rescaled.costs valid valid' room room' watch emitted, dense, sparse, ?_, densePotentials,
    sparsePotentials⟩
  intro quiet
  refine ⟨(Hungarian.solveStops valid watch emitted).answers room quiet, fun word => ?_⟩
  have fits : Roomy w a.largest n := ⟨word, factor, room⟩
  exact ⟨(Dense.solveStops valid watch emitted).answers fits quiet,
    (Sparse.solveStops size (Graph.validOfSquare valid) watch emitted).answers (fits.ofSquare valid) quiet⟩

def tiedRows : Square byteWidth 2 := .whole #v[#v[1, 2], #v[1, 2]]

def tiedRowsRaised : Square byteWidth 2 := .whole #v[#v[5, 7], #v[2, 4]]

theorem sameRescaledTied :
    (Hungarian.solve .never 0 tiedRowsRaised).result = .ok [0, 1] ∧
    (Dense.solve .never 0 tiedRowsRaised).result = .ok [0, 1] ∧
    (Sparse.solve .never 0 (Graph.ofSquare tiedRowsRaised)).result = .ok [0, 1] ∧
    Answers (Dense.solve .never 0 tiedRows).result ∧
    ∃ s s', (Dense.solve .never 0 tiedRows).state = some s ∧ (Dense.solve .never 0 tiedRowsRaised).state = some s' ∧
      RescaledPotentials 2 #v[3, 0].get s.potentials s'.potentials := by
  have rescaled : Rescaled 2 #v[3, 0].get tiedRows tiedRowsRaised := by
    refine ⟨by decide, by decide, rfl, rfl, by decide, by decide, by decide⟩
  obtain ⟨hungarian, dense, sparse, answers, potentials, _⟩ := sameRescaled rescaled
    (Table.validOfValues (by decide) (by decide) (by decide)) (Table.validOfValues (by decide) (by decide) (by decide))
    (by decide) (by decide) (by decide) .never 0
  exact ⟨hungarian.trans rfl, dense.trans rfl, sparse.trans rfl, ((answers fun _ => rfl).2 (by decide)).1,
    potentials [0, 1] rfl⟩

end OptimalMatching
