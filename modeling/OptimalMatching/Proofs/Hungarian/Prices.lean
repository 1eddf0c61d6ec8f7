import OptimalMatching.Proofs.Hungarian.Lines

/-! The prices between the steps of the star and prime method, in exact numbers. The costs are never written, so what a step
leaves is the pair of shifts, and the slacks that a search keeps of the prices outside its covers. -/
namespace OptimalMatching.Hungarian

variable {w : Width} {n : Nat} {costs : Costs n} {most lift : Int} {s : State n} {tree : List (Fin n)} {watch : Watch}
  {phase : Phase n}

structure Feasible (costs : Costs n) (s : State n) : Prop where
  nonneg : ∀ (i j : Fin n) x, priceAt costs s i j = some x → 0 ≤ x
  marked : ∀ i j : Fin n, s.mark i j ≠ .empty → priceAt costs s i j = some 0
  rowSign : ∀ i : Fin n, s.rowShift[i] ≤ 0
  colSign : ∀ j : Fin n, 0 ≤ s.colShift[j]
  colFree : ∀ j : Fin n, (∀ i, s.mark i j ≠ .star) → s.colShift[j] = 0

structure SlackKept (costs : Costs n) (s : State n) (i : Fin n) : Prop where
  blank : s.slack[i] = none ↔ ∀ j : Fin n, s.colCovered[j] = false → costs[i][j] = none
  opened : ∀ slack, s.slack[i] = some slack → s.colCovered[slack.col] = false
  attained : ∀ slack, s.slack[i] = some slack → priceAt costs s i slack.col = some slack.price
  least : ∀ slack, s.slack[i] = some slack →
    ∀ (j : Fin n) x, s.colCovered[j] = false → priceAt costs s i j = some x → slack.price ≤ x

theorem Shifts.priced {drift : Int} (shifts : Shifts costs most drift s)
    (primes : ∀ i j : Fin n, s.mark i j = .prime → priceAt costs s i j = some 0) : Feasible costs s := by
  refine ⟨shifts.feasible, ?_, shifts.rowSign, shifts.colSign, shifts.colFree⟩
  intro i j marked
  cases mark : s.mark i j with
  | empty => exact absurd mark marked
  | star => exact shifts.tight i j mark
  | prime => exact primes i j mark

theorem Tightest.kept {i : Fin n} (tightest : Tightest (priceAt costs s i) (fun j => s.colCovered[j] = false) s.slack[i]) :
    SlackKept costs s i := by
  cases known : s.slack[i] with
  | none =>
    have nothing : ∀ slack, s.slack[i] ≠ some slack := fun _ same => absurd (known.symm.trans same) nofun
    rw [known] at tightest
    exact ⟨⟨fun _ j opened => priceAtNone.mp (tightest j opened), fun _ => known⟩, fun _ same => absurd same (nothing _),
      fun _ same => absurd same (nothing _), fun _ same => absurd same (nothing _)⟩
  | some slack =>
    rw [known] at tightest
    obtain ⟨opened, at_, least⟩ := tightest
    have only : ∀ other, s.slack[i] = some other → other = slack :=
      fun other same => (Option.some.inj (known.symm.trans same)).symm
    refine ⟨?_, ?_, ?_, ?_⟩
    · refine ⟨fun none => absurd (known.symm.trans none) nofun, ?_⟩
      intro blank
      rw [priceAtNone.mpr (blank slack.col opened)] at at_
      cases at_
    · intro other same
      rw [only other same]
      exact opened
    · intro other same
      rw [only other same]
      exact at_
    · intro other same j x uncovered price
      rw [only other same]
      exact least j x uncovered price

theorem Search.slackKept (search : Search w costs most lift tree s) {i : Fin n} (open_ : s.rowCovered[i] = false) :
    SlackKept costs s i :=
  (search.slacks i (memUncoveredRows.mpr open_)).1.kept

namespace Reachable

theorem primedZero (priced : Priced w costs most) (reached : Reachable w watch costs phase s) (i j : Fin n)
    (prime : s.mark i j = .prime) : priceAt costs s i j = some 0 := by
  cases phase with
  | reduce =>
    obtain ⟨left, start, _⟩ := reached.sound priced
    rw [start] at prime
    simp [State.mark, State.start] at prime
  | cover => exact absurd prime ((reached.rest priced).noPrime i j)
  | prime =>
    obtain ⟨lift, tree, search⟩ := reached.search priced (.inl rfl)
    exact (search.primed i j prime).2
  | augment row col =>
    obtain ⟨left, tree, arrived, _⟩ := reached.sound priced
    exact arrived.tight i j prime
  | adjust =>
    obtain ⟨lift, tree, search⟩ := reached.search priced (.inr rfl)
    exact (search.primed i j prime).2
  | done => exact absurd prime (reached.donePrimes priced i j)

end Reachable

theorem pricesKept {table : Square w n} (valid : table.toTable.Valid) (reached : Reachable w watch table.costs phase s) :
    Feasible table.costs s ∧
    (phase = .prime ∨ phase = .adjust → ∀ i : Fin n, s.rowCovered[i] = false → SlackKept table.costs s i) := by
  have priced := pricedOfValid valid
  obtain ⟨drift, shifts⟩ := reached.shifts priced
  refine ⟨shifts.priced (reached.primedZero priced), ?_⟩
  intro searching i uncovered
  obtain ⟨lift, tree, search⟩ := reached.search priced searching
  exact search.slackKept uncovered

def crampedRows : Square byteWidth 3 :=
  .whole #v[#v[5, 127, 5], #v[127, 120, 127], #v[100, 0, 127]]

theorem crampedRowsValid : crampedRows.toTable.Valid := Table.validOfValues (by decide) (by decide) (by decide)

theorem crampedAdjusts : ∃ s, Reachable byteWidth .never crampedRows.costs .adjust s ∧ s.mark 0 2 = .prime ∧
    s.rowCovered = #v[true, false, false] ∧ s.colCovered = #v[false, true, false] ∧
    s.slack = #v[some ⟨0, 2⟩, none, some ⟨100, 0⟩] ∧ leastSlack s = some 100 := by
  have covers : Reachable byteWidth .never crampedRows.costs .cover _ :=
    @Reachable.next 3 byteWidth .never crampedRows.costs .reduce .cover _ _ 0 _ .start rfl
  have begins : Reachable byteWidth .never crampedRows.costs .prime _ :=
    @Reachable.next 3 byteWidth .never crampedRows.costs .cover .prime _ _ 0 _ covers rfl
  have primes : Reachable byteWidth .never crampedRows.costs .prime _ :=
    @Reachable.next 3 byteWidth .never crampedRows.costs .prime .prime _ _ 0 _ begins rfl
  have adjusts : Reachable byteWidth .never crampedRows.costs .adjust _ :=
    @Reachable.next 3 byteWidth .never crampedRows.costs .prime .adjust _ _ 0 _ primes rfl
  exact ⟨_, adjusts, by decide, by decide, by decide, by decide, by decide⟩

theorem pricesKeptCramped : ∃ s, Reachable byteWidth .never crampedRows.costs .adjust s ∧
    priceAt crampedRows.costs s 0 2 = some 0 ∧
    (∀ j : Fin 3, s.colCovered[j] = false → crampedRows.costs[(1 : Fin 3)][j] = none) ∧
    priceAt crampedRows.costs s 2 0 = some 100 := by
  obtain ⟨s, adjusts, prime, rows, cols, slack, -⟩ := crampedAdjusts
  obtain ⟨feasible, slacks⟩ := pricesKept crampedRowsValid adjusts
  have second := slacks (.inr rfl) 1 (by rw [rows]; rfl)
  have third := slacks (.inr rfl) 2 (by rw [rows]; rfl)
  refine ⟨s, adjusts, feasible.marked 0 2 (by rw [prime]; exact nofun), second.blank.mp (by rw [slack]; rfl), ?_⟩
  exact third.attained ⟨100, 0⟩ (by rw [slack]; rfl)

end OptimalMatching.Hungarian
