import OptimalMatching.Proofs.Duals
import OptimalMatching.Proofs.Hungarian.Run

/-! The states that a run of the star and prime method comes through, whatever the watch. In none of them is a number out
of range for want of room, and the row that a failed run names is the first of a set of rows with too few columns. -/
namespace OptimalMatching.Hungarian

variable {w : Width} {n : Nat} {costs : Costs n} {most : Int} {watch : Watch}

inductive Reachable (w : Width) (watch : Watch) (costs : Costs n) : Phase n → State n → Prop
  | start : Reachable w watch costs .reduce (.start n)
  | next {phase after : Phase n} {s t : State n} {emitted : Nat} {events : List Event}
      (before : Reachable w watch costs phase s)
      (made : step w watch emitted costs phase s = ⟨t, events, .ok after⟩) : Reachable w watch costs after t

theorem stepActs {phase after : Phase n} {s t : State n} {emitted : Nat} {events : List Event}
    (made : step w watch emitted costs phase s = ⟨t, events, .ok after⟩) :
    (act w watch emitted costs s phase).state = t ∧ (act w watch emitted costs s phase).result = .ok after := by
  unfold step at made
  generalize act w watch emitted costs s phase = e at made
  obtain ⟨state, reports, result⟩ := e
  cases result with
  | error failure => cases made
  | ok phase =>
    cases made
    exact ⟨rfl, rfl⟩

theorem stepFails {phase : Phase n} {s : State n} {emitted : Nat} {failure : Failure}
    (failed : (step w watch emitted costs phase s).result = .error failure) :
    (act w watch emitted costs s phase).result = .error failure := by
  unfold step at failed
  generalize act w watch emitted costs s phase = e at failed
  obtain ⟨state, reports, result⟩ := e
  cases result with
  | error other => exact failed
  | ok phase => cases failed

namespace Sound
variable {left : Nat} {phase : Phase n} {s : State n}

theorem step {emitted : Nat} {after : Phase n} {t : State n} {events : List Event} (priced : Priced w costs most)
    (sound : Sound w costs most left phase s)
    (made : step w watch emitted costs phase s = ⟨t, events, .ok after⟩) : ∃ left, Sound w costs most left after t := by
  obtain ⟨state, result⟩ := stepActs made
  by_cases isDone : phase = .done
  · subst isDone
    cases result
    cases state
    exact ⟨left, sound⟩
  · cases left with
    | zero => exact absurd sound.finished isDone
    | succ left =>
      have steps := @actSteps w n costs most s watch emitted left priced phase isDone sound
      rw [Steps, state, result] at steps
      exact ⟨left, steps⟩

theorem shifts (priced : Priced w costs most) (sound : Sound w costs most left phase s) (active : phase ≠ .done) :
    ∃ drift, Shifts costs most drift s ∧ drift ≤ 2 * (n * most) := by
  have nonneg := priced.nonneg
  have product : 0 ≤ n * most := Int.mul_nonneg (Int.natCast_nonneg n) nonneg
  cases phase with
  | reduce =>
    have zero : ∀ i : Fin n, (Vector.replicate n (0 : Int))[i] = 0 := fun i => Vector.getElem_replicate i.isLt
    obtain ⟨start, _⟩ := sound
    rw [start]
    refine ⟨0, shiftsStart (fun i => Int.le_of_eq (zero i)) ?_ ?_, by omega⟩
    · intro i
      rw [zero]
      omega
    · intro i j cost has
      have bound := priced.within i j cost has
      rw [zero]
      omega
  | cover =>
    obtain ⟨⟨⟨drift, shifts, range⟩, _⟩, _⟩ := sound
    exact ⟨drift, shifts, by omega⟩
  | prime =>
    obtain ⟨lift, tree, search, _⟩ := sound
    obtain ⟨drift, shifts, range⟩ := search.shifts
    have high := search.liftHigh
    exact ⟨drift, shifts, by omega⟩
  | augment =>
    obtain ⟨tree, reached, _⟩ := sound
    obtain ⟨drift, shifts, range⟩ := reached.shifts
    exact ⟨drift, shifts, by omega⟩
  | adjust =>
    obtain ⟨lift, tree, search, _⟩ := sound
    obtain ⟨drift, shifts, range⟩ := search.shifts
    have high := search.liftHigh
    exact ⟨drift, shifts, by omega⟩
  | done => exact absurd rfl active

end Sound

namespace Reachable
variable {phase : Phase n} {s : State n}

theorem sound (priced : Priced w costs most) (reached : Reachable w watch costs phase s) :
    ∃ left, Sound w costs most left phase s := by
  -- The induction is on the steps; what carries it is that each leaves the method sound.
  induction reached with
  | start => exact ⟨2 + work n 1, rfl, Nat.le_refl _⟩
  | next before made ih =>
    obtain ⟨left, sound⟩ := ih
    exact sound.step priced made

theorem steps (priced : Priced w costs most) (reached : Reachable w watch costs phase s) (emitted : Nat) :
    ∃ left, Steps w costs most watch left (act w watch emitted costs s phase) := by
  obtain ⟨left, sound⟩ := reached.sound priced
  by_cases isDone : phase = .done
  · subst isDone
    exact ⟨left, sound⟩
  · cases left with
    | zero => exact absurd sound.finished isDone
    | succ left => exact ⟨left, actSteps priced isDone sound⟩

theorem priceFits (priced : Priced w costs most) (room : most * roomFactor n ≤ w.top)
    (reached : Reachable w watch costs phase s) (active : phase ≠ .done) (i j : Fin n) :
    ∃ price, s.price w costs i j = .ok price := by
  obtain ⟨left, sound⟩ := reached.sound priced
  obtain ⟨drift, shifts, range⟩ := sound.shifts priced active
  cases has : costs[i][j] with
  | none => exact ⟨none, by simp only [State.price, has]⟩
  | some cost =>
    obtain ⟨row, both⟩ := shifts.fits priced range room has
    exact ⟨_, (State.priceOk has).mpr ⟨rfl, row, both⟩⟩

theorem shiftFits (priced : Priced w costs most) (room : most * roomFactor n ≤ w.top)
    (reached : Reachable w watch costs .adjust s) {delta : Int} (found : leastSlack s = some delta) :
    (∀ i : Fin n, w.Holds (s.rowShift[i] - delta)) ∧ ∀ j : Fin n, w.Holds (s.colShift[j] + delta) := by
  obtain ⟨_, _, _, search, blank, _⟩ := reached.sound priced
  exact search.deltaFits priced found (search.deltaPositive blank found) room

theorem firstOpen (priced : Priced w costs most) (reached : Reachable w watch costs .adjust s) :
    ∃ first, s.uncoveredRows.head? = some first := by
  obtain ⟨_, _, _, search, _⟩ := reached.sound priced
  exact search.firstOpen

end Reachable

theorem neverOverflows {table : Square w n} (valid : table.toTable.Valid) (room : table.largest * roomFactor n ≤ w.top)
    (watch : Watch) (emitted : Nat) :
    (∀ cause, (solve watch emitted table).result ≠ .error (.overflow cause)) ∧
    ∀ phase s, Reachable w watch table.costs phase s →
      (∀ later cause, (step w watch later table.costs phase s).result ≠ .error (.overflow cause)) ∧
      (phase ≠ .done → ∀ i j : Fin n, ∃ price, s.price w table.costs i j = .ok price) ∧
      (phase = .adjust → ∀ delta, leastSlack s = some delta →
        (∀ i : Fin n, w.Holds (s.rowShift[i] - delta)) ∧ ∀ j : Fin n, w.Holds (s.colShift[j] + delta)) := by
  have priced := pricedOfValid valid
  refine ⟨?_, ?_⟩
  · intro cause failed
    have stops := solveStops valid watch emitted
    rw [failed] at stops
    exact stops room
  · intro phase s reached
    refine ⟨?_, fun active => reached.priceFits priced room active, ?_⟩
    · intro later cause failed
      obtain ⟨left, steps⟩ := reached.steps priced later
      rw [Steps, stepFails failed] at steps
      exact steps room
    · intro isAdjust delta found
      subst isAdjust
      exact reached.shiftFits priced room found

def snugRows : Square byteWidth 2 := .whole #v[#v[10, 0], #v[9, 0]]

theorem snugRowsValid : snugRows.toTable.Valid := Table.validOfValues (by decide) (by decide) (by decide)

theorem neverOverflowsSnug : snugRows.largest * roomFactor 2 ≤ byteWidth.top ∧
    (∀ cause, (solve .never 0 snugRows).result ≠ .error (.overflow cause)) ∧
    ∃ s, Reachable byteWidth .never snugRows.costs .adjust s ∧ leastSlack s = some 9 ∧
      ∀ i : Fin 2, byteWidth.Holds (s.rowShift[i] - 9) := by
  obtain ⟨run, states⟩ := neverOverflows snugRowsValid (by decide) .never 0
  have covers : Reachable byteWidth .never snugRows.costs .cover _ :=
    @Reachable.next 2 byteWidth .never snugRows.costs .reduce .cover _ _ 0 _ .start rfl
  have primes : Reachable byteWidth .never snugRows.costs .prime _ :=
    @Reachable.next 2 byteWidth .never snugRows.costs .cover .prime _ _ 0 _ covers rfl
  have adjusts : Reachable byteWidth .never snugRows.costs .adjust _ :=
    @Reachable.next 2 byteWidth .never snugRows.costs .prime .adjust _ _ 0 _ primes rfl
  exact ⟨by decide, run, _, adjusts, rfl, ((states _ _ adjusts).2.2 rfl 9 rfl).1⟩

/- The row that a failed run names is the first of some rows of the table that share too few columns, whatever the costs.
In a state in which a row may be named there is one that is not covered, so the name is never made up. -/
theorem infeasibleCertified {table : Square w n} (valid : table.toTable.Valid) (watch : Watch) (emitted : Nat) :
    (∀ row, (solve watch emitted table).result = .error (.infeasible row) →
      row < table.realRows ∧ (¬ ∃ col, Placement table.costs n col) ∧
      ∃ rows : Finset (Fin n), (∃ first ∈ rows, first.val = row) ∧
        (∀ i ∈ rows, row ≤ i.val ∧ i.val < table.realRows) ∧
        (Finset.univ.filter fun j : Fin n => ∃ i ∈ rows, table.costs[i][j] ≠ none).card < rows.card) ∧
    ∀ s, Reachable w watch table.costs .adjust s → ∃ first, s.uncoveredRows.head? = some first := by
  refine ⟨?_, fun s reached => reached.firstOpen (pricedOfValid valid)⟩
  intro row failed
  have stops := solveStops valid watch emitted
  rw [failed] at stops
  obtain ⟨rows, cols, crowded, ⟨first, member, same⟩, least⟩ := stops
  refine ⟨?_, fun ⟨col, place⟩ => crowdedNone crowded col place, rows.toFinset, ?_, ?_, ?_⟩
  · rw [← same]
    exact Square.crowdedReal crowded member
  · exact ⟨first, List.mem_toFinset.mpr member, same⟩
  · intro i inside
    rw [List.mem_toFinset] at inside
    exact ⟨least i inside, Square.crowdedReal crowded inside⟩
  · rw [List.toFinset_card_of_nodup crowded.distinct]
    refine Nat.lt_of_le_of_lt ?_ crowded.fewer
    refine (Finset.card_le_card ?_).trans (List.toFinset_card_le cols)
    intro j shared
    obtain ⟨i, inside, has⟩ := (Finset.mem_filter.mp shared).2
    obtain ⟨cost, found⟩ := Option.ne_none_iff_exists'.mp has
    exact List.mem_toFinset.mpr (crowded.closed i (List.mem_toFinset.mp inside) j cost found)

def sharedColumn : Square byteWidth 3 :=
  .whole #v[#v[0, 127, 0], #v[127, 126, 127], #v[127, 125, 127]]

theorem sharedColumnValid : sharedColumn.toTable.Valid := Table.validOfValues (by decide) (by decide) (by decide)

theorem infeasibleCertifiedShared : (solve .never 0 sharedColumn).result = .error (.infeasible 1) ∧
    ∃ rows : Finset (Fin 3), (∃ first ∈ rows, first.val = 1) ∧ (∀ i ∈ rows, 1 ≤ i.val ∧ i.val < 3) ∧
      (Finset.univ.filter fun j : Fin 3 => ∃ i ∈ rows, sharedColumn.costs[i][j] ≠ none).card < rows.card := by
  have failed : (solve .never 0 sharedColumn).result = .error (.infeasible 1) := rfl
  exact ⟨failed, ((infeasibleCertified sharedColumnValid .never 0).1 1 failed).2.2⟩

end OptimalMatching.Hungarian
