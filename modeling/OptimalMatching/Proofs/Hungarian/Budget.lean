import OptimalMatching.Proofs.Hungarian.Lines

/-! How many steps a run of the star and prime method takes. A run is followed step by step, without fuel; the steps that it
has made and those that it may still need add up to the budget, so the fuel of the loop is never what ends it. -/
namespace OptimalMatching.Hungarian

variable {w : Width} {n : Nat} {costs : Costs n} {most : Int} {watch : Watch} {opened : Nat}

inductive Course (w : Width) (watch : Watch) (costs : Costs n) (opened : Nat) : Nat → Nat → Phase n → State n → Prop
  | start : Course w watch costs opened 0 opened .reduce (.start n)
  | next {steps emitted : Nat} {phase after : Phase n} {s t : State n} {events : List Event}
      (before : Course w watch costs opened steps emitted phase s) (active : phase ≠ .done)
      (made : step w watch emitted costs phase s = ⟨t, events, .ok after⟩) :
      Course w watch costs opened (steps + 1) (emitted + events.length) after t

inductive EndsWithin (w : Width) (watch : Watch) (costs : Costs n) (opened bound : Nat) (e : Ended (State n) Nat) : Prop
  | done {steps emitted : Nat} (course : Course w watch costs opened steps emitted .done e.state) (few : steps ≤ bound)
      (result : e.result = .ok steps)
  | failed {steps emitted : Nat} {phase : Phase n} {s : State n} {failure : Failure}
      (course : Course w watch costs opened steps emitted phase s) (active : phase ≠ .done) (few : steps + 1 ≤ bound)
      (fails : (step w watch emitted costs phase s).result = .error failure) (result : e.result = .error failure)

namespace Course
variable {steps emitted : Nat} {phase : Phase n} {s : State n}

theorem sound (priced : Priced w costs most) (course : Course w watch costs opened steps emitted phase s) :
    ∃ left, Sound w costs most left phase s ∧ steps + left = stepBudget n := by
  induction course with
  | start => exact ⟨stepBudget n, ⟨rfl, Nat.le_of_eq (budget n)⟩, Nat.zero_add _⟩
  | @next steps emitted phase after s t events before active made ih =>
    obtain ⟨left, sound, sum⟩ := ih
    obtain ⟨state, result⟩ := stepActs made
    cases left with
    | zero => exact absurd sound.finished active
    | succ left =>
      have next := @actSteps w n costs most s watch emitted left priced phase active sound
      rw [Steps, state, result] at next
      exact ⟨left, next, by omega⟩

theorem few (priced : Priced w costs most) (course : Course w watch costs opened steps emitted phase s)
    (active : phase ≠ .done) : steps + 1 ≤ stepBudget n := by
  obtain ⟨left, sound, sum⟩ := course.sound priced
  cases left with
  | zero => exact absurd sound.finished active
  | succ left => omega

theorem iterateEnds (priced : Priced w costs most) {fuel : Nat} (enough : stepBudget n ≤ steps + fuel)
    (course : Course w watch costs opened steps emitted phase s) :
    EndsWithin w watch costs opened (stepBudget n) (iterate w watch costs fuel steps emitted phase s) := by
  -- The fuel is at least what is left of the budget, so the loop is not out of it before the last phase.
  induction fuel generalizing steps emitted phase s with
  | zero =>
    obtain ⟨left, sound, sum⟩ := course.sound priced
    by_cases isDone : phase = .done
    · subst isDone
      exact .done course (by omega) rfl
    · have few := course.few priced isDone
      omega
  | succ fuel ih =>
    by_cases isDone : phase = .done
    · subst isDone
      obtain ⟨left, _, sum⟩ := course.sound priced
      exact .done course (by omega) rfl
    · rw [iterateStep isDone]
      have few := course.few priced isDone
      cases called : step w watch emitted costs phase s with
      | mk t events result =>
        cases result with
        | error failure => exact .failed course isDone few (congrArg Ended.result called) rfl
        | ok next =>
          have ends := ih (by omega) (.next course isDone called)
          cases ends with
          | done course few result => exact .done course few result
          | failed course active few fails result => exact .failed course active few fails result

end Course

theorem iterateMore {fuel steps emitted : Nat} {phase : Phase n} {s : State n} (extra : Nat)
    (fuelled : (iterate w watch costs fuel steps emitted phase s).result ≠ .error (.fault .endlessSteps)) :
    iterate w watch costs (fuel + extra) steps emitted phase s = iterate w watch costs fuel steps emitted phase s := by
  induction fuel generalizing steps emitted phase s with
  | zero =>
    cases phase with
    | done => cases extra <;> rfl
    | _ => exact absurd rfl fuelled
  | succ fuel ih =>
    by_cases isDone : phase = .done
    · subst isDone
      rw [Nat.add_right_comm]
      rfl
    · rw [iterateStep isDone] at fuelled
      rw [Nat.add_right_comm, iterateStep isDone, iterateStep isDone]
      cases called : step w watch emitted costs phase s with
      | mk t events result =>
        rw [called] at fuelled
        cases result with
        | error failure => rfl
        | ok next => exact congrArg (Ended.after events) (ih fuelled)

section Step
variable {emitted : Nat} {events : List Event} {after : Phase n} {s t : State n}

theorem Reachable.coversRow (priced : Priced w costs most) (reached : Reachable w watch costs .prime s) {row col : Fin n}
    (zero : uncoveredZero s = some (row, col)) (starred : ∃ j, s.mark row j = .star)
    (made : step w watch emitted costs .prime s = ⟨t, events, .ok after⟩) :
    after = .prime ∧ row ∉ coveredRows s ∧ coveredRows t = insert row (coveredRows s) := by
  obtain ⟨lift, tree, search⟩ := reached.search priced (.inl rfl)
  obtain ⟨starCol, star⟩ := starred
  cases stepMoves made with
  | blank none =>
    rw [none] at zero
    cases zero
  | found zero' free =>
    obtain ⟨rfl, rfl⟩ := Prod.mk.inj (Option.some.inj (zero.symm.trans zero'))
    exact absurd ((search.primeStar zero row starCol).mpr star) (free starCol)
  | @join _ _ _ starredCol slack zero' _ =>
    obtain ⟨rfl, rfl⟩ := Prod.mk.inj (Option.some.inj (zero.symm.trans zero'))
    refine ⟨rfl, ?_, ?_⟩
    · intro member
      have open_ := memUncoveredRows.mp (uncoveredZeroSome zero).1
      rw [memCoveredRows, open_] at member
      cases member
    · ext i
      rw [memCoveredRows, Finset.mem_insert, memCoveredRows]
      change (joined s row col starredCol).rowCovered[i] = true ↔ _
      rw [joinedRow]
      by_cases isRow : i = row <;> simp [isRow]

theorem Reachable.makesZero (priced : Priced w costs most) (reached : Reachable w watch costs .adjust s)
    (made : step w watch emitted costs .adjust s = ⟨t, events, .ok after⟩) :
    after = .prime ∧ ∃ row col, uncoveredZero t = some (row, col) := by
  obtain ⟨left, lift, tree, search, blank, _⟩ := reached.sound priced
  obtain ⟨state, result⟩ := stepActs made
  have ends := search.adjustEnds priced blank
  simp only [act] at state result
  rw [state, result] at ends
  obtain ⟨isPrime, _, zero, _⟩ := ends
  obtain ⟨⟨row, col⟩, found⟩ := Option.ne_none_iff_exists'.mp zero
  exact ⟨isPrime, row, col, found⟩

theorem Reachable.addsStar (priced : Priced w costs most) {row col : Fin n}
    (reached : Reachable w watch costs (.augment row col) s) :
    ∃ t events, step w watch emitted costs (.augment row col) s = ⟨t, events, .ok .cover⟩ ∧ t.stars = s.stars + 1 := by
  obtain ⟨left, tree, arrived, _⟩ := reached.sound priced
  obtain ⟨done, _, count⟩ := arrived.augmentOk
  unfold step
  simp only [act]
  generalize augment s row col = e at done count
  obtain ⟨t, reports, result⟩ := e
  cases done
  exact ⟨t, _, rfl, count⟩

end Step

theorem endsInBudget {table : Square w n} (valid : table.toTable.Valid) (watch : Watch) (emitted : Nat) :
    (∀ steps later phase s, Course w watch table.costs (emitted + 1) steps later phase s → phase ≠ .done →
      steps + 1 ≤ 2 + 3 * (n * (n - 1) / 2) + 5 * (n - 1)) ∧
    EndsWithin w watch table.costs (emitted + 1) (2 + 3 * (n * (n - 1) / 2) + 5 * (n - 1))
      (iterate w watch table.costs (stepBudget n) 0 (emitted + 1) .reduce (.start n)) ∧
    (∀ extra, iterate w watch table.costs (stepBudget n + extra) 0 (emitted + 1) .reduce (.start n) =
      iterate w watch table.costs (stepBudget n) 0 (emitted + 1) .reduce (.start n)) ∧
    (∀ s t later events after, Reachable w watch table.costs .adjust s →
      step w watch later table.costs .adjust s = ⟨t, events, .ok after⟩ →
      after = .prime ∧ ∃ row col, uncoveredZero t = some (row, col)) ∧
    (∀ s t later events after row col, Reachable w watch table.costs .prime s → uncoveredZero s = some (row, col) →
      (∃ j, s.mark row j = .star) → step w watch later table.costs .prime s = ⟨t, events, .ok after⟩ →
      after = .prime ∧ (coveredRows t).card = (coveredRows s).card + 1) ∧
    ∀ s later row col, Reachable w watch table.costs (.augment row col) s →
      ∃ t events, step w watch later table.costs (.augment row col) s = ⟨t, events, .ok .cover⟩ ∧
        t.stars = s.stars + 1 := by
  have priced := pricedOfValid valid
  have begins : Course w watch table.costs (emitted + 1) 0 (emitted + 1) .reduce (.start n) := .start
  have fuelled : (iterate w watch table.costs (stepBudget n) 0 (emitted + 1) .reduce (.start n)).result ≠
      .error (.fault .endlessSteps) := by
    intro failed
    have stops := @iterateStops w n table.costs table.largest (.start n) priced watch (stepBudget n) 0 (emitted + 1)
      .reduce ⟨rfl, Nat.le_of_eq (budget n)⟩
    rw [failed] at stops
    exact stops
  refine ⟨?_, begins.iterateEnds priced (Nat.le_of_eq (Nat.zero_add _).symm), fun extra => iterateMore extra fuelled, ?_, ?_,
    ?_⟩
  · intro steps later phase s course active
    exact course.few priced active
  · intro s t later events after reached made
    exact reached.makesZero priced made
  · intro s t later events after row col reached zero starred made
    obtain ⟨isPrime, fresh, covers⟩ := reached.coversRow priced zero starred made
    rw [covers, Finset.card_insert_of_notMem fresh]
    exact ⟨isPrime, rfl⟩
  · intro s later row col reached
    exact reached.addsStar priced

def multiples : Square byteWidth 3 :=
  .whole #v[#v[14, 28, 42], #v[28, 56, 84], #v[42, 84, 126]]

theorem multiplesValid : multiples.toTable.Valid := Table.validOfValues (by decide) (by decide) (by decide)

theorem endsInBudgetMultiples : ∃ later s, Course byteWidth .never multiples.costs 1 17 later .done s ∧
    17 ≤ 2 + 3 * (3 * (3 - 1) / 2) + 5 * (3 - 1) := by
  have run : (iterate byteWidth .never multiples.costs (stepBudget 3) 0 1 .reduce (.start 3)).result = .ok 17 := rfl
  obtain ⟨_, ends, _⟩ := endsInBudget multiplesValid .never 0
  cases ends with
  | done course few result =>
    cases run.symm.trans result
    exact ⟨_, _, course, few⟩
  | failed course active few fails result => cases run.symm.trans result

end OptimalMatching.Hungarian
