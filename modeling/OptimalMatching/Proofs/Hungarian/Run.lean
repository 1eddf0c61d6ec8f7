import Mathlib.Algebra.BigOperators.Intervals
import OptimalMatching.Proofs.Hungarian.Adjust
import OptimalMatching.Proofs.Hungarian.Path
import OptimalMatching.Proofs.Hungarian.Reduce
import OptimalMatching.Proofs.Table

/-! The whole run of the star and prime method. Every step leaves one step less to do, so the budget of steps is never
used up, and the run ends with stars in all rows, or for a reason that is not the method's. -/
namespace OptimalMatching.Hungarian

variable {w : Width} {n : Nat} {costs : Costs n} {most : Int} {s : State n}

def work (n stars : Nat) : Nat := ∑ t ∈ Finset.Ico stars n, (3 * (t + 1) + 2)

theorem workStep {stars : Nat} (few : stars < n) : work n stars = 3 * (stars + 1) + 2 + work n (stars + 1) :=
  Finset.sum_eq_sum_Ico_succ_bot few _

theorem workLe {a b : Nat} (le : a ≤ b) : work n b ≤ work n a :=
  Finset.sum_le_sum_of_subset (Finset.Ico_subset_Ico_left le)

theorem workNone {stars : Nat} : work 0 stars = 0 := by
  rw [work, Finset.Ico_eq_empty_of_le (Nat.zero_le stars), Finset.sum_empty]

theorem triangle (k : Nat) : (k + 1) * k / 2 = k * (k - 1) / 2 + k := by
  have sum := Finset.sum_range_id (k + 1)
  rw [Finset.sum_range_succ, Finset.sum_range_id, Nat.add_sub_cancel] at sum
  exact sum.symm

theorem workOne (k : Nat) : work (k + 1) 1 = 3 * ((k + 1) * k / 2) + 5 * k := by
  induction k with
  | zero => rfl
  | succ k ih =>
    have longer : work (k + 2) 1 = work (k + 1) 1 + (3 * (k + 1 + 1) + 2) := Finset.sum_Ico_succ_top (Nat.succ_pos k) _
    have next := triangle (k + 1)
    rw [Nat.add_sub_cancel] at next
    rw [longer, ih, next]
    generalize (k + 1) * k / 2 = half
    omega

theorem budget (n : Nat) : 2 + work n 1 = stepBudget n := by
  unfold stepBudget
  cases n with
  | zero => rw [workNone]
  | succ k =>
    rw [workOne, Nat.add_sub_cancel]
    omega

/-- What holds before a step, when `left` steps are enough from here on. A search needs three steps for a row that joins
its tree, less if a zero is at hand. -/
def Sound (w : Width) (costs : Costs n) (most : Int) (left : Nat) : Phase n → State n → Prop
  | .reduce, s => s = .start n ∧ 2 + work n 1 ≤ left
  | .cover, s => Rest costs most s ∧ 1 + work n s.stars ≤ left
  | .prime, s => ∃ lift tree, Search w costs most lift tree s ∧
      (3 * (s.stars - tree.length) + 5 + work n (s.stars + 1) ≤ left ∨
        uncoveredZero s ≠ none ∧ 3 * (s.stars - tree.length) + 3 + work n (s.stars + 1) ≤ left)
  | .augment row col, s => ∃ tree, Reached costs most tree row col s ∧ 2 + work n (s.stars + 1) ≤ left
  | .adjust, s => ∃ lift tree, Search w costs most lift tree s ∧ uncoveredZero s = none ∧
      3 * (s.stars - tree.length) + 4 + work n (s.stars + 1) ≤ left
  | .done, s => s.stars = n ∧ ∃ drift, Shifts costs most drift s

theorem Ends.stops {α : Type} {watch : Watch} {roomy : Prop} {stuck : Nat → Prop} {good : α → Prop} {x : Except Failure α}
    (ends : Ends roomy stuck good x) : Stops watch roomy stuck good x := by
  cases x with
  | ok a => exact ends
  | error failure =>
    cases failure with
    | overflow => exact ends
    | infeasible => exact ends
    | malformed => exact ends.elim
    | cancelled => exact ends.elim
    | fault => exact ends.elim

def Steps (w : Width) (costs : Costs n) (most : Int) (watch : Watch) (left : Nat) (e : Ended (State n) (Phase n)) :
    Prop :=
  Stops watch (most * roomFactor n ≤ w.top) (CrowdedFrom costs)
    (fun next => Sound w costs most left next e.state) e.result

section Step
variable {watch : Watch} {emitted left : Nat}

theorem quietSteps {x : Except Failure (Phase n × State n)}
    (ends : Ends (most * roomFactor n ≤ w.top) (CrowdedFrom costs)
      (fun out => Sound w costs most left out.1 out.2) x) : Steps w costs most watch left (quiet s x) := by
  cases x with
  | ok out => exact ends
  | error failure =>
    have stops := @Ends.stops _ watch _ _ _ _ ends
    cases failure <;> exact stops

theorem reduceSteps (priced : Priced w costs most) (sound : Sound w costs most (left + 1) .reduce s) :
    Steps w costs most watch left (act w watch emitted costs s .reduce) := by
  obtain ⟨start, enough⟩ := sound
  subst start
  have ends := reduceEnds priced
  simp only [act]
  refine quietSteps ?_
  cases reduced : reduce w costs (.start n) with
  | error failure =>
    rw [reduced] at ends
    cases failure <;> exact ends
  | ok t =>
    rw [reduced] at ends
    obtain ⟨rest, starred⟩ := ends
    refine ⟨rest, ?_⟩
    by_cases positive : 0 < n
    · have le := @workLe n 1 t.stars (starred positive)
      simp only
      omega
    · obtain rfl : n = 0 := by omega
      rw [workNone] at enough ⊢
      omega

theorem coverSteps (priced : Priced w costs most) (sound : Sound w costs most (left + 1) .cover s) :
    Steps w costs most watch left (act w watch emitted costs s .cover) := by
  obtain ⟨rest, enough⟩ := sound
  obtain ⟨drift, shifts, _⟩ := rest.shifts
  simp only [act]
  split
  case isTrue raised => exact ⟨emitted, raised⟩
  case isFalse =>
    refine quietSteps ((coverEnds rest priced).imp ?_)
    intro out ⟨count, way⟩
    obtain ⟨phase, t⟩ := out
    simp only at count way ⊢
    rcases way with ⟨isDone, all, shifts⟩ | ⟨isPrime, search⟩
    · subst isDone
      exact ⟨count.trans all, shifts⟩
    · subst isPrime
      refine ⟨0, [], search, .inl ?_⟩
      have few : s.stars < n := by
        have few := search.few
        rw [count] at few
        have le := Finset.card_le_univ (starRows s)
        rw [← starsCard shifts.apart, Fintype.card_fin] at le
        omega
      rw [workStep few] at enough
      rw [count, List.length_nil]
      omega

theorem primeSteps (priced : Priced w costs most) (sound : Sound w costs most (left + 1) .prime s) :
    Steps w costs most watch left (act w watch emitted costs s .prime) := by
  obtain ⟨lift, tree, search, enough⟩ := sound
  simp only [act]
  refine quietSteps ((search.primeZeroEnds priced).imp ?_)
  intro out ⟨count, way⟩
  obtain ⟨phase, t⟩ := out
  simp only at count way ⊢
  rcases way with ⟨isAdjust, same, blank⟩ | ⟨row, isPrime, grown⟩ | ⟨row, col, isAugment, reached⟩
  · subst isAdjust
    subst same
    refine ⟨lift, tree, search, blank, ?_⟩
    rcases enough with whole | ⟨zero, _⟩
    · omega
    · exact absurd blank zero
  · subst isPrime
    -- The tree has grown within the rows that have a star, so fewer of these are left.
    obtain ⟨drift, shifts, _⟩ := grown.shifts
    have longer := grown.grown.lengthStars shifts.apart
    rw [count, List.length_cons] at longer
    refine ⟨lift, row :: tree, grown, .inl ?_⟩
    rw [count, List.length_cons]
    omega
  · subst isAugment
    refine ⟨tree, reached, ?_⟩
    rw [count]
    omega

theorem augmentSteps {row col : Fin n} (sound : Sound w costs most (left + 1) (.augment row col) s) :
    Steps w costs most watch left (act w watch emitted costs s (.augment row col)) := by
  obtain ⟨tree, reached, enough⟩ := sound
  obtain ⟨done, rest, count⟩ := reached.augmentOk
  simp only [Steps, act, done]
  refine ⟨rest, ?_⟩
  rw [count]
  omega

theorem adjustSteps (priced : Priced w costs most) (sound : Sound w costs most (left + 1) .adjust s) :
    Steps w costs most watch left (act w watch emitted costs s .adjust) := by
  obtain ⟨lift, tree, search, blank, enough⟩ := sound
  have ends := search.adjustEnds priced blank
  simp only [Steps, act]
  cases adjusted : (adjust w s).result with
  | error failure =>
    rw [adjusted] at ends
    have stops := @Ends.stops _ watch _ _ _ _ ends
    cases failure <;> exact stops
  | ok phase =>
    rw [adjusted] at ends
    obtain ⟨isPrime, count, zero, lift', after⟩ := ends
    subst isPrime
    refine ⟨lift', tree, after, .inr ⟨zero, ?_⟩⟩
    rw [count]
    omega

theorem actSteps (priced : Priced w costs most) {phase : Phase n} (active : phase ≠ .done)
    (sound : Sound w costs most (left + 1) phase s) :
    Steps w costs most watch left (act w watch emitted costs s phase) := by
  cases phase with
  | reduce => exact reduceSteps priced sound
  | cover => exact coverSteps priced sound
  | prime => exact primeSteps priced sound
  | augment row col => exact augmentSteps sound
  | adjust => exact adjustSteps priced sound
  | done => exact absurd rfl active

end Step

theorem Sound.finished {phase : Phase n} (sound : Sound w costs most 0 phase s) : phase = .done := by
  cases phase with
  | done => rfl
  | reduce =>
    obtain ⟨_, enough⟩ := sound
    omega
  | cover =>
    obtain ⟨_, enough⟩ := sound
    omega
  | prime =>
    obtain ⟨_, _, _, enough⟩ := sound
    omega
  | augment =>
    obtain ⟨_, _, enough⟩ := sound
    omega
  | adjust =>
    obtain ⟨_, _, _, _, enough⟩ := sound
    omega

theorem iterateStep {watch : Watch} {fuel steps emitted : Nat} {phase : Phase n} (active : phase ≠ .done) :
    iterate w watch costs (fuel + 1) steps emitted phase s =
      (step w watch emitted costs phase s).andThen fun events s next =>
        iterate w watch costs fuel (steps + 1) (emitted + events) next s := by
  cases phase with
  | done => exact absurd rfl active
  | _ => rfl

theorem iterateStops (priced : Priced w costs most) {watch : Watch} {fuel steps emitted : Nat} {phase : Phase n}
    (sound : Sound w costs most fuel phase s) :
    Stops watch (most * roomFactor n ≤ w.top) (CrowdedFrom costs)
      (fun _ => (iterate w watch costs fuel steps emitted phase s).state.stars = n ∧
        ∃ drift, Shifts costs most drift (iterate w watch costs fuel steps emitted phase s).state)
      (iterate w watch costs fuel steps emitted phase s).result := by
  -- The induction is on the fuel, which the invariant knows to be enough.
  induction fuel generalizing steps emitted phase s with
  | zero =>
    obtain rfl := sound.finished
    exact sound
  | succ fuel ih =>
    by_cases isDone : phase = .done
    · subst isDone
      exact sound
    · have stops := @actSteps w n costs most s watch emitted fuel priced phase isDone sound
      rw [iterateStep isDone]
      unfold step
      generalize act w watch emitted costs s phase = e at stops
      obtain ⟨t, events, result⟩ := e
      cases result with
      | error failure => cases failure <;> exact stops
      | ok next => exact ih stops

theorem pricedOfValid {table : Square w n} (valid : table.toTable.Valid) : Priced w table.costs table.largest :=
  ⟨Square.costsWithin valid, Table.largestNonneg table.toTable, Int.le_of_lt (Table.largestPrice valid)⟩

theorem solveStops {table : Square w n} (valid : table.toTable.Valid) (watch : Watch) (emitted : Nat) :
    Stops watch (table.largest * roomFactor n ≤ w.top) (CrowdedFrom table.costs)
      (Optimum table.costs) (solve watch emitted table).result := by
  have stops := @iterateStops w n table.costs table.largest (.start n) (pricedOfValid valid) watch (stepBudget n) 0
    (emitted + 1) .reduce ⟨rfl, Nat.le_of_eq (budget n)⟩
  unfold solve
  generalize iterate w watch table.costs (stepBudget n) 0 (emitted + 1) .reduce (.start n) = e at stops
  obtain ⟨t, events, result⟩ := e
  cases result with
  | error failure => cases failure <;> exact stops
  | ok steps =>
    obtain ⟨all, drift, shifts⟩ := stops
    have starred := starred shifts.apart all
    obtain ⟨place, least⟩ := shifts.optimal starred
    have read : columns t = .ok ((List.finRange n).map fun i => (starAt t i).val) := columnsOk starred
    simp only [Ended.andThen, Ended.after, finish, read]
    exact ⟨starAt t, place, least, rfl⟩

end OptimalMatching.Hungarian
