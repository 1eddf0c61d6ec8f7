import OptimalMatching.Proofs.Hungarian.Reach

/-! What one step of the star and prime method makes of a state, said once for every way in which it goes well, without any
invariant. The phase before a path is flipped, and the last phase, are traced back to the step that led to them. -/
namespace OptimalMatching.Hungarian

variable {w : Width} {n : Nat} {costs : Costs n} {watch : Watch} {s t : State n} {phase after : Phase n}

theorem openColRest {col : Fin n} {rows : List (Fin n)} (done : openCol w costs col rows s = .ok t) :
    ∃ slack, t = { s with slack := slack } := by
  induction rows generalizing s with
  | nil =>
    cases done
    exact ⟨_, rfl⟩
  | cons row rest ih =>
    obtain ⟨price, _, done⟩ := bindOk.mp done
    cases price with
    | none => exact ih done
    | some price =>
      obtain ⟨_, only⟩ := tightenRest s row col price
      obtain ⟨slack, last⟩ := ih done
      exact ⟨slack, by rw [last, only]⟩

theorem openColsRest {cols : List (Fin n)} (done : openCols w costs cols s = .ok t) :
    ∃ slack, t = { s with slack := slack } := by
  induction cols generalizing s with
  | nil =>
    cases done
    exact ⟨_, rfl⟩
  | cons col rest ih =>
    obtain ⟨_, first, done⟩ := bindOk.mp done
    obtain ⟨_, rfl⟩ := openColRest first
    obtain ⟨slack, last⟩ := ih done
    exact ⟨slack, last⟩

theorem coverRest (done : cover w costs s = .ok (after, t)) : (after = .done ∨ after = .prime) ∧
    ∃ colCovered covered slack, t = { s with colCovered := colCovered, covered := covered, slack := slack } := by
  obtain ⟨colCovered, only, _⟩ := coverStarredAt (List.finRange n) s
  simp only [cover, only] at done
  split at done
  · cases done
  split at done
  · cases done
  split at done
  · cases done
    exact ⟨.inl rfl, _, _, _, rfl⟩
  · obtain ⟨_, opened, last⟩ := bindOk.mp done
    obtain ⟨slack, rfl⟩ := openColsRest opened
    cases last
    exact ⟨.inr rfl, _, _, slack, rfl⟩

theorem adjustDone (done : (adjust w s).result = .ok after) : after = .prime ∧ ∃ delta, leastSlack s = some delta ∧
    0 < delta ∧ shiftBy w delta s = .ok (adjust w s).state := by
  unfold adjust at done ⊢
  cases found : leastSlack s with
  | none =>
    rw [found] at done
    cases done
  | some delta =>
    rw [found] at done
    simp only at done ⊢
    split at done
    case isFalse => cases done
    case isTrue positive =>
      cases moved : shiftBy w delta s with
      | error failure =>
        rw [moved] at done
        cases done
      | ok t =>
        rw [moved] at done
        cases done
        rw [if_pos positive]
        exact ⟨rfl, delta, rfl, positive, moved⟩

theorem augmentDone {row col : Fin n} (done : (augment s row col).result = .ok after) : after = .cover ∧
    ∃ path flipped, pathFrom s row col = .ok path ∧ flipMarks path s = .ok flipped ∧
      (augment s row col).state = dropPrimes flipped.uncoverAll := by
  unfold augment at done ⊢
  cases traced : pathFrom s row col with
  | error failure =>
    rw [traced] at done
    cases done
  | ok path =>
    rw [traced] at done
    simp only at done ⊢
    cases flips : flipMarks path s with
    | error failure =>
      rw [flips] at done
      cases done
    | ok flipped =>
      rw [flips] at done
      cases done
      exact ⟨rfl, path, flipped, rfl, flips, rfl⟩

inductive Moves (w : Width) (costs : Costs n) : Phase n → State n → Phase n → State n → Prop
  | reduced {s t : State n} (made : reduce w costs s = .ok t) : Moves w costs .reduce s .cover t
  | complete {s t : State n} (made : cover w costs s = .ok (.done, t)) : Moves w costs .cover s .done t
  | opened {s t : State n} (made : cover w costs s = .ok (.prime, t)) : Moves w costs .cover s .prime t
  | blank {s : State n} (none : uncoveredZero s = none) : Moves w costs .prime s .adjust s
  | join {s : State n} {row col starred : Fin n} {slack : Vector (Option (Slack n)) n}
      (zero : uncoveredZero s = some (row, col)) (star : (s.setMark row col .prime).mark row starred = .star) :
      Moves w costs .prime s .prime { joined s row col starred with slack := slack }
  | found {s : State n} {row col : Fin n} (zero : uncoveredZero s = some (row, col))
      (free : ∀ j, (s.setMark row col .prime).mark row j ≠ .star) :
      Moves w costs .prime s (.augment row col) (s.setMark row col .prime)
  | flip {s flipped : State n} {row col : Fin n} {path : List (Fin n × Fin n)}
      (traced : pathFrom s row col = .ok path) (flips : flipMarks path s = .ok flipped) :
      Moves w costs (.augment row col) s .cover (dropPrimes flipped.uncoverAll)
  | lower {s t : State n} {delta : Int} (least : leastSlack s = some delta) (positive : 0 < delta)
      (moved : shiftBy w delta s = .ok t) : Moves w costs .adjust s .prime t
  | finished {s : State n} : Moves w costs .done s .done s

theorem primeZeroMoves (done : primeZero w costs s = .ok (after, t)) : Moves w costs .prime s after t := by
  unfold primeZero at done
  cases zero : uncoveredZero s with
  | none =>
    rw [zero] at done
    cases done
    exact .blank zero
  | some cell =>
    obtain ⟨row, col⟩ := cell
    rw [zero] at done
    simp only at done
    cases inRow : (s.setMark row col .prime).markInRow row .star with
    | none =>
      rw [inRow] at done
      cases done
      exact .found zero (markInRowNone.mp inRow)
    | some starred =>
      rw [inRow] at done
      obtain ⟨_, opened, last⟩ := bindOk.mp done
      obtain ⟨slack, rfl⟩ := openColRest opened
      cases last
      exact .join zero (markInRowSome inRow)

theorem stepMoves {emitted : Nat} {events : List Event}
    (made : step w watch emitted costs phase s = ⟨t, events, .ok after⟩) : Moves w costs phase s after t := by
  obtain ⟨state, result⟩ := stepActs made
  cases phase with
  | reduce =>
    simp only [act] at state result
    cases done : reduce w costs s with
    | error failure =>
      rw [done] at result
      cases result
    | ok u =>
      rw [done] at state result
      cases state
      cases result
      exact .reduced done
  | cover =>
    simp only [act] at state result
    split at result
    case isTrue => cases result
    case isFalse calm =>
      rw [if_neg calm] at state
      cases done : cover w costs s with
      | error failure =>
        rw [done] at result
        cases result
      | ok out =>
        rw [done] at state result
        cases state
        cases result
        obtain ⟨next, u⟩ := out
        obtain ⟨isDone | isPrime, _⟩ := coverRest done
        · subst isDone
          exact .complete done
        · subst isPrime
          exact .opened done
  | prime =>
    simp only [act] at state result
    cases done : primeZero w costs s with
    | error failure =>
      rw [done] at result
      cases result
    | ok out =>
      rw [done] at state result
      cases state
      cases result
      exact primeZeroMoves done
  | augment row col =>
    obtain ⟨isCover, path, flipped, traced, flips, last⟩ := augmentDone result
    rw [← state]
    simp only [act, isCover, last]
    exact .flip traced flips
  | adjust =>
    obtain ⟨isPrime, delta, least, positive, moved⟩ := adjustDone result
    rw [← state, isPrime]
    exact .lower least positive moved
  | done =>
    cases state
    cases result
    exact .finished

namespace Reachable

theorem found {row col : Fin n} (reached : Reachable w watch costs (.augment row col) t) :
    ∃ s, Reachable w watch costs .prime s ∧ uncoveredZero s = some (row, col) ∧
      (∀ j, t.mark row j ≠ .star) ∧ t = s.setMark row col .prime := by
  cases reached with
  | next before made =>
    cases stepMoves made with
    | found zero free => exact ⟨_, before, zero, free, rfl⟩

theorem finished (reached : Reachable w watch costs .done t) :
    ∃ s, Reachable w watch costs .cover s ∧ cover w costs s = .ok (.done, t) := by
  generalize last : Phase.done = phase at reached
  induction reached with
  | start => cases last
  | next before made ih =>
    subst last
    cases stepMoves made with
    | complete made => exact ⟨_, before, made⟩
    | finished => exact ih rfl

end Reachable
end OptimalMatching.Hungarian
