import OptimalMatching.Proofs.Hungarian.Prices
import OptimalMatching.Proofs.Reuse

/-! Nothing that the star and prime method takes for granted ever fails it, whatever the costs. A sum that leaves the range is
one that it checks, up to the step that reports it. -/
namespace OptimalMatching.Hungarian

variable {w : Width} {n : Nat} {costs : Costs n} {most : Int} {watch : Watch} {s : State n} {phase : Phase n}

/-- What a step takes for granted: what it asserts, the marks that it looks for, and the sums that it does not check. -/
def Granted (w : Width) (costs : Costs n) : Phase n → State n → Prop
  | .reduce, _ => ∀ (i : Fin n) least, ((costs[i]).toList.filterMap id).min? = some least → w.Holds (0 - least)
  | .cover, s => (coverStarred (List.finRange n) s).coveredCols.length = s.stars ∧
      s.covered ≤ (coverStarred (List.finRange n) s).coveredCols.length
  | .prime, _ => True
  | .augment row col, s => ∃ path flipped, pathFrom s row col = .ok path ∧ flipMarks path s = .ok flipped
  | .adjust, s => ∀ delta, leastSlack s = some delta → 0 < delta ∧
      ∀ i ∈ s.uncoveredRows, ∀ slack, s.slack[i] = some slack → w.Holds (slack.price - delta)
  | .done, s => ∃ cols, columns s = .ok cols

namespace Reachable

theorem granted (priced : Priced w costs most) (reached : Reachable w watch costs phase s) : Granted w costs phase s := by
  obtain ⟨left, sound⟩ := reached.sound priced
  cases phase with
  | reduce => exact fun i least found => leastFits priced found
  | cover =>
    obtain ⟨rest, _⟩ := sound
    obtain ⟨covered, only, _, length⟩ := rest.coverColumns
    rw [← only] at length
    exact ⟨length, length ▸ rest.counted⟩
  | prime => trivial
  | augment row col =>
    obtain ⟨tree, arrived, _⟩ := sound
    obtain ⟨_, path, flipped, traced, flips, _⟩ := augmentDone arrived.augmentOk.1
    exact ⟨path, flipped, traced, flips⟩
  | adjust =>
    obtain ⟨lift, tree, search, blank, _⟩ := sound
    intro delta found
    have positive := search.deltaPositive blank found
    exact ⟨positive, fun i member slack known => search.slackFits found positive member known⟩
  | done =>
    obtain ⟨all, drift, shifts⟩ := sound
    exact ⟨_, columnsOk (starred shifts.apart all)⟩

theorem stepCalm (priced : Priced w costs most) (reached : Reachable w watch costs phase s) (emitted : Nat) (cause : Fault) :
    (step w watch emitted costs phase s).result ≠ .error (.fault cause) := by
  intro failed
  obtain ⟨left, steps⟩ := reached.steps priced emitted
  rw [Steps, stepFails failed] at steps
  exact steps

end Reachable

theorem neverFaults {table : Square w n} (valid : table.toTable.Valid) (watch : Watch) (emitted : Nat) :
    (∀ cause, (solve watch emitted table).result ≠ .error (.fault cause)) ∧
    (∀ (k : Nat) (old : Memory k) cause, (Memory.solve watch emitted old table).result ≠ .error (.fault cause)) ∧
    ∀ phase s, Reachable w watch table.costs phase s → Granted w table.costs phase s ∧
      ∀ later cause, (step w watch later table.costs phase s).result ≠ .error (.fault cause) := by
  have priced := pricedOfValid valid
  have calm : ∀ cause, (solve watch emitted table).result ≠ .error (.fault cause) := by
    intro cause failed
    have stops := solveStops valid watch emitted
    rw [failed] at stops
    exact stops
  refine ⟨calm, ?_, ?_⟩
  · intro k old cause failed
    refine calm cause ?_
    rw [← Memory.solveState watch emitted old table]
    exact failed
  · intro phase s reached
    exact ⟨reached.granted priced, reached.stepCalm priced⟩

theorem neverFaultsCramped : (solve .never 0 crampedRows).result = .error (.overflow (.adjustment 100)) ∧
    (∀ cause, (Memory.solve .never 0 .new crampedRows).result ≠ .error (.fault cause)) ∧
    ∃ s, Reachable byteWidth .never crampedRows.costs .adjust s ∧ leastSlack s = some 100 ∧
      ∀ i ∈ s.uncoveredRows, ∀ slack, s.slack[i] = some slack → byteWidth.Holds (slack.price - 100) := by
  obtain ⟨_, reused, states⟩ := neverFaults crampedRowsValid .never 0
  obtain ⟨s, adjusts, _, _, _, _, least⟩ := crampedAdjusts
  exact ⟨rfl, reused 0 .new, s, adjusts, least, ((states _ s adjusts).1 100 least).2⟩

end OptimalMatching.Hungarian
