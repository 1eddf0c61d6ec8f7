import OptimalMatching.Proofs.Hungarian.Run
import OptimalMatching.Proofs.Range
import OptimalMatching.Proofs.Scaling.Lines

/-! The star and prime method on two scaled problems. The row shifts take the amounts of the rows away with the least
costs, and from then on every price of the second run is that of the first times the factor. So the same cells are zero,
the same slacks are least, and stars, primes and covers are the same after every step. -/
namespace OptimalMatching

def Agree {α β : Type} (related : α → β → Prop) (x : Except Failure α) (y : Except Failure β) : Prop :=
  Unbroken x → Unbroken y →
    (∃ a b, x = .ok a ∧ y = .ok b ∧ related a b) ∨ ∃ failure, x = .error failure ∧ y = .error failure

theorem Unbroken.through {α β : Type} {x : Except Failure α} {y : Except Failure β} (whole : Unbroken y)
    (failed : ∀ failure, x = .error failure → y = .error failure) : Unbroken x :=
  ⟨fun cause broken => whole.kept cause (failed _ broken), fun cause broken => whole.roomy cause (failed _ broken)⟩

namespace Agree
variable {α β γ δ : Type} {related : α → β → Prop} {after : γ → δ → Prop}

theorem ok {a : α} {b : β} (same : related a b) : Agree related (.ok a) (.ok b) :=
  fun _ _ => .inl ⟨a, b, rfl, rfl, same⟩

theorem error (failure : Failure) : Agree related (.error failure) (.error failure) :=
  fun _ _ => .inr ⟨failure, rfl, rfl⟩

theorem bind {x : Except Failure α} {y : Except Failure β} {f : α → Except Failure γ} {g : β → Except Failure δ}
    (first : Agree related x y) (next : ∀ a b, related a b → Agree after (f a) (g b)) :
    Agree after (x >>= f) (y >>= g) := by
  intro whole whole'
  have parts := first (whole.through fun _ broken => bindError.mpr (.inl broken))
    (whole'.through fun _ broken => bindError.mpr (.inl broken))
  rcases parts with ⟨a, b, one, two, same⟩ | ⟨failure, one, two⟩
  · subst one
    subst two
    exact next a b same whole whole'
  · subst one
    subst two
    exact .inr ⟨failure, rfl, rfl⟩

theorem keep {w : Width} {failure failure' : Failure} {x y : Int} (breaks : ∀ whole : Except Failure Int,
    whole = .error failure ∨ whole = .error failure' → ¬ Unbroken whole) :
    Agree (fun a b => a = x ∧ b = y) (w.keep failure x) (w.keep failure' y) := by
  intro whole whole'
  unfold Width.keep at whole whole' ⊢
  split at whole
  case isFalse => exact absurd whole (breaks _ (.inl rfl))
  case isTrue one =>
    split at whole'
    case isFalse => exact absurd whole' (breaks _ (.inr rfl))
    case isTrue two =>
      rw [if_pos one, if_pos two]
      exact .inl ⟨x, y, rfl, rfl, rfl, rfl⟩

theorem keepOverflow {w : Width} {cause cause' : Overflow} {x y : Int} :
    Agree (fun a b => a = x ∧ b = y) (w.keep (.overflow cause) x) (w.keep (.overflow cause') y) :=
  keep fun _ way whole => way.elim (whole.roomy cause) (whole.roomy cause')

theorem keepFault {w : Width} {cause cause' : Fault} {x y : Int} :
    Agree (fun a b => a = x ∧ b = y) (w.keep (.fault cause) x) (w.keep (.fault cause') y) :=
  keep fun _ way whole => way.elim (whole.kept cause) (whole.kept cause')

end Agree

theorem minMap {f : Int → Int} (mono : ∀ x y, f x ≤ f y ↔ x ≤ y) (xs : List Int) :
    (xs.map f).min? = xs.min?.map f := by
  cases least : xs.min? with
  | none =>
    rw [List.min?_eq_none_iff] at least
    rw [least]
    rfl
  | some x =>
    obtain ⟨member, le⟩ := List.min?_eq_some_iff.mp least
    refine List.min?_eq_some_iff.mpr ⟨List.mem_map_of_mem member, ?_⟩
    intro y inside
    obtain ⟨y', member', same⟩ := List.mem_map.mp inside
    rw [← same, mono]
    exact le y' member'

namespace Hungarian

variable {w : Width} {n : Nat} {z : Scale n} {costs costs' : Costs n} {s s' : State n}

def Slack.scale (z : Scale n) (slack : Slack n) : Slack n := { slack with price := z.factor * slack.price }

structure ScaledLines (z : Scale n) (s s' : State n) : Prop where
  col : ∀ j : Fin n, s'.colShift[j] = z.factor * s.colShift[j]
  slack : ∀ i : Fin n, s'.slack[i] = (s.slack[i]).map (·.scale z)
  marks : s'.marks = s.marks
  rowCovered : s'.rowCovered = s.rowCovered
  colCovered : s'.colCovered = s.colCovered
  covered : s'.covered = s.covered

structure ScaledState (z : Scale n) (s s' : State n) : Prop extends ScaledLines z s s' where
  row : ∀ i : Fin n, s'.rowShift[i] = z.factor * s.rowShift[i] - z.lift i

theorem factorLt {x y : Int} : z.factor * x < z.factor * y ↔ x < y := Int.mul_lt_mul_left z.positive

theorem factorLe {x y : Int} : z.factor * x ≤ z.factor * y ↔ x ≤ y := Int.mul_le_mul_left z.positive

theorem factorZero {x : Int} : z.factor * x = 0 ↔ x = 0 := by
  have positive := z.positive
  rw [Int.mul_eq_zero]
  refine ⟨fun way => way.resolve_left (by omega), .inr⟩

namespace ScaledState

theorem mark (same : ScaledState z s s') (i j : Fin n) : s'.mark i j = s.mark i j := by
  unfold State.mark
  rw [same.marks]

theorem markInRow (same : ScaledState z s s') (row : Fin n) (mark : Mark) :
    s'.markInRow row mark = s.markInRow row mark := by
  unfold State.markInRow State.mark
  rw [same.marks]

theorem markInCol (same : ScaledState z s s') (col : Fin n) (mark : Mark) :
    s'.markInCol col mark = s.markInCol col mark := by
  unfold State.markInCol State.mark
  rw [same.marks]

theorem uncoveredRows (same : ScaledState z s s') : s'.uncoveredRows = s.uncoveredRows := by
  unfold State.uncoveredRows
  rw [same.rowCovered]

theorem uncoveredCols (same : ScaledState z s s') : s'.uncoveredCols = s.uncoveredCols := by
  unfold State.uncoveredCols
  rw [same.colCovered]

theorem coveredCols (same : ScaledState z s s') : s'.coveredCols = s.coveredCols := by
  unfold State.coveredCols
  rw [same.colCovered]

theorem stars (same : ScaledState z s s') : s'.stars = s.stars := by
  unfold State.stars
  rw [same.marks]

theorem setMark (same : ScaledState z s s') (row col : Fin n) (mark : Mark) :
    ScaledState z (s.setMark row col mark) (s'.setMark row col mark) := by
  refine ⟨⟨same.col, same.slack, ?_, same.rowCovered, same.colCovered, same.covered⟩, same.row⟩
  simp only [State.setMark, same.marks]

theorem coverRow (same : ScaledState z s s') (row : Fin n) : ScaledState z (s.coverRow row) (s'.coverRow row) := by
  refine ⟨⟨same.col, same.slack, same.marks, ?_, same.colCovered, same.covered⟩, same.row⟩
  simp only [State.coverRow, same.rowCovered]

theorem coverCol (same : ScaledState z s s') (col : Fin n) : ScaledState z (s.coverCol col) (s'.coverCol col) := by
  refine ⟨⟨same.col, same.slack, same.marks, same.rowCovered, ?_, same.covered⟩, same.row⟩
  simp only [State.coverCol, same.colCovered]

theorem uncoverCol (same : ScaledState z s s') (col : Fin n) :
    ScaledState z (s.uncoverCol col) (s'.uncoverCol col) := by
  refine ⟨⟨same.col, same.slack, same.marks, same.rowCovered, ?_, same.covered⟩, same.row⟩
  simp only [State.uncoverCol, same.colCovered]

theorem uncoverAll (same : ScaledState z s s') : ScaledState z s.uncoverAll s'.uncoverAll :=
  ⟨⟨same.col, same.slack, same.marks, rfl, rfl, same.covered⟩, same.row⟩

theorem dropPrimes (same : ScaledState z s s') : ScaledState z (dropPrimes s) (dropPrimes s') := by
  refine ⟨⟨same.col, same.slack, ?_, same.rowCovered, same.colCovered, same.covered⟩, same.row⟩
  simp only [Hungarian.dropPrimes, same.mark]

theorem setSlack (same : ScaledState z s s') (row : Fin n) (slack : Slack n) :
    ScaledState z { s with slack := s.slack.set row (some slack) row.isLt }
      { s' with slack := s'.slack.set row (some (slack.scale z)) row.isLt } := by
  refine ⟨⟨same.col, ?_, same.marks, same.rowCovered, same.colCovered, same.covered⟩, same.row⟩
  intro i
  have kept := same.slack i
  simp only [readVal, Vector.getElem_set] at kept ⊢
  split
  case isTrue => rfl
  case isFalse => exact kept

theorem tighten (same : ScaledState z s s') (row col : Fin n) (price : Int) :
    ScaledState z (s.tighten row col price) (s'.tighten row col (z.factor * price)) := by
  have wrote := same.setSlack row ⟨price, col⟩
  unfold State.tighten
  rw [same.slack row]
  cases s.slack[row] with
  | none => exact wrote
  | some known =>
    simp only [Option.map_some, Slack.scale, factorLt]
    split
    case isTrue => exact wrote
    case isFalse => exact same

theorem lowerRow (same : ScaledState z s s') (row : Fin n) (delta : Int) :
    ScaledState z { s with rowShift := s.rowShift.set row (s.rowShift[row] - delta) row.isLt }
      { s' with rowShift := s'.rowShift.set row (s'.rowShift[row] - z.factor * delta) row.isLt } := by
  refine ⟨⟨same.col, same.slack, same.marks, same.rowCovered, same.colCovered, same.covered⟩, ?_⟩
  intro i
  have before := same.row i
  simp only [readVal, Vector.getElem_set] at before ⊢
  split
  case isTrue here =>
    have shift := same.row row
    simp only [readVal] at shift
    have isRow : row = i := Fin.ext here
    rw [shift, ← isRow]
    ring
  case isFalse => exact before

theorem raiseCol (same : ScaledState z s s') (col : Fin n) (delta : Int) :
    ScaledState z { s with colShift := s.colShift.set col (s.colShift[col] + delta) col.isLt }
      { s' with colShift := s'.colShift.set col (s'.colShift[col] + z.factor * delta) col.isLt } := by
  refine ⟨⟨?_, same.slack, same.marks, same.rowCovered, same.colCovered, same.covered⟩, same.row⟩
  intro j
  have before := same.col j
  simp only [readVal, Vector.getElem_set] at before ⊢
  split
  case isTrue here =>
    have shift := same.col col
    simp only [readVal] at shift
    rw [shift]
    ring
  case isFalse => exact before

theorem coverStarred {cols : List (Fin n)} (same : ScaledState z s s') :
    ScaledState z (Hungarian.coverStarred cols s) (Hungarian.coverStarred cols s') := by
  induction cols generalizing s s' with
  | nil => exact same
  | cons col rest ih =>
    simp only [Hungarian.coverStarred, same.markInCol]
    split
    case isTrue => exact ih (same.coverCol col)
    case isFalse => exact ih same

theorem uncoveredZero (same : ScaledState z s s') :
    Hungarian.uncoveredZero s' = Hungarian.uncoveredZero s := by
  unfold Hungarian.uncoveredZero
  rw [same.uncoveredRows]
  congr 1
  funext row
  rw [same.slack]
  cases s.slack[row] with
  | none => rfl
  | some slack => simp only [Option.map_some, Slack.scale, factorZero]

theorem tracePath (same : ScaledState z s s') (fuel : Nat) (col : Fin n) :
    Hungarian.tracePath s' fuel col = Hungarian.tracePath s fuel col := by
  induction fuel generalizing col with
  | zero => rfl
  | succ fuel ih => simp only [Hungarian.tracePath, same.markInCol, same.markInRow, ih]

theorem leastSlack (same : ScaledState z s s') :
    Hungarian.leastSlack s' = (Hungarian.leastSlack s).map (z.factor * ·) := by
  unfold Hungarian.leastSlack
  rw [same.uncoveredRows, ← minMap fun x y => factorLe, List.map_filterMap]
  congr 1
  refine List.filterMap_congr ?_
  intro row _
  rw [same.slack]
  cases s.slack[row] <;> rfl

/- The amount of a row is in its cost and out of its shift. -/
theorem price (same : ScaledState z s s') (scaled : ScaledCosts z costs costs') (row col : Fin n) :
    Agree (fun a b => b = a.map (z.factor * ·)) (s.price w costs row col) (s'.price w costs' row col) := by
  unfold State.price
  rw [scaled row col]
  cases costs[row][col] with
  | none => exact .ok rfl
  | some cost =>
    refine Agree.keepOverflow.bind ?_
    rintro far far' ⟨rfl, rfl⟩
    refine Agree.keepOverflow.bind ?_
    rintro x x' ⟨rfl, rfl⟩
    refine .ok ?_
    rw [Option.map_some, same.row, same.col, Scale.cost]
    exact congrArg some (by ring)

end ScaledState

section Costs
variable (scaled : ScaledCosts z costs costs')
include scaled

theorem leastScaled (row : Fin n) :
    ((costs'[row]).toList.filterMap id).min? = ((costs[row]).toList.filterMap id).min?.map (z.cost row) := by
  have line : costs'[row] = (costs[row]).map (Option.map (z.cost row)) := by
    refine Vector.ext ?_
    intro j inside
    rw [Vector.getElem_map]
    exact scaled row ⟨j, inside⟩
  rw [line, Vector.toList_map, List.filterMap_map, ← minMap fun x y => Scale.costLe, List.map_filterMap]
  rfl

theorem reduceRowsScaled {rows done : List (Fin n)} (lines : ScaledLines z s s')
    (lost : ∀ i ∈ done, s'.rowShift[i] = z.factor * s.rowShift[i] - z.lift i) (all : ∀ i, i ∈ done ∨ i ∈ rows) :
    Agree (ScaledState z) (reduceRows w costs rows s) (reduceRows w costs' rows s') := by
  -- The induction is on the rows; those that are done have lost their amounts.
  induction rows generalizing done s s' with
  | nil => exact .ok ⟨lines, fun i => lost i ((all i).resolve_right List.not_mem_nil)⟩
  | cons row rest ih =>
    simp only [reduceRows]
    rw [leastScaled scaled row]
    cases ((costs[row]).toList.filterMap id).min? with
    | none => exact .error _
    | some least =>
      refine Agree.keepFault.bind ?_
      rintro moved moved' ⟨rfl, rfl⟩
      refine @ih { s with rowShift := s.rowShift.set row (0 - least) }
        { s' with rowShift := s'.rowShift.set row (0 - z.cost row least) } (row :: done) ?_ ?_ ?_
      · exact ⟨lines.col, lines.slack, lines.marks, lines.rowCovered, lines.colCovered, lines.covered⟩
      · intro i member
        simp only [readVal, Vector.getElem_set]
        split
        case isTrue here =>
          have isRow : row = i := Fin.ext here
          rw [← isRow, Scale.cost]
          ring
        case isFalse apart =>
          refine lost i ((List.mem_cons.mp member).resolve_left ?_)
          exact fun isRow => apart (congrArg Fin.val isRow.symm)
      · intro i
        rcases all i with before | here
        · exact .inl (List.mem_cons_of_mem _ before)
        · rcases List.mem_cons.mp here with isRow | later
          · exact .inl (isRow ▸ List.mem_cons_self)
          · exact .inr later

theorem starZerosScaled {cells : List (Fin n × Fin n)} (same : ScaledState z s s') :
    Agree (ScaledState z) (starZeros w costs cells s) (starZeros w costs' cells s') := by
  induction cells generalizing s s' with
  | nil => exact .ok same
  | cons cell rest ih =>
    obtain ⟨row, col⟩ := cell
    simp only [starZeros]
    refine (same.price scaled row col).bind ?_
    rintro price price' rfl
    have zero : price.map (z.factor * ·) = some 0 ↔ price = some 0 := by
      cases price with
      | none => simp
      | some x => simp only [Option.map_some, Option.some.injEq, factorZero]
    rw [same.rowCovered, same.colCovered]
    simp only [zero]
    split
    case isTrue => exact ih (((same.setMark row col .star).coverRow row).coverCol col)
    case isFalse => exact ih same

theorem reduceScaled (lines : ScaledLines z s s') :
    Agree (ScaledState z) (reduce w costs s) (reduce w costs' s') := by
  have rows := @reduceRowsScaled w n z costs costs' s s' scaled (List.finRange n) [] lines nofun
    fun i => .inr (List.mem_finRange i)
  refine rows.bind fun t t' reduced => ?_
  refine (starZerosScaled scaled reduced).bind ?_
  exact fun u u' starred => .ok starred.uncoverAll

theorem openColScaled {rows : List (Fin n)} (col : Fin n) (same : ScaledState z s s') :
    Agree (ScaledState z) (openCol w costs col rows s) (openCol w costs' col rows s') := by
  induction rows generalizing s s' with
  | nil => exact .ok same
  | cons row rest ih =>
    simp only [openCol]
    refine (same.price scaled row col).bind ?_
    rintro price price' rfl
    cases price with
    | none => exact ih same
    | some x => exact ih (same.tighten row col x)

theorem openColsScaled {cols : List (Fin n)} (same : ScaledState z s s') :
    Agree (ScaledState z) (openCols w costs cols s) (openCols w costs' cols s') := by
  induction cols generalizing s s' with
  | nil => exact .ok same
  | cons col rest ih =>
    simp only [openCols, same.uncoveredRows]
    exact (openColScaled scaled col same).bind fun t t' opened => ih opened

def SamePhase (z : Scale n) (a b : Phase n × State n) : Prop := b.1 = a.1 ∧ ScaledState z a.2 b.2

theorem coverScaled (same : ScaledState z s s') : Agree (SamePhase z) (cover w costs s) (cover w costs' s') := by
  have starred := @ScaledState.coverStarred n z s s' (List.finRange n) same
  unfold cover
  generalize coverStarred (List.finRange n) s = t at starred
  generalize coverStarred (List.finRange n) s' = t' at starred
  have counted : ScaledState z { t with covered := t.coveredCols.length } { t' with covered := t.coveredCols.length } :=
    ⟨⟨starred.col, starred.slack, starred.marks, starred.rowCovered, starred.colCovered, rfl⟩, starred.row⟩
  simp only
  rw [starred.coveredCols, starred.stars, starred.covered]
  split
  · exact .error _
  split
  · exact .error _
  split
  · exact .ok ⟨rfl, counted⟩
  · rw [counted.uncoveredCols]
    refine (openColsScaled scaled ?_).bind fun u u' opened => .ok ⟨rfl, opened⟩
    refine ⟨⟨starred.col, ?_, starred.marks, starred.rowCovered, starred.colCovered, rfl⟩, starred.row⟩
    intro i
    simp

theorem primeZeroScaled (same : ScaledState z s s') :
    Agree (SamePhase z) (primeZero w costs s) (primeZero w costs' s') := by
  unfold primeZero
  rw [same.uncoveredZero]
  cases uncoveredZero s with
  | none => exact .ok ⟨rfl, same⟩
  | some cell =>
    obtain ⟨row, col⟩ := cell
    have primed := same.setMark row col .prime
    simp only
    rw [primed.markInRow]
    cases (s.setMark row col .prime).markInRow row .star with
    | none => exact .ok ⟨rfl, primed⟩
    | some starred =>
      have joined := (primed.coverRow row).uncoverCol starred
      simp only
      rw [joined.uncoveredRows]
      exact (openColScaled scaled starred joined).bind fun t t' opened => .ok ⟨rfl, opened⟩

end Costs

theorem flipMarksScaled {path : List (Fin n × Fin n)} (same : ScaledState z s s') :
    Agree (ScaledState z) (flipMarks path s) (flipMarks path s') := by
  induction path generalizing s s' with
  | nil => exact .ok same
  | cons cell rest ih =>
    obtain ⟨row, col⟩ := cell
    simp only [flipMarks]
    rw [same.mark]
    cases s.mark row col with
    | empty => exact .error _
    | star => exact ih (same.setMark row col .empty)
    | prime => exact ih (same.setMark row col .star)

theorem lowerRowsScaled {delta : Int} {rows : List (Fin n)} (same : ScaledState z s s') :
    Agree (ScaledState z) (lowerRows w delta rows s) (lowerRows w (z.factor * delta) rows s') := by
  induction rows generalizing s s' with
  | nil => exact .ok same
  | cons row rest ih =>
    simp only [lowerRows]
    refine Agree.keepOverflow.bind ?_
    rintro moved moved' ⟨rfl, rfl⟩
    have lowered := same.lowerRow row delta
    rw [same.slack]
    cases s.slack[row] with
    | none => exact ih lowered
    | some slack =>
      simp only [Option.map_some]
      refine Agree.keepFault.bind ?_
      rintro price price' ⟨rfl, rfl⟩
      have less : z.factor * slack.price - z.factor * delta = z.factor * (slack.price - delta) := by ring
      refine ih ?_
      rw [Slack.scale, less]
      exact lowered.setSlack row ⟨slack.price - delta, slack.col⟩

theorem raiseColsScaled {delta : Int} {cols : List (Fin n)} (same : ScaledState z s s') :
    Agree (ScaledState z) (raiseCols w delta cols s) (raiseCols w (z.factor * delta) cols s') := by
  induction cols generalizing s s' with
  | nil => exact .ok same
  | cons col rest ih =>
    simp only [raiseCols]
    refine Agree.keepOverflow.bind ?_
    rintro moved moved' ⟨rfl, rfl⟩
    exact ih (same.raiseCol col delta)

theorem shiftByScaled {delta : Int} (same : ScaledState z s s') :
    Agree (ScaledState z) (shiftBy w delta s) (shiftBy w (z.factor * delta) s') := by
  unfold shiftBy
  rw [same.uncoveredRows]
  refine (lowerRowsScaled same).bind ?_
  intro t t' lowered
  rw [lowered.coveredCols]
  exact raiseColsScaled lowered

def AgreeEnded {α : Type} (z : Scale n) (e e' : Ended (State n) α) : Prop :=
  Unbroken e.result → Unbroken e'.result → e'.result = e.result ∧
    ∀ a, e.result = .ok a → e'.events.length = e.events.length ∧ ScaledState z e.state e'.state

theorem agreeEnded {α β : Type} {related : β → β → Prop} {x y : Except Failure β} {e e' : Ended (State n) α}
    (agree : Agree related x y) (failed : ∀ failure, x = .error failure → e.result = .error failure)
    (failed' : ∀ failure, y = .error failure → e'.result = .error failure)
    (done : ∀ a b, x = .ok a → y = .ok b → related a b → e'.result = e.result ∧
      e'.events.length = e.events.length ∧ ScaledState z e.state e'.state) : AgreeEnded z e e' := by
  intro whole whole'
  rcases agree (whole.through failed) (whole'.through failed') with ⟨a, b, one, two, same⟩ | ⟨failure, one, two⟩
  · obtain ⟨results, rest⟩ := done a b one two same
    exact ⟨results, fun _ _ => rest⟩
  · rw [failed failure one, failed' failure two]
    exact ⟨rfl, nofun⟩

theorem AgreeEnded.andThen {α β : Type} {e e' : Ended (State n) α} {next next' : Nat → State n → α → Ended (State n) β}
    (first : AgreeEnded z e e')
    (later : ∀ k a t t', ScaledState z t t' → AgreeEnded z (next k t a) (next' k t' a)) :
    AgreeEnded z (e.andThen next) (e'.andThen next') := by
  intro whole whole'
  have parts := first (whole.through fun failure failed => by simp only [Ended.andThen, failed])
    (whole'.through fun failure failed => by simp only [Ended.andThen, failed])
  obtain ⟨t, events, result⟩ := e
  obtain ⟨t', events', result'⟩ := e'
  obtain ⟨same, states⟩ := parts
  simp only at same states
  subst same
  cases result' with
  | error failure => exact ⟨rfl, by rintro _ ⟨⟩⟩
  | ok a =>
    obtain ⟨count, scaled⟩ := states a rfl
    simp only [Ended.andThen, Ended.after, count] at whole whole' ⊢
    obtain ⟨results, ends⟩ := later events.length a t t' scaled whole whole'
    refine ⟨results, fun b done => ?_⟩
    obtain ⟨more, last⟩ := ends b done
    exact ⟨by rw [List.length_append, List.length_append, count, more], last⟩

theorem quietScaled {x y : Except Failure (Phase n × State n)} (agree : Agree (SamePhase z) x y) :
    AgreeEnded z (quiet s x) (quiet s' y) := by
  refine agreeEnded agree ?_ ?_ ?_
  · rintro failure rfl
    rfl
  · rintro failure rfl
    rfl
  · rintro ⟨phase, t⟩ ⟨phase', t'⟩ rfl rfl ⟨same, states⟩
    exact ⟨congrArg Except.ok same, rfl, states⟩

theorem augmentScaled (same : ScaledState z s s') (row col : Fin n) :
    AgreeEnded z (augment s row col) (augment s' row col) := by
  have path : pathFrom s' row col = pathFrom s row col := by
    unfold pathFrom
    rw [same.tracePath]
  unfold augment
  rw [path]
  cases pathFrom s row col with
  | error failure => exact fun _ _ => ⟨rfl, nofun⟩
  | ok cells =>
    dsimp only
    refine agreeEnded (@flipMarksScaled n z s s' cells same) ?_ ?_ ?_
    · intro failure failed
      simp only [failed]
    · intro failure failed
      simp only [failed]
    · intro t t' flipped flipped' states
      rw [flipped, flipped']
      exact ⟨rfl, rfl, states.uncoverAll.dropPrimes⟩

theorem adjustScaled (same : ScaledState z s s') : AgreeEnded z (adjust w s) (adjust w s') := by
  unfold adjust
  rw [same.leastSlack, same.uncoveredRows]
  cases leastSlack s with
  | none => exact fun _ _ => ⟨rfl, nofun⟩
  | some delta =>
    have positive : z.factor * 0 < z.factor * delta ↔ 0 < delta := factorLt
    rw [Int.mul_zero] at positive
    simp only [Option.map_some, positive]
    split
    case isFalse => exact fun whole _ => absurd rfl (whole.kept (.delta delta))
    case isTrue =>
      refine agreeEnded (@shiftByScaled w n z s s' delta same) ?_ ?_ ?_
      · intro failure failed
        simp only [failed]
      · intro failure failed
        simp only [failed]
      · intro t t' shifted shifted' states
        rw [shifted, shifted']
        exact ⟨rfl, rfl, states⟩

structure ScaledAt (z : Scale n) (phase : Phase n) (s s' : State n) : Prop where
  lines : ScaledLines z s s'
  reduced : phase ≠ .reduce → ScaledState z s s'

section Run
variable (scaled : ScaledCosts z costs costs')
include scaled

theorem actScaled {phase : Phase n} (same : ScaledAt z phase s s') (watch : Watch) (emitted : Nat) :
    AgreeEnded z (act w watch emitted costs s phase) (act w watch emitted costs' s' phase) := by
  have states := same.reduced
  cases phase with
  | reduce =>
    refine quietScaled ?_
    exact (reduceScaled scaled same.lines).bind fun t t' reduced => .ok ⟨rfl, reduced⟩
  | cover =>
    simp only [act]
    split
    · exact fun _ _ => ⟨rfl, by rintro _ ⟨⟩⟩
    · exact quietScaled (coverScaled scaled (states (by rintro ⟨⟩)))
  | prime => exact quietScaled (primeZeroScaled scaled (states (by rintro ⟨⟩)))
  | augment row col => exact augmentScaled (states (by rintro ⟨⟩)) row col
  | adjust => exact adjustScaled (states (by rintro ⟨⟩))
  | done => exact fun _ _ => ⟨rfl, fun _ _ => ⟨rfl, states (by rintro ⟨⟩)⟩⟩

theorem iterateScaled {phase : Phase n} (same : ScaledAt z phase s s') (watch : Watch) (fuel steps emitted : Nat) :
    AgreeEnded z (iterate w watch costs fuel steps emitted phase s)
      (iterate w watch costs' fuel steps emitted phase s') := by
  induction fuel generalizing phase s s' steps emitted with
  | zero =>
    by_cases isDone : phase = .done
    · subst isDone
      exact fun _ _ => ⟨rfl, fun _ _ => ⟨rfl, same.reduced nofun⟩⟩
    · cases phase with
      | done => exact absurd rfl isDone
      | _ => exact fun _ _ => ⟨rfl, nofun⟩
  | succ fuel ih =>
    by_cases isDone : phase = .done
    · subst isDone
      exact fun _ _ => ⟨rfl, fun _ _ => ⟨rfl, same.reduced nofun⟩⟩
    · rw [iterateStep isDone, iterateStep isDone]
      refine ((actScaled scaled same watch emitted).andThen ?_).andThen ?_
      · exact fun _ next t t' states _ _ => ⟨rfl, fun _ _ => ⟨rfl, states⟩⟩
      · exact fun events next t t' states => ih ⟨states.toScaledLines, fun _ => states⟩ (steps + 1) (emitted + events)

end Run

theorem solveAlike {a b : Square w n} (scaled : ScaledCosts z a.costs b.costs) (valid : a.toTable.Valid)
    (valid' : b.toTable.Valid) (room : a.largest * roomFactor n ≤ w.top) (room' : b.largest * roomFactor n ≤ w.top)
    (watch : Watch) (emitted : Nat) : (solve watch emitted b).result = (solve watch emitted a).result := by
  have lines : ScaledLines z (.start n) (.start n) := by
    refine ⟨?_, ?_, rfl, rfl, rfl, rfl⟩
    · intro j
      simp [State.start]
    · intro i
      simp [State.start]
  have runs := @iterateScaled w n z a.costs b.costs (.start n) (.start n) scaled .reduce ⟨lines, fun away => absurd rfl away⟩
    watch (stepBudget n) 0 (emitted + 1)
  have whole := (solveStops valid watch emitted).unbroken room
  have whole' := (solveStops valid' watch emitted).unbroken room'
  refine ((runs.andThen ?_) whole whole').1
  intro k steps t t' states _ _
  have same : columns t' = columns t := by
    unfold columns
    simp only [states.markInRow]
  exact ⟨same, fun _ _ => ⟨rfl, states⟩⟩

end Hungarian
end OptimalMatching
