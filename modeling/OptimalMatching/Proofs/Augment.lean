import OptimalMatching.Proofs.Scan

/-! What a finished search does to potentials and matching. Every column comes down by what its level lacks to the level
of the free column, and every row rises by as much as its column comes down. The result is a certificate for one row
more. -/
namespace OptimalMatching

variable {n : Nat}

def level (labels : Labels n) (cols : List (Fin n)) (reached : Int) (col : Fin n) : Int :=
  if col ∈ cols then labels.dist col else reached

theorem Sweep.levelLe {costs : Costs n} {p : Potentials n} {m : Matching n} {first : Fin n} {labels : Labels n}
    {rows cols : List (Fin n)} {base : Int} (sweep : Sweep costs p m first labels rows cols base) (j : Fin n) :
    level labels cols base j ≤ base := by
  unfold level
  split
  case isTrue inside => exact (sweep.distSettled inside).2
  case isFalse => exact Int.le_refl base

structure Moved (m : Matching n) (first : Fin n) (dist : Fin n → Int) (reached : Int) (old new : Potentials n) :
    Prop where
  rowUp : ∀ i : Fin n, i.val ≤ first.val → new.row[i] = old.row[i] + (reached - entry m dist i)
  rowSame : ∀ i : Fin n, first.val < i.val → new.row[i] = old.row[i]
  colDown : ∀ j : Fin n, new.col[j] = old.col[j] - (reached - dist j)

structure MoveFits (w : Width) (p : Potentials n) (m : Matching n) (labels : Labels n) (first : Fin n) (reached : Int)
    (rows cols : List (Fin n)) : Prop where
  once : rows.Nodup ∧ cols.Nodup
  start : w.Holds (p.row[first] + reached)
  rows : ∀ i ∈ rows, i ≠ first → ∃ col, m.colOf[i] = some col ∧ w.Holds (reached - labels.dist col) ∧
    w.Holds (p.row[i] + (reached - labels.dist col))
  cols : ∀ j ∈ cols, w.Holds (reached - labels.dist j) ∧ w.Holds (p.col[j] - (reached - labels.dist j))

theorem updateAt {α : Type} (v : Vector α n) (i j : Fin n) (f : α → α) :
    (v.set i (f v[i]) i.isLt)[j] = if j = i then f v[j] else v[j] := by
  rw [readSet]
  split
  case isTrue same => simp only [same]
  case isFalse => rfl

namespace Potentials
variable {w : Width} {m : Matching n} {labels : Labels n} {reached : Int}

theorem gapOk {col : Fin n} (fits : w.Holds (reached - labels.dist col)) :
    gap w labels reached col = .ok (reached - labels.dist col) := Width.keepOk fits

theorem raiseRowOk {p : Potentials n} {row : Fin n} {amount : Int} (fits : w.Holds (p.row[row] + amount)) :
    ∃ q, raiseRow w p row amount = .ok q ∧ q.col = p.col ∧
      ∀ i : Fin n, q.row[i] = if i = row then p.row[i] + amount else p.row[i] := by
  refine ⟨⟨p.row.set row (p.row[row] + amount), p.col⟩, ?_, rfl, ?_⟩
  · simp only [raiseRow, Width.keepOk fits, bind, Except.bind, pure, Except.pure]
  · intro i
    exact updateAt p.row row i (· + amount)

theorem lowerColOk {p : Potentials n} {col : Fin n} {amount : Int} (fits : w.Holds (p.col[col] - amount)) :
    ∃ q, lowerCol w p col amount = .ok q ∧ q.row = p.row ∧
      ∀ j : Fin n, q.col[j] = if j = col then p.col[j] - amount else p.col[j] := by
  refine ⟨⟨p.row, p.col.set col (p.col[col] - amount)⟩, ?_, rfl, ?_⟩
  · simp only [lowerCol, Width.keepOk fits, bind, Except.bind, pure, Except.pure]
  · intro j
    exact updateAt p.col col j (· - amount)

theorem raiseRowsOk {rows : List (Fin n)} {p : Potentials n} (distinct : rows.Nodup)
    (fits : ∀ i ∈ rows, (∃ col, m.colOf[i] = some col) ∧ w.Holds (reached - entry m labels.dist i) ∧
      w.Holds (p.row[i] + (reached - entry m labels.dist i))) :
    ∃ q, raiseRows w m labels reached rows p = .ok q ∧ q.col = p.col ∧
      ∀ i : Fin n, q.row[i] = if i ∈ rows then p.row[i] + (reached - entry m labels.dist i) else p.row[i] := by
  induction rows generalizing p with
  | nil => exact ⟨p, rfl, rfl, by simp⟩
  | cons row rest ih =>
    obtain ⟨fresh, distinct⟩ := List.nodup_cons.mp distinct
    obtain ⟨⟨col, partner⟩, gapFits, rowFits⟩ := fits row List.mem_cons_self
    rw [entrySome partner] at gapFits rowFits
    obtain ⟨one, raised, oneCols, oneRows⟩ := raiseRowOk rowFits
    have later : ∀ i ∈ rest, one.row[i] = p.row[i] := by
      intro i member
      rw [oneRows i, if_neg]
      exact fun same => fresh (same ▸ member)
    obtain ⟨q, done, cols, rows⟩ := @ih one distinct (by
      intro i member
      rw [later i member]
      exact fits i (List.mem_cons_of_mem _ member))
    refine ⟨q, ?_, cols.trans oneCols, ?_⟩
    · simp only [raiseRows, partner, gapOk gapFits, bind, Except.bind, raised]
      exact done
    · intro i
      rw [rows i]
      by_cases isRow : i = row
      · rw [isRow, if_neg fresh, if_pos List.mem_cons_self, oneRows, if_pos rfl, entrySome partner]
      · rw [oneRows i, if_neg isRow]
        simp only [List.mem_cons, isRow, false_or]

theorem lowerColsOk {cols : List (Fin n)} {p : Potentials n} (distinct : cols.Nodup)
    (fits : ∀ j ∈ cols, w.Holds (reached - labels.dist j) ∧ w.Holds (p.col[j] - (reached - labels.dist j))) :
    ∃ q, lowerCols w labels reached cols p = .ok q ∧ q.row = p.row ∧
      ∀ j : Fin n, q.col[j] = if j ∈ cols then p.col[j] - (reached - labels.dist j) else p.col[j] := by
  induction cols generalizing p with
  | nil => exact ⟨p, rfl, rfl, by simp⟩
  | cons col rest ih =>
    obtain ⟨fresh, distinct⟩ := List.nodup_cons.mp distinct
    obtain ⟨gapFits, colFits⟩ := fits col List.mem_cons_self
    obtain ⟨one, lowered, oneRows, oneCols⟩ := lowerColOk colFits
    have later : ∀ j ∈ rest, one.col[j] = p.col[j] := by
      intro j member
      rw [oneCols j, if_neg]
      exact fun same => fresh (same ▸ member)
    obtain ⟨q, done, rows, cols⟩ := @ih one distinct (by
      intro j member
      rw [later j member]
      exact fits j (List.mem_cons_of_mem _ member))
    refine ⟨q, ?_, rows.trans oneRows, ?_⟩
    · simp only [lowerCols, gapOk gapFits, bind, Except.bind, lowered]
      exact done
    · intro j
      rw [cols j]
      by_cases isCol : j = col
      · rw [isCol, if_neg fresh, if_pos List.mem_cons_self, oneCols, if_pos rfl]
      · rw [oneCols j, if_neg isCol]
        simp only [List.mem_cons, isCol, false_or]

end Potentials

namespace Found
variable {costs : Costs n} {most reached : Int} {p : Potentials n} {m : Matching n} {first sink : Fin n}
  {labels : Labels n} {rows older : List (Fin n)}

theorem levelLe (found : Found costs most p m first labels rows older sink reached) (j : Fin n) :
    level labels (sink :: older) reached j ≤ reached :=
  found.scan.levelLe j

theorem entryLevel (found : Found costs most p m first labels rows older sink reached)
    (waiting : m.colOf[first] = none) {i : Fin n} (member : i ∈ rows) :
    entry m (level labels (sink :: older) reached) i = entry m labels.dist i := by
  rcases found.scan.visited i member with same | ⟨c, inside, partner⟩
  · rw [same, entryNone waiting, entryNone waiting]
  · rw [entrySome partner, entrySome partner, level, if_pos inside]

theorem entryOutside (found : Found costs most p m first labels rows older sink reached) (pairs : Pairs first.val m)
    {i : Fin n} (early : i.val ≤ first.val) (outside : i ∉ rows) :
    entry m (level labels (sink :: older) reached) i = reached := by
  have notFirst : i ≠ first := fun same => outside (found.swept.complete i (.inl same))
  have before : i.val < first.val := by
    rw [Ne, Fin.ext_iff] at notFirst
    omega
  have partner := pairs.colAt before
  rw [entrySome partner, level, if_neg]
  intro member
  rcases List.mem_cons.mp member with isSink | inside
  · rw [isSink, pairs.agree, found.free] at partner
    cases partner
  · exact outside (found.swept.complete i (.inr ⟨_, inside, partner⟩))

theorem entryLe (found : Found costs most p m first labels rows older sink reached) (pos : 0 ≤ reached) (i : Fin n) :
    entry m (level labels (sink :: older) reached) i ≤ reached := by
  unfold entry
  split
  · exact pos
  · exact found.levelLe _

theorem positive (found : Found costs most p m first labels rows older sink reached) {k : Nat}
    (c : Certificate costs k p m) : 0 ≤ reached := found.scan.nonneg c found.label

theorem levelEstimate (found : Found costs most p m first labels rows older sink reached)
    (c : Certificate costs first.val p m) :
    Estimate costs p m first (level labels (sink :: older) reached) := by
  have waiting := c.pairs.late (Nat.le_refl first.val)
  intro i j cost early has
  have nonneg := c.feasible i j cost has
  by_cases inside : i ∈ rows
  · rw [found.entryLevel waiting inside]
    obtain ⟨x, label, le⟩ := found.scan.offered i inside j cost has
    unfold level
    split
    case isTrue => rw [Labels.distSome label]; exact le
    case isFalse open_ =>
      have ahead := found.scan.ahead j x open_ label
      omega
  · rw [found.entryOutside c.pairs early inside]
    have le := found.levelLe j
    omega

theorem levelGreatest (found : Found costs most p m first labels rows older sink reached) {g : Fin n → Int}
    (estimate : Estimate costs p m first g) (le : ∀ j, g j ≤ reached) (j : Fin n) :
    g j ≤ level labels (sink :: older) reached j := by
  unfold level
  split
  case isTrue inside => exact found.scan.least g estimate j _ (found.scan.distSettled inside).1
  case isFalse => exact le j

theorem rowCount (found : Found costs most p m first labels rows older sink reached)
    (ready : Ready costs most first.val p m) : rows.length * most ≤ first.val * most + most := by
  have few : rows.length ≤ first.val + 1 :=
    nodupLength found.scan.distinct fun i member => found.scan.early ready.certificate.pairs member
  have le : (rows.length : Int) * most ≤ ((first.val + 1 : Nat) : Int) * most :=
    Int.mul_le_mul_of_nonneg_right (by exact_mod_cast few) ready.nonneg
  rw [Int.natCast_add, Int.add_mul] at le
  simpa using le

theorem reachedRange (found : Found costs most p m first labels rows older sink reached)
    (ready : Ready costs most first.val p m) : reached ≤ first.val * most + most := by
  have high := found.scan.high sink reached found.label
  have zero := ready.certificate.colFree sink found.free
  have few := found.rowCount ready
  omega

theorem settledRange (found : Found costs most p m first labels rows older sink reached)
    (ready : Ready costs most first.val p m) {c : Fin n} (member : c ∈ sink :: older) :
    0 ≤ labels.dist c + p.col[c] + first.val * most := by
  have low := found.scan.low c _ (found.scan.distSettled member).1
  have few := found.rowCount ready
  omega

theorem reachedHolds (found : Found costs most p m first labels rows older sink reached)
    (ready : Ready costs most first.val p m) {w : Width} (room : most * roomFactor n ≤ w.top) :
    w.Holds (p.row[first] + reached) := by
  have positive := found.positive ready.certificate
  have range := found.reachedRange ready
  have zero := ready.certificate.rowLater first (Nat.le_refl _)
  have product := rowProduct first ready.nonneg
  have nonneg := ready.nonneg
  exact roomHolds room (by omega) (by omega)

theorem colHolds (found : Found costs most p m first labels rows older sink reached)
    (ready : Ready costs most first.val p m) {w : Width} (room : most * roomFactor n ≤ w.top) {c : Fin n}
    (member : c ∈ sink :: older) :
    w.Holds (reached - labels.dist c) ∧ w.Holds (p.col[c] - (reached - labels.dist c)) := by
  obtain ⟨label, le⟩ := found.scan.distSettled member
  have positive := found.scan.nonneg ready.certificate label
  have range := found.reachedRange ready
  have settled := found.settledRange ready member
  have sign := ready.certificate.colSign c
  have product := rowProduct first ready.nonneg
  have nonneg := ready.nonneg
  exact ⟨roomHolds room (by omega) (by omega), roomHolds room (by omega) (by omega)⟩

theorem rowHolds (found : Found costs most p m first labels rows older sink reached)
    (ready : Ready costs most first.val p m) {w : Width} (room : most * roomFactor n ≤ w.top) {i c : Fin n}
    (member : c ∈ sink :: older) (partner : m.colOf[i] = some c) :
    w.Holds (p.row[i] + (reached - labels.dist c)) := by
  obtain ⟨label, le⟩ := found.scan.distSettled member
  obtain ⟨cost, has, tight⟩ := ready.certificate.tight i c partner
  have bound := ready.within i c cost has
  have range := found.reachedRange ready
  have settled := found.settledRange ready member
  have sign := ready.certificate.rowSign i
  have product := rowProduct first ready.nonneg
  have nonneg := ready.nonneg
  exact roomHolds room (by omega) (by omega)

theorem fits (found : Found costs most p m first labels rows older sink reached)
    (ready : Ready costs most first.val p m) {w : Width} (room : most * roomFactor n ≤ w.top) :
    MoveFits w p m labels first reached rows (sink :: older) := by
  refine ⟨⟨found.scan.distinct, found.scan.trail.nodup⟩, found.reachedHolds ready room, ?_, ?_⟩
  · intro i inside other
    obtain ⟨c, settled, partner⟩ := (found.scan.visited i inside).resolve_left other
    exact ⟨c, partner, (found.colHolds ready room settled).1, found.rowHolds ready room settled partner⟩
  · exact fun c member => found.colHolds ready room member

theorem update (found : Found costs most p m first labels rows older sink reached)
    (ready : Ready costs most first.val p m) {w : Width} (room : most * roomFactor n ≤ w.top) :
    ∃ q, p.update w m labels first reached rows (sink :: older) = .ok q ∧
      Moved m first (level labels (sink :: older) reached) reached p q := by
  have pairs := ready.certificate.pairs
  have waiting := pairs.late (Nat.le_refl first.val)
  have fits := found.fits ready room
  obtain ⟨one, raised, oneCols, oneRows⟩ := Potentials.raiseRowOk fits.start
  have memOthers : ∀ i : Fin n, i ∈ rows.filter (· ≠ first) ↔ i ∈ rows ∧ i ≠ first := by simp
  obtain ⟨two, risen, twoCols, twoRows⟩ := @Potentials.raiseRowsOk n w m labels reached
    (rows.filter (· ≠ first)) one (fits.once.1.filter _) (by
      intro i member
      obtain ⟨inside, other⟩ := (memOthers i).mp member
      obtain ⟨c, partner, gap, raise⟩ := fits.rows i inside other
      rw [entrySome partner, oneRows i, if_neg other]
      exact ⟨⟨c, partner⟩, gap, raise⟩)
  have columns : two.col = p.col := twoCols.trans oneCols
  obtain ⟨q, lowered, rowsKept, cols⟩ := @Potentials.lowerColsOk n w labels reached (sink :: older) two fits.once.2 (by
    rw [columns]
    exact fits.cols)
  refine ⟨q, ?_, ?_, ?_, ?_⟩
  · simp only [Potentials.update, raised, bind, Except.bind, risen, lowered]
  · intro i early
    rw [rowsKept, twoRows i, oneRows i]
    by_cases isFirst : i = first
    · have start : entry m (level labels (sink :: older) reached) first = 0 := entryNone waiting
      rw [isFirst, start, if_pos rfl, if_neg]
      · omega
      · exact fun member => ((memOthers first).mp member).2 rfl
    · rw [if_neg isFirst]
      by_cases inside : i ∈ rows
      · rw [if_pos ((memOthers i).mpr ⟨inside, isFirst⟩), found.entryLevel waiting inside]
      · rw [if_neg fun member => inside ((memOthers i).mp member).1, found.entryOutside pairs early inside]
        omega
  · intro i late
    have outside : i ∉ rows := by
      intro member
      have early := found.scan.early pairs member
      omega
    have other : i ≠ first := fun same => outside (found.swept.complete i (.inl same))
    rw [rowsKept, twoRows i, oneRows i, if_neg other, if_neg fun member => outside ((memOthers i).mp member).1]
  · intro j
    rw [cols j, columns, level]
    split
    case isTrue => rfl
    case isFalse => omega

section Moved
variable {q : Potentials n} {new : Matching n} (found : Found costs most p m first labels rows older sink reached)
  (ready : Ready costs most first.val p m)
  (moved : Moved m first (level labels (sink :: older) reached) reached p q)
include found ready moved

theorem movedFeasible {i j : Fin n} {cost : Int} (has : costs[i][j] = some cost) :
    0 ≤ cost - q.row[i] - q.col[j] := by
  have old := ready.certificate
  have down := moved.colDown j
  have le := found.levelLe j
  by_cases early : i.val ≤ first.val
  · have up := moved.rowUp i early
    have step := found.levelEstimate old i j cost early has
    omega
  · have same := moved.rowSame i (by omega)
    have zero := old.rowLater i (by omega)
    have sign := old.colSign j
    have bound := ready.within i j cost has
    omega

theorem movedTight (pairs : Pairs (first.val + 1) new)
    (flipped : Flipped labels.reachedFrom first sink (sink :: older) m new) {i j : Fin n}
    (partner : new.colOf[i] = some j) : ∃ cost, costs[i][j] = some cost ∧ cost - q.row[i] - q.col[j] = 0 := by
  have old := ready.certificate
  have up := moved.rowUp i (Nat.le_of_lt_succ (pairs.early partner))
  have down := moved.colDown j
  rcases flipped.pairs i j partner with before | ⟨inside, step⟩
  · obtain ⟨cost, has, tight⟩ := old.tight i j before
    rw [entrySome before] at up
    exact ⟨cost, has, by omega⟩
  · obtain ⟨row, visited, reachedFrom, cost, has, exact⟩ := found.scan.origin j _ (found.scan.distSettled inside).1
    rw [step] at reachedFrom
    obtain rfl := Option.some.inj reachedFrom
    rw [found.entryLevel (old.pairs.late (Nat.le_refl _)) visited] at up
    rw [level, if_pos inside] at down
    exact ⟨cost, has, by omega⟩

/- A column that is free after the walk back was not settled, so it has not moved. -/
theorem movedFree (flipped : Flipped labels.reachedFrom first sink (sink :: older) m new) {j : Fin n}
    (free : new.rowOf[j] = none) : q.col[j] = 0 := by
  obtain ⟨before, notSink⟩ := (flipped.colGain j).mp free
  have outside : j ∉ sink :: older := by
    intro member
    rcases List.mem_cons.mp member with isSink | inside
    · exact notSink isSink
    · obtain ⟨i, partner⟩ := found.swept.matched j inside
      rw [before] at partner
      cases partner
  have down := moved.colDown j
  rw [level, if_neg outside] at down
  have zero := ready.certificate.colFree j before
  omega

theorem certificate (pairs : Pairs (first.val + 1) new)
    (flipped : Flipped labels.reachedFrom first sink (sink :: older) m new) :
    Certificate costs (first.val + 1) q new := by
  have old := ready.certificate
  refine ⟨pairs, ?_, ?_, ?_, ?_, ?_, ?_⟩
  · exact fun i j cost has => found.movedFeasible ready moved has
  · exact fun i j partner => found.movedTight ready moved pairs flipped partner
  · intro i
    have sign := old.rowSign i
    by_cases early : i.val ≤ first.val
    · have up := moved.rowUp i early
      have le := found.entryLe (found.positive old) i
      omega
    · have same := moved.rowSame i (by omega)
      omega
  · intro j
    have down := moved.colDown j
    have le := found.levelLe j
    have sign := old.colSign j
    omega
  · exact fun j free => found.movedFree ready moved flipped free
  · intro i late
    rw [moved.rowSame i (by omega)]
    exact old.rowLater i (by omega)

end Moved

theorem ready (found : Found costs most p m first labels rows older sink reached)
    (ready : Ready costs most first.val p m) {q : Potentials n} {new : Matching n}
    (moved : Moved m first (level labels (sink :: older) reached) reached p q)
    (c : Certificate costs (first.val + 1) q new) : Ready costs most (first.val + 1) q new := by
  refine ⟨c, ready.within, ready.nonneg, ?_⟩
  intro j
  have longer : ((first.val + 1 : Nat) : Int) * most = first.val * most + most := by
    rw [Int.natCast_add, Int.add_mul]
    simp
  have down := moved.colDown j
  have before := ready.colRange j
  have nonneg := ready.nonneg
  rw [longer]
  unfold level at down
  split at down
  case isTrue inside =>
    have range := found.reachedRange ready
    have settled := found.settledRange ready inside
    omega
  case isFalse => omega

end Found

structure Augmented (costs : Costs n) (most : Int) (first : Fin n) (p : Potentials n) (m : Matching n)
    (q : Potentials n) (new : Matching n) (reached : Int) : Prop where
  search : ∃ labels rows older sink, Found costs most p m first labels rows older sink reached ∧
    Moved m first (level labels (sink :: older) reached) reached p q ∧
    Flipped labels.reachedFrom first sink (sink :: older) m new
  ready : Ready costs most (first.val + 1) q new

theorem Found.commit {costs : Costs n} {most reached : Int} {p : Potentials n} {m : Matching n} {first sink : Fin n}
    {labels : Labels n} {rows older : List (Fin n)}
    (found : Found costs most p m first labels rows older sink reached) (ready : Ready costs most first.val p m)
    {w : Width} (room : most * roomFactor n ≤ w.top) :
    ∃ q new, p.update w m labels first reached rows (sink :: older) = .ok q ∧
      m.flipPath labels.reachedFrom first sink = .ok new ∧ Augmented costs most first p m q new reached := by
  obtain ⟨q, updated, moved⟩ := found.update ready room
  obtain ⟨_, new, walked, _, _, flipped, pairs⟩ := flipPathOk ready.certificate.pairs found.free found.scan.trail
  have certificate := found.certificate ready moved pairs flipped
  exact ⟨q, new, updated, walked, ⟨_, _, _, _, found, moved, flipped⟩, found.ready ready moved certificate⟩

inductive Progress (costs : Costs n) (most : Int) : Nat → Potentials n → Matching n → List Int → Prop
  | start : Progress costs most 0 (.zero n) (.empty n) []
  | row {first : Fin n} {p q : Potentials n} {m new : Matching n} {ways : List Int} {reached : Int}
      (before : Progress costs most first.val p m ways) (step : Augmented costs most first p m q new reached) :
      Progress costs most (first.val + 1) q new (ways ++ [reached])

theorem readyStart {costs : Costs n} {most : Int} (within : CostsWithin costs most) (nonneg : 0 ≤ most) :
    Ready costs most 0 (.zero n) (.empty n) := by
  refine ⟨certificateStart fun i j cost has => (within i j cost has).1, within, nonneg, ?_⟩
  intro j
  simp [Potentials.zero]

theorem Progress.ready {costs : Costs n} {most : Int} {k : Nat} {p : Potentials n} {m : Matching n} {ways : List Int}
    (progress : Progress costs most k p m ways) (within : CostsWithin costs most) (nonneg : 0 ≤ most) :
    Ready costs most k p m := by
  cases progress with
  | start => exact readyStart within nonneg
  | row before step => exact step.ready

end OptimalMatching
