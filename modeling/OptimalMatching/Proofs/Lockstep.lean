import OptimalMatching.Proofs.Duals

/-! Two searches from one row, under the same potentials but with different matchings. Both matchings are tight, so a pair
of one is a free step for the other; the levels of either search then bound the ways of the other, and they agree. Hence
the potentials after any number of rows do not depend on how a solver breaks ties. -/
namespace OptimalMatching

variable {n : Nat} {costs : Costs n} {most other reached reached' : Int} {p q q' : Potentials n}
  {m m' new new' : Matching n} {first : Fin n} {k : Nat}

section Levels
variable {labels labels' : Labels n} {rows older rows' older' : List (Fin n)} {sink sink' : Fin n}

theorem Found.levelFree (found : Found costs most p m first labels rows older sink reached) {j : Fin n}
    (free : m.rowOf[j] = none) : level labels (sink :: older) reached j = reached := by
  unfold level
  split
  case isFalse => rfl
  case isTrue inside =>
    rcases List.mem_cons.mp inside with isSink | settled
    · rw [isSink]
      exact Labels.distSome found.label
    · obtain ⟨i, partner⟩ := found.swept.matched j settled
      rw [free] at partner
      cases partner

theorem Found.levelSum (found : Found costs most p m first labels rows older sink reached) (pairs : Pairs first.val m) :
    ∑ j, (reached - level labels (sink :: older) reached j) =
      ∑ i ∈ rowsBefore n first.val, (reached - level labels (sink :: older) reached (m.colAt i)) := by
  refine sumPlaced (f := fun j => reached - level labels (sink :: older) reached j) pairs.apart ?_
  intro j apart
  rw [found.levelFree (pairs.unused apart)]
  omega

theorem entryColAt (pairs : Pairs first.val m) (g : Fin n → Int) {i : Fin n} (early : i.val < first.val) :
    entry m g i = g (m.colAt i) := entrySome (pairs.colAt early)

/- The columns of one matching stand, row by row, at the levels of the other's. Row by row they stand no higher, and
the sums are equal. -/
theorem Found.levelPartner (found : Found costs most p m' first labels rows older sink reached)
    (left : Certificate costs first.val p m) (right : Certificate costs first.val p m') {i : Fin n}
    (early : i.val < first.val) :
    level labels (sink :: older) reached (m.colAt i) = level labels (sink :: older) reached (m'.colAt i) := by
  have step : ∀ i ∈ rowsBefore n first.val, reached - level labels (sink :: older) reached (m'.colAt i) ≤
      reached - level labels (sink :: older) reached (m.colAt i) := by
    intro i member
    have early := memRowsBefore.mp member
    obtain ⟨cost, has, tight⟩ := left.tight i _ (left.pairs.colAt early)
    have bound := found.levelEstimate right i _ cost (Nat.le_of_lt early) has
    rw [entryColAt right.pairs _ early] at bound
    omega
  have total : ∑ i ∈ rowsBefore n first.val, (reached - level labels (sink :: older) reached (m.colAt i)) ≤
      ∑ j, (reached - level labels (sink :: older) reached j) := by
    rw [← sumUsed (fun j => reached - level labels (sink :: older) reached j) left.pairs.apart]
    refine Finset.sum_le_sum_of_subset_of_nonneg (Finset.subset_univ _) ?_
    intro j _ _
    have le := found.levelLe j
    omega
  rw [found.levelSum right.pairs] at total
  have equal := (Finset.sum_eq_sum_iff_of_le step).mp (Int.le_antisymm (Finset.sum_le_sum step) total)
  have same := equal i (memRowsBefore.mpr early)
  omega

theorem Found.entryPartner (found : Found costs most p m' first labels rows older sink reached)
    (left : Certificate costs first.val p m) (right : Certificate costs first.val p m') {i : Fin n}
    (early : i.val ≤ first.val) :
    entry m (level labels (sink :: older) reached) i = entry m' (level labels (sink :: older) reached) i := by
  by_cases isFirst : i = first
  · rw [isFirst, entryNone (left.pairs.late (Nat.le_refl _)), entryNone (right.pairs.late (Nat.le_refl _))]
  · have before : i.val < first.val := by
      rw [Fin.ext_iff] at isFirst
      omega
    rw [entryColAt left.pairs _ before, entryColAt right.pairs _ before, found.levelPartner left right before]

theorem levelBelow (left : Found costs most p m first labels rows older sink reached)
    (right : Found costs other p m' first labels' rows' older' sink' reached)
    (one : Certificate costs first.val p m) (two : Certificate costs first.val p m') (j : Fin n) :
    level labels' (sink' :: older') reached j ≤ level labels (sink :: older) reached j := by
  refine left.levelGreatest ?_ right.levelLe j
  intro i j cost early has
  rw [right.entryPartner one two early]
  exact right.levelEstimate two i j cost early has

theorem levelUnique (left : Found costs most p m first labels rows older sink reached)
    (right : Found costs other p m' first labels' rows' older' sink' reached)
    (one : Certificate costs first.val p m) (two : Certificate costs first.val p m') :
    level labels (sink :: older) reached = level labels' (sink' :: older') reached := by
  funext j
  exact Int.le_antisymm (levelBelow right left two one j) (levelBelow left right one two j)

end Levels

theorem Augmented.gain (step : Augmented costs most first p m q new reached) (c : Certificate costs first.val p m) :
    ∑ i : Fin n, q.row[i] + ∑ j : Fin n, q.col[j] = ∑ i : Fin n, p.row[i] + ∑ j : Fin n, p.col[j] + reached := by
  obtain ⟨labels, rows, older, sink, found, moved, _⟩ := step.search
  have waiting := c.pairs.late (Nat.le_refl first.val)
  have split : rowsBefore n (first.val + 1) = insert first (rowsBefore n first.val) := by
    ext i
    rw [Finset.mem_insert, memRowsBefore, memRowsBefore, Fin.ext_iff]
    omega
  have fresh : first ∉ rowsBefore n first.val := by
    rw [memRowsBefore]
    omega
  have rowSum : ∑ i : Fin n, (q.row[i] - p.row[i]) =
      reached + ∑ i ∈ rowsBefore n first.val, (reached - level labels (sink :: older) reached (m.colAt i)) := by
    rw [@sumEarly n (first.val + 1) (fun i => q.row[i] - p.row[i])]
    · rw [split, Finset.sum_insert fresh, moved.rowUp first (Nat.le_refl _), entryNone waiting]
      congr 1
      · omega
      · refine Finset.sum_congr rfl ?_
        intro i member
        have early := memRowsBefore.mp member
        rw [moved.rowUp i (Nat.le_of_lt early), entryColAt c.pairs _ early]
        omega
    · intro i late
      rw [moved.rowSame i (by omega)]
      omega
  have colSum : ∑ j : Fin n, (q.col[j] - p.col[j]) = -∑ j, (reached - level labels (sink :: older) reached j) := by
    rw [← Finset.sum_neg_distrib]
    refine Finset.sum_congr rfl ?_
    intro j _
    rw [moved.colDown j]
    omega
  rw [Finset.sum_sub_distrib] at rowSum colSum
  rw [found.levelSum c.pairs] at colSum
  omega

theorem Augmented.way (step : Augmented costs most first p m q new reached) (c : Certificate costs first.val p m)
    {a b : Int} (before : LeastCost costs first.val a) (after : LeastCost costs (first.val + 1) b) :
    reached = b - a := by
  have gain := step.gain c
  have old := leastCostUnique before c.leastCost
  have now := leastCostUnique after step.ready.certificate.leastCost
  omega

theorem Potentials.same {p q : Potentials n} (row : ∀ i : Fin n, p.row[i] = q.row[i])
    (col : ∀ j : Fin n, p.col[j] = q.col[j]) : p = q := by
  obtain ⟨rows, cols⟩ := p
  obtain ⟨otherRows, otherCols⟩ := q
  congr
  · exact Vector.ext fun i inside => row ⟨i, inside⟩
  · exact Vector.ext fun j inside => col ⟨j, inside⟩

theorem Augmented.unique (left : Augmented costs most first p m q new reached)
    (right : Augmented costs other first p m' q' new' reached') (one : Certificate costs first.val p m)
    (two : Certificate costs first.val p m') : q = q' ∧ reached = reached' := by
  have same : reached = reached' := by
    have value := left.way one one.leastCost left.ready.certificate.leastCost
    have value' := right.way two one.leastCost left.ready.certificate.leastCost
    omega
  subst same
  refine ⟨?_, rfl⟩
  obtain ⟨labels, rows, older, sink, found, moved, _⟩ := left.search
  obtain ⟨labels', rows', older', sink', found', moved', _⟩ := right.search
  have levels := levelUnique found found' one two
  refine Potentials.same ?_ ?_
  · intro i
    by_cases early : i.val ≤ first.val
    · rw [moved.rowUp i early, moved'.rowUp i early, levels, found'.entryPartner one two early]
    · rw [moved.rowSame i (by omega), moved'.rowSame i (by omega)]
  · intro j
    rw [moved.colDown j, moved'.colDown j, levels]

namespace Progress

theorem last {ways : List Int} (progress : Progress costs most (k + 1) q new ways) :
    ∃ (first : Fin n) (p : Potentials n) (m : Matching n) (before : List Int) (reached : Int), first.val = k ∧
      Progress costs most first.val p m before ∧ Augmented costs most first p m q new reached ∧
      ways = before ++ [reached] := by
  generalize size : k + 1 = l at progress
  cases progress with
  | start => omega
  | @row first p _ m _ before reached progress step =>
    exact ⟨first, p, m, before, reached, by omega, progress, step, rfl⟩

theorem unique {ways ways' : List Int} (left : Progress costs most k q new ways)
    (right : Progress costs other k q' new' ways') (within : CostsWithin costs most) (nonneg : 0 ≤ most)
    (within' : CostsWithin costs other) (nonneg' : 0 ≤ other) : q = q' ∧ ways = ways' := by
  -- The induction is on the rows; it needs nothing of the matchings but that both are certified.
  induction k generalizing q new ways q' new' ways' with
  | zero =>
    cases left
    cases right
    exact ⟨rfl, rfl⟩
  | succ k ih =>
    obtain ⟨first, p, m, before, reached, at_, progress, step, all⟩ := left.last
    obtain ⟨first', p', m', before', reached', at_', progress', step', all'⟩ := right.last
    obtain rfl : first = first' := Fin.ext (by omega)
    subst at_
    obtain ⟨rfl, rfl⟩ := ih progress progress'
    obtain ⟨same, equal⟩ := step.unique step' (progress.ready within nonneg).certificate
      (progress'.ready within' nonneg').certificate
    exact ⟨same, by rw [all, all', equal]⟩

theorem values {ways : List Int} (progress : Progress costs most k q new ways) (within : CostsWithin costs most)
    (nonneg : 0 ≤ most) {i : Nat} {x : Int} (at_ : ways[i]? = some x) :
    ∃ a b, LeastCost costs i a ∧ LeastCost costs (i + 1) b ∧ x = b - a := by
  induction progress with
  | start => simp at at_
  | @row first p q m new ways reached before step ih =>
    rw [List.getElem?_append] at at_
    split at at_
    case isTrue => exact ih at_
    case isFalse late =>
      rw [before.length] at at_ late
      have single := (List.getElem?_eq_some_iff.mp at_).1
      rw [List.length_singleton] at single
      obtain rfl : i = first.val := by omega
      have certificate := (before.ready within nonneg).certificate
      rw [Nat.sub_self] at at_
      obtain rfl := Option.some.inj at_
      exact ⟨_, _, certificate.leastCost, step.ready.certificate.leastCost,
        step.way certificate certificate.leastCost step.ready.certificate.leastCost⟩

end Progress

def WaysTold (costs : Costs n) (k : Nat) (events : List Event) : Prop :=
  ∃ ways : List Int, ways.length = k ∧ waysOf events = ways.mapIdx Prod.mk ∧
    ∀ i x, ways[i]? = some x → ∃ a b, LeastCost costs i a ∧ LeastCost costs (i + 1) b ∧ x = b - a

inductive StoppedAlike : List Event → Except Failure (List Nat) → List Event → Except Failure (List Nat) → Prop
  | ok {events events' : List Event} (columns columns' : List Nat) :
      StoppedAlike events (.ok columns) events' (.ok columns')
  | infeasible {events events' : List Event} (row : Nat) :
      StoppedAlike events (.error (.infeasible row)) events' (.error (.infeasible row))
  | cancelled {events events' : List Event} (rows : (waysOf events).length = (waysOf events').length) :
      StoppedAlike events (.error .cancelled) events' (.error .cancelled)

theorem Advanced.waysTold {events : List Event} (advanced : Advanced costs most k p m events)
    (within : CostsWithin costs most) (nonneg : 0 ≤ most) : WaysTold costs k events := by
  obtain ⟨ways, progress, told⟩ := advanced
  exact ⟨ways, progress.length, told, fun i x at_ => progress.values within nonneg at_⟩

theorem Advanced.unique {events events' : List Event} (left : Advanced costs most k q new events)
    (right : Advanced costs other k q' new' events') (within : CostsWithin costs most) (nonneg : 0 ≤ most)
    (within' : CostsWithin costs other) (nonneg' : 0 ≤ other) : q = q' ∧ waysOf events = waysOf events' := by
  obtain ⟨ways, progress, told⟩ := left
  obtain ⟨ways', progress', told'⟩ := right
  obtain ⟨same, equal⟩ := progress.unique progress' within nonneg within' nonneg'
  exact ⟨same, by rw [told, told', equal]⟩

theorem Solved.alike {watch watch' : Watch} {emitted emitted' l l' : Nat} {events events' : List Event}
    {result result' : Except Failure (List Nat)} (left : Solved watch costs emitted l m result)
    (right : Solved watch' costs emitted' l' m' result') (count : (waysOf events).length = l)
    (count' : (waysOf events').length = l') (alike : StoppedAlike events result events' result') : l = l' := by
  cases alike with
  | ok columns columns' => rw [left.whole.1, right.whole.1]
  | infeasible row =>
    cases left
    cases right
    rfl
  | cancelled rows => rw [← count, ← count', rows]

theorem sameDuals {w : Width} {table : Square w n} (valid : table.toTable.Valid)
    (accepted : requireRoom w table.largest n = .ok ()) (watch watch' : Watch) (emitted emitted' : Nat) :
    (∀ grouped k s s' events events', Grouped.ofGraph (Graph.ofSquare table) = .ok grouped → k ≤ n →
      rowByRow watch (Dense.augment w table.costs) ((List.finRange n).take k) emitted (.start n) =
        ⟨s, events, .ok ()⟩ →
      rowByRow watch' (Sparse.augment w grouped) ((List.finRange n).take k) emitted' (.start n) =
        ⟨s', events', .ok ()⟩ →
      s.potentials = s'.potentials ∧ waysOf events = waysOf events' ∧ WaysTold table.costs k events) ∧
    ∃ s s', (Dense.solve watch emitted table).state = some s ∧
      (Sparse.solve watch' emitted' (Graph.ofSquare table)).state = some s' ∧
      (StoppedAlike (Dense.solve watch emitted table).events (Dense.solve watch emitted table).result
          (Sparse.solve watch' emitted' (Graph.ofSquare table)).events
          (Sparse.solve watch' emitted' (Graph.ofSquare table)).result →
        s.potentials = s'.potentials) := by
  have within := Square.costsWithin valid
  have nonneg : 0 ≤ table.largest := Table.largestNonneg table.toTable
  have room := (requireRoomOk nonneg).mp accepted
  have validGraph := Graph.validOfSquare valid
  have costs : (Graph.ofSquare table).cheapest = table.costs := Graph.cheapestOfCosts table.costs
  have within' := Graph.cheapestWithin validGraph
  have nonneg' := Graph.largestNonneg (Graph.ofSquare table)
  have roomGraph : Roomy w (Graph.ofSquare table).largest n := by
    refine ⟨room.word, room.factor, ?_⟩
    have le := Int.mul_le_mul_of_nonneg_right (Graph.largestOfSquareLe valid) (Int.natCast_nonneg (roomFactor n))
    have product := room.product
    omega
  have size : n ≠ 0 := Nat.ne_of_gt valid.rows
  rw [costs] at within'
  refine ⟨?_, ?_⟩
  · intro grouped k s s' events events' ofGraph le run run'
    obtain ⟨again, made, arcs⟩ := Grouped.ofGraphOk (Graph.ofSquare table)
    rw [ofGraph] at made
    obtain rfl := Except.ok.inj made
    obtain ⟨l, _, advanced, ended⟩ := Dense.rowsEnd (takeOrder n k) within nonneg room.product watch emitted
    obtain ⟨l', _, advanced', ended'⟩ :=
      Sparse.rowsEnd (takeOrder n k) arcs validGraph roomGraph.product watch' emitted'
    rw [run] at advanced ended
    rw [run'] at advanced' ended'
    rw [takeEnds le ended] at advanced
    rw [takeEnds le ended', costs] at advanced'
    obtain ⟨same, ways⟩ := advanced.unique advanced' within nonneg within' nonneg'
    exact ⟨same, ways, advanced.waysTold within nonneg⟩
  · obtain ⟨s, l, state, advanced, solved⟩ := Dense.solveEnds valid room watch emitted
    obtain ⟨s', l', state', advanced', solved'⟩ := Sparse.solveEnds size validGraph roomGraph watch' emitted'
    rw [costs] at advanced' solved'
    refine ⟨s, s', state, state', ?_⟩
    intro alike
    obtain rfl := solved.alike solved' advanced.count advanced'.count alike
    exact (advanced.unique advanced' within nonneg within' nonneg').1

theorem sameDualsTwo :
    (∃ s s' events events',
      rowByRow .never (Dense.augment byteWidth twoRows.costs) ((List.finRange 2).take 2) 0 (.start 2) =
        ⟨s, events, .ok ()⟩ ∧
      rowByRow .never (Sparse.augment byteWidth
          ⟨#v[0, 2, 4], #[some (0, 3), some (1, 1), some (0, 2), some (1, 1)]⟩)
        ((List.finRange 2).take 2) 0 (.start 2) = ⟨s', events', .ok ()⟩ ∧
      s.potentials = s'.potentials ∧ WaysTold twoRows.costs 2 events) ∧
    ∃ s s', (Dense.solve .never 0 twoRows).state = some s ∧
      (Sparse.solve .never 0 (Graph.ofSquare twoRows)).state = some s' ∧ s.potentials = s'.potentials := by
  obtain ⟨rows, s, s', dense, sparse, alike⟩ :=
    @sameDuals 2 byteWidth twoRows twoRowsValid (by decide) .never .never 0 0
  refine ⟨?_, s, s', dense, sparse, alike (.ok _ _)⟩
  obtain ⟨same, _, told⟩ := rows _ 2 _ _ _ _ twoRowsGrouped (by decide) rfl rfl
  exact ⟨_, _, _, _, rfl, rfl, same, told⟩

end OptimalMatching
