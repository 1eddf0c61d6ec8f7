import OptimalMatching.Proofs.Pipeline
import OptimalMatching.Solver

/-! The forms in which a problem comes to the solvers: the table, the square it is padded to, the graph of the square, and
the arcs of the graph row by row. They are one and the same problem, and the padding shows in none of them as a cost other
than zero. -/
namespace OptimalMatching

variable {w : Width} {n : Nat} {t : Table w}

namespace Square

theorem pairingPadding {i j : Nat} : (ofTable t).pairing i j = .padding ↔ t.rows ≤ i ∨ t.cols ≤ j := by
  rw [pairingPads, ← Bool.not_eq_false, padsNot, (realOfTable t).1, (realOfTable t).2]
  omega

theorem pairingInside {i j : Nat} {x : Int} (found : t.get? i j = some x) :
    (ofTable t).pairing i j = if x = w.blocked then .blocked else .price x := by
  obtain ⟨⟨row, col⟩, _⟩ := Table.getSome.mp found
  have real : i < (ofTable t).realRows ∧ j < (ofTable t).realCols := by
    rw [(realOfTable t).1, (realOfTable t).2]
    exact ⟨row, col⟩
  refine pairingReal real ?_
  rw [getOfTable, if_pos (by omega), found, Option.getD_some]

theorem pairingBlocked {i j : Nat} : (ofTable t).pairing i j = .blocked ↔ t.get? i j = some w.blocked := by
  cases found : t.get? i j with
  | none =>
    rw [pairingPadding.mpr (Table.getNone.mp found)]
    exact ⟨nofun, nofun⟩
  | some x =>
    rw [pairingInside found, Option.some.injEq]
    split
    case isTrue blocked => exact ⟨fun _ => blocked, fun _ => rfl⟩
    case isFalse price => exact ⟨nofun, fun blocked => absurd blocked price⟩

theorem pairingPrice {i j : Nat} {cost : Int} :
    (ofTable t).pairing i j = .price cost ↔ t.get? i j = some cost ∧ cost ≠ w.blocked := by
  cases found : t.get? i j with
  | none =>
    rw [pairingPadding.mpr (Table.getNone.mp found)]
    exact ⟨nofun, by rintro ⟨⟨⟩, _⟩⟩
  | some x =>
    rw [pairingInside found, Option.some.injEq]
    split
    case isTrue blocked => exact ⟨nofun, fun priced => absurd (priced.1.symm.trans blocked) priced.2⟩
    case isFalse price =>
      rw [Pairing.price.injEq]
      exact ⟨fun same => ⟨same, same ▸ price⟩, And.left⟩

end Square

def Costs.arcs (costs : Costs n) (i : Fin n) : List (Arc n) :=
  (List.finRange n).filterMap fun j => (costs[i][j]).map (Prod.mk j)

section Arcs
variable {costs : Costs n}

theorem rowArcsOfRow (i : Fin n) : rowArcs (Graph.rowEdges costs i) i = costs.arcs i := by
  have own : ∀ e ∈ Graph.rowEdges costs i, decide (e.row = i) = true :=
    fun e member => decide_eq_true (Graph.memRowEdges.mp member).1
  rw [rowArcs, List.filter_eq_self.mpr own, Graph.rowEdges, List.map_filterMap]
  simp only [Option.map_map]
  rfl

theorem rowArcsOfOther {i k : Fin n} (other : k ≠ i) : rowArcs (Graph.rowEdges costs k) i = [] := by
  have foreign : ∀ e ∈ Graph.rowEdges costs k, ¬ decide (e.row = i) = true := by
    intro e member isRow
    exact other ((Graph.memRowEdges.mp member).1.symm.trans (of_decide_eq_true isRow))
  rw [rowArcs, List.filter_eq_nil_iff.mpr foreign, List.map_nil]

theorem rowArcsOfRows {rows : List (Fin n)} (distinct : rows.Nodup) (i : Fin n) :
    rowArcs (rows.flatMap (Graph.rowEdges costs)) i = if i ∈ rows then costs.arcs i else [] := by
  induction rows with
  | nil => rfl
  | cons k rest ih =>
    obtain ⟨absent, distinct⟩ := List.nodup_cons.mp distinct
    rw [List.flatMap_cons, rowArcsAppend, ih distinct]
    by_cases same : k = i
    · subst same
      rw [rowArcsOfRow, if_neg absent, if_pos List.mem_cons_self, List.append_nil]
    · have still : i ∈ k :: rest ↔ i ∈ rest := by
        rw [List.mem_cons]
        exact or_iff_right fun isHead => same isHead.symm
      rw [rowArcsOfOther same, List.nil_append]
      simp only [still]

theorem arcsOfCosts (costs : Costs n) : ∃ grouped, Grouped.ofGraph (@Graph.ofCosts w n costs) = .ok grouped ∧
    ∀ i, grouped.arcs i = costs.arcs i := by
  obtain ⟨grouped, made, arcs⟩ := Grouped.ofGraphOk (@Graph.ofCosts w n costs)
  refine ⟨grouped, made, ?_⟩
  intro i
  rw [arcs, Graph.ofCosts, List.toList_toArray, rowArcsOfRows (List.nodup_finRange n), if_pos (List.mem_finRange i)]

end Arcs

theorem overflowsAtDoor {watch : Watch} {largest : Int} {stuck : Nat → Prop} {good : List Nat → Prop}
    {result : Except Failure (List Nat)} (cost : 0 ≤ largest)
    (asks : ∀ failure, requireRoom w largest n = .error failure → result = .error failure)
    (stops : Stops watch (Roomy w largest n) stuck good result) (cause : Overflow) :
    result = .error (.overflow cause) ↔ requireRoom w largest n = .error (.overflow cause) := by
  refine ⟨?_, asks _⟩
  intro overflows
  cases asked : requireRoom w largest n with
  | error failure =>
    obtain rfl := Except.error.inj ((asks failure asked).symm.trans overflows)
    rfl
  | ok done =>
    rw [overflows] at stops
    exact absurd ((requireRoomOk cost).mp asked) stops

theorem Dense.overflows {table : Square w n} (valid : table.toTable.Valid) (watch : Watch) (emitted : Nat) (cause : Overflow) :
    (solve watch emitted table).result = .error (.overflow cause) ↔
      requireRoom w table.largest n = .error (.overflow cause) := by
  have nonneg : 0 ≤ table.largest := Table.largestNonneg table.toTable
  refine overflowsAtDoor nonneg ?_ (solveStops valid watch emitted) cause
  intro failure refused
  simp only [solve, refused]

theorem Sparse.overflows {g : Graph w n n} (size : n ≠ 0) (valid : g.Valid) (watch : Watch) (emitted : Nat)
    (cause : Overflow) :
    (solve watch emitted g).result = .error (.overflow cause) ↔ requireRoom w g.largest n = .error (.overflow cause) := by
  refine overflowsAtDoor (Graph.largestNonneg g) ?_ (solveStops size valid watch emitted) cause
  intro failure refused
  have square : solve watch emitted g = solveSquare watch emitted g := dif_pos ⟨size, rfl⟩
  rw [square]
  simp only [solveSquare, refused]

/-- What padding makes of a table: its rows, one behind the other, stand at the stride of the square, and all other cells are
blocked. To read an entry is never to touch a place outside, and it tells the padding from the blocked cells of the table. -/
structure Padding (t : Table w) : Prop where
  made : Padded.ofSheet w t.toSheet = .ok (Square.ofTable t).padded
  size : (Square.ofTable t).cells.size = max t.rows t.cols * max t.rows t.cols
  places : ∀ i j, i < max t.rows t.cols → j < max t.rows t.cols →
    (Square.ofTable t).cells[i * max t.rows t.cols + j]? =
      if i < t.rows ∧ j < t.cols then t.costs[i * t.cols + j]? else some w.blocked
  entry : ∀ i j, (Square.ofTable t).padded.entry w i j = .ok ((Square.ofTable t).pairing i j)
  padding : ∀ i j, (Square.ofTable t).pairing i j = .padding ↔ t.rows ≤ i ∨ t.cols ≤ j
  blocked : ∀ i j, (Square.ofTable t).pairing i j = .blocked ↔ t.get? i j = some w.blocked
  price : ∀ i j cost, (Square.ofTable t).pairing i j = .price cost ↔ t.get? i j = some cost ∧ cost ≠ w.blocked

theorem padding (t : Table w) : Padding t := by
  refine ⟨Square.ofTablePadded t, (Square.ofTable t).full, ?_, fun _ _ => Square.pairingEntry .., fun _ _ => Square.pairingPadding,
    fun _ _ => Square.pairingBlocked, fun _ _ _ => Square.pairingPrice⟩
  intro i j row col
  refine ((Square.frames t).cells i j row col).trans ?_
  by_cases inside : i < t.rows ∧ j < t.cols
  · obtain ⟨x, found⟩ := Table.getInside inside
    rw [if_pos inside, (Table.getSome.mp found).2, found, Option.getD_some]
  · rw [if_neg inside, Table.getNone.mpr (by omega), Option.getD_none]

theorem Dense.loadAsks (table : Square w n) : Memory.load table =
    (requireRoom w table.largest n).map fun _ => ⟨table.costs, .zero n, .empty n, ⟨.blank n, [], [], []⟩⟩ := by
  unfold Memory.load
  cases requireRoom w table.largest n <;> rfl

theorem sameProblem (valid : t.Valid) :
    Padding t ∧
    (∀ i j : Fin (max t.rows t.cols), (Square.ofTable t).costs[i][j] = ((Square.ofTable t).pairing i j).cost?) ∧
    (requireRoom w t.largest (max t.rows t.cols) = .ok () →
      ∃ m, Dense.Memory.load (Square.ofTable t) = .ok m ∧ m.costs = (Square.ofTable t).costs) ∧
    (∀ failure, Dense.Memory.load (Square.ofTable t) = .error failure ↔
      requireRoom w t.largest (max t.rows t.cols) = .error failure) ∧
    (∀ (k : Nat) (old : Hungarian.Memory k), (old.load (Square.ofTable t)).costs = (Square.ofTable t).costs) ∧
    (∃ grouped, Grouped.ofGraph (Graph.ofSquare (Square.ofTable t)) = .ok grouped ∧
      ∀ i, grouped.arcs i = (Square.ofTable t).costs.arcs i) ∧
    (Square.ofTable t).largest = t.largest ∧ (Graph.ofSquare (Square.ofTable t)).largest = t.largest ∧
    ∀ watch emitted cause,
      ((Dense.solve watch emitted (Square.ofTable t)).result = .error (.overflow cause) ↔
        requireRoom w t.largest (max t.rows t.cols) = .error (.overflow cause)) ∧
      ((Sparse.solve watch emitted (Graph.ofSquare (Square.ofTable t))).result = .error (.overflow cause) ↔
        requireRoom w t.largest (max t.rows t.cols) = .error (.overflow cause)) := by
  have square := Square.validOfTable valid
  have size : max t.rows t.cols ≠ 0 := Nat.ne_of_gt (Nat.lt_of_lt_of_le valid.rows (Nat.le_max_left ..))
  have largest := Square.largestOfTable t
  have largest' := Graph.largestOfTable valid
  refine ⟨padding t, Square.costsAt _, ?_, ?_, fun _ _ => rfl, arcsOfCosts _, largest, largest', ?_⟩
  · intro accepted
    rw [Dense.loadAsks, largest, accepted]
    exact ⟨_, rfl, rfl⟩
  · intro failure
    rw [Dense.loadAsks, largest]
    cases requireRoom w t.largest (max t.rows t.cols) <;> simp [Except.map]
  · intro watch emitted cause
    have dense := Dense.overflows square watch emitted cause
    have sparse := Sparse.overflows size (Graph.validOfSquare square) watch emitted cause
    rw [largest] at dense
    rw [largest'] at sparse
    exact ⟨dense, sparse⟩

theorem sameProblemWide :
    (Square.ofTable Solution.wideTable).cells = #[4, 1, 3, 127, 1, 5, 127, 127, 127] ∧
    (Square.ofTable Solution.wideTable).pairing 1 0 = .blocked ∧ (Square.ofTable Solution.wideTable).pairing 2 1 = .padding ∧
    (∃ m, Dense.Memory.load (Square.ofTable Solution.wideTable) = .ok m ∧
      m.costs = #v[#v[some 4, some 1, some 3], #v[none, some 1, some 5], #v[some 0, some 0, some 0]]) ∧
    (∃ grouped, Grouped.ofGraph (Graph.ofSquare (Square.ofTable Solution.wideTable)) = .ok grouped ∧
      (grouped.arcs ⟨1, by decide⟩).map (Prod.map Fin.val id) = [(1, 1), (2, 5)] ∧
      (grouped.arcs ⟨2, by decide⟩).map (Prod.map Fin.val id) = [(0, 0), (1, 0), (2, 0)]) ∧
    (Graph.ofSquare (Square.ofTable Solution.wideTable)).largest = 5 := by
  obtain ⟨padding, _, loads, _, _, ⟨grouped, made, arcs⟩, _, largest, _⟩ := sameProblem Solution.wideTableValid
  obtain ⟨m, loaded, costs⟩ := loads (by decide)
  refine ⟨rfl, (padding.blocked 1 0).mpr rfl, (padding.padding 2 1).mpr (by decide), ⟨m, loaded, costs.trans rfl⟩,
    ⟨grouped, made, ?_, ?_⟩, largest.trans rfl⟩
  · rw [arcs]
    rfl
  · rw [arcs]
    rfl

end OptimalMatching
