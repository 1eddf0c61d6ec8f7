import OptimalMatching.Proofs.Range
import OptimalMatching.Proofs.Ways

/-! Both searches settle columns in the order of their distances and end at a nearest unmatched one. They begin from any
potentials that price no pairing below zero; only where a number leaves its range may a search give up. -/
namespace OptimalMatching

variable {w : Width} {n : Nat} {p : Potentials n} {m : Matching n} {first row : Fin n} {base : Int}

theorem Potentials.reachFault {price : Int} {col : Fin n} (misfit : ¬ StepFits w p base price row col) :
    p.reach w base price row col = .error (.fault .arithmetic) := by
  unfold reach Width.keep
  by_cases far : w.Holds (base + price)
  · by_cases less : w.Holds (base + price - p.row[row])
    · have short : ¬ w.Holds (base + price - p.row[row] - p.col[col]) := fun whole => misfit ⟨far, less, whole⟩
      simp only [far, less, short, if_true, if_false, bind, Except.bind]
    · simp only [far, less, if_true, if_false, bind, Except.bind]
  · simp only [far, if_false, bind, Except.bind]

namespace Dense
variable {costs : Costs n} {labels : Labels n}

def arrival (result : Except Failure (Choice n × Search n)) : Except Failure (Arrival n) :=
  result.map fun out => ⟨out.2.labels, out.2.cols, out.1.col, out.1.cost⟩

def Overruns (w : Width) (costs : Costs n) (p : Potentials n) (m : Matching n) (labels : Labels n) (first : Fin n) : Prop :=
  ∃ row base s, Enters w costs p m labels first row base s ∧
    ∃ col price, costs[row][col] = some price ∧ ¬ StepFits w p base price row col

structure SearchesNearest (w : Width) (costs : Costs n) (p : Potentials n) (m : Matching n) (labels : Labels n)
    (first : Fin n) : Prop where
  steps : ∀ row base s, Enters w costs p m labels first row base s →
    SettledNearest costs.Priced p m first s.labels s.cols
  ends : FindsNearest costs.Priced p m first (arrival (search w costs p m labels first)) ∨
    (search w costs p m labels first = .error (.fault .arithmetic) ∧ Overruns w costs p m labels first)

theorem relaxFault {cols : List (Fin n)} {col : Fin n} {price : Int} (member : col ∈ cols)
    (has : costs[row][col] = some price) (misfit : ¬ StepFits w p base price row col) :
    relax w costs p base row cols labels = .error (.fault .arithmetic) := by
  induction cols generalizing labels with
  | nil => cases member
  | cons head rest ih =>
    simp only [relax]
    by_cases isHead : col = head
    · subst isHead
      simp only [has, Potentials.reachFault misfit, bind, Except.bind]
    · have later := (List.mem_cons.mp member).resolve_left isHead
      split
      case h_1 => exact ih later
      case h_2 other _ =>
        by_cases fits : StepFits w p base other row head
        · simp only [fits.reach, bind, Except.bind]
          exact ih later
        · simp only [Potentials.reachFault fits, bind, Except.bind]

structure Steady (costs : Costs n) (p : Potentials n) (m : Matching n) (first row : Fin n) (base : Int) (s : Search n) :
    Prop where
  knows : Knows s
  sweeping : Sweeping costs p m first row base s.labels s.rows s.cols

theorem Steady.advance (w : Width) {s : Search n} (steady : Steady costs p m first row base s)
    (primal : PrimalDual costs.Priced p m) (waiting : m.colOf[first] = none) :
    (advance w costs p m first row base s = .error (.infeasible first.val) ∧ Sealed costs.Priced p m first) ∨
    (advance w costs p m first row base s = .error (.fault .arithmetic) ∧
      ∃ col price, costs[row][col] = some price ∧ ¬ StepFits w p base price row col) ∨
    ∃ choice next, advance w costs p m first row base s = .ok (choice, next) ∧ next.cols = choice.col :: s.cols ∧
      (m.rowOf[choice.col] = none →
        EndsNearest costs.Priced p m first ⟨next.labels, next.cols, choice.col, choice.cost⟩) ∧
      ∀ after, m.rowOf[choice.col] = some after → Steady costs p m first after choice.cost next := by
  obtain ⟨knows, sweeping⟩ := steady
  have prices := costs.leastPrices
  by_cases fits : ∀ (j : Fin n) cost, j ∉ s.cols → costs[row][j] = some cost → StepFits w p base cost row j
  · obtain ⟨next, relaxed, offered⟩ := knows.relaxed fits
    rcases @advanceCases w n costs base p m first row s knows next relaxed with
      ⟨failed, none⟩ | ⟨choice, made, fresh, label, least, after⟩
    · exact .inl ⟨failed, sweeping.closed primal prices waiting offered none⟩
    · refine .inr (.inr ⟨choice, _, made, rfl, ?_, ?_⟩)
      · exact fun free => sweeping.ends primal prices waiting offered fresh label least free
      · exact fun _ partner => ⟨after, sweeping.handOn primal prices waiting offered fresh label least partner⟩
  · push Not at fits
    obtain ⟨col, price, outside, has, misfit⟩ := fits
    refine .inr (.inl ⟨?_, col, price, has, misfit⟩)
    simp only [Dense.advance, relaxFault ((knows.open_ col).mpr outside) has misfit, bind, Except.bind]

theorem steadyStart (labels : Labels n) (waiting : m.colOf[first] = none) :
    Steady costs p m first first 0 (.start labels) := by
  refine ⟨knowsStart labels, .start ?_ waiting⟩
  simp [Search.start, Labels.clear]

theorem Enters.steady {s : Search n} (enters : Enters w costs p m labels first row base s)
    (primal : PrimalDual costs.Priced p m) (waiting : m.colOf[first] = none) : Steady costs p m first row base s := by
  induction enters with
  | start => exact steadyStart labels waiting
  | next before step partner ih =>
    rcases ih.advance w primal waiting with ⟨failed, _⟩ | ⟨failed, _⟩ | ⟨_, _, made, _, _, later⟩
    · rw [step] at failed
      cases failed
    · rw [step] at failed
      cases failed
    · rw [step] at made
      cases made
      exact later _ partner

theorem searchFromNearest (primal : PrimalDual costs.Priced p m) (waiting : m.colOf[first] = none) {fuel : Nat}
    {s : Search n} (enters : Enters w costs p m labels first row base s) (enough : fuel + s.cols.length = n) :
    FindsNearest costs.Priced p m first (arrival (searchFrom w costs p m first fuel row base s)) ∨
    (searchFrom w costs p m first fuel row base s = .error (.fault .arithmetic) ∧ Overruns w costs p m labels first) := by
  -- The induction is on the fuel, of which there is enough for all columns: a row that is still to be visited is one
  -- more than the rows that have been.
  induction fuel generalizing s row base with
  | zero =>
    have few := (enters.steady primal waiting).sweeping.fewRows
    omega
  | succ fuel ih =>
    rcases (enters.steady primal waiting).advance w primal waiting with
      ⟨failed, closed⟩ | ⟨failed, misfit⟩ | ⟨choice, next, made, cols, free, later⟩
    · refine .inl ?_
      simp only [searchFrom, failed, bind, Except.bind]
      exact .ofSealed closed
    · refine .inr ⟨?_, row, base, s, enters, misfit⟩
      simp only [searchFrom, failed, bind, Except.bind]
    · cases partner : m.rowOf[choice.col] with
      | none =>
        refine .inl ?_
        simp only [searchFrom, made, bind, Except.bind, pure, Except.pure, partner]
        exact .ofFound (free partner)
      | some after =>
        simp only [searchFrom, made, bind, Except.bind, partner]
        refine ih (enters.next made partner) ?_
        rw [cols, List.length_cons]
        omega

theorem searchNearest (primal : PrimalDual costs.Priced p m) (waiting : m.colOf[first] = none) (labels : Labels n) :
    SearchesNearest w costs p m labels first := by
  refine ⟨fun row base s enters => (enters.steady primal waiting).sweeping.nearest primal costs.leastPrices waiting, ?_⟩
  exact searchFromNearest primal waiting .start (by simp [Search.start])

end Dense
namespace Sparse
variable {g : Graph w n n} {grouped : Grouped n n} {scratch : Scratch n}

def arrival (result : Scratch n × Except Failure (Candidate n)) : Except Failure (Arrival n) :=
  result.2.map fun sink => ⟨result.1.labels, result.1.cols, sink.col, sink.cost⟩

def Overruns (w : Width) (grouped : Grouped n n) (p : Potentials n) (m : Matching n) (scratch : Scratch n)
    (first : Fin n) : Prop :=
  ∃ row base f s, Enters w grouped p m scratch first row base f s ∧
    ∃ col price, (col, price) ∈ grouped.arcs row ∧ ¬ StepFits w p base price row col

structure SearchesNearest (g : Graph w n n) (grouped : Grouped n n) (p : Potentials n) (m : Matching n)
    (scratch : Scratch n) (first : Fin n) : Prop where
  steps : ∀ row base f s, Enters w grouped p m scratch first row base f s →
    SettledNearest g.Priced p m first s.labels s.cols
  ends : FindsNearest g.Priced p m first (arrival (search w grouped p m first scratch)) ∨
    ((search w grouped p m first scratch).2 = .error (.fault .arithmetic) ∧ Overruns w grouped p m scratch first)

theorem relaxFault {arcs : List (Arc n)} {f : Frontier n} {s : Scratch n} {col : Fin n} {price : Int}
    (member : (col, price) ∈ arcs) (open_ : ¬ s.settled[col] = true) (misfit : ¬ StepFits w p base price row col) :
    relax w p m base row arcs f s = .error (.fault .arithmetic) := by
  induction arcs generalizing f s with
  | nil => cases member
  | cons arc rest ih =>
    obtain ⟨other, cost⟩ := arc
    simp only [relax]
    rcases List.mem_cons.mp member with isArc | later
    · cases isArc
      simp only [open_, Bool.false_eq_true, if_false, Potentials.reachFault misfit, bind, Except.bind]
    · split
      case isTrue => exact ih later open_
      case isFalse =>
        by_cases fits : StepFits w p base cost row other
        · simp only [fits.reach, bind, Except.bind]
          split
          case isTrue =>
            refine ih later ?_
            rw [Scratch.write, (touchRest s other).2.1]
            exact open_
          case isFalse => exact ih later open_
        · simp only [Potentials.reachFault fits, bind, Except.bind]

structure Steady (costs : Costs n) (p : Potentials n) (m : Matching n) (first row : Fin n) (base : Int) (f : Frontier n)
    (s : Scratch n) : Prop where
  knows : Knows m f s
  sweeping : Sweeping costs p m first row base s.labels s.rows s.cols

theorem steadyStart (clean : Clean scratch) (waiting : m.colOf[first] = none) {costs : Costs n} :
    Steady costs p m first first 0 .empty scratch := by
  refine ⟨clean.knows, ?_⟩
  rw [clean.rows, clean.cols]
  exact .start clean.labels waiting

section Graph
variable (arcs : ∀ i, grouped.arcs i = rowArcs g.edges.toList i) (primal : PrimalDual g.Priced p m)
  (waiting : m.colOf[first] = none)
include arcs primal waiting

theorem Steady.advance {f : Frontier n} {s : Scratch n} (steady : Steady g.cheapest p m first row base f s) :
    (∃ next, advance w grouped p m row base f s = .ok (next, none) ∧ Sealed g.Priced p m first) ∨
    (advance w grouped p m row base f s = .error (.fault .arithmetic) ∧
      ∃ col price, (col, price) ∈ grouped.arcs row ∧ ¬ StepFits w p base price row col) ∨
    ∃ next chosen rest, advance w grouped p m row base f s = .ok (next, some (chosen, rest)) ∧
      next.cols = chosen.col :: s.cols ∧
      (m.rowOf[chosen.col] = none →
        EndsNearest g.Priced p m first ⟨next.labels, next.cols, chosen.col, chosen.cost⟩) ∧
      ∀ after, m.rowOf[chosen.col] = some after → Steady g.cheapest p m first after chosen.cost rest next := by
  obtain ⟨knows, sweeping⟩ := steady
  have prices := g.leastPrices
  by_cases fits : ∀ (j : Fin n) cost, j ∉ s.cols → ⟨row, j, cost⟩ ∈ g.edges.toList → StepFits w p base cost row j
  · obtain ⟨f', s', relaxed, knows', rows, cols, offered⟩ := knows.relaxed arcs fits
    rcases advanceCases knows' relaxed with ⟨made, none⟩ | ⟨chosen, rest, made, fresh, label, least, after⟩
    · rw [cols] at none
      exact .inl ⟨s', made, sweeping.closed primal prices waiting offered none⟩
    · rw [cols] at fresh least
      have settled : (s'.settle chosen.col).cols = chosen.col :: s.cols := congrArg _ cols
      refine .inr (.inr ⟨_, chosen, rest, made, settled, ?_, ?_⟩)
      · intro free
        rw [settled]
        exact sweeping.ends primal prices waiting offered fresh label least free
      · intro _ partner
        refine ⟨after, ?_⟩
        have handed := sweeping.handOn primal prices waiting offered fresh label least partner
        rw [← rows, ← settled] at handed
        exact handed
  · push Not at fits
    obtain ⟨col, price, outside, member, misfit⟩ := fits
    rw [← memRowArcs, ← arcs] at member
    refine .inr (.inl ⟨?_, col, price, member, misfit⟩)
    have isOpen : ¬ (s.visit row).settled[col] = true := fun flag => outside ((knows.flags col).mp flag)
    simp only [Sparse.advance, relaxFault member isOpen misfit, bind, Except.bind]

theorem Enters.steady (clean : Clean scratch) {f : Frontier n} {s : Scratch n}
    (enters : Enters w grouped p m scratch first row base f s) : Steady g.cheapest p m first row base f s := by
  induction enters with
  | start => exact steadyStart clean waiting
  | next before step partner ih =>
    rcases ih.advance arcs primal waiting with ⟨_, made, _⟩ | ⟨failed, _⟩ | ⟨_, _, _, made, _, _, later⟩
    · rw [step] at made
      cases made
    · rw [step] at failed
      cases failed
    · rw [step] at made
      cases made
      exact later _ partner

theorem searchFromNearest (clean : Clean scratch) {fuel : Nat} {f : Frontier n} {s : Scratch n}
    (enters : Enters w grouped p m scratch first row base f s) (enough : fuel + s.cols.length = n) :
    FindsNearest g.Priced p m first (arrival (searchFrom w grouped p m first fuel row base f s)) ∨
    ((searchFrom w grouped p m first fuel row base f s).2 = .error (.fault .arithmetic) ∧
      Overruns w grouped p m scratch first) := by
  induction fuel generalizing f s row base with
  | zero =>
    have few := (enters.steady arcs primal waiting clean).sweeping.fewRows
    omega
  | succ fuel ih =>
    rcases (enters.steady arcs primal waiting clean).advance arcs primal waiting with
      ⟨next, made, closed⟩ | ⟨failed, misfit⟩ | ⟨next, chosen, rest, made, cols, free, later⟩
    · refine .inl ?_
      simp only [searchFrom, made]
      exact .ofSealed closed
    · refine .inr ⟨?_, row, base, f, s, enters, misfit⟩
      simp only [searchFrom, failed]
    · cases partner : m.rowOf[chosen.col] with
      | none =>
        refine .inl ?_
        simp only [searchFrom, made, partner]
        exact .ofFound (free partner)
      | some after =>
        simp only [searchFrom, made, partner]
        refine ih (enters.next made partner) ?_
        rw [cols, List.length_cons]
        omega

theorem searchNearest (clean : Clean scratch) : SearchesNearest g grouped p m scratch first := by
  refine ⟨?_, ?_⟩
  · intro row base f s enters
    exact (enters.steady arcs primal waiting clean).sweeping.nearest primal g.leastPrices waiting
  · exact searchFromNearest arcs primal waiting clean .start (by simp [clean.cols])

end Graph
end Sparse
theorem Certificate.primalDual {costs : Costs n} {priced : Fin n → Fin n → Int → Prop} {k : Nat}
    (c : Certificate costs k p m) (prices : LeastPrices costs priced) : PrimalDual priced p m := by
  refine ⟨c.pairs.agree, ?_, ?_⟩
  · intro i j cost cell
    obtain ⟨x, has, le⟩ := prices.least i j cost cell
    have nonneg := c.feasible i j x has
    omega
  · intro i j partner
    obtain ⟨cost, has, zero⟩ := c.tight i j partner
    exact ⟨cost, prices.taken i j cost has, zero⟩

theorem Dense.runReady {table : Square w n} (valid : table.toTable.Valid) (room : Roomy w table.largest n) {watch : Watch}
    {emitted : Nat} {s : State n} {events : List Event}
    (run : rowByRow watch (augment w table.costs) ((List.finRange n).take first.val) emitted (.start n) =
      ⟨s, events, .ok ()⟩) : Ready table.costs table.largest first.val s.potentials s.matching := by
  have within := Square.costsWithin valid
  have nonneg : 0 ≤ table.largest := Table.largestNonneg table.toTable
  obtain ⟨l, _, advanced, ended⟩ := rowsEnd (takeOrder n first.val) within nonneg room.product watch emitted
  rw [run] at advanced ended
  rw [takeEnds (Nat.le_of_lt first.isLt) ended] at advanced
  exact advanced.ready within nonneg

theorem Sparse.runReady {g : Graph w n n} {grouped : Grouped n n}
    (arcs : ∀ i, grouped.arcs i = rowArcs g.edges.toList i) (valid : g.Valid) (room : Roomy w g.largest n) {watch : Watch}
    {emitted : Nat} {s : State n} {events : List Event}
    (run : rowByRow watch (augment w grouped) ((List.finRange n).take first.val) emitted (.start n) =
      ⟨s, events, .ok ()⟩) : Ready g.cheapest g.largest first.val s.potentials s.matching ∧ Clean s.scratch := by
  obtain ⟨l, _, clean, advanced, ended⟩ := rowsEndClean (takeOrder n first.val) arcs valid room.product watch emitted
  rw [run] at clean advanced ended
  rw [takeEnds (Nat.le_of_lt first.isLt) ended] at advanced
  exact ⟨advanced.ready (Graph.cheapestWithin valid) (Graph.largestNonneg g), clean⟩

theorem searchesNearest :
    (∀ (costs : Costs n) p m (labels : Labels n) first, PrimalDual costs.Priced p m → m.colOf[first] = none →
      Dense.SearchesNearest w costs p m labels first) ∧
    (∀ (g : Graph w n n) grouped p m (scratch : Sparse.Scratch n) first, Grouped.ofGraph g = .ok grouped →
      PrimalDual g.Priced p m → Sparse.Clean scratch → m.colOf[first] = none →
      Sparse.SearchesNearest g grouped p m scratch first) ∧
    (∀ table : Square w n, table.toTable.Valid → requireRoom w table.largest n = .ok () →
      ∀ watch emitted (first : Fin n) s events,
        rowByRow watch (Dense.augment w table.costs) ((List.finRange n).take first.val) emitted (.start n) =
          ⟨s, events, .ok ()⟩ →
        PrimalDual table.costs.Priced s.potentials s.matching ∧ s.matching.colOf[first] = none ∧
        FindsNearest table.costs.Priced s.potentials s.matching first
          (Dense.arrival (Dense.search w table.costs s.potentials s.matching s.labels first))) ∧
    ∀ (g : Graph w n n) grouped, g.Valid → requireRoom w g.largest n = .ok () → Grouped.ofGraph g = .ok grouped →
      ∀ watch emitted (first : Fin n) s events,
        rowByRow watch (Sparse.augment w grouped) ((List.finRange n).take first.val) emitted (.start n) =
          ⟨s, events, .ok ()⟩ →
        PrimalDual g.Priced s.potentials s.matching ∧ Sparse.Clean s.scratch ∧ s.matching.colOf[first] = none ∧
        FindsNearest g.Priced s.potentials s.matching first
          (Sparse.arrival (Sparse.search w grouped s.potentials s.matching first s.scratch)) := by
  refine ⟨?_, ?_, ?_, ?_⟩
  · intro costs p m labels first primal waiting
    exact Dense.searchNearest primal waiting labels
  · intro g grouped p m scratch first made primal clean waiting
    exact Sparse.searchNearest (Grouped.arcsOfGraph made) primal waiting clean
  · intro table valid accepted watch emitted first s events run
    have room := (requireRoomOk (Table.largestNonneg table.toTable)).mp accepted
    have ready := Dense.runReady valid room run
    have primal := ready.certificate.primalDual table.costs.leastPrices
    have waiting := ready.certificate.pairs.late (Nat.le_refl first.val)
    refine ⟨primal, waiting, (Dense.searchNearest primal waiting s.labels).ends.resolve_right ?_⟩
    rintro ⟨_, row, base, t, enters, col, price, has, misfit⟩
    exact misfit ((Dense.inRange ready room.product).steps row base t enters col price has)
  · intro g grouped valid accepted made watch emitted first s events run
    have room := (requireRoomOk (Graph.largestNonneg g)).mp accepted
    have arcs := Grouped.arcsOfGraph made
    obtain ⟨ready, clean⟩ := Sparse.runReady arcs valid room run
    have primal := ready.certificate.primalDual g.leastPrices
    have waiting := ready.certificate.pairs.late (Nat.le_refl first.val)
    refine ⟨primal, clean, waiting, (Sparse.searchNearest arcs primal waiting clean).ends.resolve_right ?_⟩
    rintro ⟨_, row, base, f, t, enters, col, price, member, misfit⟩
    have range := Sparse.inRange arcs ready (Graph.edgesWithin valid) room.product clean
    exact misfit (range.steps row base f t enters col price member)

theorem searchesNearestTwo :
    (∃ s events, rowByRow .never (Dense.augment byteWidth twoRows.costs) ((List.finRange 2).take 1) 0 (.start 2) =
        ⟨s, events, .ok ()⟩ ∧
      Dense.SearchesNearest byteWidth twoRows.costs s.potentials s.matching s.labels 1 ∧
      FindsNearest twoRows.costs.Priced s.potentials s.matching 1
        (Dense.arrival (Dense.search byteWidth twoRows.costs s.potentials s.matching s.labels 1))) ∧
    ∃ grouped s events, Grouped.ofGraph (Graph.ofSquare twoRows) = .ok grouped ∧
      rowByRow .never (Sparse.augment byteWidth grouped) ((List.finRange 2).take 1) 0 (.start 2) = ⟨s, events, .ok ()⟩ ∧
      Sparse.SearchesNearest (Graph.ofSquare twoRows) grouped s.potentials s.matching s.scratch 1 ∧
      FindsNearest (Graph.ofSquare twoRows).Priced s.potentials s.matching 1
        (Sparse.arrival (Sparse.search byteWidth grouped s.potentials s.matching 1 s.scratch)) := by
  obtain ⟨dense, sparse, denseRun, sparseRun⟩ := @searchesNearest byteWidth 2
  refine ⟨⟨_, _, rfl, ?_⟩, _, _, _, twoRowsGrouped, rfl, ?_⟩
  · obtain ⟨primal, waiting, finds⟩ := denseRun twoRows twoRowsValid (by decide) .never 0 1 _ _ rfl
    exact ⟨dense _ _ _ _ 1 primal waiting, finds⟩
  · obtain ⟨primal, clean, waiting, finds⟩ := sparseRun (Graph.ofSquare twoRows) _ (Graph.validOfSquare twoRowsValid)
      (by decide) twoRowsGrouped .never 0 1 _ _ rfl
    exact ⟨sparse _ _ _ _ _ 1 twoRowsGrouped primal clean waiting, finds⟩

end OptimalMatching
