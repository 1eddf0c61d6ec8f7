import OptimalMatching.Proofs.Duals

/-! The arithmetic of the shortest path solvers. It is not checked while they run: the room that they ask for once, before
the first row, is enough for every value of every search, and for the moves of the potentials after it. -/
namespace OptimalMatching

variable {w : Width} {n : Nat}

structure Unbroken {α : Type} (result : Except Failure α) : Prop where
  kept : ∀ cause, result ≠ .error (.fault cause)
  roomy : ∀ cause, result ≠ .error (.overflow cause)

theorem Stops.unbroken {α : Type} {watch : Watch} {roomy : Prop} {stuck : Nat → Prop} {good : α → Prop}
    {result : Except Failure α} (stops : Stops watch roomy stuck good result) (room : roomy) : Unbroken result := by
  refine ⟨?_, ?_⟩
  · intro cause same
    rw [same] at stops
    exact stops
  · intro cause same
    rw [same] at stops
    exact stops room

namespace Dense
variable {costs : Costs n} {most base : Int} {p : Potentials n} {m : Matching n} {labels : Labels n}
  {first row : Fin n}

inductive Enters (w : Width) (costs : Costs n) (p : Potentials n) (m : Matching n) (labels : Labels n) (first : Fin n) :
    Fin n → Int → Search n → Prop
  | start : Enters w costs p m labels first first 0 (.start labels)
  | next {row after : Fin n} {base : Int} {s settled : Search n} {choice : Choice n}
      (before : Enters w costs p m labels first row base s)
      (step : advance w costs p m first row base s = .ok (choice, settled))
      (partner : m.rowOf[choice.col] = some after) : Enters w costs p m labels first after choice.cost settled

structure InRange (w : Width) (costs : Costs n) (s : State n) (first : Fin n) : Prop where
  steps : ∀ row base t, Enters w costs s.potentials s.matching s.labels first row base t →
    ∀ col price, costs[row][col] = some price → StepFits w s.potentials base price row col
  ends : search w costs s.potentials s.matching s.labels first = .error (.infeasible first.val) ∨
    ∃ sink found next, search w costs s.potentials s.matching s.labels first = .ok (sink, found) ∧
      MoveFits w s.potentials s.matching found.labels first sink.cost found.rows found.cols ∧
      commit w s first sink found = .ok next

theorem Enters.underway {s : Search n} (enters : Enters w costs p m labels first row base s)
    (ready : Ready costs most first.val p m) (room : most * roomFactor n ≤ w.top) :
    Underway costs most p m first row base s := by
  induction enters with
  | start => exact underwayStart labels (ready.certificate.pairs.late (Nat.le_refl _))
  | next before step partner ih =>
    rcases ih.advance ready room with ⟨failed, _⟩ | ⟨_, _, made, _, _, later⟩
    · rw [step] at failed
      cases failed
    · rw [step] at made
      cases made
      exact later _ partner

theorem inRange {s : State n} (ready : Ready costs most first.val s.potentials s.matching)
    (room : most * roomFactor n ≤ w.top) : InRange w costs s first := by
  refine ⟨?_, ?_⟩
  · intro row base t enters col price has
    have underway := enters.underway ready room
    exact underway.pending.fits underway.scan ready room col (ready.within row col price has)
  · have ends := @searchEnds w n costs most s.potentials s.matching first s.labels ready room
    cases result : search w costs s.potentials s.matching s.labels first with
    | error failure =>
      rw [result] at ends
      exact .inl (congrArg Except.error ends.1)
    | ok out =>
      obtain ⟨sink, t⟩ := out
      rw [result] at ends
      obtain ⟨older, settled, found⟩ := ends
      obtain ⟨next, committed, _⟩ := commitEnds settled found ready room
      refine .inr ⟨sink, t, next, rfl, ?_, committed⟩
      rw [settled]
      exact found.fits ready room

end Dense

namespace Sparse
variable {g : Graph w n n} {grouped : Grouped n n} {most base : Int} {p : Potentials n} {m : Matching n}
  {scratch : Scratch n} {first row : Fin n}

inductive Enters (w : Width) (grouped : Grouped n n) (p : Potentials n) (m : Matching n) (scratch : Scratch n)
    (first : Fin n) : Fin n → Int → Frontier n → Scratch n → Prop
  | start : Enters w grouped p m scratch first first 0 .empty scratch
  | next {row after : Fin n} {base : Int} {f rest : Frontier n} {s settled : Scratch n} {chosen : Candidate n}
      (before : Enters w grouped p m scratch first row base f s)
      (step : advance w grouped p m row base f s = .ok (settled, some (chosen, rest)))
      (partner : m.rowOf[chosen.col] = some after) : Enters w grouped p m scratch first after chosen.cost rest settled

structure InRange (w : Width) (grouped : Grouped n n) (s : State n) (first : Fin n) : Prop where
  steps : ∀ row base f t, Enters w grouped s.potentials s.matching s.scratch first row base f t →
    ∀ col price, (col, price) ∈ grouped.arcs row → StepFits w s.potentials base price row col
  ends : (search w grouped s.potentials s.matching first s.scratch).2 = .error (.infeasible first.val) ∨
    ∃ sink found next, search w grouped s.potentials s.matching first s.scratch = (found, .ok sink) ∧
      MoveFits w s.potentials s.matching found.labels first sink.cost found.rows found.cols ∧
      commit w s.potentials s.matching first sink found = .ok next

theorem Enters.underway (arcs : ∀ i, grouped.arcs i = rowArcs g.edges.toList i) {f : Frontier n} {s : Scratch n}
    (enters : Enters w grouped p m scratch first row base f s) (ready : Ready g.cheapest most first.val p m)
    (edges : ∀ e ∈ g.edges.toList, 0 ≤ e.cost ∧ e.cost ≤ most) (room : most * roomFactor n ≤ w.top)
    (clean : Clean scratch) : Underway g.cheapest most p m first row base f s := by
  induction enters with
  | start => exact underwayStart clean (ready.certificate.pairs.late (Nat.le_refl _))
  | next before step partner ih =>
    rcases ih.advance arcs ready edges room with ⟨_, failed, _⟩ | ⟨_, _, _, made, _, _, _, later⟩
    · rw [step] at failed
      cases failed
    · rw [step] at made
      cases made
      exact later _ partner

theorem inRange (arcs : ∀ i, grouped.arcs i = rowArcs g.edges.toList i) {s : State n}
    (ready : Ready g.cheapest most first.val s.potentials s.matching)
    (edges : ∀ e ∈ g.edges.toList, 0 ≤ e.cost ∧ e.cost ≤ most) (room : most * roomFactor n ≤ w.top)
    (clean : Clean s.scratch) : InRange w grouped s first := by
  refine ⟨?_, ?_⟩
  · intro row base f t enters col price member
    have underway := enters.underway arcs ready edges room clean
    rw [arcs, memRowArcs] at member
    exact underway.pending.fits underway.scan ready room col (edges _ member)
  · have ends := searchEnds arcs ready edges room clean
    rcases result : search w grouped s.potentials s.matching first s.scratch with ⟨t, failure | sink⟩
    · rw [result] at ends
      exact .inl (congrArg Except.error ends.2.1)
    · rw [result] at ends
      obtain ⟨_, older, settled, found⟩ := ends
      dsimp only at settled found
      obtain ⟨next, committed, _⟩ := commitEnds settled found ready room
      refine .inr ⟨sink, t, next, rfl, ?_, committed⟩
      rw [settled]
      exact found.fits ready room

end Sparse

theorem staysInRange (watch : Watch) (emitted : Nat) :
    (∀ table : Square w n, table.toTable.Valid → requireRoom w table.largest n = .ok () →
      Unbroken (Dense.solve watch emitted table).result ∧
      ∀ (first : Fin n) s events,
        rowByRow watch (Dense.augment w table.costs) ((List.finRange n).take first.val) emitted (.start n) =
          ⟨s, events, .ok ()⟩ →
        Dense.InRange w table.costs s first) ∧
    ∀ g : Graph w n n, g.Valid → requireRoom w g.largest n = .ok () →
      Unbroken (Sparse.solve watch emitted g).result ∧
      ∃ grouped, Grouped.ofGraph g = .ok grouped ∧
        ∀ (first : Fin n) s events,
          rowByRow watch (Sparse.augment w grouped) ((List.finRange n).take first.val) emitted (.start n) =
            ⟨s, events, .ok ()⟩ →
          Sparse.InRange w grouped s first := by
  refine ⟨?_, ?_⟩
  · intro table valid accepted
    have within := Square.costsWithin valid
    have nonneg : 0 ≤ table.largest := Table.largestNonneg table.toTable
    have room := (requireRoomOk nonneg).mp accepted
    refine ⟨(Dense.solveStops valid watch emitted).unbroken room, ?_⟩
    intro first s events run
    obtain ⟨l, _, advanced, ended⟩ := Dense.rowsEnd (takeOrder n first.val) within nonneg room.product watch emitted
    rw [run] at advanced ended
    rw [takeEnds (Nat.le_of_lt first.isLt) ended] at advanced
    exact Dense.inRange (advanced.ready within nonneg) room.product
  · intro g valid accepted
    have within := Graph.cheapestWithin valid
    have nonneg := Graph.largestNonneg g
    have room := (requireRoomOk nonneg).mp accepted
    obtain ⟨grouped, made, arcs⟩ := Grouped.ofGraphOk g
    refine ⟨?_, grouped, made, ?_⟩
    · by_cases size : n = 0
      · have empty : (Sparse.solve watch emitted g).result = .error (.malformed (.notSquare n n)) := by
          simp only [Sparse.solve, size, ne_eq, not_true_eq_false, false_and, dite_false]
        rw [empty]
        exact ⟨nofun, nofun⟩
      · exact (Sparse.solveStops size valid watch emitted).unbroken room
    · intro first s events run
      obtain ⟨l, _, clean, advanced, ended⟩ :=
        Sparse.rowsEndClean (takeOrder n first.val) arcs valid room.product watch emitted
      rw [run] at clean advanced ended
      rw [takeEnds (Nat.le_of_lt first.isLt) ended] at advanced
      exact Sparse.inRange arcs (advanced.ready within nonneg)
        (fun e member => ⟨(valid e member).1, Graph.largestBounds member⟩) room.product clean

theorem staysInRangeTwo :
    Unbroken (Dense.solve .never 0 twoRows).result ∧
      (∃ s events, rowByRow .never (Dense.augment byteWidth twoRows.costs) ((List.finRange 2).take 1) 0 (.start 2) =
        ⟨s, events, .ok ()⟩ ∧ Dense.InRange byteWidth twoRows.costs s 1) ∧
      Unbroken (Sparse.solve .never 0 (Graph.ofSquare twoRows)).result ∧
      ∃ grouped s events, Grouped.ofGraph (Graph.ofSquare twoRows) = .ok grouped ∧
        rowByRow .never (Sparse.augment byteWidth grouped) ((List.finRange 2).take 1) 0 (.start 2) =
          ⟨s, events, .ok ()⟩ ∧ Sparse.InRange byteWidth grouped s 1 := by
  obtain ⟨dense, sparse⟩ := @staysInRange byteWidth 2 .never 0
  obtain ⟨denseWhole, denseRows⟩ := dense twoRows twoRowsValid (by decide)
  obtain ⟨sparseWhole, grouped, made, sparseRows⟩ :=
    sparse (Graph.ofSquare twoRows) (Graph.validOfSquare twoRowsValid) (by decide)
  rw [twoRowsGrouped] at made
  obtain rfl := Except.ok.inj made
  exact ⟨denseWhole, ⟨_, _, rfl, denseRows 1 _ _ rfl⟩, sparseWhole, _, _, _, twoRowsGrouped, rfl, sparseRows 1 _ _ rfl⟩

end OptimalMatching
