import OptimalMatching.Proofs.Hungarian.Run
import OptimalMatching.Proofs.Lockstep
import OptimalMatching.Proofs.Pricing

/-! The whole way from a table to its solution. Whatever the method, a solution is a best full selection of cells with its
exact worth; and where the working table leaves room, all methods come to the same outcome. -/
namespace OptimalMatching

variable {w : Width} {t : Table w}

theorem Graph.largestOfTable (valid : t.Valid) : (Graph.ofSquare (Square.ofTable t)).largest = t.largest := by
  rw [Graph.largestOfSquare (Square.validOfTable valid), Square.largestOfTable]
  intro i j outside
  have none : t.get? i j = none := by
    rw [Table.getNone]
    rw [(Square.realOfTable t).1, (Square.realOfTable t).2] at outside
    omega
  rw [Square.cellOfTable, none, Option.getD_none]

theorem Table.bestUnique {objective : Objective} {a b : Finset (Nat × Nat)} (left : t.Best objective a)
    (right : t.Best objective b) : t.worth a = t.worth b := by
  have one := left.best b right.full
  have two := right.best a left.full
  cases objective with
  | minimize => exact Int.le_antisymm one two
  | maximize => exact Int.le_antisymm two one

namespace Solution

theorem columnsStops (valid : t.Valid) (method : Method) (watch : Watch) (emitted : Nat) :
    Stops watch (Roomy w t.largest (max t.rows t.cols))
      (fun _ => ∃ rows cols, Crowded (Square.ofTable t).costs (max t.rows t.cols) rows cols)
      (Optimum (Square.ofTable t).costs)
      (columns method watch emitted (Square.ofTable t)).result := by
  have square := Square.validOfTable valid
  cases method with
  | hungarian =>
    have stops := Hungarian.solveStops square watch emitted
    rw [Square.largestOfTable] at stops
    exact stops.imp (fun room => room.product) (fun _ ⟨rows, cols, crowded, _⟩ => ⟨rows, cols, crowded⟩)
      fun _ optimum => optimum
  | dense =>
    have stops := Dense.solveStops square watch emitted
    rw [Square.largestOfTable] at stops
    exact stops
  | sparse =>
    have size : max t.rows t.cols ≠ 0 := Nat.ne_of_gt (Nat.lt_of_lt_of_le valid.rows (Nat.le_max_left ..))
    have stops := Sparse.solveStops size (Graph.validOfSquare square) watch emitted
    have costs : (Graph.ofSquare (Square.ofTable t)).cheapest = (Square.ofTable t).costs := Graph.cheapestOfCosts _
    rw [Graph.largestOfTable valid, costs] at stops
    exact stops

def ofPlacement {n : Nat} (t : Table w) (col : Fin n → Fin n) : Solution :=
  ⟨.ofColumns (Assignment.listed col) t.rows t.cols, t.worth (realCells t.rows t.cols col)⟩

theorem solveStops (valid : t.Valid) (settings : Settings) (after : Option Nat) :
    Stops ⟨settings.token, after⟩
      (Roomy w (working t settings.objective).largest (max t.rows t.cols) ∧
        ∀ cells, t.Best settings.objective cells → t.worth cells ≤ w.top)
      (fun _ => ∀ cells, ¬ t.Full cells)
      (fun solution => ∃ (n : Nat) (col : Fin n → Fin n), Function.Injective col ∧
        t.Best settings.objective (realCells t.rows t.cols col) ∧ t.worth (realCells t.rows t.cols col) ≤ w.top ∧
        solution = ofPlacement t col)
      (solve t settings after).result := by
  obtain ⟨rows, cols⟩ := workingShape t settings.objective
  have stops := columnsStops (workingValid valid settings.objective) settings.method ⟨settings.token, after⟩ 1
  unfold solve
  simp only [List.length_singleton]
  generalize columns settings.method ⟨settings.token, after⟩ 1
    (Square.ofTable (working t settings.objective)) = e at stops
  obtain ⟨state, events, result⟩ := e
  cases result with
  | error failure =>
    cases failure with
    | overflow =>
      intro room
      rw [← rows, ← cols] at room
      exact stops room.1
    | infeasible =>
      obtain ⟨few, many, crowded⟩ := stops
      intro cells full
      exact crowdedFull crowded cells ((workingFull valid settings.objective).mpr full)
    | cancelled => exact stops
    | malformed => exact stops
    | fault => exact stops
  | ok columns =>
    obtain ⟨col, injective, same, best⟩ := optimumBest stops
    have best := workingBest valid best
    have cells : realCells (working t settings.objective).rows (working t settings.objective).cols col =
        realCells t.rows t.cols col := congrArg₂ (fun rows cols => realCells rows cols col) rows cols
    rw [cells] at best
    have enough : t.rows ≤ max (working t settings.objective).rows (working t settings.objective).cols := by
      rw [rows]
      exact Nat.le_max_left ..
    have listed : columns = Assignment.listed col := same
    rw [listed]
    simp only [Ended.andThen, Ended.after]
    rcases priceEnds valid injective enough best.full with ⟨fits, done⟩ | ⟨exceeds, cause, failed⟩
    · rw [done]
      exact ⟨_, col, injective, best, fits, rfl⟩
    · rw [failed]
      intro room
      have fits := room.2 _ best
      omega

theorem solvedBest (valid : t.Valid) (settings : Settings) (after : Option Nat) {solution : Solution}
    (ok : (solve t settings after).result = .ok solution) :
    solution.assignment.pairs.Nodup ∧ solution.assignment.pairs.length = min t.rows t.cols ∧
      t.Best settings.objective solution.assignment.pairs.toFinset ∧
      (∀ row col, (row, col) ∈ solution.assignment.pairs ↔ solution.assignment.colAt row = some col) ∧
      (∀ row col, solution.assignment.colAt row = some col ↔ solution.assignment.rowAt col = some row) ∧
      solution.total = t.worth solution.assignment.pairs.toFinset := by
  have stops := solveStops valid settings after
  rw [ok] at stops
  obtain ⟨n, col, injective, best, _, same⟩ := stops
  subst same
  have cells := @Assignment.ofColumnsPairs n t.rows t.cols col
  have distinct : (Assignment.ofColumns (Assignment.listed col) t.rows t.cols).pairs.Nodup := Assignment.pairsNodup _
  refine ⟨distinct, ?_, ?_, fun row col => Assignment.memPairs, ?_, ?_⟩
  · have size := best.full.size
    rw [← cells, List.toFinset_card_of_nodup distinct] at size
    exact size
  · rw [← cells] at best
    exact best
  · intro row c
    exact (Assignment.ofColumnsInverse injective row c).symm
  · exact congrArg t.worth cells.symm

def wideTable : Table byteWidth :=
  ⟨⟨2, 3, #[4, 1, 3, 127, 1, 5]⟩, rfl⟩

theorem wideTableValid : wideTable.Valid := Table.validOfValues (by decide) (by decide) (by decide)

theorem wideTableSolved (token : Option Bool) (quiet : token ≠ some true) :
    (solve wideTable ⟨.hungarian, .maximize, token⟩ none).result =
      .ok ⟨⟨[some 0, some 2], [some 0, none, some 1]⟩, 9⟩ := by
  cases token with
  | none => rfl
  | some raised =>
    cases raised with
    | false => rfl
    | true => exact absurd rfl quiet

theorem solvedBestWide : wideTable.Best .maximize {(0, 0), (1, 2)} ∧ wideTable.worth {(0, 0), (1, 2)} = 9 := by
  have solved := wideTableSolved (some false) (by decide)
  obtain ⟨_, _, best, _, _, total⟩ := solvedBest wideTableValid ⟨.hungarian, .maximize, some false⟩ none solved
  exact ⟨best, total.symm⟩

theorem tokenlessStops (valid : t.Valid) (method : Method) (objective : Objective) (after : Option Nat)
    (room : Roomy w (working t objective).largest (max t.rows t.cols)) :
    ((∃ row, (solve t ⟨method, objective, none⟩ after).result = .error (.infeasible row)) ∧ ∀ cells, ¬ t.Full cells) ∨
    ((∃ cause, (solve t ⟨method, objective, none⟩ after).result = .error (.overflow cause)) ∧
      ∃ cells, t.Best objective cells ∧ w.top < t.worth cells) ∨
    ∃ solution cells, (solve t ⟨method, objective, none⟩ after).result = .ok solution ∧ t.Best objective cells ∧
      t.worth cells ≤ w.top ∧ solution.total = t.worth cells := by
  have stops := solveStops valid ⟨method, objective, none⟩ after
  cases result : (solve t ⟨method, objective, none⟩ after).result with
  | ok solution =>
    rw [result] at stops
    obtain ⟨n, col, _, best, fits, same⟩ := stops
    exact .inr (.inr ⟨solution, _, rfl, best, fits, by rw [same]; rfl⟩)
  | error failure =>
    rw [result] at stops
    cases failure with
    | overflow cause =>
      refine .inr (.inl ⟨⟨cause, rfl⟩, ?_⟩)
      by_contra none
      push Not at none
      exact stops ⟨room, none⟩
    | infeasible row => exact .inl ⟨⟨row, rfl⟩, stops⟩
    | cancelled =>
      obtain ⟨emitted, raised⟩ := stops
      cases raised
    | malformed => exact stops.elim
    | fault => exact stops.elim

theorem overflowOfColumns {settings : Settings} {after : Option Nat} {cause : Overflow}
    (refused : (columns settings.method ⟨settings.token, after⟩ 1
      (Square.ofTable (working t settings.objective))).result = .error (.overflow cause)) :
    (solve t settings after).result = .error (.overflow cause) := by
  unfold solve
  simp only [List.length_singleton, Ended.andThen, refused, Ended.after]

theorem sameOutcome (valid : t.Valid) (objective : Objective) (after : Option Nat) :
    (Roomy w (working t objective).largest (max t.rows t.cols) → ∀ method,
      ((∃ row, (solve t ⟨method, objective, none⟩ after).result = .error (.infeasible row)) ↔ ¬ ∃ cells, t.Full cells) ∧
      ((∃ cells, t.Full cells) → (∃ cells, t.Best objective cells) ∧ ∀ cells, t.Best objective cells →
        (t.worth cells ≤ w.top → ∃ solution, (solve t ⟨method, objective, none⟩ after).result = .ok solution ∧
          solution.total = t.worth cells) ∧
        (w.top < t.worth cells → ∃ cause, (solve t ⟨method, objective, none⟩ after).result =
          .error (.overflow cause)))) ∧
    (¬ Roomy w (working t objective).largest (max t.rows t.cols) →
      (∃ cause, (solve t ⟨.dense, objective, none⟩ after).result = .error (.overflow cause)) ∧
      ∃ cause, (solve t ⟨.sparse, objective, none⟩ after).result = .error (.overflow cause)) ∧
    ∀ method cause, (solve t ⟨method, objective, none⟩ after).result ≠ .error (.malformed cause) := by
  refine ⟨?_, ?_, ?_⟩
  · intro room method
    rcases tokenlessStops valid method objective after room with
      ⟨⟨row, failed⟩, none⟩ | ⟨⟨cause, failed⟩, cells, best, exceeds⟩ | ⟨solution, cells, done, best, fits, total⟩
    · refine ⟨⟨fun _ ⟨cells, full⟩ => none cells full, fun _ => ⟨row, failed⟩⟩, ?_⟩
      intro ⟨cells, full⟩
      exact absurd full (none cells)
    · refine ⟨⟨?_, fun none => absurd ⟨cells, best.full⟩ none⟩, fun _ => ⟨⟨cells, best⟩, ?_⟩⟩
      · intro ⟨row, infeasible⟩
        rw [failed] at infeasible
        cases infeasible
      · intro other bestOther
        have same := Table.bestUnique best bestOther
        exact ⟨fun small => absurd small (by omega), fun _ => ⟨cause, failed⟩⟩
    · refine ⟨⟨?_, fun none => absurd ⟨cells, best.full⟩ none⟩, fun _ => ⟨⟨cells, best⟩, ?_⟩⟩
      · intro ⟨row, infeasible⟩
        rw [done] at infeasible
        cases infeasible
      · intro other bestOther
        have same := Table.bestUnique best bestOther
        exact ⟨fun _ => ⟨solution, done, total.trans same⟩, fun large => absurd large (by omega)⟩
  · intro tight
    obtain ⟨rows, cols⟩ := workingShape t objective
    have validWorking := workingValid valid objective
    have square := Square.largestOfTable (working t objective)
    have graph := Graph.largestOfTable validWorking
    rw [← rows, ← cols] at tight
    have size : max (working t objective).rows (working t objective).cols ≠ 0 :=
      Nat.ne_of_gt (Nat.lt_of_lt_of_le validWorking.rows (Nat.le_max_left ..))
    refine ⟨?_, ?_⟩
    · rw [← square] at tight
      obtain ⟨cause, refused⟩ := Dense.solveRefused tight ⟨none, after⟩ 1
      exact ⟨cause, overflowOfColumns refused⟩
    · rw [← graph] at tight
      obtain ⟨cause, refused⟩ := Sparse.solveRefused size tight ⟨none, after⟩ 1
      exact ⟨cause, overflowOfColumns refused⟩
  · intro method cause malformed
    have stops := solveStops valid ⟨method, objective, none⟩ after
    rw [malformed] at stops
    exact stops

theorem sameOutcomeWide :
    (∃ solution, (solve wideTable ⟨.dense, .maximize, none⟩ none).result = .ok solution ∧ solution.total = 9) ∧
      ∃ solution, (solve wideTable ⟨.sparse, .maximize, none⟩ none).result = .ok solution ∧ solution.total = 9 := by
  have solved := wideTableSolved none (by decide)
  have outcome := (sameOutcome wideTableValid .maximize none).1 ⟨by decide, by decide, by decide⟩
  have feasible : ∃ cells, wideTable.Full cells := by
    by_contra none
    obtain ⟨row, failed⟩ := (outcome .hungarian).1.mpr none
    rw [solved] at failed
    cases failed
  obtain ⟨⟨cells, best⟩, ends⟩ := (outcome .hungarian).2 feasible
  have fits : wideTable.worth cells ≤ byteWidth.top := by
    by_contra large
    obtain ⟨cause, failed⟩ := (ends cells best).2 (not_le.mp large)
    rw [solved] at failed
    cases failed
  have nine : wideTable.worth cells = 9 := by
    obtain ⟨solution, done, total⟩ := (ends cells best).1 fits
    rw [solved] at done
    cases done
    exact total.symm
  have same (method : Method) :
      ∃ solution, (solve wideTable ⟨method, .maximize, none⟩ none).result = .ok solution ∧ solution.total = 9 := by
    rw [← nine]
    exact (((outcome method).2 feasible).2 cells best).1 fits
  exact ⟨same .dense, same .sparse⟩

end Solution
end OptimalMatching
