import OptimalMatching.Proofs.Duals

/-! The row that a shortest path solver names when it fails: the first one that cannot be placed beside the rows before
it. Neither the solver nor its choice among equal ways plays a part, and the row is never one of the padding. -/
namespace OptimalMatching

variable {w : Width} {n k l : Nat} {costs : Costs n} {allowed : Fin n → Fin n → Prop}

def Placeable (allowed : Fin n → Fin n → Prop) (k : Nat) : Prop :=
  ∃ col : Fin n → Fin n, (∀ i : Fin n, i.val < k → allowed i (col i)) ∧
    ∀ i j : Fin n, i.val < k → j.val < k → col i = col j → i = j

theorem Placeable.fewer (place : Placeable allowed l) (within : ∀ i : Fin n, i.val < k → i.val < l) :
    Placeable allowed k := by
  obtain ⟨col, inside, apart⟩ := place
  exact ⟨col, fun i early => inside i (within i early),
    fun i j left right => apart i j (within i left) (within j right)⟩

theorem placeableCosts : Placeable (fun i j => ∃ cost, costs[i][j] = some cost) k ↔ ∃ col, Placement costs k col := by
  refine ⟨?_, ?_⟩
  · intro ⟨col, inside, apart⟩
    exact ⟨col, inside, apart⟩
  · intro ⟨col, place⟩
    exact ⟨col, place.allowed, place.apart⟩

theorem Graph.cheapestExists {g : Graph w n n} {i j : Fin n} :
    (∃ cost, g.cheapest[i][j] = some cost) ↔ ∃ cost, ⟨i, j, cost⟩ ∈ g.edges.toList := by
  rw [← Option.ne_none_iff_exists', Ne, Graph.cheapestNone]
  simp

structure FirstStuck (allowed : Fin n → Fin n → Prop) (k : Nat) : Prop where
  before : Placeable allowed k
  here : ¬ Placeable allowed (k + 1)

theorem FirstStuck.notBehind (stuck : FirstStuck allowed k) (place : Placeable allowed l) : ¬ k < l := by
  intro early
  exact stuck.here (place.fewer fun i lt => by omega)

theorem FirstStuck.unique (left : FirstStuck allowed k) (right : FirstStuck allowed l) : k = l := by
  have le := left.notBehind right.before
  have ge := right.notBehind left.before
  omega

structure TellsStuck (watch : Watch) (allowed : Fin n → Fin n → Prop) (result : Except Failure (List Nat)) : Prop where
  cancelled : result = .error .cancelled → ∃ count, watch.raised count = true
  named : result ≠ .error .cancelled → ∀ k, result = .error (.infeasible k) ↔ FirstStuck allowed k

theorem Crowded.firstStuck {rows cols : List (Fin n)} {col : Fin n → Fin n} (crowded : Crowded costs (l + 1) rows cols)
    (place : Placement costs l col) : FirstStuck (fun i j => ∃ cost, costs[i][j] = some cost) l := by
  refine ⟨placeableCosts.mpr ⟨col, place⟩, ?_⟩
  intro whole
  obtain ⟨other, placed⟩ := placeableCosts.mp whole
  exact crowdedNone crowded other placed

/- That row is itself among them, for without it the rest would be too many already. -/
theorem Crowded.lastReal {s : Square w n} {rows cols : List (Fin n)} {col : Fin n → Fin n}
    (crowded : Crowded s.costs (l + 1) rows cols) (place : Placement s.costs l col) : l < s.realRows := by
  by_contra padding
  refine crowdedNone ⟨?_, crowded.distinct, crowded.closed, crowded.fewer⟩ col place
  intro i member
  have early := crowded.early i member
  have real := Square.crowdedReal crowded member
  omega

theorem Advanced.tellsStuck {watch : Watch} {most : Int} {emitted : Nat} {p : Potentials n} {m : Matching n}
    {events : List Event} {result : Except Failure (List Nat)} (advanced : Advanced costs most l p m events)
    (solved : Solved watch costs emitted l m result) (within : CostsWithin costs most) (nonneg : 0 ≤ most) :
    TellsStuck watch (fun i j => ∃ cost, costs[i][j] = some cost) result := by
  have placement := (advanced.certified within nonneg).placement
  cases solved with
  | done all =>
    refine ⟨nofun, fun _ k => ⟨nofun, ?_⟩⟩
    intro stuck
    rw [all] at placement
    exact absurd ((placeableCosts.mpr ⟨_, placement⟩).fewer fun i _ => i.isLt) stuck.here
  | cancelled early raised => exact ⟨fun _ => ⟨_, raised⟩, fun uncancelled => absurd rfl uncancelled⟩
  | infeasible early crowded =>
    obtain ⟨rows, cols, few⟩ := crowded
    have stuck := few.firstStuck placement
    refine ⟨nofun, fun _ k => ⟨?_, ?_⟩⟩
    · intro same
      cases same
      exact stuck
    · intro other
      rw [other.unique stuck]

theorem Roomy.ofSquare {table : Square w n} (valid : table.toTable.Valid) (room : Roomy w table.largest n) :
    Roomy w (Graph.ofSquare table).largest n := by
  refine ⟨room.word, room.factor, ?_⟩
  have le := Int.mul_le_mul_of_nonneg_right (Graph.largestOfSquareLe valid) (Int.natCast_nonneg (roomFactor n))
  exact Int.le_trans le room.product

theorem Dense.tellsStuck {table : Square w n} (valid : table.toTable.Valid) (room : Roomy w table.largest n)
    (watch : Watch) (emitted : Nat) :
    TellsStuck watch (fun i j => ∃ cost, table.costs[i][j] = some cost) (Dense.solve watch emitted table).result := by
  obtain ⟨_, _, _, advanced, solved⟩ := Dense.solveEnds valid room watch emitted
  exact advanced.tellsStuck solved (Square.costsWithin valid) (Table.largestNonneg table.toTable)

theorem Sparse.tellsStuck {g : Graph w n n} (size : n ≠ 0) (valid : g.Valid) (room : Roomy w g.largest n)
    (watch : Watch) (emitted : Nat) :
    TellsStuck watch (fun i j => ∃ cost, ⟨i, j, cost⟩ ∈ g.edges.toList) (Sparse.solve watch emitted g).result := by
  obtain ⟨_, _, _, advanced, solved⟩ := Sparse.solveEnds size valid room watch emitted
  have tells := advanced.tellsStuck solved (Graph.cheapestWithin valid) (Graph.largestNonneg g)
  simpa only [Graph.cheapestExists] using tells

theorem Dense.namedReal {table : Square w n} (valid : table.toTable.Valid) (room : Roomy w table.largest n)
    {watch : Watch} {emitted : Nat} (failed : (Dense.solve watch emitted table).result = .error (.infeasible k)) :
    k < table.realRows := by
  obtain ⟨_, _, _, advanced, solved⟩ := Dense.solveEnds valid room watch emitted
  have placement := (advanced.certified (Square.costsWithin valid) (Table.largestNonneg table.toTable)).placement
  rw [failed] at solved
  cases solved with
  | infeasible early crowded =>
    obtain ⟨rows, cols, few⟩ := crowded
    exact few.lastReal placement

theorem firstStuckNamed (watch watch' : Watch) (emitted emitted' : Nat) :
    (∀ table : Square w n, table.toTable.Valid → requireRoom w table.largest n = .ok () →
      TellsStuck watch (fun i j => ∃ cost, table.costs[i][j] = some cost) (Dense.solve watch emitted table).result) ∧
    (∀ g : Graph w n n, n ≠ 0 → g.Valid → requireRoom w g.largest n = .ok () →
      TellsStuck watch' (fun i j => ∃ cost, ⟨i, j, cost⟩ ∈ g.edges.toList) (Sparse.solve watch' emitted' g).result) ∧
    ∀ table : Square w n, table.toTable.Valid → requireRoom w table.largest n = .ok () →
      (Dense.solve watch emitted table).result ≠ .error .cancelled →
      (Sparse.solve watch' emitted' (Graph.ofSquare table)).result ≠ .error .cancelled →
      ∀ k, ((Dense.solve watch emitted table).result = .error (.infeasible k) ↔
          (Sparse.solve watch' emitted' (Graph.ofSquare table)).result = .error (.infeasible k)) ∧
        ((Dense.solve watch emitted table).result = .error (.infeasible k) → k < table.realRows) := by
  refine ⟨?_, ?_, ?_⟩
  · intro table valid accepted
    exact Dense.tellsStuck valid ((requireRoomOk (Table.largestNonneg table.toTable)).mp accepted) watch emitted
  · intro g size valid accepted
    exact Sparse.tellsStuck size valid ((requireRoomOk (Graph.largestNonneg g)).mp accepted) watch' emitted'
  · intro table valid accepted quiet quiet' k
    have room : Roomy w table.largest n := (requireRoomOk (Table.largestNonneg table.toTable)).mp accepted
    have dense := (Dense.tellsStuck valid room watch emitted).named quiet k
    have size : n ≠ 0 := Nat.ne_of_gt valid.rows
    have sparse := (Sparse.tellsStuck size (Graph.validOfSquare valid) (room.ofSquare valid) watch' emitted').named
      quiet' k
    have same : ∀ i j : Fin n, (∃ cost, ⟨i, j, cost⟩ ∈ (Graph.ofSquare table).edges.toList) ↔
        ∃ cost, table.costs[i][j] = some cost := by
      intro i j
      simp only [Array.mem_toList_iff, Graph.ofSquare, Graph.memOfCosts]
    simp only [same] at sparse
    exact ⟨dense.trans sparse.symm, Dense.namedReal valid room⟩

def lateStuck : Square byteWidth 3 :=
  ⟨3, 2, Nat.le_refl 3, by decide, #[127, 1, 127, 127, 2, 127, 127, 3, 127], rfl⟩

theorem lateStuckValid : lateStuck.toTable.Valid := Table.validOfValues (by decide) (by decide) (by decide)

theorem firstStuckNamedLate : (Dense.solve .never 0 lateStuck).result = .error (.infeasible 2) ∧
    FirstStuck (fun i j => ∃ cost, lateStuck.costs[i][j] = some cost) 2 ∧
    (Sparse.solve .never 0 (Graph.ofSquare lateStuck)).result = .error (.infeasible 2) ∧ 2 < lateStuck.realRows := by
  obtain ⟨dense, _, both⟩ := @firstStuckNamed byteWidth 3 .never .never 0 0
  have failed : (Dense.solve .never 0 lateStuck).result = .error (.infeasible 2) := rfl
  have quiet : (Sparse.solve .never 0 (Graph.ofSquare lateStuck)).result ≠ .error .cancelled := by
    intro cancelled
    have other : (Sparse.solve .never 0 (Graph.ofSquare lateStuck)).result = .error (.infeasible 2) := rfl
    rw [other] at cancelled
    cases cancelled
  obtain ⟨same, real⟩ := both lateStuck lateStuckValid (by decide) (by rw [failed]; nofun) quiet 2
  exact ⟨failed, ((dense lateStuck lateStuckValid (by decide)).named (by rw [failed]; nofun) 2).mp failed,
    same.mp failed, real failed⟩

end OptimalMatching
