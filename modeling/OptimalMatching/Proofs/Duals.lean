import OptimalMatching.Proofs.Dense
import OptimalMatching.Proofs.Sparse

/-! The invariant that both shortest path solvers keep from row to row: their potentials certify that the rows matched so
far stand as cheaply as they can, and the sum of the potentials is what they cost. -/
namespace OptimalMatching

variable {w : Width} {n : Nat}

structure Certified (costs : Costs n) (k : Nat) (p : Potentials n) (m : Matching n) : Prop where
  certificate : Certificate costs k p m
  placement : Placement costs k m.colAt
  total : placementCost costs k m.colAt = ∑ i : Fin n, p.row[i] + ∑ j : Fin n, p.col[j]
  least : ∀ col, Placement costs k col → placementCost costs k m.colAt ≤ placementCost costs k col

variable {costs : Costs n} {most : Int} {k : Nat} {p : Potentials n} {m : Matching n}

theorem Certificate.certified (c : Certificate costs k p m) : Certified costs k p m := by
  refine ⟨c, c.placement, c.cost, ?_⟩
  intro col place
  rw [c.cost]
  exact c.below place

theorem Advanced.certified {events : List Event} (advanced : Advanced costs most k p m events)
    (within : CostsWithin costs most) (nonneg : 0 ≤ most) : Certified costs k p m :=
  (advanced.ready within nonneg).certificate.certified

theorem Advanced.count {events : List Event} (advanced : Advanced costs most k p m events) :
    (waysOf events).length = k := by
  obtain ⟨ways, progress, told⟩ := advanced
  rw [told, List.length_mapIdx, progress.length]

theorem takeEnds {watch : Watch} {stuck : Fin n → Prop} {emitted l : Nat} (le : k ≤ n)
    (ended : RowsEnded watch stuck emitted 0 l ((List.finRange n).take k).length (.ok ())) : l = k := by
  cases ended with
  | done all =>
    rw [List.length_take, List.length_finRange] at all
    omega

theorem Solved.whole {watch : Watch} {emitted l : Nat} {columns : List Nat}
    (solved : Solved watch costs emitted l m (.ok columns)) :
    l = n ∧ columns = (List.finRange n).map fun i => (m.colAt i).val := by
  cases solved with
  | done all => exact ⟨all, rfl⟩

theorem Advanced.solved {watch : Watch} {emitted l : Nat} {events : List Event} {result : Except Failure (List Nat)}
    (advanced : Advanced costs most l p m events) (solved : Solved watch costs emitted l m result)
    (within : CostsWithin costs most) (nonneg : 0 ≤ most) :
    Certified costs (waysOf events).length p m ∧
      ∀ columns, result = .ok columns →
        Certified costs n p m ∧ columns = (List.finRange n).map fun i => (m.colAt i).val := by
  have certified := advanced.certified within nonneg
  refine ⟨by rw [advanced.count]; exact certified, ?_⟩
  intro columns done
  rw [done] at solved
  obtain ⟨all, same⟩ := solved.whole
  rw [all] at certified
  exact ⟨certified, same⟩

theorem Certified.edge {g : Graph w n n} (certified : Certified g.cheapest k p m) {e : Edge n n}
    (member : e ∈ g.edges.toList) : 0 ≤ e.cost - p.row[e.row] - p.col[e.col] := by
  obtain ⟨cost, has⟩ : ∃ cost, g.cheapest[e.row][e.col] = some cost := by
    refine Option.ne_none_iff_exists'.mp ?_
    intro none
    exact Graph.cheapestNone.mp none e.cost member
  have nonneg := certified.certificate.feasible e.row e.col cost has
  have least := (Graph.cheapestSome.mp has).2 e.cost member
  omega

/-- A call is the loop over the rows: its state is the one in which the loop has ended, its events tell of no other way, and it
fails with the loop or returns the columns that the loop has come to. -/
structure Follows {σ : Type} (loop : Ended σ Unit) (columns : σ → Except Failure (List Nat))
    (call : Ended (Option σ) (List Nat)) : Prop where
  state : call.state = some loop.state
  events : ∃ opening closing, call.events = opening ++ loop.events ++ closing
  ways : waysOf call.events = waysOf loop.events
  failed : ∀ failure, loop.result = .error failure → call.result = .error failure
  done : loop.result = .ok () → call.result = columns loop.state

theorem followsFinish {σ : Type} {loop : Ended σ Unit} {columns : σ → Except Failure (List Nat)}
    {finish : σ → Ended σ (List Nat)} {opening : List Event} (quiet : waysOf opening = [])
    (ends : ∀ s, (finish s).state = s ∧ (finish s).result = columns s ∧ waysOf (finish s).events = []) :
    Follows loop columns ⟨some (loop.andThen fun _ s _ => finish s).state,
      opening ++ (loop.andThen fun _ s _ => finish s).events, (loop.andThen fun _ s _ => finish s).result⟩ := by
  obtain ⟨s, events, result⟩ := loop
  obtain ⟨state, same, none⟩ := ends s
  unfold waysOf at quiet none
  cases result with
  | error failure =>
    constructor
    case state => rfl
    case events => exact ⟨opening, [], by simp [Ended.andThen]⟩
    case ways => simp [Ended.andThen, waysOf, quiet]
    case failed => exact fun _ failed => congrArg Except.error (Except.error.inj failed)
    case done =>
      intro ended
      cases ended
  | ok =>
    constructor
    case state => exact congrArg some state
    case events => exact ⟨opening, (finish s).events, by simp [Ended.andThen, Ended.after]⟩
    case ways => simp [Ended.andThen, Ended.after, waysOf, quiet, none]
    case failed =>
      intro _ failed
      cases failed
    case done => exact fun _ => same

theorem Dense.follows {watch : Watch} {emitted : Nat} {table : Square w n}
    (accepted : requireRoom w table.largest n = .ok ()) :
    Follows (rowByRow watch (augment w table.costs) (List.finRange n) (emitted + 1) (.start n))
      (fun s => s.matching.columns) (solve watch emitted table) := by
  unfold solve
  rw [accepted]
  refine followsFinish rfl fun s => ?_
  unfold finish
  cases s.matching.columns <;> exact ⟨rfl, rfl, rfl⟩

theorem Sparse.follows {watch : Watch} {emitted : Nat} {g : Graph w n n} {grouped : Grouped n n} (size : n ≠ 0)
    (accepted : requireRoom w g.largest n = .ok ()) (made : Grouped.ofGraph g = .ok grouped) :
    Follows (rowByRow watch (augment w grouped) (List.finRange n) (emitted + 1) (.start n))
      (fun s => s.matching.columns) (solve watch emitted g) := by
  have square : solve watch emitted g = solveSquare watch emitted g := dif_pos ⟨size, rfl⟩
  rw [square, solveSquare, accepted, made]
  exact followsFinish rfl fun s => ⟨rfl, rfl, rfl⟩

theorem rowsCertified (watch : Watch) (emitted : Nat) :
    (∀ table : Square w n, table.toTable.Valid → requireRoom w table.largest n = .ok () →
      (∀ k s events, k ≤ n →
        rowByRow watch (Dense.augment w table.costs) ((List.finRange n).take k) emitted (.start n) =
          ⟨s, events, .ok ()⟩ →
        Certified table.costs k s.potentials s.matching) ∧
      Follows (rowByRow watch (Dense.augment w table.costs) (List.finRange n) (emitted + 1) (.start n))
        (fun s => s.matching.columns) (Dense.solve watch emitted table) ∧
      ∃ s, (Dense.solve watch emitted table).state = some s ∧
        Certified table.costs (waysOf (Dense.solve watch emitted table).events).length s.potentials s.matching ∧
        ∀ columns, (Dense.solve watch emitted table).result = .ok columns →
          Certified table.costs n s.potentials s.matching ∧
            columns = (List.finRange n).map fun i => (s.matching.colAt i).val) ∧
    ∀ (g : Graph w n n) grouped, n ≠ 0 → g.Valid → requireRoom w g.largest n = .ok () →
      Grouped.ofGraph g = .ok grouped →
      (∀ k s events, k ≤ n →
        rowByRow watch (Sparse.augment w grouped) ((List.finRange n).take k) emitted (.start n) =
          ⟨s, events, .ok ()⟩ →
        Certified g.cheapest k s.potentials s.matching ∧
          ∀ e ∈ g.edges.toList, 0 ≤ e.cost - s.potentials.row[e.row] - s.potentials.col[e.col]) ∧
      Follows (rowByRow watch (Sparse.augment w grouped) (List.finRange n) (emitted + 1) (.start n))
        (fun s => s.matching.columns) (Sparse.solve watch emitted g) ∧
      ∃ s, (Sparse.solve watch emitted g).state = some s ∧
        Certified g.cheapest (waysOf (Sparse.solve watch emitted g).events).length s.potentials s.matching ∧
        ∀ columns, (Sparse.solve watch emitted g).result = .ok columns →
          Certified g.cheapest n s.potentials s.matching ∧
            columns = (List.finRange n).map fun i => (s.matching.colAt i).val := by
  refine ⟨?_, ?_⟩
  · intro table valid accepted
    have within := Square.costsWithin valid
    have nonneg : 0 ≤ table.largest := Table.largestNonneg table.toTable
    have room := (requireRoomOk nonneg).mp accepted
    refine ⟨?_, Dense.follows accepted, ?_⟩
    · intro k s events le run
      obtain ⟨l, _, advanced, ended⟩ := Dense.rowsEnd (takeOrder n k) within nonneg room.product watch emitted
      rw [run] at advanced ended
      rw [takeEnds le ended] at advanced
      exact advanced.certified within nonneg
    · obtain ⟨s, l, state, advanced, solved⟩ := Dense.solveEnds valid room watch emitted
      exact ⟨s, state, advanced.solved solved within nonneg⟩
  · intro g grouped size valid accepted ofGraph
    have within := Graph.cheapestWithin valid
    have nonneg := Graph.largestNonneg g
    have room := (requireRoomOk nonneg).mp accepted
    refine ⟨?_, Sparse.follows size accepted ofGraph, ?_⟩
    · intro k s events le run
      obtain ⟨other, made, arcs⟩ := Grouped.ofGraphOk g
      rw [ofGraph] at made
      obtain rfl := Except.ok.inj made
      obtain ⟨l, _, advanced, ended⟩ := Sparse.rowsEnd (takeOrder n k) arcs valid room.product watch emitted
      rw [run] at advanced ended
      rw [takeEnds le ended] at advanced
      have certified := advanced.certified within nonneg
      exact ⟨certified, fun e member => certified.edge member⟩
    · obtain ⟨s, l, state, advanced, solved⟩ := Sparse.solveEnds size valid room watch emitted
      exact ⟨s, state, advanced.solved solved within nonneg⟩

def byteWidth : Width := .ofBits 8 (by decide)

def twoRows : Square byteWidth 2 := .whole #v[#v[3, 1], #v[2, 1]]

theorem twoRowsValid : twoRows.toTable.Valid := Table.validOfValues (by decide) (by decide) (by decide)

theorem twoRowsGrouped : Grouped.ofGraph (Graph.ofSquare twoRows) =
    .ok ⟨#v[0, 2, 4], #[some (0, 3), some (1, 1), some (0, 2), some (1, 1)]⟩ := rfl

theorem rowsCertifiedTwo :
    (∃ s events, rowByRow .never (Dense.augment byteWidth twoRows.costs) ((List.finRange 2).take 1) 0 (.start 2) =
        ⟨s, events, .ok ()⟩ ∧ Certified twoRows.costs 1 s.potentials s.matching) ∧
      ∃ grouped s events, Grouped.ofGraph (Graph.ofSquare twoRows) = .ok grouped ∧
        rowByRow .never (Sparse.augment byteWidth grouped) ((List.finRange 2).take 1) 0 (.start 2) =
          ⟨s, events, .ok ()⟩ ∧ Certified (Graph.ofSquare twoRows).cheapest 1 s.potentials s.matching := by
  obtain ⟨dense, sparse⟩ := @rowsCertified byteWidth 2 .never 0
  refine ⟨⟨_, _, rfl, ?_⟩, ?_⟩
  · exact (dense twoRows twoRowsValid (by decide)).1 1 _ _ (by decide) rfl
  · have run := (sparse (Graph.ofSquare twoRows) _ (by decide) (Graph.validOfSquare twoRowsValid) (by decide)
      twoRowsGrouped).1 1
    exact ⟨_, _, _, twoRowsGrouped, rfl, (run _ _ (by decide) rfl).1⟩

end OptimalMatching
