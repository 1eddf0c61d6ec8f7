import OptimalMatching.Proofs.Reuse

/-! What a failed call leaves of a solver. One that is refused leaves the solver as it was. One that is stuck in a row
leaves potentials and matching as the rows before have left them, because only a search can be stuck, and a search writes
neither. They still price no pairing below zero, even in rows that have not been taken up. -/
namespace OptimalMatching

variable {w : Width} {n k : Nat}

def OnlyFaults {α : Type} (x : Except Failure α) : Prop := ∀ failure, x = .error failure → ∃ cause, failure = .fault cause

section OnlyFaults
variable {α β : Type} {m : Matching n} {p : Potentials n} {labels : Labels n} {reached : Int}

theorem OnlyFaults.bind {x : Except Failure α} {f : α → Except Failure β} (here : OnlyFaults x)
    (later : ∀ a, OnlyFaults (f a)) : OnlyFaults (x >>= f) := by
  intro failure failed
  rcases bindError.mp failed with first | ⟨a, _, second⟩
  · exact here failure first
  · exact later a failure second

theorem onlyFaultsOk (a : α) : OnlyFaults (.ok a) := nofun

theorem onlyFaultsFault (cause : Fault) : OnlyFaults (.error (.fault cause) : Except Failure α) := by
  intro failure same
  exact ⟨cause, (Except.error.inj same).symm⟩

theorem onlyFaultsKeep (cause : Fault) (x : Int) : OnlyFaults (w.keep (.fault cause) x) := by
  unfold Width.keep
  split
  case isTrue => exact onlyFaultsOk x
  case isFalse => exact onlyFaultsFault cause

theorem raiseRowFaults (row : Fin n) (amount : Int) : OnlyFaults (p.raiseRow w row amount) :=
  (onlyFaultsKeep _ _).bind fun _ => onlyFaultsOk _

theorem raiseRowsFaults (rows : List (Fin n)) : OnlyFaults (p.raiseRows w m labels reached rows) := by
  induction rows generalizing p with
  | nil => exact onlyFaultsOk p
  | cons row rest ih =>
    unfold Potentials.raiseRows
    cases m.colOf[row] with
    | none => exact onlyFaultsFault _
    | some col => exact (onlyFaultsKeep _ _).bind fun gap => (raiseRowFaults row gap).bind fun _ => ih

theorem lowerColsFaults (cols : List (Fin n)) : OnlyFaults (p.lowerCols w labels reached cols) := by
  induction cols generalizing p with
  | nil => exact onlyFaultsOk p
  | cons col rest ih =>
    have lowerCol (amount : Int) : OnlyFaults (p.lowerCol w col amount) :=
      (onlyFaultsKeep _ _).bind fun _ => onlyFaultsOk _
    exact (onlyFaultsKeep _ _).bind fun gap => (lowerCol gap).bind fun _ => ih

theorem updateFaults (first : Fin n) (rows cols : List (Fin n)) :
    OnlyFaults (p.update w m labels first reached rows cols) :=
  (raiseRowFaults first reached).bind fun _ => (raiseRowsFaults _).bind fun _ => lowerColsFaults cols

theorem flipFaults {reachedFrom : Vector (Option (Fin n)) n} {first : Fin n} (fuel : Nat) (col : Fin n) :
    OnlyFaults (m.flip reachedFrom first fuel col) := by
  induction fuel generalizing m col with
  | zero => exact onlyFaultsFault _
  | succ fuel ih =>
    unfold Matching.flip
    cases reachedFrom[col] with
    | none => exact onlyFaultsFault _
    | some row =>
      simp only
      split <;> split
      · exact onlyFaultsOk _
      · exact onlyFaultsFault _
      · exact onlyFaultsFault _
      · exact ih _

end OnlyFaults

theorem Sparse.commitFaults (p : Potentials n) (m : Matching n) (first : Fin n) (sink : Candidate n) (found : Scratch n) :
    OnlyFaults (commit w p m first sink found) :=
  (updateFaults first _ _).bind fun _ => (flipFaults n sink.col).bind fun _ => onlyFaultsOk _

structure LeftClean (priced : Fin n → Fin n → Int → Prop) (k : Nat) (before left : Potentials n × Matching n) : Prop where
  inside : k < n
  kept : left = before
  first : k = 0 → left = (.zero n, .empty n)
  later : ∀ i : Fin n, k ≤ i.val → left.1.row[i] = 0
  feasible : ∀ i j cost, priced i j cost → 0 ≤ cost - left.1.row[i] - left.1.col[j]

section Stuck
variable {σ σ' : Type} {watch : Watch} {augment : σ → Fin n → σ × Except Failure Event}
  {augment' : σ' → Fin n → σ' × Except Failure Event} {view : σ' → σ} {shown : σ → Potentials n × Matching n}
  {good : σ' → Prop} {stuck : Fin n → Prop} {priced : Fin n → Fin n → Int → Prop} {costs : Costs n} {most : Int}

def Accounts (watch : Watch) (augment : σ → Fin n → σ × Except Failure Event) (shown : σ → Potentials n × Matching n)
    (stuck : Fin n → Prop) (costs : Costs n) (most : Int) (emitted : Nat) (s : σ) : Prop :=
  ∀ rows : List (Fin n), rows.map Fin.val = List.range' 0 rows.length → ∃ l, l ≤ rows.length ∧
    Advanced costs most l (shown (rowByRow watch augment rows emitted s).state).1
      (shown (rowByRow watch augment rows emitted s).state).2 (rowByRow watch augment rows emitted s).events ∧
    RowsEnded watch stuck emitted 0 l rows.length (rowByRow watch augment rows emitted s).result

/- The loop over all rows and the one over the rows before the stuck one have told the same, so both have matched as many
rows as there are reports; which makes the stuck row the one that is named. -/
theorem stuckLoop {emitted : Nat} {m : σ'}
    (step : ∀ m i, good m → good (augment' m i).1 ∧ Mirrors view shown (augment (view m) i) (augment' m i))
    (keeps : ∀ m i row, (augment' m i).2 = .error (.infeasible row) → shown (view (augment' m i).1) = shown (view m))
    (accounts : Accounts watch augment shown stuck costs most emitted (view m)) (within : CostsWithin costs most)
    (nonneg : 0 ≤ most)
    (feasible : ∀ p q, Certified costs k p q → ∀ i j cost, priced i j cost → 0 ≤ cost - p.row[i] - p.col[j])
    (start : good m) (blank : shown (view m) = (.zero n, .empty n))
    (failed : (rowByRow watch augment' (List.finRange n) emitted m).result = .error (.infeasible k)) :
    ∃ before events, rowByRow watch augment' ((List.finRange n).take k) emitted m = ⟨before, events, .ok ()⟩ ∧
      LeftClean priced k (shown (view before))
        (shown (view (rowByRow watch augment' (List.finRange n) emitted m).state)) := by
  have mirrors := fun rows => @rowByRowMirrors _ _ _ _ watch _ _ _ _ _ step rows emitted m start
  obtain ⟨front, i, back, before, split, run, here⟩ := rowByRowFails failed nofun
  obtain rfl := finRangeFront split
  have kept := keeps before i k (congrArg Prod.snd here)
  rw [here] at kept
  obtain ⟨events, result, same, _⟩ := mirrors (List.finRange n)
  obtain ⟨l, _, advanced, ended⟩ := accounts (List.finRange n) (finRangeOrder n)
  simp only at result same
  rw [← result, failed] at ended
  rw [← events, ← same] at advanced
  obtain ⟨events', result', same', _⟩ := mirrors ((List.finRange n).take i.val)
  obtain ⟨l', _, advanced', ended'⟩ := accounts ((List.finRange n).take i.val) (takeOrder n i.val)
  simp only at result' same'
  rw [← result', run] at ended'
  rw [← events', run] at advanced'
  have all := takeEnds (Nat.le_of_lt i.isLt) ended'
  have count := advanced.count.symm.trans advanced'.count
  cases ended with
  | infeasible row at_ early reason =>
    obtain rfl : i = row := Fin.ext (by omega)
    rw [← at_] at advanced
    have certified := advanced.certified within nonneg
    refine ⟨before, _, run, i.isLt, kept, ?_, certified.certificate.rowLater, feasible _ _ certified⟩
    intro zero
    rw [zero, List.take_zero] at run
    obtain rfl : m = before := congrArg Ended.state run
    exact kept.trans blank

end Stuck

structure Refused {σ : Nat → Type} (solver : Solver σ) (failure : Failure) (e : Ended (Solver σ) (List Nat)) : Prop where
  result : e.result = .error failure
  state : ∃ token, e.state = { solver with token := token }

theorem callRefused {σ : Nat → Type} {run : Watch → Ended (Option (σ n)) (List Nat)} {solver : Solver σ}
    {after : Option Nat} {failure : Failure} (state : (run ⟨solver.token, after⟩).state = none)
    (result : (run ⟨solver.token, after⟩).result = .error failure) : Refused solver failure (solver.call after run) := by
  refine ⟨result, Watch.tokenAfter ⟨solver.token, after⟩ (run ⟨solver.token, after⟩).events.length, ?_⟩
  unfold Solver.call
  dsimp only
  rw [state]

theorem loopStuck {σ α : Type} {e : Ended σ Unit} {finish : σ → Ended σ α}
    (closing : ∀ s, OnlyFaults (finish s).result) (failed : (e.andThen fun _ s _ => finish s).result = .error (.infeasible k)) :
    e.result = .error (.infeasible k) ∧ (e.andThen fun _ s _ => finish s).state = e.state := by
  obtain ⟨s, events, result⟩ := e
  cases result with
  | error failure =>
    obtain rfl := Except.error.inj failed
    exact ⟨rfl, rfl⟩
  | ok done =>
    obtain ⟨cause, same⟩ := closing s _ failed
    cases same

theorem columnsFaults (m : Matching n) : OnlyFaults m.columns := by
  unfold Matching.columns
  induction List.finRange n with
  | nil => exact onlyFaultsOk []
  | cons i rest ih =>
    rw [List.mapM_cons]
    refine OnlyFaults.bind ?_ fun col => ih.bind fun cols => onlyFaultsOk _
    cases m.colOf[i] with
    | none => exact onlyFaultsFault _
    | some col => exact onlyFaultsOk _

namespace Dense.Memory
variable {table : Square w n}

theorem augmentKeeps (m : Memory n) (first : Fin n) {failure : Failure} (failed : (augment w m first).2 = .error failure) :
    (augment w m first).1.view.shown = m.view.shown := by
  unfold augment at failed ⊢
  generalize searchLeaving w m.costs m.potentials m.matching first n first 0 (.start m.last.labels) = out at failed ⊢
  obtain ⟨found, other | sink⟩ := out
  · rfl
  · simp only at failed ⊢
    cases committed : commit w ⟨m.potentials, m.matching, m.last.labels⟩ first sink found with
    | error fault => rfl
    | ok next =>
      rw [committed] at failed
      cases failed

theorem finishFaults (m : Memory n) : OnlyFaults (finish m).result := by
  unfold finish
  cases read : m.matching.columns with
  | error failure =>
    intro other same
    cases same
    exact columnsFaults m.matching failure read
  | ok cols => exact onlyFaultsOk cols

theorem stuckEnds (valid : table.toTable.Valid) {watch : Watch} {emitted : Nat}
    (failed : (solve watch emitted table).result = .error (.infeasible k)) :
    ∃ loaded before m events, load table = .ok loaded ∧ (solve watch emitted table).state = some m ∧
      rowByRow watch (augment w) ((List.finRange n).take k) (emitted + 1) loaded = ⟨before, events, .ok ()⟩ ∧
      LeftClean (fun i j cost => table.costs[i][j] = some cost) k before.view.shown m.view.shown := by
  have nonneg : 0 ≤ table.largest := Table.largestNonneg table.toTable
  have within := Square.costsWithin valid
  unfold solve load at *
  cases accepted : requireRoom w table.largest n with
  | error failure =>
    obtain ⟨cause, rfl⟩ := requireRoomError accepted
    rw [accepted] at failed
    cases failed
  | ok done =>
    rw [accepted] at failed
    have room := (requireRoomOk nonneg).mp accepted
    obtain ⟨stuck, state⟩ := loopStuck finishFaults failed
    obtain ⟨before, events, run, clean⟩ := @stuckLoop n k _ _ watch (Dense.augment w table.costs) (augment w) view
      State.shown (fun m => m.costs = table.costs) _ _ table.costs table.largest (emitted + 1)
      ⟨table.costs, .zero n, .empty n, ⟨.blank n, [], [], []⟩⟩ (by
        rintro m i same
        rw [← same]
        exact augmentMirrors m i) (fun m i row => augmentKeeps m i)
      (fun rows order => Dense.rowsEnd order within nonneg room.product watch (emitted + 1)) within nonneg
      (fun p q certified => certified.certificate.feasible) rfl rfl stuck
    exact ⟨_, before, _, events, rfl, congrArg some state, run, clean⟩

end Dense.Memory

namespace Sparse

def State.shown (s : State n) : Potentials n × Matching n := (s.potentials, s.matching)

namespace Memory

theorem augmentKeeps (m : Memory n) (first : Fin n) {row : Nat} (failed : (augment w m first).2 = .error (.infeasible row)) :
    (augment w m first).1.view.shown = m.view.shown := by
  unfold augment at failed ⊢
  generalize searchLeaving w m.graph m.potentials m.matching first n first 0 (m.heap.clear n) m.scratch = out at failed ⊢
  obtain ⟨heap, found, other | sink⟩ := out
  · rfl
  · simp only at failed ⊢
    cases committed : commit w m.potentials m.matching first sink found with
    | error failure =>
      obtain ⟨cause, rfl⟩ := commitFaults _ _ _ _ _ failure committed
      rw [committed] at failed
      cases failed
    | ok next =>
      rw [committed] at failed
      cases failed

theorem stuckEnds {g : Graph w n n} (valid : g.Valid) {watch : Watch} {emitted size : Nat} {old : Memory size}
    (failed : (solveSquare watch emitted old g).result = .error (.infeasible k)) :
    ∃ grouped before m events, Grouped.ofGraph g = .ok grouped ∧ (solveSquare watch emitted old g).state = some m ∧
      rowByRow watch (augment w) ((List.finRange n).take k) (emitted + 1) (old.load grouped) = ⟨before, events, .ok ()⟩ ∧
      LeftClean (fun i j cost => ⟨i, j, cost⟩ ∈ g.edges.toList) k before.view.shown m.view.shown := by
  have nonneg := Graph.largestNonneg g
  obtain ⟨grouped, made, arcs⟩ := Grouped.ofGraphOk g
  unfold solveSquare at *
  cases accepted : requireRoom w g.largest n with
  | error failure =>
    obtain ⟨cause, rfl⟩ := requireRoomError accepted
    rw [accepted] at failed
    cases failed
  | ok done =>
    simp only [accepted, Grouped.rebuildSame, made] at failed ⊢
    have room := (requireRoomOk nonneg).mp accepted
    obtain ⟨stuck, state⟩ := loopStuck (fun m => columnsFaults m.matching) failed
    obtain ⟨before, events, run, clean⟩ := @stuckLoop n k _ _ watch (Sparse.augment w grouped) (augment w) view
      State.shown (fun m => m.graph = grouped) _ _ g.cheapest g.largest (emitted + 1) (old.load grouped) (by
        rintro m i same
        rw [← same]
        exact (augmentMirrors m i).imp_right Mirrors.coarser) (fun m i row => augmentKeeps m i)
      (fun rows order => Sparse.rowsEnd order arcs valid room.product watch (emitted + 1)) (Graph.cheapestWithin valid) nonneg
      (fun p q certified i j cost member => @Certified.edge w n k p q g certified ⟨i, j, cost⟩ member) rfl rfl stuck
    exact ⟨grouped, before, _, events, rfl, congrArg some state, run, clean⟩

end Memory
end Sparse

theorem failedCallClean (after : Option Nat) :
    (∀ (solver : Dense.Solver) (w : Width) (n : Nat) (table : Square w n),
      (∀ failure, requireRoom w table.largest n = .error failure → Refused solver failure (solver.solve after table)) ∧
      (table.toTable.Valid → ∀ k, (solver.solve after table).result = .error (.infeasible k) →
        ∃ token loaded before m events, Dense.Memory.load table = .ok loaded ∧
          (solver.solve after table).state = ⟨token, n, m⟩ ∧
          rowByRow ⟨solver.token, after⟩ (Dense.Memory.augment w) ((List.finRange n).take k) 1 loaded =
            ⟨before, events, .ok ()⟩ ∧
          LeftClean (fun i j cost => table.costs[i][j] = some cost) k (before.potentials, before.matching)
            (m.potentials, m.matching))) ∧
    (∀ (solver : Sparse.Solver) (w : Width) (rows cols : Nat) (graph : Graph w rows cols),
      (¬ (rows ≠ 0 ∧ rows = cols) →
        Refused solver (.malformed (.notSquare rows cols)) (solver.solveGraph after graph)) ∧
      (rows ≠ 0 → rows = cols → ∀ failure, requireRoom w graph.largest rows = .error failure →
        Refused solver failure (solver.solveGraph after graph))) ∧
    ∀ (solver : Sparse.Solver) (w : Width) (n : Nat) (graph : Graph w n n), graph.Valid →
      ∀ k, (solver.solveGraph after graph).result = .error (.infeasible k) →
        ∃ token grouped before m events, Grouped.ofGraph graph = .ok grouped ∧
          (solver.solveGraph after graph).state = ⟨token, n, m⟩ ∧
          rowByRow ⟨solver.token, after⟩ (Sparse.Memory.augment w) ((List.finRange n).take k) 1
            (solver.state.load grouped) = ⟨before, events, .ok ()⟩ ∧
          LeftClean (fun i j cost => ⟨i, j, cost⟩ ∈ graph.edges.toList) k (before.potentials, before.matching)
            (m.potentials, m.matching) := by
  refine ⟨?_, ?_, ?_⟩
  · intro solver w n table
    refine ⟨?_, ?_⟩
    · intro failure tight
      refine callRefused ?_ ?_ <;> simp only [Dense.Memory.solve, Dense.Memory.load, tight, bind, Except.bind]
    · intro valid k failed
      obtain ⟨loaded, before, m, events, load, state, run, clean⟩ := Dense.Memory.stuckEnds valid failed
      obtain ⟨token, left⟩ := @callLeaves n Dense.Memory (fun watch => Dense.Memory.solve watch 0 table) solver after m state
      exact ⟨token, loaded, before, m, events, load, left, run, clean⟩
  · intro solver w rows cols graph
    refine ⟨?_, ?_⟩
    · intro shape
      refine callRefused ?_ ?_ <;> simp only [Sparse.Memory.solve, dif_neg shape]
    · rintro size rfl failure tight
      have square : rows ≠ 0 ∧ rows = rows := ⟨size, rfl⟩
      have tight' : requireRoom w (graph.squared square).largest rows = .error failure := tight
      refine callRefused ?_ ?_ <;> simp only [Sparse.Memory.solve, dif_pos square, Sparse.Memory.solveSquare, tight']
  · intro solver w n graph valid k failed
    by_cases size : n = 0
    · have flat : ¬ (n ≠ 0 ∧ n = n) := fun square => square.1 size
      have refused : (Sparse.Memory.solve ⟨solver.token, after⟩ 0 solver.state graph).result =
          .error (.malformed (.notSquare n n)) := by
        unfold Sparse.Memory.solve
        rw [dif_neg flat]
      cases failed.symm.trans refused
    · have square : ∀ watch, Sparse.Memory.solve watch 0 solver.state graph =
          Sparse.Memory.solveSquare watch 0 solver.state graph := fun _ => dif_pos ⟨size, rfl⟩
      have stuck : (Sparse.Memory.solveSquare ⟨solver.token, after⟩ 0 solver.state graph).result =
          .error (.infeasible k) := (congrArg Ended.result (square _)).symm.trans failed
      obtain ⟨grouped, before, m, events, made, state, run, clean⟩ := Sparse.Memory.stuckEnds valid stuck
      obtain ⟨token, left⟩ := @callLeaves n Sparse.Memory (fun watch => Sparse.Memory.solve watch 0 solver.state graph) solver after m
        ((congrArg Ended.state (square _)).trans state)
      exact ⟨token, grouped, before, m, events, made, left, run, clean⟩

def heavyCell : Square byteWidth 1 := .whole #v[#v[100]]

theorem failedCallCleanLate :
    Refused wornDense (.overflow (.headroom 100 1)) (wornDense.solve none heavyCell) ∧
    (∃ token before m, (wornDense.solve none lateStuck).state = ⟨token, 3, m⟩ ∧
      LeftClean (fun i j cost => lateStuck.costs[i][j] = some cost) 2 before (m.potentials, m.matching)) ∧
    Refused wornSparse (.malformed (.notSquare 2 3)) (wornSparse.solveGraph none (.empty : Graph byteWidth 2 3)) ∧
    ∃ token before m, (wornSparse.solveGraph none (Graph.ofSquare lateStuck)).state = ⟨token, 3, m⟩ ∧
      LeftClean (fun i j cost => ⟨i, j, cost⟩ ∈ (Graph.ofSquare lateStuck).edges.toList) 2 before (m.potentials, m.matching) := by
  obtain ⟨dense, shape, sparse⟩ := failedCallClean none
  have tight : requireRoom byteWidth heavyCell.largest 1 = .error (.overflow (.headroom 100 1)) := rfl
  have refused := (dense wornDense byteWidth 1 heavyCell).1 _ tight
  obtain ⟨token, _, before, m, _, _, state, _, clean⟩ := (dense wornDense byteWidth 3 lateStuck).2 lateStuckValid 2 rfl
  obtain ⟨token', _, before', m', _, _, state', _, clean'⟩ :=
    sparse wornSparse byteWidth 3 (Graph.ofSquare lateStuck) (Graph.validOfSquare lateStuckValid) 2 rfl
  exact ⟨refused, ⟨token, _, m, state, clean⟩, (shape wornSparse byteWidth 2 3 .empty).1 (by decide), token', _, m', state',
    clean'⟩

end OptimalMatching
