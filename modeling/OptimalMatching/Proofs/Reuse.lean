import OptimalMatching.Proofs.Hungarian.Moves
import OptimalMatching.Proofs.StuckRow
import OptimalMatching.Solver

/-! A solver that is used again answers as a new one does, whatever earlier calls have left in its memory. What a call
leaves standing of the memory, it writes before it reads it: the beginning of a path when the search ends that found it,
and the heap when a search begins. -/
namespace OptimalMatching

variable {w : Width} {rows cols k n : Nat}

namespace Hungarian
variable {costs : Costs n} {s : State n} {m : Memory n} {phase : Phase n}

namespace Memory

/-- The memory holds the state before a step. Before a path is flipped it also holds the cell at which the path begins;
before any other step that cell may be any. -/
structure Holds (costs : Costs n) (phase : Phase n) (s : State n) (m : Memory n) : Prop where
  costs : m.costs = costs
  state : m.state = s
  start : ∀ row col, phase = .augment row col → m.pathStart = (row.val, col.val)

structure Carries (costs : Costs n) (e : Ended (State n) (Phase n)) (e' : Ended (Memory n) Stage) : Prop where
  events : e'.events = e.events
  result : e'.result = e.result.map Phase.stage
  costs : e'.state.costs = costs
  state : e'.state.state = e.state
  start : ∀ row col, e.result = .ok (.augment row col) → e'.state.pathStart = (row.val, col.val)

theorem primeCarries : Carries m.costs (Hungarian.quiet m.state (primeZero w m.costs m.state)) (m.prime w) := by
  unfold prime
  cases primeZero w m.costs m.state with
  | error failure => exact ⟨rfl, rfl, rfl, rfl, by rintro _ _ ⟨⟩⟩
  | ok out =>
    obtain ⟨phase, t⟩ := out
    cases phase with
    | augment row col =>
      refine ⟨rfl, rfl, rfl, rfl, ?_⟩
      intro row' col' same
      cases same
      rfl
    | _ => exact ⟨rfl, rfl, rfl, rfl, by rintro _ _ ⟨⟩⟩

theorem augmentCarries {row col : Fin n} (kept : m.pathStart = (row.val, col.val)) :
    Carries m.costs (Hungarian.augment m.state row col) m.augment := by
  obtain ⟨costs, state, path, pathStart⟩ := m
  simp only at kept
  subst kept
  unfold augment Hungarian.augment
  rw [dif_pos ⟨row.isLt, col.isLt⟩]
  simp only [Fin.eta]
  cases pathFrom state row col with
  | error failure => exact ⟨rfl, rfl, rfl, rfl, by rintro _ _ ⟨⟩⟩
  | ok cells =>
    simp only
    cases flipMarks cells state with
    | error failure => exact ⟨rfl, rfl, rfl, rfl, by rintro _ _ ⟨⟩⟩
    | ok flipped => exact ⟨rfl, rfl, rfl, rfl, by rintro _ _ ⟨⟩⟩

theorem Holds.act (holds : Holds costs phase s m) (watch : Watch) (emitted : Nat) :
    Carries costs (Hungarian.act w watch emitted costs s phase) (m.act w watch emitted phase.stage) := by
  obtain ⟨rfl, rfl, start⟩ := holds
  cases phase with
  | reduce =>
    simp only [Hungarian.act, Memory.act, Phase.stage]
    cases reduce w m.costs m.state <;> exact ⟨rfl, rfl, rfl, rfl, by rintro _ _ ⟨⟩⟩
  | cover =>
    simp only [Hungarian.act, Memory.act, Phase.stage]
    split
    case isTrue => exact ⟨rfl, rfl, rfl, rfl, by rintro _ _ ⟨⟩⟩
    case isFalse =>
      cases done : cover w m.costs m.state with
      | error failure => exact ⟨rfl, rfl, rfl, rfl, by rintro _ _ ⟨⟩⟩
      | ok out =>
        obtain ⟨next, t⟩ := out
        obtain ⟨isDone | isPrime, _⟩ := coverRest done
        · subst isDone
          exact ⟨rfl, rfl, rfl, rfl, by rintro _ _ ⟨⟩⟩
        · subst isPrime
          exact ⟨rfl, rfl, rfl, rfl, by rintro _ _ ⟨⟩⟩
  | prime => exact primeCarries
  | augment row col => exact augmentCarries (start row col rfl)
  | adjust =>
    refine ⟨rfl, rfl, rfl, rfl, ?_⟩
    intro row col done
    cases (adjustDone done).1
  | done => exact ⟨rfl, rfl, rfl, rfl, by rintro _ _ ⟨⟩⟩

theorem Carries.holds {next : Phase n} {e : Ended (State n) (Phase n)} {e' : Ended (Memory n) Stage} (carries : Carries costs e e')
    (done : e.result = .ok next) : Holds costs next e.state e'.state :=
  ⟨carries.costs, carries.state, fun row col same => carries.start row col (done.trans (congrArg Except.ok same))⟩

theorem Holds.step (holds : Holds costs phase s m) (watch : Watch) (emitted : Nat) :
    Carries costs (Hungarian.step w watch emitted costs phase s) (m.step w watch emitted phase.stage) := by
  have carries := @Holds.act w n costs s m phase holds watch emitted
  unfold Hungarian.step Memory.step
  generalize Hungarian.act w watch emitted costs s phase = e at carries
  generalize m.act w watch emitted phase.stage = e' at carries
  obtain ⟨t, events, result⟩ := e
  obtain ⟨m', events', result'⟩ := e'
  obtain ⟨same, results, sameCosts, sameState, start⟩ := carries
  simp only at same results sameCosts sameState start
  subst same
  subst results
  cases result with
  | error failure => exact ⟨rfl, rfl, sameCosts, sameState, by rintro _ _ ⟨⟩⟩
  | ok next => exact ⟨rfl, rfl, sameCosts, sameState, start⟩

theorem stageDone (active : phase ≠ .done) : phase.stage ≠ .done := by
  cases phase with
  | done => exact absurd rfl active
  | _ => exact nofun

theorem iterateStep {watch : Watch} {fuel steps emitted : Nat} {stage : Stage} (active : stage ≠ .done) :
    iterate w watch (fuel + 1) steps emitted stage m =
      (m.step w watch emitted stage).andThen fun events m next =>
        iterate w watch fuel (steps + 1) (emitted + events) next m := by
  cases stage with
  | done => exact absurd rfl active
  | _ => rfl

theorem Holds.iterate (holds : Holds costs phase s m) (watch : Watch) (fuel steps emitted : Nat) :
    (Memory.iterate w watch fuel steps emitted phase.stage m).map Memory.state =
      Hungarian.iterate w watch costs fuel steps emitted phase s := by
  induction fuel generalizing phase s m steps emitted with
  | zero =>
    have state := holds.state
    cases phase <;> exact congrArg (fun s => (⟨s, [], _⟩ : Ended (State n) Nat)) state
  | succ fuel ih =>
    by_cases isDone : phase = .done
    · subst isDone
      exact congrArg (fun s => (⟨s, [], .ok steps⟩ : Ended (State n) Nat)) holds.state
    · rw [iterateStep (stageDone isDone), Hungarian.iterateStep isDone]
      have carries := @Holds.step w n costs s m phase holds watch emitted
      generalize Hungarian.step w watch emitted costs phase s = e at carries
      generalize m.step w watch emitted phase.stage = e' at carries
      have goOn := fun next (done : e.result = .ok next) => @ih e.state e'.state next (carries.holds done)
      obtain ⟨t, events, result⟩ := e
      obtain ⟨m', events', result'⟩ := e'
      obtain ⟨same, results, -, sameState, -⟩ := carries
      simp only at same results sameState goOn
      subst same
      subst results
      cases result with
      | error failure => exact congrArg (fun s => (⟨s, events', .error failure⟩ : Ended (State n) Nat)) sameState
      | ok next => exact congrArg (Ended.after events') (goOn next rfl (steps + 1) (emitted + events'.length))

theorem solveState (watch : Watch) (emitted : Nat) (old : Memory k) (table : Square w n) :
    (solve watch emitted old table).map Memory.state = Hungarian.solve watch emitted table := by
  have holds : Holds table.costs .reduce (.start n) (old.load table) := ⟨rfl, rfl, nofun⟩
  have run := @Holds.iterate w n table.costs (.start n) (old.load table) .reduce holds watch (stepBudget n) 0 (emitted + 1)
  unfold Hungarian.solve
  rw [← run]
  exact congrArg (Ended.after _) (@mapAndThen _ _ _ _ Memory.state _ _ (fun _ s steps => finish s steps) fun _ _ _ => rfl)

end Memory
end Hungarian

namespace Dense

def State.shown (s : State n) : Potentials n × Matching n := (s.potentials, s.matching)

namespace Memory

def view (m : Memory n) : State n := ⟨m.potentials, m.matching, m.last.labels⟩

theorem searchLeavingSame {costs : Costs n} {p : Potentials n} {m : Matching n} {first row : Fin n} {fuel : Nat} {base : Int}
    {s : Search n} : (searchLeaving w costs p m first fuel row base s).2.map
      (fun choice => (choice, (searchLeaving w costs p m first fuel row base s).1)) =
        searchFrom w costs p m first fuel row base s := by
  induction fuel generalizing row base s with
  | zero => rfl
  | succ fuel ih =>
    simp only [searchLeaving, searchFrom, advance]
    cases relax w costs p base row s.remaining s.labels with
    | error failure => rfl
    | ok labels =>
      simp only [bind, Except.bind]
      cases choose m labels s.remaining 0 none with
      | none => rfl
      | some choice =>
        simp only [pure, Except.pure]
        cases m.rowOf[choice.col] with
        | none => rfl
        | some next => exact ih

theorem augmentMirrors (m : Memory n) (first : Fin n) : (augment w m first).1.costs = m.costs ∧
    Mirrors view State.shown (Dense.augment w m.costs m.view first) (augment w m first) := by
  have same := @searchLeavingSame w n m.costs m.potentials m.matching first first n 0 (.start m.last.labels)
  unfold augment Dense.augment view search
  dsimp only
  rw [← same]
  generalize searchLeaving w m.costs m.potentials m.matching first n first 0 (.start m.last.labels) = out
  obtain ⟨found, failure | sink⟩ := out
  · exact ⟨rfl, rfl, rfl, by rintro _ ⟨⟩⟩
  · simp only [Except.map]
    cases committed : commit w ⟨m.potentials, m.matching, m.last.labels⟩ first sink found with
    | error failure => exact ⟨rfl, rfl, rfl, by rintro _ ⟨⟩⟩
    | ok next =>
      refine ⟨rfl, rfl, rfl, ?_⟩
      intro _ _
      simp only [← (commitOk committed).2.2]

theorem finishView (m : Memory n) : (finish m).map view = Dense.finish m.view := by
  unfold finish Dense.finish view
  simp only
  cases m.matching.columns <;> rfl

theorem solveShown (watch : Watch) (emitted : Nat) (table : Square w n) :
    (solve watch emitted table).map (Option.map fun m => m.view.shown) =
      (Dense.solve watch emitted table).map (Option.map State.shown) := by
  unfold solve Dense.solve load
  cases requireRoom w table.largest n with
  | error failure => rfl
  | ok done =>
    have ended := @loopMirrors _ _ _ _ watch (Dense.augment w table.costs) (augment w) view State.shown
      (fun m => m.costs = table.costs) _ Dense.finish finish (by
        rintro m i same
        rw [← same]
        exact augmentMirrors m i) finishView (List.finRange n) (emitted + 1)
      ⟨table.costs, .zero n, .empty n, ⟨.blank n, [], [], []⟩⟩ rfl
    exact congrArg (fun e => (e.map some).after [.denseOpened n]) ended

end Memory
end Dense

namespace Sparse

theorem searchLeavingSame {graph : Grouped n n} {p : Potentials n} {m : Matching n} {first row : Fin n} {fuel : Nat}
    {base : Int} {f : Frontier n} {s : Scratch n} :
    (searchLeaving w graph p m first fuel row base f s).2 = searchFrom w graph p m first fuel row base f s := by
  induction fuel generalizing row base f s with
  | zero => rfl
  | succ fuel ih =>
    simp only [searchLeaving, searchFrom]
    cases advance w graph p m row base f s with
    | error failure => rfl
    | ok out =>
      obtain ⟨t, _ | ⟨chosen, rest⟩⟩ := out
      · rfl
      · simp only
        cases m.rowOf[chosen.col] with
        | none => rfl
        | some next => exact ih

namespace Memory

def view (m : Memory n) : State n := ⟨m.potentials, m.matching, m.scratch⟩

theorem augmentMirrors (m : Memory n) (first : Fin n) : (augment w m first).1.graph = m.graph ∧
    Mirrors view id (Sparse.augment w m.graph m.view first) (augment w m first) := by
  have same := @searchLeavingSame w n m.graph m.potentials m.matching first first n 0 (m.heap.clear n) m.scratch
  have empty : (Frontier.empty : Frontier n) = m.heap.clear n := rfl
  unfold augment Sparse.augment view search
  dsimp only
  rw [empty, ← same]
  generalize searchLeaving w m.graph m.potentials m.matching first n first 0 (m.heap.clear n) m.scratch = out
  obtain ⟨heap, found, failure | sink⟩ := out
  · exact ⟨rfl, rfl, rfl, by rintro _ ⟨⟩⟩
  · simp only
    cases commit w m.potentials m.matching first sink found <;> exact ⟨rfl, rfl, rfl, fun _ _ => rfl⟩

theorem solveSquareView (watch : Watch) (emitted : Nat) (old : Memory k) (graph : Graph w n n) :
    (solveSquare watch emitted old graph).map (Option.map view) = Sparse.solveSquare watch emitted graph := by
  unfold solveSquare Sparse.solveSquare
  rw [Grouped.rebuildSame]
  cases requireRoom w graph.largest n with
  | error failure => rfl
  | ok done =>
    simp only
    cases Grouped.ofGraph graph with
    | error failure => rfl
    | ok grouped =>
      have ended := @loopMirrors _ _ _ _ watch (Sparse.augment w grouped) (augment w) view id
        (fun m => m.graph = grouped) _ Sparse.finish finish (by
          rintro m i same
          rw [← same]
          exact augmentMirrors m i) (fun _ => rfl) (List.finRange n) (emitted + 1) (old.load grouped) rfl
      exact congrArg (fun e => (e.map some).after [.sparseOpened n graph.size]) ended

theorem solveView (watch : Watch) (emitted : Nat) (old : Memory k) (graph : Graph w rows cols) :
    (solve watch emitted old graph).map (Option.map view) = Sparse.solve watch emitted graph := by
  unfold solve Sparse.solve
  split
  case isTrue square =>
    obtain ⟨_, same⟩ := square
    subst same
    exact solveSquareView watch emitted old graph
  case isFalse => rfl

end Memory
end Sparse

structure SameAnswer {σ : Nat → Type} (e e' : Ended (Solver σ) (List Nat)) : Prop where
  result : e.result = e'.result
  events : e.events = e'.events
  token : e.state.token = e'.state.token

section Call
variable {σ τ : Nat → Type} {view : σ n → τ n} {run run' : Watch → Ended (Option (σ n)) (List Nat)}

theorem callToken (solver : Solver σ) (after : Option Nat) : (solver.call after run).state.token =
    Watch.tokenAfter ⟨solver.token, after⟩ (run ⟨solver.token, after⟩).events.length := by
  unfold Solver.call
  dsimp only
  cases (run ⟨solver.token, after⟩).state <;> rfl

theorem callSame {solver other : Solver σ} (token : solver.token = other.token)
    (same : ∀ watch, (run watch).map (Option.map view) = (run' watch).map (Option.map view)) (after : Option Nat) :
    SameAnswer (solver.call after run) (other.call after run') := by
  have both := same ⟨other.token, after⟩
  have events := congrArg Ended.events both
  have results := congrArg Ended.result both
  simp only [Ended.map] at events results
  refine ⟨?_, ?_, ?_⟩
  · simp only [Solver.call, token, results]
  · simp only [Solver.call, token, events]
  · rw [callToken, callToken, token, events]

theorem callLeaves {solver : Solver σ} {after : Option Nat} {m : σ n} (left : (run ⟨solver.token, after⟩).state = some m) :
    ∃ token, (solver.call after run).state = ⟨token, n, m⟩ := by
  refine ⟨Watch.tokenAfter ⟨solver.token, after⟩ (run ⟨solver.token, after⟩).events.length, ?_⟩
  unfold Solver.call
  dsimp only
  rw [left]

theorem callState {solver : Solver σ} {after : Option Nat} {s : τ n}
    (kept : ((run ⟨solver.token, after⟩).map (Option.map view)).state = some s) :
    ∃ token m, (solver.call after run).state = ⟨token, n, m⟩ ∧ view m = s := by
  obtain ⟨m, left, isView⟩ := Option.map_eq_some_iff.mp kept
  obtain ⟨token, state⟩ := @callLeaves n σ run solver after m left
  exact ⟨token, m, state, isView⟩

end Call

theorem Dense.Solver.solvePotentials {table : Square w n} (accepted : requireRoom w table.largest n = .ok ())
    (solver : Dense.Solver) (after : Option Nat) :
    ∃ s, (Dense.solve ⟨solver.token, after⟩ 0 table).state = some s ∧
      (solver.solve after table).state.potentials = (s.potentials.row.toList, s.potentials.col.toList) := by
  obtain ⟨s, kept⟩ : ∃ s, (Dense.solve ⟨solver.token, after⟩ 0 table).state = some s := by
    simp only [Dense.solve, accepted]
    exact ⟨_, rfl⟩
  have seen : ((Dense.solve ⟨solver.token, after⟩ 0 table).map (Option.map State.shown)).state = some s.shown :=
    congrArg (Option.map State.shown) kept
  rw [← Memory.solveShown] at seen
  obtain ⟨token, m, left, same⟩ := @callState n _ (fun n => Potentials n × Matching n) (fun m => m.view.shown)
    (fun watch => Memory.solve watch 0 table) solver after s.shown seen
  have potentials : m.potentials = s.potentials := congrArg Prod.fst same
  refine ⟨s, kept, ?_⟩
  unfold Dense.Solver.solve
  rw [left, ← potentials]
  rfl

theorem Sparse.Solver.solvePotentials {graph : Graph w n n} (size : n ≠ 0)
    (accepted : requireRoom w graph.largest n = .ok ()) (solver : Sparse.Solver) (after : Option Nat) :
    ∃ s, (Sparse.solve ⟨solver.token, after⟩ 0 graph).state = some s ∧
      (solver.solveGraph after graph).state.potentials = (s.potentials.row.toList, s.potentials.col.toList) := by
  obtain ⟨grouped, made, _⟩ := Grouped.ofGraphOk graph
  have square : Sparse.solve ⟨solver.token, after⟩ 0 graph = solveSquare ⟨solver.token, after⟩ 0 graph :=
    dif_pos ⟨size, rfl⟩
  obtain ⟨s, kept⟩ : ∃ s, (Sparse.solve ⟨solver.token, after⟩ 0 graph).state = some s := by
    rw [square]
    simp only [solveSquare, accepted, made]
    exact ⟨_, rfl⟩
  have kept' := kept
  rw [← Memory.solveView ⟨solver.token, after⟩ 0 solver.state] at kept'
  obtain ⟨token, m, left, rfl⟩ := @callState n _ _ Memory.view (fun watch => Memory.solve watch 0 solver.state graph)
    solver after s kept'
  refine ⟨_, kept, ?_⟩
  unfold Sparse.Solver.solveGraph
  rw [left]
  rfl

theorem reuseForgets (after : Option Nat) :
    (∀ (solver : Hungarian.Solver) (w : Width) (n : Nat) (table : Square w n),
      SameAnswer (solver.solve after table) ((Hungarian.Solver.fresh solver.token).solve after table)) ∧
    (∀ (solver : Dense.Solver) (w : Width) (n : Nat) (table : Square w n),
      SameAnswer (solver.solve after table) ((Dense.Solver.fresh solver.token).solve after table) ∧
        (requireRoom w table.largest n = .ok () → (solver.solve after table).state.potentials =
          ((Dense.Solver.fresh solver.token).solve after table).state.potentials)) ∧
    (∀ (solver : Sparse.Solver) (w : Width) (rows cols : Nat) (graph : Graph w rows cols),
      SameAnswer (solver.solveGraph after graph) ((Sparse.Solver.fresh solver.token).solveGraph after graph) ∧
        (rows ≠ 0 → rows = cols → requireRoom w graph.largest rows = .ok () →
          (solver.solveGraph after graph).state.potentials =
            ((Sparse.Solver.fresh solver.token).solveGraph after graph).state.potentials)) := by
  refine ⟨?_, ?_, ?_⟩
  · intro solver w n table
    refine @callSame n Hungarian.Memory Hungarian.State Hungarian.Memory.state _ _ solver
      (Hungarian.Solver.fresh solver.token) rfl ?_ after
    intro watch
    have same := Hungarian.Memory.solveState watch 0 solver.state table
    have same' := Hungarian.Memory.solveState watch 0 Hungarian.Memory.new table
    exact congrArg (Ended.map some) (same.trans same'.symm)
  · intro solver w n table
    refine ⟨@callSame n Dense.Memory Dense.State Dense.Memory.view _ _ solver (Dense.Solver.fresh solver.token) rfl
      (fun _ => rfl) after, ?_⟩
    intro accepted
    obtain ⟨s, kept, shown⟩ := Dense.Solver.solvePotentials accepted solver after
    obtain ⟨s', kept', shown'⟩ := Dense.Solver.solvePotentials accepted (Dense.Solver.fresh solver.token) after
    rw [Option.some.inj (kept.symm.trans kept')] at shown
    exact shown.trans shown'.symm
  · intro solver w rows cols graph
    refine ⟨@callSame rows Sparse.Memory Sparse.State Sparse.Memory.view _ _ solver (Sparse.Solver.fresh solver.token) rfl
      ?_ after, ?_⟩
    · intro watch
      rw [Sparse.Memory.solveView, Sparse.Memory.solveView]
    · rintro size rfl accepted
      obtain ⟨s, kept, shown⟩ := Sparse.Solver.solvePotentials size accepted solver after
      obtain ⟨s', kept', shown'⟩ := Sparse.Solver.solvePotentials size accepted (Sparse.Solver.fresh solver.token) after
      rw [Option.some.inj (kept.symm.trans kept')] at shown
      exact shown.trans shown'.symm

def wornHungarian : Hungarian.Solver := (Hungarian.Solver.new.solve none twoRows).state

def wornDense : Dense.Solver := (Dense.Solver.new.solve none lateStuck).state

def wornSparse : Sparse.Solver :=
  Solver.withToken ((Sparse.Solver.fresh (some false)).solveGraph (some 2) (Graph.ofSquare lateStuck)).state

theorem reuseForgetsWorn :
    wornHungarian.state.pathStart = (1, 0) ∧ (wornHungarian.solve none lateStuck).result = .error (.infeasible 0) ∧
    (wornDense.solve none twoRows).result = .ok [1, 0] ∧ (wornDense.solve none twoRows).state.potentials = ([2, 2], [0, -1]) ∧
    wornSparse.state.heap.toList ≠ [] ∧ (wornSparse.solveGraph none (Graph.ofSquare twoRows)).result = .ok [1, 0] ∧
    (wornSparse.solveGraph none (Graph.ofSquare twoRows)).state.potentials = ([2, 2], [0, -1]) := by
  obtain ⟨hungarian, dense, sparse⟩ := reuseForgets none
  obtain ⟨denseSame, densePotentials⟩ := dense wornDense byteWidth 2 twoRows
  obtain ⟨sparseSame, sparsePotentials⟩ := sparse wornSparse byteWidth 2 2 (Graph.ofSquare twoRows)
  exact ⟨rfl, (hungarian wornHungarian byteWidth 3 lateStuck).result.trans rfl, denseSame.result.trans rfl,
    (densePotentials (by decide)).trans rfl, by decide, sparseSame.result.trans rfl,
    (sparsePotentials (by decide) rfl (by decide)).trans rfl⟩

end OptimalMatching
