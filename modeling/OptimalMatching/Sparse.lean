import OptimalMatching.Headroom
import OptimalMatching.Progress
import OptimalMatching.Sparse.Search

/-! The sparse solver: the same rule as the dense one, on the edges of a graph that has as many rows as columns. -/
namespace OptimalMatching.Sparse

structure State (n : Nat) where
  potentials : Potentials n
  matching : Matching n
  scratch : Scratch n
  deriving DecidableEq, Repr

def State.start (n : Nat) : State n := ⟨.zero n, .empty n, .blank n⟩

variable {w : Width} {rows cols n : Nat}

def commit (w : Width) (p : Potentials n) (m : Matching n) (first : Fin n) (sink : Candidate n)
    (found : Scratch n) : Except Failure (State n) := do
  let potentials ← p.update w m found.labels first sink.cost found.rows found.cols
  let matching ← m.flipPath found.labels.reachedFrom first sink.col
  pure ⟨potentials, matching, found.reset⟩

def augment (w : Width) (graph : Grouped n n) : State n → Fin n → State n × Except Failure Event
  | ⟨potentials, matching, scratch⟩, first =>
    match search w graph potentials matching first scratch with
    | (found, .error failure) => (⟨potentials, matching, found⟩, .error failure)
    | (found, .ok sink) =>
      let visited := found.rows.length
      match commit w potentials matching first sink found with
      | .error failure => (.start n, .error failure)
      | .ok next => (next, .ok (.sparseReached first sink.col sink.cost visited))

def matchRows (w : Width) (watch : Watch) (emitted : Nat) (graph : Grouped n n) : Ended (State n) Unit :=
  rowByRow watch (augment w graph) (List.finRange n) emitted (.start n)

def finish (s : State n) : Ended (State n) (List Nat) :=
  ⟨s, [.sparseClosed], s.matching.columns⟩

def solveSquare (watch : Watch) (emitted : Nat) (graph : Graph w n n) :
    Ended (Option (State n)) (List Nat) :=
  match requireRoom w graph.largest n with
  | .error failure => ⟨none, [], .error failure⟩
  | .ok () =>
    let opening := [Event.sparseOpened n graph.size]
    match Grouped.ofGraph graph with
    | .error failure => ⟨none, opening, .error failure⟩
    | .ok grouped =>
      let ended := (matchRows w watch (emitted + 1) grouped).andThen fun _ s _ => finish s
      ⟨some ended.state, opening ++ ended.events, ended.result⟩

def solve (watch : Watch) (emitted : Nat) (graph : Graph w rows cols) :
    Ended (Option (State rows)) (List Nat) :=
  if h : rows ≠ 0 ∧ rows = cols then solveSquare watch emitted (graph.squared h)
  else ⟨none, [], .error (.malformed (.notSquare rows cols))⟩

end OptimalMatching.Sparse
