import OptimalMatching.Dense.Search
import OptimalMatching.Headroom
import OptimalMatching.Progress

/-! The dense solver: the rows of a square table are matched one at a time along shortest alternating paths, and
after each the potentials move so that no pairing is priced below zero. -/
namespace OptimalMatching.Dense

structure State (n : Nat) where
  potentials : Potentials n
  matching : Matching n
  labels : Labels n
  deriving DecidableEq, Repr

def State.start (n : Nat) : State n := ⟨.zero n, .empty n, .blank n⟩

variable {w : Width} {n : Nat}

def commit (w : Width) (s : State n) (first : Fin n) (sink : Choice n) (found : Search n) :
    Except Failure (State n) := do
  let potentials ←
    s.potentials.update w s.matching found.labels first sink.cost found.rows found.cols
  let matching ← s.matching.flipPath found.labels.reachedFrom first sink.col
  pure ⟨potentials, matching, found.labels⟩

def augment (w : Width) (costs : Costs n) (s : State n) (first : Fin n) :
    State n × Except Failure Event :=
  match search w costs s.potentials s.matching s.labels first with
  | .error failure => (s, .error failure)
  | .ok (sink, found) =>
    match commit w s first sink found with
    | .error failure => (s, .error failure)
    | .ok next => (next, .ok (.denseReached first sink.col sink.cost))

def matchRows (w : Width) (watch : Watch) (emitted : Nat) (costs : Costs n) : Ended (State n) Unit :=
  rowByRow watch (augment w costs) (List.finRange n) emitted (.start n)

def finish (s : State n) : Ended (State n) (List Nat) :=
  match s.matching.columns with
  | .error failure => ⟨s, [], .error failure⟩
  | .ok cols => ⟨s, [.denseClosed cols.length], .ok cols⟩

def solve (watch : Watch) (emitted : Nat) (table : Square w n) : Ended (Option (State n)) (List Nat) :=
  let opening := [Event.denseOpened n]
  match requireRoom w table.largest n with
  | .error failure => ⟨none, opening, .error failure⟩
  | .ok () =>
    let ended := (matchRows w watch (emitted + 1) table.costs).andThen fun _ s _ => finish s
    ⟨some ended.state, opening ++ ended.events, ended.result⟩

end OptimalMatching.Dense
