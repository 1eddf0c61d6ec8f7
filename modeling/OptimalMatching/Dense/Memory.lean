import OptimalMatching.Dense

/-! The dense solver in the memory of a solver that is used again. A call that takes up a table makes all buffers anew.
Within the call a search begins in what the search before it has left, be it at its end or not. -/
namespace OptimalMatching.Dense

/-- The search, with what it leaves behind. One that finds no column has labels by then, and settled columns; after a fault
no search is worth keeping. -/
def searchLeaving {n : Nat} (w : Width) (costs : Costs n) (p : Potentials n) (m : Matching n) (first : Fin n) :
    Nat → Fin n → Int → Search n → Search n × Except Failure (Choice n)
  | 0, row, _, s => (⟨s.labels, s.remaining, row :: s.rows, s.cols⟩, .error (.infeasible first))
  | fuel + 1, row, base, s =>
    match relax w costs p base row s.remaining s.labels with
    | .error failure => (s, .error failure)
    | .ok labels =>
      match choose m labels s.remaining 0 none with
      | none => (⟨labels, s.remaining, row :: s.rows, s.cols⟩, .error (.infeasible first))
      | some choice =>
        let s : Search n := ⟨labels, takeOut s.remaining choice.place, row :: s.rows, choice.col :: s.cols⟩
        match m.rowOf[choice.col] with
        | none => (s, .ok choice)
        | some next => searchLeaving w costs p m first fuel next choice.cost s

structure Memory (n : Nat) where
  costs : Costs n
  potentials : Potentials n
  matching : Matching n
  last : Search n
  deriving DecidableEq, Repr

namespace Memory
variable {w : Width} {k n : Nat}

def new : Memory 0 := ⟨#v[], .zero 0, .empty 0, ⟨.blank 0, [], [], []⟩⟩

def load (table : Square w n) : Except Failure (Memory n) := do
  requireRoom w table.largest n
  pure ⟨table.costs, .zero n, .empty n, ⟨.blank n, [], [], []⟩⟩

def augment (w : Width) (m : Memory n) (first : Fin n) : Memory n × Except Failure Event :=
  match searchLeaving w m.costs m.potentials m.matching first n first 0 (.start m.last.labels) with
  | (found, .error failure) => (⟨m.costs, m.potentials, m.matching, found⟩, .error failure)
  | (found, .ok sink) =>
    match commit w ⟨m.potentials, m.matching, m.last.labels⟩ first sink found with
    | .error failure => (⟨m.costs, m.potentials, m.matching, found⟩, .error failure)
    | .ok next => (⟨m.costs, next.potentials, next.matching, found⟩, .ok (.denseReached first sink.col sink.cost))

def finish (m : Memory n) : Ended (Memory n) (List Nat) :=
  match m.matching.columns with
  | .error failure => ⟨m, [], .error failure⟩
  | .ok cols => ⟨m, [.denseClosed cols.length], .ok cols⟩

def solve (watch : Watch) (emitted : Nat) (table : Square w n) : Ended (Option (Memory n)) (List Nat) :=
  let opening := [Event.denseOpened n]
  match load table with
  | .error failure => ⟨none, opening, .error failure⟩
  | .ok loaded =>
    let ended := (rowByRow watch (augment w) (List.finRange n) (emitted + 1) loaded).andThen fun _ m _ => finish m
    ⟨some ended.state, opening ++ ended.events, ended.result⟩

end Memory
end OptimalMatching.Dense
