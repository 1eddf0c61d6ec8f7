import OptimalMatching.Sparse

/-! The sparse solver in the memory of a solver that is used again. A call that takes up a graph groups its edges in the
buffers of the graph before. It makes all other buffers anew but the heap, which is left as the last search of the call
before has left it. Each search empties it. -/
namespace OptimalMatching.Sparse

variable {w : Width} {rows cols k n : Nat}

def searchLeaving (w : Width) (graph : Grouped n n) (p : Potentials n) (m : Matching n) (first : Fin n) :
    Nat → Fin n → Int → Frontier n → Scratch n → Frontier n × Scratch n × Except Failure (Candidate n)
  | 0, _, _, frontier, s => (frontier, s.reset, .error (.infeasible first))
  | fuel + 1, row, base, frontier, s =>
    match advance w graph p m row base frontier s with
    | .error failure => (frontier, .blank n, .error failure)
    | .ok (s, none) => (.empty, s.reset, .error (.infeasible first))
    | .ok (s, some (chosen, frontier)) =>
      match m.rowOf[chosen.col] with
      | none => (frontier, s, .ok chosen)
      | some next => searchLeaving w graph p m first fuel next chosen.cost frontier s

def Frontier.clear (_ : Frontier k) (n : Nat) : Frontier n := .empty

structure Memory (n : Nat) where
  graph : Grouped n n
  potentials : Potentials n
  matching : Matching n
  scratch : Scratch n
  heapSize : Nat
  heap : Frontier heapSize

namespace Memory

def new : Memory 0 := ⟨⟨#v[0], #[]⟩, .zero 0, .empty 0, .blank 0, 0, .empty⟩

def load (old : Memory k) (grouped : Grouped n n) : Memory n :=
  ⟨grouped, .zero n, .empty n, .blank n, old.heapSize, old.heap⟩

def augment (w : Width) (m : Memory n) (first : Fin n) : Memory n × Except Failure Event :=
  match searchLeaving w m.graph m.potentials m.matching first n first 0 (m.heap.clear n) m.scratch with
  | (heap, found, .error failure) => (⟨m.graph, m.potentials, m.matching, found, n, heap⟩, .error failure)
  | (heap, found, .ok sink) =>
    let visited := found.rows.length
    match commit w m.potentials m.matching first sink found with
    | .error failure => (⟨m.graph, .zero n, .empty n, .blank n, n, heap⟩, .error failure)
    | .ok next =>
      (⟨m.graph, next.potentials, next.matching, next.scratch, n, heap⟩,
        .ok (.sparseReached first sink.col sink.cost visited))

def finish (m : Memory n) : Ended (Memory n) (List Nat) :=
  ⟨m, [.sparseClosed], m.matching.columns⟩

def solveSquare (watch : Watch) (emitted : Nat) (old : Memory k) (graph : Graph w n n) :
    Ended (Option (Memory n)) (List Nat) :=
  match requireRoom w graph.largest n with
  | .error failure => ⟨none, [], .error failure⟩
  | .ok () =>
    let opening := [Event.sparseOpened n graph.size]
    match old.graph.rebuild graph with
    | .error failure => ⟨none, opening, .error failure⟩
    | .ok grouped =>
      let ended := (rowByRow watch (augment w) (List.finRange n) (emitted + 1) (old.load grouped)).andThen
        fun _ m _ => finish m
      ⟨some ended.state, opening ++ ended.events, ended.result⟩

def solve (watch : Watch) (emitted : Nat) (old : Memory k) (graph : Graph w rows cols) :
    Ended (Option (Memory rows)) (List Nat) :=
  if h : rows ≠ 0 ∧ rows = cols then solveSquare watch emitted old (graph.squared h)
  else ⟨none, [], .error (.malformed (.notSquare rows cols))⟩

end Memory
end OptimalMatching.Sparse
