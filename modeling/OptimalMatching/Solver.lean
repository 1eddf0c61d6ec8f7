import OptimalMatching.Dense.Memory
import OptimalMatching.Hungarian.Memory
import OptimalMatching.Sparse.Memory

/-! Solvers that live through several calls. A call works in the memory that the one before has left, unless its input is
refused; the token stays, and stays raised once it is. -/
namespace OptimalMatching

structure Solver (σ : Nat → Type) where
  token : Option Bool
  size : Nat
  state : σ size

namespace Solver
variable {σ : Nat → Type}

def withToken (solver : Solver σ) : Solver σ := { solver with token := some false }

def cancel (solver : Solver σ) : Solver σ := { solver with token := solver.token.map fun _ => true }

def call {n : Nat} (solver : Solver σ) (after : Option Nat)
    (run : Watch → Ended (Option (σ n)) (List Nat)) : Ended (Solver σ) (List Nat) :=
  let watch : Watch := ⟨solver.token, after⟩
  let ended := run watch
  let token := watch.tokenAfter ended.events.length
  let next : Solver σ := match ended.state with
    | none => { solver with token := token }
    | some state => ⟨token, n, state⟩
  ⟨next, ended.events, ended.result⟩

def refuse (solver : Solver σ) (after : Option Nat) (failure : Failure) : Ended (Solver σ) (List Nat) :=
  solver.call after fun _ => ⟨(none : Option (σ 0)), [], .error failure⟩

end Solver

variable {w : Width} {rows cols n : Nat}

abbrev Hungarian.Solver := OptimalMatching.Solver Hungarian.Memory

abbrev Dense.Solver := OptimalMatching.Solver Dense.Memory

abbrev Sparse.Solver := OptimalMatching.Solver Sparse.Memory

namespace Hungarian.Solver

def fresh (token : Option Bool) : Hungarian.Solver := ⟨token, 0, .new⟩

def new : Hungarian.Solver := fresh none

def solve (solver : Hungarian.Solver) (after : Option Nat) (table : Square w n) :
    Ended Hungarian.Solver (List Nat) :=
  solver.call after fun watch => (Memory.solve watch 0 solver.state table).map some

end Hungarian.Solver

namespace Dense.Solver

def fresh (token : Option Bool) : Dense.Solver := ⟨token, 0, .new⟩

def new : Dense.Solver := fresh none

def solve (solver : Dense.Solver) (after : Option Nat) (table : Square w n) :
    Ended Dense.Solver (List Nat) :=
  solver.call after fun watch => Memory.solve watch 0 table

def potentials (solver : Dense.Solver) : List Int × List Int :=
  (solver.state.potentials.row.toList, solver.state.potentials.col.toList)

end Dense.Solver

namespace Sparse.Solver

def fresh (token : Option Bool) : Sparse.Solver := ⟨token, 0, .new⟩

def new : Sparse.Solver := fresh none

def solveGraph (solver : Sparse.Solver) (after : Option Nat) (graph : Graph w rows cols) :
    Ended Sparse.Solver (List Nat) :=
  solver.call after fun watch => Memory.solve watch 0 solver.state graph

def solve (solver : Sparse.Solver) (after : Option Nat) (table : Square w n) :
    Ended Sparse.Solver (List Nat) :=
  solver.solveGraph after (Graph.ofSquare table)

def potentials (solver : Sparse.Solver) : List Int × List Int :=
  (solver.state.potentials.row.toList, solver.state.potentials.col.toList)

end Sparse.Solver
end OptimalMatching
