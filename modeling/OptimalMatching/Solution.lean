import OptimalMatching.Assignment
import OptimalMatching.Dense
import OptimalMatching.Hungarian
import OptimalMatching.Sparse

/-! The assignment problem from a table to its answer: pad to a square, solve by the chosen method, cut back, and
price the result on the table itself. -/
namespace OptimalMatching

structure Settings where
  method : Method
  objective : Objective
  token : Option Bool
  deriving DecidableEq, Repr

namespace Settings

def default : Settings := ⟨.hungarian, .minimize, none⟩

end Settings

structure Solution where
  assignment : Assignment
  total : Int
  deriving DecidableEq, Repr

namespace Solution
variable {w : Width}

def working (t : Table w) : Objective → Table w
  | .minimize => t
  | .maximize => t.complement

def columns {n : Nat} (method : Method) (watch : Watch) (emitted : Nat) (table : Square w n) :
    Ended Unit (List Nat) :=
  match method with
  | .hungarian => (Hungarian.solve watch emitted table).forget
  | .dense => (Dense.solve watch emitted table).forget
  | .sparse => (Sparse.solve watch emitted (Graph.ofSquare table)).forget

def price (t : Table w) (columns : List Nat) : Ended Unit Solution :=
  match Assignment.build columns t.rows t.cols with
  | .error failure => ⟨(), [], .error failure⟩
  | .ok assignment =>
    match t.total assignment.colOf with
    | .error failure => ⟨(), [], .error failure⟩
    | .ok total => ⟨(), [.closed assignment.size total], .ok ⟨assignment, total⟩⟩

def solve (t : Table w) (settings : Settings) (after : Option Nat) : Ended Unit Solution :=
  let opening := [Event.opened t.rows t.cols settings.method settings.objective]
  let square := Square.ofTable (working t settings.objective)
  let solved := columns settings.method ⟨settings.token, after⟩ opening.length square
  (solved.andThen fun _ _ columns => price t columns).after opening

end Solution
end OptimalMatching
