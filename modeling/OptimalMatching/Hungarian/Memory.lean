import OptimalMatching.Hungarian
import OptimalMatching.Headroom

/-! The star and prime method in the memory of a solver that is used again. A call that takes up a table empties all
buffers but one: where a path begins stays written from the call before, until a search that ends writes it anew. -/
namespace OptimalMatching.Hungarian

structure Memory (n : Nat) where
  costs : Costs n
  state : State n
  path : List (Fin n × Fin n)
  pathStart : Nat × Nat
  deriving DecidableEq, Repr

namespace Memory
variable {w : Width} {k n : Nat}

def new : Memory 0 := ⟨Vector.replicate 0 (Vector.replicate 0 none), .start 0, [], (wordLimit - 1, wordLimit - 1)⟩

def load (old : Memory k) (table : Square w n) : Memory n where
  costs := table.costs
  state :=
    { rowShift := Vector.replicate n 0
      colShift := Vector.replicate n 0
      slack := Vector.replicate n none
      marks := Vector.replicate n (Vector.replicate n .empty)
      rowCovered := Vector.replicate n false
      colCovered := Vector.replicate n false
      covered := 0 }
  path := []
  pathStart := old.pathStart

def quiet (m : Memory n) : Except Failure (Stage × State n) → Ended (Memory n) Stage
  | .error failure => ⟨m, [], .error failure⟩
  | .ok (stage, s) => ⟨{ m with state := s }, [], .ok stage⟩

def prime (w : Width) (m : Memory n) : Ended (Memory n) Stage :=
  match primeZero w m.costs m.state with
  | .error failure => ⟨m, [], .error failure⟩
  | .ok (.augment row col, s) => ⟨{ m with state := s, pathStart := (row, col) }, [], .ok .augment⟩
  | .ok (phase, s) => ⟨{ m with state := s }, [], .ok phase.stage⟩

def augment (m : Memory n) : Ended (Memory n) Stage :=
  if inside : m.pathStart.1 < n ∧ m.pathStart.2 < n then
    match pathFrom m.state ⟨m.pathStart.1, inside.1⟩ ⟨m.pathStart.2, inside.2⟩ with
    | .error failure => ⟨m, [], .error failure⟩
    | .ok path =>
      match flipMarks path m.state with
      | .error failure => ⟨{ m with path := path }, [pathEvent path], .error failure⟩
      | .ok flipped =>
        ⟨{ m with path := path, state := dropPrimes flipped.uncoverAll }, [pathEvent path], .ok .cover⟩
  else ⟨m, [], .error (.fault .layout)⟩

def adjust (w : Width) (m : Memory n) : Ended (Memory n) Stage :=
  let ended := Hungarian.adjust w m.state
  ⟨{ m with state := ended.state }, ended.events, ended.result.map Phase.stage⟩

/-- A step that fails leaves the memory as it was: what it has half written, the next call empties. -/
def act (w : Width) (watch : Watch) (emitted : Nat) (m : Memory n) : Stage → Ended (Memory n) Stage
  | .reduce => m.quiet ((reduce w m.costs m.state).map fun s => (.cover, s))
  | .cover =>
    if watch.raised emitted then ⟨m, [], .error .cancelled⟩
    else m.quiet ((cover w m.costs m.state).map fun out => (out.1.stage, out.2))
  | .prime => m.prime w
  | .augment => m.augment
  | .adjust => m.adjust w
  | .done => ⟨m, [], .ok .done⟩

def step (w : Width) (watch : Watch) (emitted : Nat) (stage : Stage) (m : Memory n) : Ended (Memory n) Stage :=
  (m.act w watch emitted stage).andThen fun _ m next => ⟨m, [.hungarianStage stage next], .ok next⟩

def iterate (w : Width) (watch : Watch) : Nat → Nat → Nat → Stage → Memory n → Ended (Memory n) Nat
  | _, steps, _, .done, m => ⟨m, [], .ok steps⟩
  | 0, _, _, _, m => ⟨m, [], .error (.fault .endlessSteps)⟩
  | fuel + 1, steps, emitted, stage, m =>
    (m.step w watch emitted stage).andThen fun events m next =>
      iterate w watch fuel (steps + 1) (emitted + events) next m

def solve (watch : Watch) (emitted : Nat) (old : Memory k) (table : Square w n) : Ended (Memory n) (List Nat) :=
  let opening := [Event.hungarianOpened n table.realRows table.realCols]
  let ended := (iterate w watch (stepBudget n) 0 (emitted + 1) .reduce (old.load table)).andThen
    fun _ m steps => ⟨m, [.hungarianClosed steps], columns m.state⟩
  ended.after opening

end Memory
end OptimalMatching.Hungarian
