import OptimalMatching.Hungarian.Step

/-! The Hungarian solver: the steps of the star and prime method from reduction to the last cover. -/
namespace OptimalMatching.Hungarian

variable {w : Width} {n : Nat}

/-- The steps that a table of size `n` may take. With `s` stars a new one costs at most `s + 1` primed zeros, each
found at once or after a failed look and an adjustment, and then an augmentation and a cover; the sum over all `s`
from 1 on comes on top of the reduction and the last cover. -/
def stepBudget (n : Nat) : Nat := 2 + 3 * (n * (n - 1) / 2) + 5 * (n - 1)

def iterate (w : Width) (watch : Watch) (costs : Costs n) :
    Nat → Nat → Nat → Phase n → State n → Ended (State n) Nat
  | _, steps, _, .done, s => ⟨s, [], .ok steps⟩
  | 0, _, _, _, s => ⟨s, [], .error (.fault .endlessSteps)⟩
  | fuel + 1, steps, emitted, phase, s =>
    (step w watch emitted costs phase s).andThen fun events s next =>
      iterate w watch costs fuel (steps + 1) (emitted + events) next s

def columns (s : State n) : Except Failure (List Nat) :=
  (List.finRange n).mapM fun row =>
    match s.markInRow row .star with
    | none => .error (.fault (.unassigned row))
    | some col => .ok col

def finish (s : State n) (steps : Nat) : Ended (State n) (List Nat) :=
  ⟨s, [.hungarianClosed steps], columns s⟩

def solve (watch : Watch) (emitted : Nat) (table : Square w n) : Ended (State n) (List Nat) :=
  let opening := [Event.hungarianOpened n table.realRows table.realCols]
  let ended := (iterate w watch table.costs (stepBudget n) 0 (emitted + 1) .reduce (.start n)).andThen
    fun _ s steps => finish s steps
  ended.after opening

end OptimalMatching.Hungarian
