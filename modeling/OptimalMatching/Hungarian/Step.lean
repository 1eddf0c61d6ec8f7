import OptimalMatching.Hungarian.Adjust
import OptimalMatching.Hungarian.Cover
import OptimalMatching.Hungarian.Path
import OptimalMatching.Hungarian.Reduce

/-! The steps of the star and prime method. Each returns the phase to go on with, and only a cover polls the
watch. -/
namespace OptimalMatching.Hungarian

variable {n : Nat}

def quiet (before : State n) : Except Failure (Phase n × State n) → Ended (State n) (Phase n)
  | .error failure => ⟨before, [], .error failure⟩
  | .ok (phase, after) => ⟨after, [], .ok phase⟩

def act (w : Width) (watch : Watch) (emitted : Nat) (costs : Costs n) (s : State n) :
    Phase n → Ended (State n) (Phase n)
  | .reduce => quiet s ((reduce w costs s).map fun s => (.cover, s))
  | .cover => if watch.raised emitted then ⟨s, [], .error .cancelled⟩ else quiet s (cover w costs s)
  | .prime => quiet s (primeZero w costs s)
  | .augment row col => augment s row col
  | .adjust => adjust w s
  | .done => ⟨s, [], .ok .done⟩

def step (w : Width) (watch : Watch) (emitted : Nat) (costs : Costs n) (phase : Phase n) (s : State n) :
    Ended (State n) (Phase n) :=
  (act w watch emitted costs s phase).andThen fun _ s next =>
    ⟨s, [.hungarianStage phase.stage next.stage], .ok next⟩

end OptimalMatching.Hungarian
