import OptimalMatching.Event
import OptimalMatching.Failure
import OptimalMatching.Watch

/-! How a run ends, and the loop over the rows of a problem. -/
namespace OptimalMatching

structure Ended (σ α : Type) where
  state : σ
  events : List Event
  result : Except Failure α

namespace Ended
variable {σ τ α β : Type}

def after (events : List Event) (e : Ended σ α) : Ended σ α := { e with events := events ++ e.events }

def map (f : σ → τ) (e : Ended σ α) : Ended τ α := ⟨f e.state, e.events, e.result⟩

def forget (e : Ended σ α) : Ended Unit α := e.map fun _ => ()

def andThen (e : Ended σ α) (next : Nat → σ → α → Ended σ β) : Ended σ β :=
  match e.result with
  | .error failure => ⟨e.state, e.events, .error failure⟩
  | .ok a => (next e.events.length e.state a).after e.events

end Ended

/-- Takes up the rows of a list in order, polling the watch before each. For one row `augment` gives the next state
with the event that tells of it, or the state in which it failed. -/
def rowByRow {σ ι : Type} (watch : Watch) (augment : σ → ι → σ × Except Failure Event) :
    List ι → Nat → σ → Ended σ Unit
  | [], _, s => ⟨s, [], .ok ()⟩
  | i :: rest, emitted, s =>
    if watch.raised emitted then ⟨s, [], .error .cancelled⟩
    else match augment s i with
      | (s, .error failure) => ⟨s, [], .error failure⟩
      | (s, .ok event) => (rowByRow watch augment rest (emitted + 1) s).after [event]

theorem afterAndThen {σ α β : Type} (events : List Event) (e : Ended σ α) (next : Nat → σ → α → Ended σ β) :
    (e.after events).andThen next =
      (e.andThen fun emitted => next (events.length + emitted)).after events := by
  unfold Ended.andThen Ended.after
  cases e.result <;> simp

theorem rowByRowAppend {σ ι : Type} {watch : Watch} {augment : σ → ι → σ × Except Failure Event}
    (front back : List ι) (emitted : Nat) (s : σ) :
    rowByRow watch augment (front ++ back) emitted s =
      (rowByRow watch augment front emitted s).andThen fun events s _ =>
        rowByRow watch augment back (emitted + events) s := by
  induction front generalizing emitted s with
  | nil => rfl
  | cons i rest ih =>
    simp only [List.cons_append, rowByRow]
    split
    · rfl
    · split
      case h_1 => rfl
      case h_2 next event augmented =>
        simp only [ih, afterAndThen, List.length_singleton]
        simp only [Nat.add_assoc]

end OptimalMatching
