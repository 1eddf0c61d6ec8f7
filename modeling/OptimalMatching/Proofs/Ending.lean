import OptimalMatching.Proofs.Augment
import OptimalMatching.Proofs.Progress

/-! How a solver that takes up the rows in order comes to its end, and what its reports tell of the ways that it has
found. -/
namespace OptimalMatching

variable {σ : Type} {n : Nat}

/-- How a run may end under a watch: as it should, cancelled by the watch, for want of room, or because there is no
matching. It never faults. -/
def Stops {α : Type} (watch : Watch) (roomy : Prop) (stuck : Nat → Prop) (good : α → Prop) : Except Failure α → Prop
  | .ok a => good a
  | .error .cancelled => ∃ emitted, watch.raised emitted = true
  | .error (.overflow _) => ¬ roomy
  | .error (.infeasible row) => stuck row
  | .error _ => False

theorem Stops.imp {α : Type} {watch : Watch} {roomy roomy' : Prop} {stuck stuck' : Nat → Prop} {good good' : α → Prop}
    {x : Except Failure α} (stops : Stops watch roomy stuck good x) (room : roomy' → roomy)
    (fail : ∀ row, stuck row → stuck' row) (next : ∀ a, good a → good' a) : Stops watch roomy' stuck' good' x := by
  cases x with
  | ok a => exact next a stops
  | error failure =>
    cases failure with
    | overflow => exact fun fits => stops (room fits)
    | infeasible row => exact fail row stops
    | cancelled => exact stops
    | malformed => exact stops
    | fault => exact stops

theorem requireRoomError {w : Width} {largest : Int} {failure : Failure}
    (failed : requireRoom w largest n = .error failure) : ∃ cause, failure = .overflow cause := by
  unfold requireRoom Width.keep at failed
  split at failed
  case isFalse => exact ⟨_, (Except.error.inj failed).symm⟩
  case isTrue =>
    split at failed
    case isTrue => cases failed
    case isFalse => exact ⟨_, (Except.error.inj failed).symm⟩

theorem requireRoomRefuses {w : Width} {largest : Int} (cost : 0 ≤ largest) (tight : ¬ Roomy w largest n) :
    ∃ cause, requireRoom w largest n = .error (.overflow cause) := by
  cases asked : requireRoom w largest n with
  | ok done => exact absurd ((requireRoomOk cost).mp asked) tight
  | error failure =>
    obtain ⟨cause, rfl⟩ := requireRoomError asked
    exact ⟨cause, rfl⟩

def Event.way? : Event → Option (Nat × Int)
  | .denseReached row _ cost => some (row, cost)
  | .sparseReached row _ cost _ => some (row, cost)
  | _ => none

def waysOf (events : List Event) : List (Nat × Int) := events.filterMap Event.way?

def Advanced (costs : Costs n) (most : Int) (k : Nat) (p : Potentials n) (m : Matching n) (events : List Event) :
    Prop :=
  ∃ ways, Progress costs most k p m ways ∧ waysOf events = ways.mapIdx Prod.mk

inductive Solved (watch : Watch) (costs : Costs n) (emitted l : Nat) (m : Matching n) : Except Failure (List Nat) → Prop
  | done (all : l = n) : Solved watch costs emitted l m (.ok ((List.finRange n).map fun i => (m.colAt i).val))
  | cancelled (early : l < n) (raised : watch.raised (emitted + l) = true) :
      Solved watch costs emitted l m (.error .cancelled)
  | infeasible (early : l < n) (crowded : ∃ rows cols, Crowded costs (l + 1) rows cols) :
      Solved watch costs emitted l m (.error (.infeasible l))

variable {costs : Costs n} {most : Int} {k : Nat} {p q : Potentials n} {m new : Matching n}

theorem Progress.length {ways : List Int} (progress : Progress costs most k p m ways) : ways.length = k := by
  induction progress with
  | start => rfl
  | row before step ih => rw [List.length_append, ih, List.length_singleton]

namespace Advanced
variable {events : List Event}

theorem start : Advanced costs most 0 (.zero n) (.empty n) [] := ⟨[], .start, rfl⟩

theorem row {first : Fin n} {reached : Int} {event : Event} (advanced : Advanced costs most first.val p m events)
    (step : Augmented costs most first p m q new reached) (told : event.way? = some (first.val, reached)) :
    Advanced costs most (first.val + 1) q new (events ++ [event]) := by
  obtain ⟨ways, progress, same⟩ := advanced
  refine ⟨ways ++ [reached], progress.row step, ?_⟩
  have last : [event].filterMap Event.way? = [(first.val, reached)] := List.filterMap_cons_some told
  rw [waysOf] at same
  rw [waysOf, List.filterMap_append, same, last, List.mapIdx_append, progress.length]
  simp

theorem told {longer : List Event} (advanced : Advanced costs most k p m events)
    (same : waysOf longer = waysOf events) : Advanced costs most k p m longer := by
  obtain ⟨ways, progress, told⟩ := advanced
  exact ⟨ways, progress, same.trans told⟩

theorem ready (advanced : Advanced costs most k p m events) (within : CostsWithin costs most) (nonneg : 0 ≤ most) :
    Ready costs most k p m := by
  obtain ⟨_, progress, _⟩ := advanced
  exact progress.ready within nonneg

end Advanced

theorem mapMOk {α β : Type} {f : α → Except Failure β} {g : α → β} {xs : List α}
    (each : ∀ x ∈ xs, f x = .ok (g x)) : xs.mapM f = .ok (xs.map g) := by
  induction xs with
  | nil => rfl
  | cons x rest ih =>
    rw [List.mapM_cons, each x List.mem_cons_self, ih fun y member => each y (List.mem_cons_of_mem _ member)]
    rfl

theorem Pairs.columnsOk (pairs : Pairs n m) : m.columns = .ok ((List.finRange n).map fun i => (m.colAt i).val) := by
  refine mapMOk ?_
  intro i _
  rw [pairs.colAt i.isLt]

theorem Solved.stops {watch : Watch} {emitted l : Nat} {roomy : Prop} {events : List Event}
    {result : Except Failure (List Nat)} (solved : Solved watch costs emitted l m result)
    (advanced : Advanced costs most l p m events) (within : CostsWithin costs most) (nonneg : 0 ≤ most) :
    Stops watch roomy (fun _ => ∃ rows cols, Crowded costs n rows cols) (Optimum costs) result := by
  cases solved with
  | done all =>
    have certificate := (advanced.ready within nonneg).certificate
    rw [all] at certificate
    refine ⟨m.colAt, certificate.placement, ?_, rfl⟩
    intro other place
    rw [certificate.cost]
    exact certificate.below place
  | cancelled early raised => exact ⟨_, raised⟩
  | infeasible early crowded =>
    obtain ⟨rows, cols, few⟩ := crowded
    exact ⟨rows, cols, few.mono early⟩

theorem finishSolved {watch : Watch} {emitted l : Nat} {e : Ended σ Unit} {finish : σ → Ended σ (List Nat)}
    {closing : Event}
    (ended : RowsEnded watch (fun i : Fin n => ∃ rows cols, Crowded costs (i.val + 1) rows cols) emitted 0 l n e.result)
    (closes : l = n → finish e.state = ⟨e.state, [closing], .ok ((List.finRange n).map fun i => (m.colAt i).val)⟩)
    (silent : closing.way? = none) :
    (e.andThen fun _ s _ => finish s).state = e.state ∧
      waysOf (e.andThen fun _ s _ => finish s).events = waysOf e.events ∧
      Solved watch costs emitted l m (e.andThen fun _ s _ => finish s).result := by
  obtain ⟨state, events, result⟩ := e
  cases ended with
  | done all =>
    have closed := closes all
    simp only at closed
    simp only [Ended.andThen, Ended.after, closed]
    refine ⟨trivial, ?_, .done all⟩
    rw [waysOf, List.filterMap_append, List.filterMap_cons_none silent, List.filterMap_nil, List.append_nil, waysOf]
  | cancelled early raised => exact ⟨rfl, rfl, .cancelled early raised⟩
  | infeasible row at_ early reason =>
    subst at_
    exact ⟨rfl, rfl, .infeasible early reason⟩

end OptimalMatching
