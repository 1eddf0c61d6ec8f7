import Mathlib.Data.List.Forall2
import OptimalMatching.Progress

/-! The loop over the rows, for any step that either matches a row or finds it stuck. However the loop ends, it has
matched the rows before the one it stopped at, one report for each. -/
namespace OptimalMatching

variable {σ : Type} {n : Nat}

inductive RowsEnded (watch : Watch) (stuck : Fin n → Prop) (emitted k l stop : Nat) : Except Failure Unit → Prop
  | done (all : l = stop) : RowsEnded watch stuck emitted k l stop (.ok ())
  | cancelled (early : l < stop) (raised : watch.raised (emitted + (l - k)) = true) :
      RowsEnded watch stuck emitted k l stop (.error .cancelled)
  | infeasible (row : Fin n) (at_ : row.val = l) (early : l < stop) (reason : stuck row) :
      RowsEnded watch stuck emitted k l stop (.error (.infeasible row.val))

theorem rowByRowEnds {watch : Watch} {augment : σ → Fin n → σ × Except Failure Event}
    {good : Nat → σ → List Event → Prop} {stuck : Fin n → Prop}
    (step : ∀ (i : Fin n) s events, good i.val s events →
      (∃ next event, augment s i = (next, .ok event) ∧ good (i.val + 1) next (events ++ [event])) ∨
      (∃ next, augment s i = (next, .error (.infeasible i.val)) ∧ good i.val next events ∧ stuck i))
    (rows : List (Fin n)) (k emitted : Nat) (s : σ) (events : List Event)
    (order : rows.map Fin.val = List.range' k rows.length) (start : good k s events) :
    ∃ l, k ≤ l ∧ l ≤ k + rows.length ∧
      (rowByRow watch augment rows emitted s).events.length = l - k ∧
      good l (rowByRow watch augment rows emitted s).state
        (events ++ (rowByRow watch augment rows emitted s).events) ∧
      RowsEnded watch stuck emitted k l (k + rows.length) (rowByRow watch augment rows emitted s).result := by
  -- The induction is on the rows still to come; what carries it is `good`, which knows the reports so far.
  induction rows generalizing k emitted s events with
  | nil =>
    refine ⟨k, Nat.le_refl k, by simp, by simp [rowByRow], ?_, .done (by simp)⟩
    simpa [rowByRow] using start
  | cons i rest ih =>
    simp only [List.map_cons, List.length_cons, List.range'_succ, List.cons.injEq] at order
    obtain ⟨head, tail⟩ := order
    subst head
    simp only [rowByRow]
    split
    case isTrue raised =>
      refine ⟨i.val, Nat.le_refl _, by omega, by simp, by simpa using start, .cancelled ?_ ?_⟩
      · simp
      · simpa using raised
    case isFalse quiet =>
      rcases step i s events start with ⟨next, event, made, good_⟩ | ⟨next, failed, good_, reason⟩
      · rw [made]
        obtain ⟨l, low, high, count, state, ended⟩ := ih (i.val + 1) (emitted + 1) next (events ++ [event]) tail good_
        refine ⟨l, by omega, by rw [List.length_cons]; omega, ?_, ?_, ?_⟩
        · simp only [Ended.after, List.length_append, List.length_singleton, count]
          omega
        · simpa only [Ended.after, List.append_assoc] using state
        · simp only [Ended.after, List.length_cons]
          generalize (rowByRow watch augment rest (emitted + 1) next).result = result at ended
          cases ended with
          | done all => exact .done (by omega)
          | cancelled early raised =>
            refine .cancelled (by omega) ?_
            rw [← raised]
            congr 1
            omega
          | infeasible row at_ early reason => exact .infeasible row at_ (by omega) reason
      · rw [failed]
        refine ⟨i.val, Nat.le_refl _, by omega, by simp, by simpa using good_, .infeasible i rfl ?_ reason⟩
        simp

theorem rowByRowAlike {σ' : Type} {watch : Watch} {augment : σ → Fin n → σ × Except Failure Event}
    {augment' : σ' → Fin n → σ' × Except Failure Event} {alike : Nat → σ → σ' → Prop} {told : Event → Event → Prop}
    (step : ∀ (i : Fin n) s s', alike i.val s s' →
      (∃ next next' event event', augment s i = (next, .ok event) ∧ augment' s' i = (next', .ok event') ∧
        alike (i.val + 1) next next' ∧ told event event') ∨
      (∃ next next' failure, augment s i = (next, .error failure) ∧ augment' s' i = (next', .error failure) ∧
        alike i.val next next'))
    (rows : List (Fin n)) (k emitted : Nat) (s : σ) (s' : σ')
    (order : rows.map Fin.val = List.range' k rows.length) (start : alike k s s') :
    (rowByRow watch augment' rows emitted s').result = (rowByRow watch augment rows emitted s).result ∧
      List.Forall₂ told (rowByRow watch augment rows emitted s).events
        (rowByRow watch augment' rows emitted s').events ∧
      ∃ l, alike l (rowByRow watch augment rows emitted s).state (rowByRow watch augment' rows emitted s').state ∧
        ((rowByRow watch augment rows emitted s).result = .ok () → l = k + rows.length) := by
  induction rows generalizing k emitted s s' with
  | nil => exact ⟨rfl, .nil, k, start, fun _ => rfl⟩
  | cons i rest ih =>
    simp only [List.map_cons, List.length_cons, List.range'_succ, List.cons.injEq] at order
    obtain ⟨head, tail⟩ := order
    subst head
    simp only [rowByRow]
    split
    case isTrue raised => exact ⟨rfl, .nil, i.val, start, by rintro ⟨⟩⟩
    case isFalse quiet =>
      rcases step i s s' start with
        ⟨next, next', event, event', made, made', alike, told⟩ | ⟨next, next', failure, failed, failed', alike⟩
      · rw [made, made']
        obtain ⟨result, events, l, last, all⟩ := ih (i.val + 1) (emitted + 1) next next' tail alike
        refine ⟨result, .cons told events, l, last, ?_⟩
        intro done
        have count := all done
        rw [List.length_cons]
        omega
      · rw [failed, failed']
        exact ⟨rfl, .nil, i.val, alike, by rintro ⟨⟩⟩

theorem mapAndThen {τ α β : Type} {f : σ → τ} {e : Ended σ α} {next : Nat → σ → α → Ended σ β}
    {next' : Nat → τ → α → Ended τ β} (same : ∀ count s a, (next count s a).map f = next' count (f s) a) :
    (e.andThen next).map f = (e.map f).andThen next' := by
  obtain ⟨s, events, result⟩ := e
  cases result with
  | error failure => rfl
  | ok a => exact congrArg (Ended.after events) (same events.length s a)

/-- How two steps compare, of which the second is made in a state that carries more with it. `view` is the part that the
first has, and `shown` what one can see of that. The two come to the same result and show the same, and as long as nothing
has failed the second has all of what the first has. -/
structure Mirrors {σ' τ α : Type} (view : σ' → σ) (shown : σ → τ) (out : σ × Except Failure α)
    (out' : σ' × Except Failure α) : Prop where
  result : out'.2 = out.2
  shown : shown (view out'.1) = shown out.1
  state : ∀ a, out.2 = .ok a → view out'.1 = out.1

theorem Mirrors.coarser {σ' τ ρ α : Type} {view : σ' → σ} {shown : σ → τ} {f : τ → ρ} {out : σ × Except Failure α}
    {out' : σ' × Except Failure α} (mirrors : Mirrors view shown out out') : Mirrors view (fun s => f (shown s)) out out' :=
  ⟨mirrors.result, congrArg f mirrors.shown, mirrors.state⟩

section Mirrors
variable {ι σ' τ : Type} {watch : Watch} {augment : σ → ι → σ × Except Failure Event}
  {augment' : σ' → ι → σ' × Except Failure Event} {view : σ' → σ} {shown : σ → τ} {good : σ' → Prop}

theorem rowByRowMirrors
    (step : ∀ m i, good m → good (augment' m i).1 ∧ Mirrors view shown (augment (view m) i) (augment' m i))
    (rows : List ι) (emitted : Nat) (m : σ') (start : good m) :
    (rowByRow watch augment' rows emitted m).events = (rowByRow watch augment rows emitted (view m)).events ∧
      Mirrors view shown
        ((rowByRow watch augment rows emitted (view m)).state, (rowByRow watch augment rows emitted (view m)).result)
        ((rowByRow watch augment' rows emitted m).state, (rowByRow watch augment' rows emitted m).result) := by
  induction rows generalizing emitted m with
  | nil => exact ⟨rfl, rfl, rfl, fun _ _ => rfl⟩
  | cons i rest ih =>
    obtain ⟨good, result, same, state⟩ := step m i start
    simp only [rowByRow]
    split
    case isTrue => exact ⟨rfl, rfl, rfl, by rintro _ ⟨⟩⟩
    case isFalse =>
      generalize augment' m i = out' at good result same state
      generalize augment (view m) i = out at result same state
      obtain ⟨next, made⟩ := out
      obtain ⟨next', made'⟩ := out'
      simp only at good result same state
      subst result
      cases made' with
      | error failure => exact ⟨rfl, rfl, same, by rintro _ ⟨⟩⟩
      | ok event =>
        obtain rfl := state event rfl
        obtain ⟨events, later⟩ := ih (emitted + 1) next' good
        exact ⟨congrArg (List.append [event]) events, later⟩

theorem loopMirrors {α : Type} {finish : σ → Ended σ α} {finish' : σ' → Ended σ' α}
    (step : ∀ m i, good m → good (augment' m i).1 ∧ Mirrors view shown (augment (view m) i) (augment' m i))
    (ending : ∀ m, (finish' m).map view = finish (view m)) (rows : List ι) (emitted : Nat) (m : σ') (start : good m) :
    ((rowByRow watch augment' rows emitted m).andThen fun _ m _ => finish' m).map (fun m => shown (view m)) =
      ((rowByRow watch augment rows emitted (view m)).andThen fun _ s _ => finish s).map shown := by
  obtain ⟨events, result, same, state⟩ := @rowByRowMirrors _ _ _ _ watch _ _ _ _ _ step rows emitted m start
  generalize rowByRow watch augment' rows emitted m = e' at events result same state
  generalize rowByRow watch augment rows emitted (view m) = e at events result same state
  obtain ⟨s, told, done⟩ := e
  obtain ⟨s', told', done'⟩ := e'
  simp only at events result same state
  subst events
  subst result
  cases done' with
  | error failure => exact congrArg (fun t => (⟨t, told', .error failure⟩ : Ended τ α)) same
  | ok u =>
    obtain rfl := state u rfl
    exact congrArg (fun e => (e.map shown).after told') (ending s')

end Mirrors

theorem rowByRowFails {ι : Type} {watch : Watch} {augment : σ → ι → σ × Except Failure Event} {rows : List ι}
    {emitted : Nat} {s : σ} {failure : Failure} (failed : (rowByRow watch augment rows emitted s).result = .error failure)
    (uncancelled : failure ≠ .cancelled) :
    ∃ front i back before, rows = front ++ i :: back ∧
      rowByRow watch augment front emitted s = ⟨before, (rowByRow watch augment rows emitted s).events, .ok ()⟩ ∧
      augment before i = ((rowByRow watch augment rows emitted s).state, .error failure) := by
  induction rows generalizing emitted s with
  | nil => cases failed
  | cons i rest ih =>
    by_cases raised : watch.raised emitted = true
    · simp only [rowByRow, if_pos raised] at failed
      exact absurd (Except.error.inj failed).symm uncancelled
    · simp only [rowByRow, if_neg raised] at failed ⊢
      cases step : augment s i with
      | mk next result =>
        cases result with
        | error other =>
          rw [step] at failed
          obtain rfl := Except.error.inj failed
          exact ⟨[], i, rest, s, rfl, rfl, step⟩
        | ok event =>
          rw [step] at failed
          obtain ⟨front, j, back, before, split, run, stuck⟩ := ih failed
          refine ⟨i :: front, j, back, before, congrArg (List.cons i) split, ?_, stuck⟩
          simp only [rowByRow, if_neg raised, step, run]
          rfl

theorem rowByRowKeeps {ι : Type} {watch : Watch} {augment : σ → ι → σ × Except Failure Event} {good : σ → Prop}
    (step : ∀ s i, good s → (∃ cause, (augment s i).2 = .error (.fault cause)) ∨ good (augment s i).1) (rows : List ι)
    (emitted : Nat) {s : σ} (start : good s) :
    (∃ cause, (rowByRow watch augment rows emitted s).result = .error (.fault cause)) ∨
      good (rowByRow watch augment rows emitted s).state := by
  induction rows generalizing emitted s with
  | nil => exact .inr start
  | cons i rest ih =>
    have kept := step s i start
    simp only [rowByRow]
    split
    case isTrue => exact .inr start
    case isFalse =>
      generalize augment s i = out at kept
      obtain ⟨next, failure | event⟩ := out
      · refine kept.imp_left ?_
        rintro ⟨cause, same⟩
        exact ⟨cause, congrArg Except.error (Except.error.inj same)⟩
      · refine ih (emitted + 1) (kept.resolve_left ?_)
        rintro ⟨_, ⟨⟩⟩

theorem finRangeFront {front back : List (Fin n)} {i : Fin n} (split : List.finRange n = front ++ i :: back) :
    front = (List.finRange n).take i.val := by
  have here : (List.finRange n)[front.length]? = some i := by
    rw [split, List.getElem?_append_right (Nat.le_refl _), Nat.sub_self, List.getElem?_cons_zero]
  obtain ⟨inside, same⟩ := List.getElem?_eq_some_iff.mp here
  have size : i.val = front.length := by
    rw [← same]
    simp
  rw [split, size, List.take_left]

theorem takeOrder (n k : Nat) :
    ((List.finRange n).take k).map Fin.val = List.range' 0 ((List.finRange n).take k).length := by
  refine List.ext_getElem (by simp) ?_
  intro i _ _
  simp

theorem finRangeOrder (n : Nat) : (List.finRange n).map Fin.val = List.range' 0 (List.finRange n).length := by
  have whole := takeOrder n n
  rwa [List.take_of_length_le (by simp)] at whole

end OptimalMatching
