import OptimalMatching.Proofs.Pipeline

/-! Cancellation. A run under a watch is the run that nobody cancels, or breaks off with the first reports of it, at the
point where the watch was seen raised. It never comes to another end. -/
namespace OptimalMatching

variable {σ τ α β : Type} {watch calm : Watch} {emitted : Nat}

def Watch.Calm (watch : Watch) : Prop := ∀ emitted, watch.raised emitted = false

theorem neverCalm : Watch.never.Calm := Watch.neverRaised

def Watch.cutAfter (k : Nat) : Watch := ⟨some false, some k⟩

theorem raisedCutAfter {k emitted : Nat} : (Watch.cutAfter k).raised emitted = true ↔ k ≤ emitted := by
  simp [Watch.raised, Watch.tokenAfter, Watch.due, Watch.cutAfter]

inductive Truncates (watch : Watch) (emitted : Nat) (whole : Ended σ α) : Ended σ α → Prop
  | whole : Truncates watch emitted whole whole
  | cut (s : σ) (events : List Event) (first : events <+: whole.events)
      (raised : watch.raised (emitted + events.length) = true) :
      Truncates watch emitted whole ⟨s, events, .error .cancelled⟩

namespace Truncates
variable {whole cut : Ended σ α}

theorem map (truncates : Truncates watch emitted whole cut) (f : σ → τ) :
    Truncates watch emitted (whole.map f) (cut.map f) := by
  cases truncates with
  | whole => exact .whole
  | cut s events first raised => exact .cut (f s) events first raised

theorem forget (truncates : Truncates watch emitted whole cut) : Truncates watch emitted whole.forget cut.forget :=
  truncates.map fun _ => ()

theorem after (opening : List Event) (truncates : Truncates watch (emitted + opening.length) whole cut) :
    Truncates watch emitted (whole.after opening) (cut.after opening) := by
  cases truncates with
  | whole => exact .whole
  | cut s events first raised =>
    refine .cut s (opening ++ events) ((List.prefix_append_right_inj opening).mpr first) ?_
    rw [List.length_append, ← Nat.add_assoc]
    exact raised

theorem andThen {next next' : Nat → σ → α → Ended σ β} (truncates : Truncates watch emitted whole cut)
    (later : ∀ s a, Truncates watch (emitted + whole.events.length) (next whole.events.length s a)
      (next' whole.events.length s a)) :
    Truncates watch emitted (whole.andThen next) (cut.andThen next') := by
  cases truncates with
  | whole =>
    obtain ⟨s, events, result⟩ := whole
    cases result with
    | error failure => exact .whole
    | ok a => exact (later s a).after events
  | cut s events first raised =>
    refine .cut s events (first.trans ?_) raised
    unfold Ended.andThen
    split
    · exact List.prefix_refl _
    · exact List.prefix_append _ _

theorem finish (truncates : Truncates watch emitted whole cut) (close : σ → Ended σ β) :
    Truncates watch emitted (whole.andThen fun _ s _ => close s) (cut.andThen fun _ s _ => close s) :=
  truncates.andThen fun _ _ => .whole

end Truncates

theorem rowByRowCut {ι : Type} (quiet : calm.Calm) (augment : σ → ι → σ × Except Failure Event) (rows : List ι)
    (emitted : Nat) (s : σ) :
    rowByRow watch augment rows emitted s = rowByRow calm augment rows emitted s ∨
    ∃ k next events, k < rows.length ∧ events.length = k ∧ watch.raised (emitted + k) = true ∧
      (∀ l < k, watch.raised (emitted + l) = false) ∧
      rowByRow calm augment (rows.take k) emitted s = ⟨next, events, .ok ()⟩ ∧
      rowByRow watch augment rows emitted s = ⟨next, events, .error .cancelled⟩ := by
  -- The induction is on the rows. A run that is cut short has taken up the rows before the first poll that finds the
  -- watch raised, and these as if nobody ever cancelled.
  induction rows generalizing emitted s with
  | nil => exact .inl rfl
  | cons i rest ih =>
    cases raised : watch.raised emitted with
    | true =>
      refine .inr ⟨0, s, [], Nat.succ_pos _, rfl, raised, nofun, rfl, ?_⟩
      simp only [rowByRow, raised, if_true]
    | false =>
      simp only [rowByRow, raised, quiet emitted, Bool.false_eq_true, if_false]
      rcases augmented : augment s i with ⟨next, failure | event⟩
      · exact .inl rfl
      · rcases ih (emitted + 1) next with same | ⟨k, last, events, early, count, raisedAt, before, front, cut⟩
        · exact .inl (congrArg (Ended.after [event]) same)
        · refine .inr ⟨k + 1, last, event :: events, Nat.succ_lt_succ early, by rw [List.length_cons, count], ?_, ?_, ?_, ?_⟩
          · rw [← raisedAt]
            congr 1
            omega
          · intro l le
            cases l with
            | zero => exact raised
            | succ l =>
              rw [← before l (by omega)]
              congr 1
              omega
          · simp only [List.take_succ_cons, rowByRow, quiet emitted, Bool.false_eq_true, if_false, augmented, front,
              Ended.after, List.singleton_append]
          · simp only [cut, Ended.after, List.singleton_append]

theorem rowByRowTruncates {ι : Type} (quiet : calm.Calm) (augment : σ → ι → σ × Except Failure Event) (rows : List ι)
    (emitted : Nat) (s : σ) :
    Truncates watch emitted (rowByRow calm augment rows emitted s) (rowByRow watch augment rows emitted s) := by
  rcases @rowByRowCut _ watch calm ι quiet augment rows emitted s with
    same | ⟨k, next, events, _, count, raised, _, front, cut⟩
  · rw [same]
    exact .whole
  · rw [cut]
    refine .cut next events ?_ (by rwa [count])
    have whole := @rowByRowAppend _ _ calm augment (rows.take k) (rows.drop k) emitted s
    rw [List.take_append_drop, front] at whole
    rw [whole]
    exact List.prefix_append _ _

theorem Hungarian.actTruncates {w : Width} {n : Nat} {costs : Costs n} (quiet : calm.Calm) (s : State n)
    (phase : Phase n) :
    Truncates watch emitted (act w calm emitted costs s phase) (act w watch emitted costs s phase) := by
  cases phase with
  | cover =>
    simp only [act, quiet emitted, Bool.false_eq_true, if_false]
    split
    case isTrue raised => exact .cut s [] (List.nil_prefix) raised
    case isFalse => exact .whole
  | _ => exact .whole

theorem Hungarian.iterateTruncates {w : Width} {n : Nat} {costs : Costs n} (quiet : calm.Calm)
    (fuel steps emitted : Nat) (phase : Phase n) (s : State n) :
    Truncates watch emitted (iterate w calm costs fuel steps emitted phase s)
      (iterate w watch costs fuel steps emitted phase s) := by
  induction fuel generalizing steps emitted phase s with
  | zero => cases phase <;> exact .whole
  | succ fuel ih =>
    by_cases isDone : phase = .done
    · subst isDone
      exact .whole
    · rw [iterateStep isDone, iterateStep isDone]
      refine Truncates.andThen ?_ fun t next => ih (steps + 1) _ next t
      exact (actTruncates quiet s phase).andThen fun t next => .whole

theorem Hungarian.solveTruncates {w : Width} {n : Nat} (quiet : calm.Calm) (table : Square w n) (emitted : Nat) :
    Truncates watch emitted (solve calm emitted table) (solve watch emitted table) := by
  unfold solve
  exact ((iterateTruncates quiet (stepBudget n) 0 (emitted + 1) .reduce (.start n)).andThen
    fun s steps => .whole).after _

theorem Dense.solveTruncates {w : Width} {n : Nat} (quiet : calm.Calm) (table : Square w n) (emitted : Nat) :
    Truncates watch emitted (solve calm emitted table) (solve watch emitted table) := by
  unfold solve
  split
  case h_1 => exact .whole
  case h_2 =>
    have rows := @rowByRowTruncates _ watch calm _ quiet (augment w table.costs) (List.finRange n) (emitted + 1)
      (.start n)
    exact ((rows.finish finish).map some).after [Event.denseOpened n]

theorem Sparse.solveSquareTruncates {w : Width} {n : Nat} (quiet : calm.Calm) (graph : Graph w n n) (emitted : Nat) :
    Truncates watch emitted (solveSquare calm emitted graph) (solveSquare watch emitted graph) := by
  unfold solveSquare
  split
  case h_1 => exact .whole
  case h_2 =>
    dsimp only
    split
    case h_1 => exact .whole
    case h_2 grouped _ =>
      have rows := @rowByRowTruncates _ watch calm _ quiet (augment w grouped) (List.finRange n) (emitted + 1)
        (.start n)
      exact ((rows.finish finish).map some).after [Event.sparseOpened n graph.size]

theorem Sparse.solveTruncates {w : Width} {rows cols : Nat} (quiet : calm.Calm) (graph : Graph w rows cols)
    (emitted : Nat) : Truncates watch emitted (solve calm emitted graph) (solve watch emitted graph) := by
  unfold solve
  split
  case isFalse => exact .whole
  case isTrue square => exact solveSquareTruncates quiet _ emitted

theorem Solution.columnsTruncates {w : Width} {n : Nat} (quiet : calm.Calm) (method : Method) (table : Square w n)
    (emitted : Nat) :
    Truncates watch emitted (columns method calm emitted table) (columns method watch emitted table) := by
  cases method with
  | hungarian => exact (Hungarian.solveTruncates quiet table emitted).forget
  | dense => exact (Dense.solveTruncates quiet table emitted).forget
  | sparse => exact (Sparse.solveTruncates quiet (Graph.ofSquare table) emitted).forget

theorem Solution.solveTruncates {w : Width} (quiet : calm.Calm) (t : Table w) (method : Method)
    (objective : Objective) :
    Truncates watch 0 (solve t ⟨method, objective, calm.token⟩ calm.after)
      (solve t ⟨method, objective, watch.token⟩ watch.after) := by
  unfold solve
  refine Truncates.after _ ?_
  rw [Nat.zero_add]
  exact (columnsTruncates quiet method _ _).andThen fun _ _ => .whole

structure BreaksOff {n : Nat} (calm : Watch) (augment : σ → Fin n → σ × Except Failure Event) (start : σ)
    (opening : Event) (k : Nat) (e : Ended (Option σ) (List Nat)) : Prop where
  early : k < n
  front : ∃ s events, e.state = some s ∧ e.events = opening :: events ∧ events.length = k ∧
    rowByRow calm augment ((List.finRange n).take k) 1 start = ⟨s, events, .ok ()⟩

theorem rowByRowCutAfter {n : Nat} (quiet : calm.Calm) (augment : σ → Fin n → σ × Except Failure Event) (k : Nat)
    (s : σ) :
    rowByRow (.cutAfter k) augment (List.finRange n) 1 s = rowByRow calm augment (List.finRange n) 1 s ∨
    ∃ next events, rowByRow (.cutAfter k) augment (List.finRange n) 1 s = ⟨next, events, .error .cancelled⟩ ∧
      k - 1 < n ∧ events.length = k - 1 ∧
      rowByRow calm augment ((List.finRange n).take (k - 1)) 1 s = ⟨next, events, .ok ()⟩ := by
  refine (rowByRowCut quiet augment (List.finRange n) 1 s).imp_right ?_
  intro ⟨l, next, events, early, count, raised, before, front, cut⟩
  rw [List.length_finRange] at early
  have enough := raisedCutAfter.mp raised
  have exact_ : l = k - 1 := by
    by_contra other
    have calm := before (k - 1) (by omega)
    rw [Bool.eq_false_iff, Ne, raisedCutAfter] at calm
    omega
  subst exact_
  exact ⟨next, events, cut, early, count, front⟩

theorem Stops.uncancelled {roomy : Prop} {stuck : Nat → Prop} {good : α → Prop} {result : Except Failure α}
    (stops : Stops calm roomy stuck good result) (quiet : calm.Calm) : result ≠ .error .cancelled := by
  intro cancelled
  rw [cancelled] at stops
  obtain ⟨emitted, raised⟩ := stops
  rw [quiet emitted] at raised
  cases raised

section Shortest
variable {w : Width} {n k : Nat}

theorem Dense.breaksOff {table : Square w n} (valid : table.toTable.Valid) (quiet : calm.Calm)
    (cancelled : (solve (.cutAfter k) 0 table).result = .error .cancelled) :
    BreaksOff calm (augment w table.costs) (.start n) (.denseOpened n) (k - 1) (solve (.cutAfter k) 0 table) := by
  have calmly := (solveStops valid calm 0).uncancelled quiet
  unfold solve matchRows at cancelled calmly ⊢
  cases accepted : requireRoom w table.largest n with
  | error failure =>
    simp only [accepted] at cancelled calmly
    exact absurd cancelled calmly
  | ok =>
    simp only [accepted, Nat.zero_add] at cancelled calmly ⊢
    rcases rowByRowCutAfter quiet (augment w table.costs) k (.start n) with
      same | ⟨next, events, cut, early, count, front⟩
    · rw [same] at cancelled
      exact absurd cancelled calmly
    · rw [cut]
      exact ⟨early, next, events, rfl, rfl, count, front⟩

theorem Sparse.breaksOff {g : Graph w n n} (size : n ≠ 0) (valid : g.Valid) {grouped : Grouped n n}
    (ofGraph : Grouped.ofGraph g = .ok grouped) (quiet : calm.Calm)
    (cancelled : (solve (.cutAfter k) 0 g).result = .error .cancelled) :
    BreaksOff calm (augment w grouped) (.start n) (.sparseOpened n g.size) (k - 1) (solve (.cutAfter k) 0 g) := by
  have calmly := (solveStops size valid calm 0).uncancelled quiet
  have square : ∀ watch, solve watch 0 g = solveSquare watch 0 g := fun _ => dif_pos ⟨size, rfl⟩
  rw [square] at cancelled calmly ⊢
  unfold solveSquare matchRows at cancelled calmly ⊢
  cases accepted : requireRoom w g.largest n with
  | error failure =>
    simp only [accepted] at cancelled calmly
    exact absurd cancelled calmly
  | ok =>
    simp only [accepted, ofGraph, Nat.zero_add] at cancelled calmly ⊢
    rcases rowByRowCutAfter quiet (augment w grouped) k (.start n) with
      same | ⟨next, events, cut, early, count, front⟩
    · rw [same] at cancelled
      exact absurd cancelled calmly
    · rw [cut]
      exact ⟨early, next, events, rfl, rfl, count, front⟩

end Shortest

theorem rowByRowRaised {n : Nat} (size : n ≠ 0) (raised : watch.raised emitted = true)
    (augment : σ → Fin n → σ × Except Failure Event) (s : σ) :
    rowByRow watch augment (List.finRange n) emitted s = ⟨s, [], .error .cancelled⟩ := by
  cases n with
  | zero => exact absurd rfl size
  | succ n => rw [List.finRange_succ, rowByRow, if_pos raised]

theorem Dense.raisedFails {w : Width} {n : Nat} (table : Square w n) (size : n ≠ 0)
    (raised : watch.raised emitted = true) (columns : List Nat) : (solve watch emitted table).result ≠ .ok columns := by
  have later := Watch.raisedMono (Nat.le_succ emitted) raised
  unfold solve matchRows
  split
  case h_1 => exact nofun
  case h_2 =>
    simp only [rowByRowRaised size later]
    exact nofun

theorem Sparse.raisedFails {w : Width} {rows cols : Nat} (graph : Graph w rows cols)
    (raised : watch.raised emitted = true) (columns : List Nat) : (solve watch emitted graph).result ≠ .ok columns := by
  have later := Watch.raisedMono (Nat.le_succ emitted) raised
  unfold solve
  split
  case isFalse => exact nofun
  case isTrue square =>
    unfold solveSquare matchRows
    split
    case h_1 => exact nofun
    case h_2 =>
      dsimp only
      split
      case h_1 => exact nofun
      case h_2 =>
        simp only [rowByRowRaised square.1 later]
        exact nofun

theorem Hungarian.coverRaised {w : Width} {n : Nat} {costs : Costs n} (raised : watch.raised emitted = true)
    (fuel steps count : Nat) (s : State n) :
    (iterate w watch costs fuel steps emitted .cover s).result ≠ .ok count := by
  cases fuel with
  | zero => rintro ⟨⟩
  | succ fuel =>
    have active : Phase.cover ≠ (Phase.done : Phase n) := by rintro ⟨⟩
    rw [iterateStep active]
    simp only [step, act, raised, if_true]
    rintro ⟨⟩

theorem Hungarian.raisedFails {w : Width} {n : Nat} (table : Square w n) (raised : watch.raised emitted = true)
    (columns : List Nat) : (solve watch emitted table).result ≠ .ok columns := by
  have fails : ∀ count, (iterate w watch table.costs (stepBudget n) 0 (emitted + 1) .reduce (.start n)).result ≠
      .ok count := by
    intro count
    cases stepBudget n with
    | zero => rintro ⟨⟩
    | succ fuel =>
      have active : Phase.reduce ≠ (Phase.done : Phase n) := by rintro ⟨⟩
      rw [iterateStep active]
      simp only [step, act]
      cases reduce w table.costs (.start n) with
      | error failure => rintro ⟨⟩
      | ok s =>
        have later : watch.raised (emitted + 1 + 1) = true := Watch.raisedMono (by omega) raised
        exact coverRaised later fuel 1 count s
  unfold solve
  generalize iterate w watch table.costs (stepBudget n) 0 (emitted + 1) .reduce (.start n) = e at fails
  obtain ⟨s, events, result⟩ := e
  cases result with
  | error failure => rintro ⟨⟩
  | ok count => exact absurd rfl (fails count)

theorem Solution.raisedFails {w : Width} {t : Table w} (valid : t.Valid) (settings : Settings) (after : Option Nat)
    (raised : Watch.raised ⟨settings.token, after⟩ 0 = true) (solution : Solution) :
    (solve t settings after).result ≠ .ok solution := by
  have later := Watch.raisedMono (Nat.zero_le 1) raised
  have size : max (working t settings.objective).rows (working t settings.objective).cols ≠ 0 :=
    Nat.ne_of_gt (Nat.lt_of_lt_of_le (workingValid valid settings.objective).rows (Nat.le_max_left ..))
  have fails : ∀ found, (columns settings.method ⟨settings.token, after⟩ 1
      (Square.ofTable (working t settings.objective))).result ≠ .ok found := by
    intro found
    cases settings.method with
    | hungarian => exact Hungarian.raisedFails _ later found
    | dense => exact Dense.raisedFails _ size later found
    | sparse => exact Sparse.raisedFails _ later found
  unfold solve
  simp only [List.length_singleton]
  generalize columns settings.method ⟨settings.token, after⟩ 1 (Square.ofTable (working t settings.objective)) = e at fails
  obtain ⟨s, events, result⟩ := e
  cases result with
  | error failure => exact nofun
  | ok found => exact absurd rfl (fails found)

theorem cancellationTruncates {w : Width} (quiet : calm.Calm) (watch : Watch) :
    (∀ (n : Nat) (table : Square w n),
      Truncates watch 0 (Hungarian.solve calm 0 table) (Hungarian.solve watch 0 table) ∧
      Truncates watch 0 (Dense.solve calm 0 table) (Dense.solve watch 0 table)) ∧
    (∀ (rows cols : Nat) (graph : Graph w rows cols),
      Truncates watch 0 (Sparse.solve calm 0 graph) (Sparse.solve watch 0 graph)) ∧
    (∀ (t : Table w) (method : Method) (objective : Objective),
      Truncates watch 0 (Solution.solve t ⟨method, objective, calm.token⟩ calm.after)
        (Solution.solve t ⟨method, objective, watch.token⟩ watch.after)) ∧
    (∀ (n k : Nat) (table : Square w n), table.toTable.Valid →
      (Dense.solve (.cutAfter k) 0 table).result = .error .cancelled →
      BreaksOff calm (Dense.augment w table.costs) (.start n) (.denseOpened n) (k - 1)
        (Dense.solve (.cutAfter k) 0 table)) ∧
    (∀ (n k : Nat) (g : Graph w n n), g.Valid → (Sparse.solve (.cutAfter k) 0 g).result = .error .cancelled →
      ∃ grouped, Grouped.ofGraph g = .ok grouped ∧
        BreaksOff calm (Sparse.augment w grouped) (.start n) (.sparseOpened n g.size) (k - 1)
          (Sparse.solve (.cutAfter k) 0 g)) ∧
    (watch.raised 0 = true →
      (∀ (n : Nat) (table : Square w n), table.toTable.Valid → ∀ columns,
        (Hungarian.solve watch 0 table).result ≠ .ok columns ∧ (Dense.solve watch 0 table).result ≠ .ok columns) ∧
      (∀ (rows cols : Nat) (graph : Graph w rows cols) columns, (Sparse.solve watch 0 graph).result ≠ .ok columns) ∧
      ∀ (t : Table w) (method : Method) (objective : Objective), t.Valid → ∀ solution,
        (Solution.solve t ⟨method, objective, watch.token⟩ watch.after).result ≠ .ok solution) := by
  refine ⟨?_, ?_, ?_, ?_, ?_, ?_⟩
  · exact fun n table => ⟨Hungarian.solveTruncates quiet table 0, Dense.solveTruncates quiet table 0⟩
  · exact fun rows cols graph => Sparse.solveTruncates quiet graph 0
  · exact fun t method objective => Solution.solveTruncates quiet t method objective
  · exact fun n k table valid cancelled => Dense.breaksOff valid quiet cancelled
  · intro n k g valid cancelled
    have size : n ≠ 0 := by
      intro empty
      unfold Sparse.solve at cancelled
      rw [dif_neg fun whole => whole.1 empty] at cancelled
      cases cancelled
    obtain ⟨grouped, ofGraph, _⟩ := Grouped.ofGraphOk g
    exact ⟨grouped, ofGraph, Sparse.breaksOff size valid ofGraph quiet cancelled⟩
  · intro raised
    refine ⟨?_, fun rows cols graph => Sparse.raisedFails graph raised, ?_⟩
    · intro n table valid columns
      exact ⟨Hungarian.raisedFails table raised columns,
        Dense.raisedFails table (Nat.ne_of_gt valid.rows) raised columns⟩
    · exact fun t method objective valid =>
        Solution.raisedFails valid ⟨method, objective, watch.token⟩ watch.after raised

theorem cancellationTruncatesTwo : (Dense.solve (.cutAfter 2) 0 twoRows).result = .error .cancelled ∧
    BreaksOff .never (Dense.augment byteWidth twoRows.costs) (.start 2) (.denseOpened 2) 1
      (Dense.solve (.cutAfter 2) 0 twoRows) ∧
    (∃ grouped, BreaksOff .never (Sparse.augment byteWidth grouped) (.start 2) (.sparseOpened 2 4) 1
      (Sparse.solve (.cutAfter 2) 0 (Graph.ofSquare twoRows))) ∧
    Truncates (.cutAfter 0) 0 (Solution.solve Solution.wideTable ⟨.hungarian, .maximize, none⟩ none)
      (Solution.solve Solution.wideTable ⟨.hungarian, .maximize, some false⟩ (some 0)) ∧
    ∀ solution,
      (Solution.solve Solution.wideTable ⟨.hungarian, .maximize, some false⟩ (some 0)).result ≠ .ok solution := by
  obtain ⟨_, _, pipeline, dense, sparse, early⟩ := @cancellationTruncates .never byteWidth neverCalm (.cutAfter 0)
  obtain ⟨grouped, _, broken⟩ := sparse 2 2 (Graph.ofSquare twoRows) (Graph.validOfSquare twoRowsValid) rfl
  exact ⟨rfl, dense 2 2 twoRows twoRowsValid rfl, ⟨grouped, broken⟩,
    pipeline Solution.wideTable .hungarian .maximize,
    (early rfl).2.2 Solution.wideTable .hungarian .maximize Solution.wideTableValid⟩

end OptimalMatching
