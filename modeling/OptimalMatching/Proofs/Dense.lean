import OptimalMatching.Dense
import OptimalMatching.Proofs.Ending
import OptimalMatching.Proofs.Table

/-! The dense solver keeps a scan. Its list of remaining columns holds those that are not settled, and what it chooses
among them is of least label; which of equal ones plays no part here. -/
namespace OptimalMatching.Dense

variable {w : Width} {n : Nat} {costs : Costs n} {most base : Int} {p : Potentials n} {m : Matching n}
  {first row : Fin n} {labels : Labels n} {cols : List (Fin n)}

structure Offers (costs : Costs n) (p : Potentials n) (row : Fin n) (base : Int) (cols : List (Fin n))
    (old new : Labels n) : Prop where
  kept : ∀ j : Fin n, j ∉ cols ∨ costs[row][j] = none →
    new.cost[j] = old.cost[j] ∧ new.reachedFrom[j] = old.reachedFrom[j]
  told : ∀ j ∈ cols, ∀ cost, costs[row][j] = some cost →
    new.cost[j] = (old.offer row j (base + cost - p.row[row] - p.col[j])).cost[j] ∧
      new.reachedFrom[j] = (old.offer row j (base + cost - p.row[row] - p.col[j])).reachedFrom[j]

namespace Offers
variable {col : Fin n} {rest : List (Fin n)} {old new : Labels n}

theorem skip (offers : Offers costs p row base rest old new) (blank : costs[row][col] = none) :
    Offers costs p row base (col :: rest) old new := by
  refine ⟨?_, ?_⟩
  · intro j way
    rcases way with outside | none
    · exact offers.kept j (.inl fun member => outside (List.mem_cons_of_mem _ member))
    · exact offers.kept j (.inr none)
  · intro j member cost found
    rcases List.mem_cons.mp member with same | inside
    · rw [same, blank] at found
      cases found
    · exact offers.told j inside cost found

theorem cons {price : Int} (fresh : col ∉ rest) (has : costs[row][col] = some price)
    (offers : Offers costs p row base rest (old.offer row col (base + price - p.row[row] - p.col[col])) new) :
    Offers costs p row base (col :: rest) old new := by
  refine ⟨?_, ?_⟩
  · intro j way
    have other : j ≠ col := by
      rcases way with outside | none
      · exact fun same => outside (same ▸ List.mem_cons_self)
      · intro same
        rw [same, has] at none
        cases none
    obtain ⟨label, origin⟩ :=
      offers.kept j (way.imp_left fun outside member => outside (List.mem_cons_of_mem _ member))
    rw [label, origin, old.offerOther _ other, old.offerOtherFrom _ other]
    exact ⟨rfl, rfl⟩
  · intro j member cost found
    rcases List.mem_cons.mp member with same | inside
    · subst same
      rw [has] at found
      obtain rfl := Option.some.inj found
      exact offers.kept j (.inl fresh)
    · have other : j ≠ col := fun same => fresh (same ▸ inside)
      obtain ⟨label, origin⟩ := offers.told j inside cost found
      obtain ⟨label', origin'⟩ := Labels.offerAt (old.offerOther _ other) (old.offerOtherFrom _ other) row
        (base + cost - p.row[row] - p.col[j])
      rw [label, origin, label', origin']
      exact ⟨rfl, rfl⟩

end Offers

theorem relaxOk (distinct : cols.Nodup)
    (fits : ∀ j ∈ cols, ∀ cost, costs[row][j] = some cost →
      p.reach w base cost row j = .ok (base + cost - p.row[row] - p.col[j])) :
    ∃ next, relax w costs p base row cols labels = .ok next ∧ Offers costs p row base cols labels next := by
  induction cols generalizing labels with
  | nil => exact ⟨labels, rfl, by simp, by simp⟩
  | cons col rest ih =>
    obtain ⟨fresh, distinct⟩ := List.nodup_cons.mp distinct
    have restFits : ∀ j ∈ rest, ∀ cost, costs[row][j] = some cost →
        p.reach w base cost row j = .ok (base + cost - p.row[row] - p.col[j]) :=
      fun j member => fits j (List.mem_cons_of_mem _ member)
    simp only [relax]
    cases has : costs[row][col] with
    | none =>
      obtain ⟨next, done, offers⟩ := @ih labels distinct restFits
      exact ⟨next, done, offers.skip has⟩
    | some price =>
      simp only [fits col List.mem_cons_self price has, bind, Except.bind]
      obtain ⟨next, done, offers⟩ :=
        @ih (labels.offer row col (base + price - p.row[row] - p.col[col])) distinct restFits
      exact ⟨next, done, offers.cons fresh has⟩

structure Least (labels : Labels n) (cols : List (Fin n)) (choice : Choice n) : Prop where
  label : labels.cost[choice.col] = some choice.cost
  stands : cols[choice.place]? = some choice.col
  least : ∀ j ∈ cols, ∀ x, labels.cost[j] = some x → choice.cost ≤ x

namespace Least
variable {seen : List (Fin n)} {choice : Choice n} {col : Fin n}

theorem keep (least : Least labels seen choice) (known : ∀ x, labels.cost[col] = some x → choice.cost ≤ x) :
    Least labels (seen ++ [col]) choice := by
  have stands := least.stands
  refine ⟨least.label, ?_, ?_⟩
  · rw [List.getElem?_append_left (List.getElem?_eq_some_iff.mp stands).1]
    exact stands
  · intro j member x found
    rcases List.mem_append.mp member with before | here
    · exact least.least j before x found
    · rw [List.mem_singleton.mp here] at found
      exact known x found

theorem last {x : Int} (label : labels.cost[col] = some x)
    (known : ∀ j ∈ seen, ∀ y, labels.cost[j] = some y → x ≤ y) :
    Least labels (seen ++ [col]) ⟨col, x, seen.length⟩ := by
  refine ⟨label, by simp, ?_⟩
  intro j member y found
  rcases List.mem_append.mp member with before | here
  · exact known j before y found
  · rw [List.mem_singleton.mp here, label] at found
    exact Int.le_of_eq (Option.some.inj found)

end Least

theorem preferCases (best : Option (Choice n)) (col : Fin n) (place : Nat) :
    (prefer m labels col place best = best ∧
      ∀ x, labels.cost[col] = some x →
        ∃ known, best = some known ∧ known.cost ≤ x ∧ (x = known.cost → m.rowOf[col] ≠ none)) ∨
    ∃ x, labels.cost[col] = some x ∧ prefer m labels col place best = some ⟨col, x, place⟩ ∧
      ∀ known, best = some known → x ≤ known.cost ∧ (x = known.cost → m.rowOf[col] = none) := by
  unfold prefer
  cases found : labels.cost[col] with
  | none => exact .inl ⟨rfl, nofun⟩
  | some x =>
    cases best with
    | none => exact .inr ⟨x, rfl, rfl, nofun⟩
    | some known =>
      by_cases better : x < known.cost ∨ (x = known.cost ∧ m.rowOf[col] = none)
      · refine .inr ⟨x, rfl, if_pos better, ?_⟩
        intro other same
        obtain rfl := Option.some.inj same
        rcases better with less | ⟨equal, free⟩
        · exact ⟨Int.le_of_lt less, fun equal => absurd equal (Int.ne_of_lt less)⟩
        · exact ⟨Int.le_of_eq equal, fun _ => free⟩
      · refine .inl ⟨if_neg better, ?_⟩
        intro y same
        obtain rfl := Option.some.inj same
        obtain ⟨notLess, notFree⟩ := not_or.mp better
        exact ⟨known, rfl, by omega, fun equal free => notFree ⟨equal, free⟩⟩

theorem chooseKeeps {good : List (Fin n) → Option (Choice n) → Prop}
    (step : ∀ seen col best, good seen best → good (seen ++ [col]) (prefer m labels col seen.length best))
    {seen : List (Fin n)} {best : Option (Choice n)} (start : good seen best) :
    good (seen ++ cols) (choose m labels cols seen.length best) := by
  induction cols generalizing seen best with
  | nil => simpa [choose] using start
  | cons col rest ih =>
    have longer : (seen ++ [col]).length = seen.length + 1 := by simp
    have split : seen ++ col :: rest = (seen ++ [col]) ++ rest := by simp
    simp only [choose]
    rw [← longer, split]
    exact ih (step seen col best start)

structure LeastOf (labels : Labels n) (seen : List (Fin n)) (best : Option (Choice n)) : Prop where
  blank : best = none → ∀ j ∈ seen, labels.cost[j] = none
  held : ∀ choice, best = some choice → Least labels seen choice

theorem LeastOf.prefer {seen : List (Fin n)} {best : Option (Choice n)} (least : LeastOf labels seen best) (col : Fin n) :
    LeastOf labels (seen ++ [col]) (prefer m labels col seen.length best) := by
  rcases @preferCases n m labels best col seen.length with ⟨same, known⟩ | ⟨x, label, made, less⟩
  · rw [same]
    refine ⟨?_, ?_⟩
    · intro isNone j member
      rcases List.mem_append.mp member with before | here
      · exact least.blank isNone j before
      · rw [List.mem_singleton.mp here, ← Option.not_isSome_iff_eq_none, Option.isSome_iff_exists]
        intro ⟨x, found⟩
        obtain ⟨best, isSome, _⟩ := known x found
        rw [isNone] at isSome
        cases isSome
    · intro choice isSome
      refine (least.held choice isSome).keep ?_
      intro x found
      obtain ⟨best, isBest, le, _⟩ := known x found
      rw [isSome] at isBest
      obtain rfl := Option.some.inj isBest
      exact le
  · rw [made]
    refine ⟨nofun, ?_⟩
    intro choice isSome
    obtain rfl := Option.some.inj isSome
    refine .last label ?_
    intro j before y found
    cases isBest : best with
    | none =>
      rw [least.blank isBest j before] at found
      cases found
    | some known =>
      exact Int.le_trans (less known isBest).1 ((least.held known isBest).least j before y found)

theorem chooseLeast : LeastOf labels cols (choose m labels cols 0 none) :=
  @chooseKeeps n m labels cols (LeastOf labels) (fun _ col _ least => least.prefer col) [] none ⟨by simp, nofun⟩

structure Knows (s : Search n) : Prop where
  distinct : s.remaining.Nodup
  open_ : ∀ j, j ∈ s.remaining ↔ j ∉ s.cols

def Ends (costs : Costs n) (most : Int) (p : Potentials n) (m : Matching n) (first : Fin n) :
    Except Failure (Choice n × Search n) → Prop
  | .ok (sink, s) => ∃ older, s.cols = sink.col :: older ∧
      Found costs most p m first s.labels s.rows older sink.col sink.cost
  | .error failure => failure = .infeasible first.val ∧ ∃ rows cols, Crowded costs (first.val + 1) rows cols

theorem Knows.relaxed {s : Search n} (knows : Knows s)
    (fits : ∀ (j : Fin n) cost, j ∉ s.cols → costs[row][j] = some cost → StepFits w p base cost row j) :
    ∃ next, relax w costs p base row s.remaining s.labels = .ok next ∧
      Offered costs p row base s.cols s.labels next := by
  obtain ⟨next, done, offers⟩ := @relaxOk w n costs base p row s.labels s.remaining knows.distinct (by
    intro j member cost has
    exact (fits j cost ((knows.open_ j).mp member) has).reach)
  refine ⟨next, done, ?_, ?_⟩
  · intro j way
    exact offers.kept j (way.imp_left fun settled remaining => (knows.open_ j).mp remaining settled)
  · intro j cost outside has
    exact offers.told j ((knows.open_ j).mpr outside) cost has

theorem relaxOffered {s : Search n} (knows : Knows s)
    (scan : Scan costs most p m first s.labels s.rows s.cols base)
    (pending : Pending m first s.labels s.rows s.cols row base) (ready : Ready costs most first.val p m)
    (room : most * roomFactor n ≤ w.top) :
    ∃ next, relax w costs p base row s.remaining s.labels = .ok next ∧
      Offered costs p row base s.cols s.labels next :=
  knows.relaxed fun j cost _ has => pending.fits scan ready room j (ready.within row j cost has)

theorem takeOutKnows {s : Search n} (knows : Knows s) {next : Labels n} {choice : Choice n}
    (least : Least next s.remaining choice) :
    Knows ⟨next, takeOut s.remaining choice.place, row :: s.rows, choice.col :: s.cols⟩ := by
  obtain ⟨inside, stands⟩ := List.getElem?_eq_some_iff.mp least.stands
  have perm := takeOutPerm s.remaining choice.place inside
  rw [stands] at perm
  obtain ⟨gone, distinct⟩ := List.nodup_cons.mp (perm.nodup_iff.mp knows.distinct)
  refine ⟨distinct, ?_⟩
  intro j
  have member := perm.mem_iff (a := j)
  rw [knows.open_ j, List.mem_cons] at member
  rw [List.mem_cons, not_or, member]
  refine ⟨fun here => ⟨fun same => gone (same ▸ here), .inr here⟩, ?_⟩
  intro ⟨other, way⟩
  exact way.resolve_left other

theorem advanceCases {s : Search n} (knows : Knows s) {next : Labels n}
    (relaxed : relax w costs p base row s.remaining s.labels = .ok next) :
    (advance w costs p m first row base s = .error (.infeasible first.val) ∧
      ∀ j : Fin n, j ∉ s.cols → next.cost[j] = none) ∨
    ∃ choice, advance w costs p m first row base s =
        .ok (choice, ⟨next, takeOut s.remaining choice.place, row :: s.rows, choice.col :: s.cols⟩) ∧
      choice.col ∉ s.cols ∧ next.cost[choice.col] = some choice.cost ∧
      (∀ (j : Fin n) y, j ∉ s.cols → next.cost[j] = some y → choice.cost ≤ y) ∧
      Knows ⟨next, takeOut s.remaining choice.place, row :: s.rows, choice.col :: s.cols⟩ := by
  obtain ⟨blank, least⟩ := @chooseLeast n m next s.remaining
  simp only [Dense.advance, relaxed, bind, Except.bind]
  cases chosen : choose m next s.remaining 0 none with
  | none => exact .inl ⟨rfl, fun j outside => blank chosen j ((knows.open_ j).mpr outside)⟩
  | some choice =>
    have isLeast := least choice chosen
    refine .inr ⟨choice, rfl, (knows.open_ _).mp (List.mem_of_getElem? isLeast.stands), isLeast.label, ?_,
      takeOutKnows knows isLeast⟩
    exact fun j y outside found => isLeast.least j ((knows.open_ j).mpr outside) y found

structure Underway (costs : Costs n) (most : Int) (p : Potentials n) (m : Matching n) (first row : Fin n) (base : Int)
    (s : Search n) : Prop where
  knows : Knows s
  scan : Scan costs most p m first s.labels s.rows s.cols base
  pending : Pending m first s.labels s.rows s.cols row base

theorem knowsStart (labels : Labels n) : Knows (.start labels) :=
  ⟨List.nodup_reverse.mpr (List.nodup_finRange n), by simp [Search.start]⟩

theorem underwayStart (labels : Labels n) (waiting : m.colOf[first] = none) :
    Underway costs most p m first first 0 (.start labels) := by
  refine ⟨knowsStart labels, Scan.start ?_, Pending.start _ waiting⟩
  simp [Search.start, Labels.clear]

theorem Underway.advance {s : Search n} (underway : Underway costs most p m first row base s)
    (ready : Ready costs most first.val p m) (room : most * roomFactor n ≤ w.top) :
    (advance w costs p m first row base s = .error (.infeasible first.val) ∧
      ∃ rows cols, Crowded costs (first.val + 1) rows cols) ∨
    ∃ choice next, advance w costs p m first row base s = .ok (choice, next) ∧ next.cols = choice.col :: s.cols ∧
      (m.rowOf[choice.col] = none → Found costs most p m first next.labels next.rows s.cols choice.col choice.cost) ∧
      ∀ after, m.rowOf[choice.col] = some after → Underway costs most p m first after choice.cost next := by
  obtain ⟨knows, scan, pending⟩ := underway
  have pairs := ready.certificate.pairs
  have waiting := pairs.late (Nat.le_refl first.val)
  obtain ⟨next, relaxed, offered⟩ := relaxOffered knows scan pending ready room
  have wider := scan.relax ready pending offered
  have swept := pending.swept
  rcases @advanceCases w n costs base p m first row s knows next relaxed with
    ⟨failed, none⟩ | ⟨choice, made, fresh, label, least, after⟩
  · exact .inl ⟨failed, row :: s.rows, s.cols, wider.crowded pairs swept none⟩
  · have settled := wider.settle fresh label least
    refine .inr ⟨choice, _, made, rfl, fun free => ⟨settled, swept, free, label⟩, ?_⟩
    intro row' partner
    exact ⟨after, settled, Pending.next wider.toSweep pairs.agree waiting swept fresh label partner⟩

theorem searchFromEnds (ready : Ready costs most first.val p m) (room : most * roomFactor n ≤ w.top) {fuel : Nat}
    {s : Search n} (underway : Underway costs most p m first row base s) (enough : fuel + s.cols.length = n) :
    Ends costs most p m first (searchFrom w costs p m first fuel row base s) := by
  -- The induction is on the fuel, which counts the columns that are not settled: rows and settled columns are equally
  -- many, so when none is left there is one row more than there are rows.
  induction fuel generalizing s row base with
  | zero =>
    have few := Pending.fewRows underway.scan underway.pending ready.certificate.pairs
    have size := underway.pending.size
    omega
  | succ fuel ih =>
    rcases underway.advance ready room with ⟨failed, crowded⟩ | ⟨choice, next, made, cols, free, later⟩
    · simp only [searchFrom, failed, bind, Except.bind]
      exact ⟨rfl, crowded⟩
    · cases partner : m.rowOf[choice.col] with
      | none =>
        simp only [searchFrom, made, bind, Except.bind, pure, Except.pure, partner]
        exact ⟨s.cols, cols, free partner⟩
      | some after =>
        simp only [searchFrom, made, bind, Except.bind, partner]
        refine ih (later after partner) ?_
        rw [cols, List.length_cons]
        omega

theorem searchEnds (ready : Ready costs most first.val p m) (room : most * roomFactor n ≤ w.top) :
    Ends costs most p m first (search w costs p m labels first) :=
  searchFromEnds ready room (underwayStart labels (ready.certificate.pairs.late (Nat.le_refl _))) (by simp [Search.start])

theorem commitEnds {s : State n} {sink : Choice n} {t : Search n} {older : List (Fin n)}
    (settled : t.cols = sink.col :: older)
    (found : Found costs most s.potentials s.matching first t.labels t.rows older sink.col sink.cost)
    (ready : Ready costs most first.val s.potentials s.matching) (room : most * roomFactor n ≤ w.top) :
    ∃ next, commit w s first sink t = .ok next ∧
      Augmented costs most first s.potentials s.matching next.potentials next.matching sink.cost := by
  obtain ⟨q, new, updated, walked, augmented⟩ := found.commit ready room
  refine ⟨⟨q, new, t.labels⟩, ?_, augmented⟩
  simp only [commit, settled, updated, walked, bind, Except.bind, pure, Except.pure]

theorem commitOk {s next : State n} {sink : Choice n} {found : Search n} (done : commit w s first sink found = .ok next) :
    s.potentials.update w s.matching found.labels first sink.cost found.rows found.cols = .ok next.potentials ∧
      s.matching.flipPath found.labels.reachedFrom first sink.col = .ok next.matching ∧ next.labels = found.labels := by
  obtain ⟨_, updated, done⟩ := bindOk.mp done
  obtain ⟨_, walked, done⟩ := bindOk.mp done
  cases done
  exact ⟨updated, walked, rfl⟩

theorem augmentEnds {s : State n} (ready : Ready costs most first.val s.potentials s.matching)
    (room : most * roomFactor n ≤ w.top) :
    (∃ next sink reached, augment w costs s first = (next, .ok (.denseReached first.val sink reached)) ∧
      Augmented costs most first s.potentials s.matching next.potentials next.matching reached) ∨
    (augment w costs s first = (s, .error (.infeasible first.val)) ∧
      ∃ rows cols, Crowded costs (first.val + 1) rows cols) := by
  have ends := @searchEnds w n costs most s.potentials s.matching first s.labels ready room
  cases result : search w costs s.potentials s.matching s.labels first with
  | error failure =>
    rw [result] at ends
    obtain ⟨same, crowded⟩ := ends
    refine .inr ⟨?_, crowded⟩
    simp only [augment, result, same]
  | ok out =>
    obtain ⟨sink, t⟩ := out
    rw [result] at ends
    obtain ⟨older, settled, found⟩ := ends
    obtain ⟨next, committed, augmented⟩ := commitEnds settled found ready room
    refine .inl ⟨next, sink.col, sink.cost, ?_, augmented⟩
    simp only [augment, result, committed]

theorem rowsEnd {rows : List (Fin n)} (order : rows.map Fin.val = List.range' 0 rows.length)
    (within : CostsWithin costs most) (nonneg : 0 ≤ most) (room : most * roomFactor n ≤ w.top) (watch : Watch)
    (emitted : Nat) :
    ∃ l, l ≤ rows.length ∧
      Advanced costs most l (rowByRow watch (augment w costs) rows emitted (.start n)).state.potentials
        (rowByRow watch (augment w costs) rows emitted (.start n)).state.matching
        (rowByRow watch (augment w costs) rows emitted (.start n)).events ∧
      RowsEnded watch (fun i : Fin n => ∃ rows cols, Crowded costs (i.val + 1) rows cols) emitted 0 l rows.length
        (rowByRow watch (augment w costs) rows emitted (.start n)).result := by
  obtain ⟨l, _, high, _, state, ended⟩ := @rowByRowEnds _ n watch (augment w costs)
    (fun k s events => Advanced costs most k s.potentials s.matching events)
    (fun i => ∃ rows cols, Crowded costs (i.val + 1) rows cols) (by
      intro i s events advanced
      rcases augmentEnds (advanced.ready within nonneg) room with ⟨next, _, _, made, step⟩ | ⟨failed, crowded⟩
      · exact .inl ⟨next, _, made, advanced.row step rfl⟩
      · exact .inr ⟨s, failed, advanced, crowded⟩) rows 0 emitted (.start n) [] order .start
  rw [Nat.zero_add] at high ended
  exact ⟨l, high, state, ended⟩

theorem solveEnds {table : Square w n} (valid : table.toTable.Valid) (room : Roomy w table.largest n) (watch : Watch)
    (emitted : Nat) :
    ∃ s l, (solve watch emitted table).state = some s ∧
      Advanced table.costs table.largest l s.potentials s.matching (solve watch emitted table).events ∧
      Solved watch table.costs (emitted + 1) l s.matching (solve watch emitted table).result := by
  have nonneg := Table.largestNonneg table.toTable
  have within := Square.costsWithin valid
  have accepted : requireRoom w table.largest n = .ok () := (requireRoomOk nonneg).mpr room
  obtain ⟨l, _, advanced, ended⟩ := rowsEnd (finRangeOrder n) within nonneg room.product watch (emitted + 1)
  rw [List.length_finRange] at ended
  simp only [solve, accepted, matchRows]
  generalize rowByRow watch (augment w table.costs) (List.finRange n) (emitted + 1) (.start n) = e at advanced ended
  obtain ⟨state, events, solved⟩ := @finishSolved _ n table.costs e.state.matching watch (emitted + 1) l e finish
    (.denseClosed n) ended (by
      intro all
      have pairs := (advanced.ready within nonneg).certificate.pairs
      rw [all] at pairs
      simp only [finish, pairs.columnsOk, List.length_map, List.length_finRange]) rfl
  refine ⟨e.state, l, congrArg some state, advanced.told ?_, solved⟩
  rw [← events]
  rfl

theorem solveRefused {table : Square w n} (tight : ¬ Roomy w table.largest n) (watch : Watch) (emitted : Nat) :
    ∃ cause, (solve watch emitted table).result = .error (.overflow cause) := by
  obtain ⟨cause, refused⟩ := requireRoomRefuses (Table.largestNonneg table.toTable) tight
  have refused : requireRoom w table.largest n = .error (.overflow cause) := refused
  exact ⟨cause, by simp only [solve, refused]⟩

theorem solveStops {table : Square w n} (valid : table.toTable.Valid) (watch : Watch) (emitted : Nat) :
    Stops watch (Roomy w table.largest n) (fun _ => ∃ rows cols, Crowded table.costs n rows cols) (Optimum table.costs)
      (solve watch emitted table).result := by
  by_cases room : Roomy w table.largest n
  · obtain ⟨_, _, _, advanced, solved⟩ := solveEnds valid room watch emitted
    exact solved.stops advanced (Square.costsWithin valid) (Table.largestNonneg table.toTable)
  · obtain ⟨cause, refused⟩ := solveRefused room watch emitted
    rw [refused]
    exact room

end OptimalMatching.Dense
