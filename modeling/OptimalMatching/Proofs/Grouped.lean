import Mathlib.Algebra.Ring.Nat
import OptimalMatching.Graph.Grouped
import OptimalMatching.Proofs.Progress

/-! Grouping keeps the edges of each row in the order in which they were added. The pass that fills the places gives
each row the places between its start and the start of the next, and no two edges the same one. -/
namespace OptimalMatching

variable {w : Width} {k rows cols : Nat}

def rowArcs (edges : List (Edge rows cols)) (row : Fin rows) : List (Arc cols) :=
  (edges.filter fun e => e.row = row).map fun e => (e.col, e.cost)

theorem rowArcsOwn (e : Edge rows cols) (rest : List (Edge rows cols)) :
    rowArcs (e :: rest) e.row = (e.col, e.cost) :: rowArcs rest e.row := by
  simp [rowArcs]

theorem rowArcsOther {e : Edge rows cols} {row : Fin rows} (other : row ≠ e.row) (rest : List (Edge rows cols)) :
    rowArcs (e :: rest) row = rowArcs rest row := by
  have differ : ¬ e.row = row := fun same => other same.symm
  simp [rowArcs, differ]

theorem rowArcsAppend (front back : List (Edge rows cols)) (row : Fin rows) :
    rowArcs (front ++ back) row = rowArcs front row ++ rowArcs back row := by
  rw [rowArcs, List.filter_append, List.map_append]
  rfl

theorem memRowArcs {edges : List (Edge rows cols)} {row : Fin rows} {col : Fin cols} {cost : Int} :
    (col, cost) ∈ rowArcs edges row ↔ ⟨row, col, cost⟩ ∈ edges := by
  simp only [rowArcs, List.mem_map, List.mem_filter, decide_eq_true_eq, Prod.mk.injEq]
  refine ⟨?_, fun member => ⟨_, ⟨member, rfl⟩, rfl, rfl⟩⟩
  intro ⟨e, ⟨member, same⟩, isCol, isCost⟩
  obtain ⟨row', col', cost'⟩ := e
  simp only at same isCol isCost
  rw [← same, ← isCol, ← isCost]
  exact member

namespace Grouped

theorem countRowsAt (edges : List (Edge rows cols)) (degree : Vector Nat rows) (row : Fin rows) :
    (countRows edges degree)[row] = degree[row] + (rowArcs edges row).length := by
  induction edges generalizing degree with
  | nil => simp [countRows, rowArcs]
  | cons e rest ih =>
    rw [countRows, ih]
    by_cases same : row = e.row
    · subst same
      rw [rowArcsOwn, List.length_cons]
      rw [readSet, if_pos rfl]
      omega
    · rw [rowArcsOther same, readSet, if_neg same]

theorem runningTotalsAt {total i : Nat} {degrees : List Nat} (inside : i ≤ degrees.length) :
    (runningTotals total degrees)[i]? = some (total + (degrees.take i).sum) := by
  induction degrees generalizing total i with
  | nil =>
    obtain rfl : i = 0 := by simpa using inside
    simp [runningTotals]
  | cons d rest ih =>
    cases i with
    | zero => simp [runningTotals]
    | succ i =>
      rw [List.length_cons] at inside
      rw [runningTotals, List.getElem?_cons_succ, ih (by omega), List.take_succ_cons, List.sum_cons]
      exact congrArg some (by omega)

theorem startsAt (degree : Vector Nat rows) {i : Nat} (inside : i < rows + 1) :
    (starts degree)[i] = (degree.toList.take i).sum := by
  have found := @runningTotalsAt 0 i degree.toList (by simp; omega)
  obtain ⟨_, same⟩ := List.getElem?_eq_some_iff.mp found
  rw [Nat.zero_add] at same
  simpa [starts] using same

theorem startsStep (degree : Vector Nat rows) (row : Fin rows) :
    (starts degree)[row.val + 1] = (starts degree)[row.val] + degree[row] := by
  rw [startsAt, startsAt, List.take_succ_eq_append_getElem (by simp), List.sum_append]
  simp

theorem startsMono (degree : Vector Nat rows) {i j : Nat} (le : i ≤ j) (inside : j < rows + 1) :
    (starts degree)[i] ≤ (starts degree)[j] := by
  induction j with
  | zero =>
    obtain rfl : i = 0 := by omega
    exact Nat.le_refl _
  | succ j ih =>
    by_cases last : i = j + 1
    · subst last
      exact Nat.le_refl _
    · have before := ih (by omega) (by omega)
      have step := startsStep degree ⟨j, by omega⟩
      simp only at step
      omega

theorem fillOk {start : Vector Nat (rows + 1)} {edges : List (Edge rows cols)} {used : Vector Nat rows}
    {places : Array (Option (Arc cols))}
    (mono : ∀ i j (_ : i ≤ j) (inside : j < rows + 1), start[i] ≤ start[j])
    (space : ∀ i : Fin rows, start[i.val] + used[i] + (rowArcs edges i).length ≤ start[i.val + 1])
    (fits : start[rows] ≤ places.size) :
    ∃ out, fill start edges used places = .ok out ∧ ∀ i : Fin rows,
      (∀ t, t < used[i] → out[start[i.val] + t]? = places[start[i.val] + t]?) ∧
      ∀ t arc, (rowArcs edges i)[t]? = some arc → out[start[i.val] + used[i] + t]? = some (some arc) := by
  -- The places of a row lie before those of the rows behind it, so what is written for one row is read back for this
  -- row alone. The induction is on the edges, and `used` counts those of each row that have been written.
  induction edges generalizing used places with
  | nil => exact ⟨places, rfl, fun i => ⟨fun _ _ => rfl, by simp [rowArcs]⟩⟩
  | cons e rest ih =>
    have own := space e.row
    rw [rowArcsOwn, List.length_cons] at own
    have last := mono (e.row.val + 1) rows (by omega) (by omega)
    have inside : start[e.row.val] + used[e.row] < places.size := by omega
    have usedAt : ∀ i : Fin rows, (used.set e.row (used[e.row] + 1))[i] =
        if i = e.row then used[e.row] + 1 else used[i] := by
      intro i
      exact readSet ..
    obtain ⟨out, done, rows_⟩ := @ih (used.set e.row (used[e.row] + 1))
      (places.set (start[e.row.val] + used[e.row]) (some (e.col, e.cost)) inside) (by
        intro i
        have room := space i
        rw [usedAt]
        by_cases same : i = e.row
        · rw [if_pos same, same]
          omega
        · rw [if_neg same]
          rw [rowArcsOther same] at room
          exact room) (by simpa using fits)
    refine ⟨out, ?_, ?_⟩
    · simp only [fill]
      rw [dif_pos (by exact inside)]
      exact done
    · intro i
      obtain ⟨before, after⟩ := rows_ i
      rw [usedAt] at before after
      by_cases same : i = e.row
      · subst same
        rw [if_pos rfl] at before after
        refine ⟨?_, ?_⟩
        · intro t less
          rw [before t (by omega), Array.getElem?_set_ne]
          omega
        · intro t arc found
          rw [rowArcsOwn] at found
          cases t with
          | zero =>
            rw [List.getElem?_cons_zero] at found
            obtain rfl := Option.some.inj found
            rw [Nat.add_zero, before used[e.row] (by omega), Array.getElem?_set_self]
          | succ t =>
            rw [List.getElem?_cons_succ] at found
            have there := after t arc found
            rw [← there]
            congr 1
            omega
      · rw [if_neg same] at before after
        have room := space i
        refine ⟨?_, ?_⟩
        · intro t less
          rw [before t less, Array.getElem?_set_ne]
          -- the rows are apart, whichever comes first
          rcases Nat.lt_or_gt_of_ne (fun equal => same (Fin.ext equal)) with ahead | behind
          · have le := mono (i.val + 1) e.row.val (by omega) (by omega)
            omega
          · have le := mono (e.row.val + 1) i.val (by omega) (by omega)
            omega
        · intro t arc found
          rw [rowArcsOther same] at found
          exact after t arc found

theorem filterMapRange {α : Type} {f : Nat → Option α} {xs : List α} {first : Nat}
    (found : ∀ t x, xs[t]? = some x → f (first + t) = some x) :
    (List.range' first xs.length).filterMap f = xs := by
  induction xs generalizing first with
  | nil => rfl
  | cons x rest ih =>
    have head := found 0 x (by simp)
    rw [Nat.add_zero] at head
    rw [List.length_cons, List.range'_succ, List.filterMap_cons, head]
    have tail := @ih (first + 1) (by
      intro t y inside
      rw [Nat.add_assoc, Nat.add_comm 1 t]
      exact found (t + 1) y (by simpa using inside))
    simp only [tail]

theorem sumSet {xs : List Nat} {k : Nat} (inside : k < xs.length) : (xs.set k (xs[k] + 1)).sum = xs.sum + 1 := by
  have parts : xs = xs.take k ++ xs[k] :: xs.drop (k + 1) := by simp
  rw [List.set_eq_take_append_cons_drop, if_pos inside]
  conv => rhs; rw [parts]
  simp only [List.sum_append, List.sum_cons]
  omega

theorem countRowsSum (edges : List (Edge rows cols)) (degree : Vector Nat rows) :
    (countRows edges degree).toList.sum = degree.toList.sum + edges.length := by
  induction edges generalizing degree with
  | nil => simp [countRows]
  | cons e rest ih =>
    have one := @sumSet degree.toList e.row.val (by simp)
    rw [countRows, ih, Vector.toList_set, List.length_cons]
    simp only [Vector.getElem_toList, readVal] at one ⊢
    omega

def rowStarts (edges : List (Edge rows cols)) : Vector Nat (rows + 1) :=
  starts (countRows edges (Vector.replicate rows 0))

theorem rowStartsStep (edges : List (Edge rows cols)) (row : Fin rows) :
    (rowStarts edges)[row.val + 1] = (rowStarts edges)[row.val] + (rowArcs edges row).length := by
  rw [rowStarts, startsStep, countRowsAt]
  simp

theorem rowStartsLast (edges : List (Edge rows cols)) : (rowStarts edges)[rows] = edges.length := by
  have zeros : (Vector.replicate rows (0 : Nat)).toList.sum = 0 := by simp
  rw [rowStarts, startsAt, List.take_of_length_le (by simp), countRowsSum, zeros, Nat.zero_add]

theorem fillSize {start : Vector Nat (rows + 1)} {edges : List (Edge rows cols)} {used : Vector Nat rows}
    {places out : Array (Option (Arc cols))} (done : fill start edges used places = .ok out) : out.size = places.size := by
  induction edges generalizing used places with
  | nil =>
    cases done
    rfl
  | cons e rest ih =>
    simp only [fill] at done
    split at done
    case isTrue inside => rw [ih done, Array.size_set]
    case isFalse => cases done

theorem partsJoined {α : Type} {xs : List α} {start : Vector Nat (rows + 1)} {part : Fin rows → List α}
    (step : ∀ i : Fin rows, start[i.succ] = start[i.castSucc] + (part i).length)
    (last : start[Fin.last rows] = xs.length)
    (placed : ∀ (i : Fin rows) t x, (part i)[t]? = some x → xs[start[i.castSucc] + t]? = some x)
    {todo : List (Fin rows)} {first : Fin (rows + 1)} (order : todo.map Fin.val = List.range' first.val todo.length)
    (all : first.val + todo.length = rows) : xs.drop start[first] = todo.flatMap part := by
  induction todo generalizing first with
  | nil =>
    obtain rfl : first = Fin.last rows := Fin.ext all
    rw [last, List.drop_length, List.flatMap_nil]
  | cons i rest ih =>
    simp only [List.map_cons, List.length_cons, List.range'_succ, List.cons.injEq] at order
    obtain ⟨head, order⟩ := order
    obtain rfl : first = i.castSucc := Fin.ext head.symm
    have own : (xs.drop start[i.castSucc]).take (part i).length = part i := by
      refine List.ext_getElem? fun t => ?_
      rw [List.getElem?_take, List.getElem?_drop]
      split
      case isTrue inside => rw [List.getElem?_eq_getElem inside, placed i t _ (List.getElem?_eq_getElem inside)]
      case isFalse outside => rw [List.getElem?_eq_none (Nat.le_of_not_lt outside)]
    have fewer : i.succ.val + rest.length = rows := by
      rw [List.length_cons, Fin.val_castSucc] at all
      rw [Fin.val_succ]
      omega
    have later := ih order fewer
    rw [List.flatMap_cons, ← later, step i, ← List.drop_drop]
    conv => lhs; rw [← List.take_append_drop (part i).length (xs.drop start[i.castSucc]), own]

structure Groups (edges : List (Edge rows cols)) (grouped : Grouped rows cols) : Prop where
  first : grouped.start[(0 : Fin (rows + 1))] = 0
  ascending : ∀ i j : Fin (rows + 1), i ≤ j → grouped.start[i] ≤ grouped.start[j]
  last : grouped.start[Fin.last rows] = edges.length
  full : grouped.places.toList = ((List.finRange rows).flatMap (rowArcs edges)).map some
  each : ∀ i, grouped.arcs i = rowArcs edges i

structure Placed (edges : List (Edge rows cols)) (places : Array (Option (Arc cols))) : Prop where
  size : places.size = edges.length
  there : ∀ (i : Fin rows) t arc, (rowArcs edges i)[t]? = some arc →
    places[(rowStarts edges)[i.castSucc] + t]? = some (some arc)

theorem fillPlaced (edges : List (Edge rows cols)) :
    ∃ places, fill (rowStarts edges) edges (Vector.replicate rows 0) (Array.replicate edges.length none) = .ok places ∧
      Placed edges places := by
  obtain ⟨places, done, placed⟩ := @fillOk rows cols (rowStarts edges) edges (Vector.replicate rows 0)
    (Array.replicate edges.length none) (fun i j le inside => startsMono _ le inside) (by
      intro i
      rw [rowStartsStep]
      simp) (by simp [rowStartsLast])
  refine ⟨places, done, (fillSize done).trans Array.size_replicate, ?_⟩
  intro i t arc found
  have there := (placed i).2 t arc found
  simp only [readVal, Vector.getElem_replicate, Nat.add_zero] at there
  exact there

namespace Placed
variable {edges : List (Edge rows cols)} {places : Array (Option (Arc cols))}

theorem full (placed : Placed edges places) : places.toList = ((List.finRange rows).flatMap (rowArcs edges)).map some := by
  have step : ∀ i : Fin rows, (rowStarts edges)[i.succ] =
      (rowStarts edges)[i.castSucc] + ((rowArcs edges i).map (some : Arc cols → _)).length := by
    intro i
    rw [List.length_map]
    exact rowStartsStep edges i
  have last : (rowStarts edges)[Fin.last rows] = places.toList.length := (rowStartsLast edges).trans placed.size.symm
  have inside : ∀ (i : Fin rows) t x, ((rowArcs edges i).map some)[t]? = some x →
      places.toList[(rowStarts edges)[i.castSucc] + t]? = some x := by
    intro i t x found
    rw [List.getElem?_map, Option.map_eq_some_iff] at found
    obtain ⟨arc, inRow, rfl⟩ := found
    rw [Array.getElem?_toList]
    exact placed.there i t arc inRow
  have first : (rowStarts edges)[(0 : Fin (rows + 1))] = 0 := startsAt _ (Nat.succ_pos rows)
  have joined := @partsJoined rows _ places.toList _ _ step last inside (List.finRange rows) 0 (finRangeOrder rows) (by simp)
  rw [first, List.drop_zero] at joined
  rw [joined, List.map_flatMap]

theorem arcs (placed : Placed edges places) (i : Fin rows) :
    Grouped.arcs ⟨rowStarts edges, places⟩ i = rowArcs edges i := by
  have length : (rowStarts edges).get i.succ - (rowStarts edges).get i.castSucc = (rowArcs edges i).length := by
    change (rowStarts edges)[i.val + 1] - (rowStarts edges)[i.val] = _
    rw [rowStartsStep]
    omega
  simp only [Grouped.arcs]
  rw [length]
  exact filterMapRange fun t arc found => congrArg Option.join (placed.there i t arc found)

theorem groups (placed : Placed edges places) : Groups edges ⟨rowStarts edges, places⟩ :=
  ⟨startsAt _ (Nat.succ_pos rows), fun _ j le => startsMono _ le j.isLt, rowStartsLast edges, placed.full, placed.arcs⟩

end Placed

theorem ofGraphGroups (g : Graph w rows cols) : ∃ grouped, ofGraph g = .ok grouped ∧ Groups g.edges.toList grouped := by
  obtain ⟨places, done, placed⟩ := fillPlaced g.edges.toList
  refine ⟨⟨rowStarts g.edges.toList, places⟩, ?_, placed.groups⟩
  have size : g.size = g.edges.toList.length := rfl
  unfold ofGraph
  simp only [← rowStarts.eq_1, size, done, bind, Except.bind]
  exact if_pos (rowStartsLast g.edges.toList)

theorem ofGraphOk (g : Graph w rows cols) :
    ∃ grouped, ofGraph g = .ok grouped ∧ ∀ i, grouped.arcs i = rowArcs g.edges.toList i := by
  obtain ⟨grouped, made, groups⟩ := ofGraphGroups g
  exact ⟨grouped, made, groups.each⟩

theorem arcsOfGraph {g : Graph w rows cols} {grouped : Grouped rows cols} (made : ofGraph g = .ok grouped)
    (i : Fin rows) : grouped.arcs i = rowArcs g.edges.toList i := by
  obtain ⟨other, done, arcs⟩ := ofGraphOk g
  rw [made] at done
  cases done
  exact arcs i

theorem addUpStarts {degree : Vector Nat rows} {todo : List (Fin rows)} {start : Vector Nat (rows + 1)}
    (order : todo.map Fin.val = List.range' k todo.length) (all : k + todo.length = rows)
    (done : ∀ i : Fin (rows + 1), i.val ≤ k → start[i] = (starts degree)[i]) : addUp degree todo start = starts degree := by
  induction todo generalizing k start with
  | nil =>
    refine Vector.ext fun i inside => ?_
    exact done ⟨i, inside⟩ (by simp only [List.length_nil] at all; simp only; omega)
  | cons i rest ih =>
    rw [List.length_cons] at all
    simp only [List.map_cons, List.length_cons, List.range'_succ, List.cons.injEq] at order
    obtain ⟨rfl, order⟩ := order
    refine ih order (by omega) ?_
    intro j early
    rw [readSet]
    split
    case isTrue isNext =>
      have here := done i.castSucc (Nat.le_refl i.val)
      rw [isNext, here]
      exact (startsStep degree i).symm
    case isFalse other =>
      refine done j ?_
      rw [Fin.ext_iff, Fin.val_succ] at other
      omega

theorem emptiedResized {α β : Type} (xs : Array α) (size : Nat) (x : β) :
    resized (emptied xs) size x = Array.replicate size x := by
  simp [resized, emptied]

theorem buildSame (oldStart : Array Nat) (oldPlaces : Array (Option (Arc k))) (g : Graph w rows cols) :
    build oldStart oldPlaces g = ofGraph g := by
  have start : addUp (countRows g.edges.toList (Vector.replicate rows 0)) (List.finRange rows)
      ⟨resized (emptied oldStart) (rows + 1) 0, resizedSize _ _ _⟩ = rowStarts g.edges.toList := by
    refine addUpStarts (finRangeOrder rows) (by simp) ?_
    intro i zero
    obtain rfl : i = 0 := Fin.ext (Nat.le_zero.mp zero)
    simp [emptiedResized, readVal, startsAt]
  unfold build ofGraph
  dsimp only
  rw [start, emptiedResized]
  rfl

theorem rebuildSame (old : Grouped k k) (g : Graph w rows cols) : old.rebuild g = ofGraph g := buildSame _ _ g

end Grouped
end OptimalMatching
