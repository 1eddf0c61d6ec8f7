import OptimalMatching.Proofs.Labels
import OptimalMatching.Proofs.Matching

/-! A search for a shortest alternating path, step by step and without any bound on its numbers: it visits a row, offers
the ways over this row to the open columns, and settles one of least label. All it needs of the potentials is that no
pairing is priced below zero. -/
namespace OptimalMatching

variable {n : Nat}

def entry (m : Matching n) (dist : Fin n → Int) (row : Fin n) : Int :=
  match m.colOf[row] with
  | none => 0
  | some col => dist col

theorem entrySome {m : Matching n} {dist : Fin n → Int} {row col : Fin n} (found : m.colOf[row] = some col) :
    entry m dist row = dist col := by
  simp only [entry, found]

theorem entryNone {m : Matching n} {dist : Fin n → Int} {row : Fin n} (found : m.colOf[row] = none) :
    entry m dist row = 0 := by
  simp only [entry, found]

structure Sweep (costs : Costs n) (p : Potentials n) (m : Matching n) (first : Fin n) (labels : Labels n)
    (rows cols : List (Fin n)) (base : Int) : Prop where
  distinct : rows.Nodup
  visited : ∀ i ∈ rows, i = first ∨ ∃ c ∈ cols, m.colOf[i] = some c
  trail : Trail m labels.reachedFrom first cols
  settled : ∀ c ∈ cols, ∃ x, labels.cost[c] = some x ∧ x ≤ base
  ahead : ∀ (j : Fin n) x, j ∉ cols → labels.cost[j] = some x → base ≤ x
  offered : ∀ i ∈ rows, ∀ (j : Fin n) cost, costs[i][j] = some cost →
    ∃ x, labels.cost[j] = some x ∧ x ≤ entry m labels.dist i + (cost - p.row[i] - p.col[j])
  origin : ∀ (j : Fin n) x, labels.cost[j] = some x → ∃ i ∈ rows, labels.reachedFrom[j] = some i ∧
    ∃ cost, costs[i][j] = some cost ∧ x = entry m labels.dist i + (cost - p.row[i] - p.col[j])

structure Pending (m : Matching n) (first : Fin n) (labels : Labels n) (rows cols : List (Fin n)) (row : Fin n)
    (base : Int) : Prop where
  fresh : row ∉ rows
  way : row = first ∨ ∃ c ∈ cols, m.colOf[row] = some c
  entered : entry m labels.dist row = base
  complete : ∀ i : Fin n, (i = first ∨ ∃ c ∈ cols, m.colOf[i] = some c) → i = row ∨ i ∈ rows
  matched : ∀ c ∈ cols, ∃ i, m.rowOf[c] = some i
  size : rows.length = cols.length

structure Swept (m : Matching n) (first : Fin n) (rows cols : List (Fin n)) : Prop where
  complete : ∀ i : Fin n, (i = first ∨ ∃ c ∈ cols, m.colOf[i] = some c) → i ∈ rows
  matched : ∀ c ∈ cols, ∃ i, m.rowOf[c] = some i
  size : rows.length = cols.length + 1

namespace Sweep
variable {costs : Costs n} {base : Int} {p : Potentials n} {m : Matching n} {first row : Fin n}
  {labels next : Labels n} {rows cols : List (Fin n)}

theorem start (blank : ∀ j : Fin n, labels.cost[j] = none) : Sweep costs p m first labels [] [] 0 := by
  have unlabelled : ∀ (j : Fin n) x, labels.cost[j] ≠ some x := by
    intro j x found
    rw [blank] at found
    cases found
  refine ⟨List.nodup_nil, by simp, .nil, by simp, ?_, by simp, ?_⟩
  · exact fun j x _ found => absurd found (unlabelled j x)
  · exact fun j x found => absurd found (unlabelled j x)

theorem distSettled (sweep : Sweep costs p m first labels rows cols base) {c : Fin n} (member : c ∈ cols) :
    labels.cost[c] = some (labels.dist c) ∧ labels.dist c ≤ base := by
  obtain ⟨x, found, le⟩ := sweep.settled c member
  rw [Labels.distSome found]
  exact ⟨found, le⟩

theorem entryKept (offered : Offered costs p row base cols labels next) {i : Fin n}
    (way : i = first ∨ ∃ c ∈ cols, m.colOf[i] = some c) (waiting : m.colOf[first] = none) :
    entry m next.dist i = entry m labels.dist i := by
  rcases way with same | ⟨c, inside, partner⟩
  · rw [same, entryNone waiting, entryNone waiting]
  · rw [entrySome partner, entrySome partner, offered.dist inside]

section Relax
variable (sweep : Sweep costs p m first labels rows cols base) (waiting : m.colOf[first] = none)
  (pending : Pending m first labels rows cols row base) (offered : Offered costs p row base cols labels next)
include sweep waiting pending offered

theorem relaxOrigin {j : Fin n} {x : Int} (found : next.cost[j] = some x) :
    ∃ i ∈ row :: rows, next.reachedFrom[j] = some i ∧
      ∃ cost, costs[i][j] = some cost ∧ x = entry m next.dist i + (cost - p.row[i] - p.col[j]) := by
  rcases offered.cases found with ⟨before, kept⟩ | ⟨made, cost, has, exact⟩
  · obtain ⟨i, inside, reached, cost, has, exact⟩ := sweep.origin j x before
    refine ⟨i, List.mem_cons_of_mem _ inside, by rw [kept, reached], cost, has, ?_⟩
    rw [entryKept offered (sweep.visited i inside) waiting]
    exact exact
  · refine ⟨row, List.mem_cons_self, made, cost, has, ?_⟩
    rw [entryKept offered pending.way waiting, pending.entered]
    omega

variable (feasible : ∀ (i j : Fin n) cost, costs[i][j] = some cost → 0 ≤ cost - p.row[i] - p.col[j])
include feasible

theorem relaxOffered {i j : Fin n} {cost : Int} (member : i ∈ row :: rows) (has : costs[i][j] = some cost) :
    ∃ x, next.cost[j] = some x ∧ x ≤ entry m next.dist i + (cost - p.row[i] - p.col[j]) := by
  rcases List.mem_cons.mp member with same | inside
  · subst same
    have nonneg := feasible i j cost has
    rw [entryKept offered pending.way waiting, pending.entered]
    by_cases closed : j ∈ cols
    · obtain ⟨x, found, le⟩ := sweep.settled j closed
      exact ⟨x, by rw [(offered.kept j (.inl closed)).1, found], by omega⟩
    · obtain ⟨x, found, le⟩ := offered.least closed has
      exact ⟨x, found, by omega⟩
  · obtain ⟨x, found, le⟩ := sweep.offered i inside j cost has
    obtain ⟨y, now, fall⟩ := offered.falls found
    rw [entryKept offered (sweep.visited i inside) waiting]
    exact ⟨y, now, by omega⟩

theorem relax : Sweep costs p m first next (row :: rows) cols base := by
  refine ⟨List.nodup_cons.mpr ⟨pending.fresh, sweep.distinct⟩, ?_, ?_, ?_, ?_, ?_, ?_⟩
  · intro i member
    rcases List.mem_cons.mp member with same | inside
    · rw [same]
      exact pending.way
    · exact sweep.visited i inside
  · refine sweep.trail.congr (fun _ _ _ partner => partner) ?_
    intro c member
    exact (offered.kept c (.inl member)).2
  · intro c member
    rw [(offered.kept c (.inl member)).1]
    exact sweep.settled c member
  · intro j x outside found
    rcases offered.cases found with ⟨before, _⟩ | ⟨_, cost, has, exact⟩
    · exact sweep.ahead j x outside before
    · have nonneg := feasible row j cost has
      omega
  · exact fun i member j cost has => sweep.relaxOffered waiting pending offered feasible member has
  · exact fun j x found => sweep.relaxOrigin waiting pending offered found

end Relax

/- The way to a column of least label is final. -/
theorem settle (sweep : Sweep costs p m first labels rows cols base) {col : Fin n} {x : Int}
    (fresh : col ∉ cols) (found : labels.cost[col] = some x)
    (min : ∀ (j : Fin n) y, j ∉ cols → labels.cost[j] = some y → x ≤ y) :
    Sweep costs p m first labels rows (col :: cols) x := by
  obtain ⟨i, inside, reached, _⟩ := sweep.origin col x found
  have later := sweep.ahead col x fresh found
  refine ⟨sweep.distinct, ?_, .cons fresh reached (sweep.visited i inside) sweep.trail, ?_, ?_, sweep.offered,
    sweep.origin⟩
  · intro i member
    rcases sweep.visited i member with same | ⟨c, inside, partner⟩
    · exact .inl same
    · exact .inr ⟨c, List.mem_cons_of_mem _ inside, partner⟩
  · intro c member
    rcases List.mem_cons.mp member with same | inside
    · rw [same]
      exact ⟨x, found, Int.le_refl x⟩
    · obtain ⟨y, known, le⟩ := sweep.settled c inside
      exact ⟨y, known, by omega⟩
  · intro j y outside known
    exact min j y (fun inside => outside (List.mem_cons_of_mem _ inside)) known

end Sweep

namespace Pending
variable {costs : Costs n} {base : Int} {p : Potentials n} {m : Matching n} {first row : Fin n}
  {labels : Labels n} {rows cols : List (Fin n)}

theorem start (labels : Labels n) (waiting : m.colOf[first] = none) : Pending m first labels [] [] first 0 := by
  refine ⟨by simp, .inl rfl, entryNone waiting, ?_, by simp, rfl⟩
  intro i way
  simpa using way

theorem swept (pending : Pending m first labels rows cols row base) : Swept m first (row :: rows) cols := by
  refine ⟨?_, pending.matched, ?_⟩
  · intro i way
    exact List.mem_cons.mpr (pending.complete i way)
  · rw [List.length_cons, pending.size]

theorem next (sweep : Sweep costs p m first labels rows cols base)
    (agree : ∀ i j : Fin n, m.colOf[i] = some j ↔ m.rowOf[j] = some i) (waiting : m.colOf[first] = none)
    (swept : Swept m first rows cols) {col next : Fin n} {x : Int} (fresh : col ∉ cols)
    (found : labels.cost[col] = some x) (partner : m.rowOf[col] = some next) :
    Pending m first labels rows (col :: cols) next x := by
  have back := (agree next col).mpr partner
  refine ⟨?_, .inr ⟨col, List.mem_cons_self, back⟩, ?_, ?_, ?_, ?_⟩
  · intro member
    rcases sweep.visited next member with same | ⟨c, inside, other⟩
    · rw [same, waiting] at back
      cases back
    · rw [back] at other
      exact fresh (Option.some.inj other ▸ inside)
  · rw [entrySome back, Labels.distSome found]
  · intro i way
    rcases way with same | ⟨c, member, other⟩
    · exact .inr (swept.complete i (.inl same))
    · rcases List.mem_cons.mp member with isCol | inside
      · rw [isCol, agree, partner] at other
        exact .inl (Option.some.inj other).symm
      · exact .inr (swept.complete i (.inr ⟨c, inside, other⟩))
  · intro c member
    rcases List.mem_cons.mp member with isCol | inside
    · rw [isCol]
      exact ⟨next, partner⟩
    · exact swept.matched c inside
  · rw [List.length_cons, swept.size]

end Pending
end OptimalMatching
