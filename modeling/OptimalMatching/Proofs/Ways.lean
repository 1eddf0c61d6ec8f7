import OptimalMatching.Proofs.Augment
import OptimalMatching.Proofs.Graph

/-! Alternating ways from an unmatched row, and how long they are: a way goes to a column over a pairing, back to a row along
a matched pair, and on. A search settles columns in the order of their distances, and the labels of settled columns are
these distances. -/
namespace OptimalMatching

variable {n : Nat}

/-- An alternating way from row `first` to a column, by the columns before it, the latest first, and the sum of the reduced
costs of all its pairings. `priced` tells the costs at which a row and a column may be paired. -/
inductive Way (priced : Fin n → Fin n → Int → Prop) (p : Potentials n) (m : Matching n) (first : Fin n) :
    Fin n → List (Fin n) → Int → Prop
  | step {j : Fin n} {cost : Int} (cell : priced first j cost) :
      Way priced p m first j [] (cost - p.row[first] - p.col[j])
  | onward {before j row : Fin n} {older : List (Fin n)} {length back cost : Int}
      (way : Way priced p m first before older length) (pair : m.rowOf[before] = some row)
      (matched : priced row before back) (cell : priced row j cost) :
      Way priced p m first j (before :: older)
        (length + (back - p.row[row] - p.col[before]) + (cost - p.row[row] - p.col[j]))

structure PrimalDual (priced : Fin n → Fin n → Int → Prop) (p : Potentials n) (m : Matching n) : Prop where
  agree : ∀ i j : Fin n, m.colOf[i] = some j ↔ m.rowOf[j] = some i
  feasible : ∀ i j cost, priced i j cost → 0 ≤ cost - p.row[i] - p.col[j]
  tight : ∀ i j : Fin n, m.colOf[i] = some j → ∃ cost, priced i j cost ∧ cost - p.row[i] - p.col[j] = 0

structure Distance (priced : Fin n → Fin n → Int → Prop) (p : Potentials n) (m : Matching n) (first j : Fin n)
    (length : Int) : Prop where
  reached : ∃ older, (j :: older).Nodup ∧ Way priced p m first j older length
  least : ∀ older x, Way priced p m first j older x → length ≤ x

def Sealed (priced : Fin n → Fin n → Int → Prop) (p : Potentials n) (m : Matching n) (first : Fin n) : Prop :=
  ∀ (j : Fin n) older x, m.rowOf[j] = none → ¬ Way priced p m first j older x

structure SettledNearest (priced : Fin n → Fin n → Int → Prop) (p : Potentials n) (m : Matching n) (first : Fin n)
    (labels : Labels n) (cols : List (Fin n)) : Prop where
  ordered : cols.Pairwise fun late soon => labels.dist soon ≤ labels.dist late
  distance : ∀ c ∈ cols, ∃ length, labels.cost[c] = some length ∧ Distance priced p m first c length

structure Arrival (n : Nat) where
  labels : Labels n
  cols : List (Fin n)
  sink : Fin n
  reached : Int

structure EndsNearest (priced : Fin n → Fin n → Int → Prop) (p : Potentials n) (m : Matching n) (first : Fin n)
    (a : Arrival n) : Prop where
  settled : SettledNearest priced p m first a.labels a.cols
  last : a.cols.head? = some a.sink
  free : m.rowOf[a.sink] = none
  distance : Distance priced p m first a.sink a.reached
  nearest : ∀ (j : Fin n) older x, m.rowOf[j] = none → Way priced p m first j older x → a.reached ≤ x
  ahead : ∀ (j : Fin n) older x, j ∉ a.cols → Way priced p m first j older x → a.reached ≤ x

structure FindsNearest (priced : Fin n → Fin n → Int → Prop) (p : Potentials n) (m : Matching n) (first : Fin n)
    (result : Except Failure (Arrival n)) : Prop where
  answers : (∃ a, result = .ok a) ∨ result = .error (.infeasible first.val)
  found : ∀ a, result = .ok a → EndsNearest priced p m first a
  unreached : result = .error (.infeasible first.val) ↔ Sealed priced p m first

def Costs.Priced (costs : Costs n) (i j : Fin n) (cost : Int) : Prop := costs[i][j] = some cost

def Graph.Priced {w : Width} (g : Graph w n n) (i j : Fin n) (cost : Int) : Prop := ⟨i, j, cost⟩ ∈ g.edges.toList

structure LeastPrices (costs : Costs n) (priced : Fin n → Fin n → Int → Prop) : Prop where
  taken : ∀ (i j : Fin n) cost, costs[i][j] = some cost → priced i j cost
  least : ∀ (i j : Fin n) cost, priced i j cost → ∃ x, costs[i][j] = some x ∧ x ≤ cost

theorem Costs.leastPrices (costs : Costs n) : LeastPrices costs costs.Priced :=
  ⟨fun _ _ _ has => has, fun _ _ cost has => ⟨cost, has, Int.le_refl cost⟩⟩

theorem Graph.leastPrices {w : Width} (g : Graph w n n) : LeastPrices g.cheapest g.Priced := by
  refine ⟨fun i j cost has => (cheapestSome.mp has).1, ?_⟩
  intro i j cost member
  cases found : g.cheapest[i][j] with
  | none => exact absurd member (cheapestNone.mp found cost)
  | some x => exact ⟨x, rfl, (cheapestSome.mp found).2 cost member⟩

section Ways
variable {priced : Fin n → Fin n → Int → Prop} {costs : Costs n} {p : Potentials n} {m : Matching n}
  {first row : Fin n} {labels next : Labels n} {rows cols : List (Fin n)} {base : Int}

theorem trailWay (primal : PrimalDual priced p m) (prices : LeastPrices costs priced) (waiting : m.colOf[first] = none)
    (trail : Trail m labels.reachedFrom first cols)
    (labelled : ∀ c ∈ cols, labels.cost[c] = some (labels.dist c))
    (origin : ∀ (j : Fin n) x, labels.cost[j] = some x → ∃ i ∈ rows, labels.reachedFrom[j] = some i ∧
      ∃ cost, costs[i][j] = some cost ∧ x = entry m labels.dist i + (cost - p.row[i] - p.col[j])) :
    ∀ c ∈ cols, ∃ older, (∀ d ∈ older, d ∈ cols) ∧ (c :: older).Nodup ∧
      Way priced p m first c older (labels.dist c) := by
  induction trail with
  | nil => simp
  | @cons col row older fresh reached way tail ih =>
    obtain ⟨labelledCol, labelledOlder⟩ := List.forall_mem_cons.mp labelled
    have before := ih labelledOlder
    intro c member
    rcases List.mem_cons.mp member with isCol | inside
    · subst isCol
      obtain ⟨i, _, from_, cost, has, length⟩ := origin c _ labelledCol
      rw [reached] at from_
      obtain rfl := Option.some.inj from_
      rcases way with isFirst | ⟨d, settled, partner⟩
      · subst isFirst
        rw [length, entryNone waiting, Int.zero_add]
        exact ⟨[], by simp, List.nodup_singleton c, .step (prices.taken _ _ _ has)⟩
      · obtain ⟨tailCols, inOlder, distinct, wayBefore⟩ := before d settled
        obtain ⟨back, matched, zero⟩ := primal.tight row d partner
        have whole := wayBefore.onward ((primal.agree row d).mp partner) matched (prices.taken _ _ _ has)
        rw [zero, Int.add_zero, ← @entrySome _ m labels.dist row d partner, ← length] at whole
        have apart : c ∉ d :: tailCols := by
          intro again
          rcases List.mem_cons.mp again with same | later
          · exact fresh (same ▸ settled)
          · exact fresh (inOlder c later)
        refine ⟨d :: tailCols, ?_, List.nodup_cons.mpr ⟨apart, distinct⟩, whole⟩
        intro e here
        rcases List.mem_cons.mp here with same | later
        · exact List.mem_cons_of_mem _ (same ▸ settled)
        · exact List.mem_cons_of_mem _ (inOlder e later)
    · obtain ⟨tailCols, inOlder, rest⟩ := before c inside
      exact ⟨tailCols, fun d here => List.mem_cons_of_mem _ (inOlder d here), rest⟩

def Entered (m : Matching n) (first : Fin n) (labels : Labels n) (rows cols : List (Fin n)) (base : Int) : Prop :=
  ∀ i : Fin n, (i = first ∨ ∃ c ∈ cols, m.colOf[i] = some c) → i ∈ rows ∨ entry m labels.dist i = base

theorem Sweep.levelStep (sweep : Sweep costs p m first labels rows cols base) (primal : PrimalDual priced p m)
    (prices : LeastPrices costs priced) {i j : Fin n} {cost length : Int}
    (visited : i ∈ rows ∨ entry m labels.dist i = base) (entered : entry m labels.dist i ≤ length)
    (cell : priced i j cost) : level labels cols base j ≤ length + (cost - p.row[i] - p.col[j]) := by
  have nonneg := primal.feasible i j cost cell
  have low := sweep.levelLe j
  rcases visited with member | isBase
  · obtain ⟨least, has, le⟩ := prices.least i j cost cell
    obtain ⟨x, found, below⟩ := sweep.offered i member j least has
    have levelLabel : level labels cols base j ≤ x := by
      unfold level
      split
      case isTrue => exact Int.le_of_eq (Labels.distSome found)
      case isFalse outside => exact sweep.ahead j x outside found
    omega
  · omega

/- A way is no shorter than the level of its last column. The induction is on the way: a column that is settled hands its
level on to its row, and from any other the way is too long already. -/
theorem Sweep.levelWay (sweep : Sweep costs p m first labels rows cols base) (primal : PrimalDual priced p m)
    (prices : LeastPrices costs priced) (waiting : m.colOf[first] = none)
    (entered : Entered m first labels rows cols base) {j : Fin n} {older : List (Fin n)} {length : Int}
    (way : Way priced p m first j older length) : level labels cols base j ≤ length := by
  induction way with
  | step cell =>
    have zero : entry m labels.dist first = 0 := entryNone waiting
    have reached := sweep.levelStep primal prices (entered first (.inl rfl)) (Int.le_of_eq zero) cell
    omega
  | @onward before k row older length back cost way pair matched cell ih =>
    have free := primal.feasible row before back matched
    have partner := (primal.agree row before).mpr pair
    by_cases settled : before ∈ cols
    · rw [level, if_pos settled, ← @entrySome _ m labels.dist row before partner] at ih
      have reached := sweep.levelStep primal prices (entered row (.inr ⟨before, settled, partner⟩)) ih cell
      omega
    · have nonneg := primal.feasible row k cost cell
      have low := sweep.levelLe k
      rw [level, if_neg settled] at ih
      omega

theorem Sweep.distance (sweep : Sweep costs p m first labels rows cols base) (primal : PrimalDual priced p m)
    (prices : LeastPrices costs priced) (waiting : m.colOf[first] = none)
    (entered : Entered m first labels rows cols base) {c : Fin n} (member : c ∈ cols) :
    Distance priced p m first c (labels.dist c) := by
  have labelled : ∀ d ∈ cols, labels.cost[d] = some (labels.dist d) := fun d inside => (sweep.distSettled inside).1
  obtain ⟨older, _, distinct, way⟩ := trailWay primal prices waiting sweep.trail labelled sweep.origin c member
  refine ⟨⟨older, distinct, way⟩, ?_⟩
  intro other length along
  have reached := sweep.levelWay primal prices waiting entered along
  rwa [level, if_pos member] at reached

structure Sweeping (costs : Costs n) (p : Potentials n) (m : Matching n) (first row : Fin n) (base : Int)
    (labels : Labels n) (rows cols : List (Fin n)) : Prop where
  sweep : Sweep costs p m first labels rows cols base
  pending : Pending m first labels rows cols row base
  ordered : cols.Pairwise fun late soon => labels.dist soon ≤ labels.dist late

namespace Sweeping

theorem start (blank : ∀ j : Fin n, labels.cost[j] = none) (waiting : m.colOf[first] = none) :
    Sweeping costs p m first first 0 labels [] [] :=
  ⟨.start blank, .start labels waiting, .nil⟩

theorem fewRows (sweeping : Sweeping costs p m first row base labels rows cols) : cols.length < n := by
  have distinct := List.nodup_cons.mpr ⟨sweeping.pending.fresh, sweeping.sweep.distinct⟩
  have few := distinct.length_le_card
  have size := sweeping.pending.size
  rw [Fintype.card_fin, List.length_cons] at few
  omega

variable (sweeping : Sweeping costs p m first row base labels rows cols) (primal : PrimalDual priced p m)
  (prices : LeastPrices costs priced) (waiting : m.colOf[first] = none)
include sweeping primal prices waiting

theorem nearest : SettledNearest priced p m first labels cols := by
  refine ⟨sweeping.ordered, ?_⟩
  intro c member
  refine ⟨labels.dist c, (sweeping.sweep.distSettled member).1, ?_⟩
  refine sweeping.sweep.distance primal prices waiting ?_ member
  intro i way
  rcases sweeping.pending.complete i way with same | visited
  · rw [same]
    exact .inr sweeping.pending.entered
  · exact .inl visited

variable (offered : Offered costs p row base cols labels next)
include offered

theorem relax : Sweep costs p m first next (row :: rows) cols base := by
  refine sweeping.sweep.relax waiting sweeping.pending offered ?_
  intro i j cost has
  exact primal.feasible i j cost (prices.taken i j cost has)

theorem closed (none : ∀ j : Fin n, j ∉ cols → next.cost[j] = none) : Sealed priced p m first := by
  have wider := sweeping.relax primal prices waiting offered
  have swept := sweeping.pending.swept
  have inside : ∀ {i j : Fin n} {cost : Int}, (i = first ∨ ∃ c ∈ cols, m.colOf[i] = some c) → priced i j cost →
      j ∈ cols := by
    intro i j cost way cell
    obtain ⟨least, has, _⟩ := prices.least i j cost cell
    obtain ⟨x, found, _⟩ := wider.offered i (swept.complete i way) j least has
    by_contra outside
    rw [none j outside] at found
    cases found
  have all : ∀ {j : Fin n} {older : List (Fin n)} {length : Int}, Way priced p m first j older length → j ∈ cols := by
    intro j older length way
    induction way with
    | step cell => exact inside (.inl rfl) cell
    | @onward before _ row _ _ _ _ _ pair _ cell ih =>
      exact inside (.inr ⟨before, ih, (primal.agree row before).mpr pair⟩) cell
  intro j older length free way
  obtain ⟨i, partner⟩ := swept.matched j (all way)
  rw [free] at partner
  cases partner

section Settle
variable {col : Fin n} {x : Int} (fresh : col ∉ cols) (label : next.cost[col] = some x)
  (least : ∀ (j : Fin n) y, j ∉ cols → next.cost[j] = some y → x ≤ y)
include fresh label least

theorem settled : Sweep costs p m first next (row :: rows) (col :: cols) x ∧
    (col :: cols).Pairwise fun late soon => next.dist soon ≤ next.dist late := by
  have wider := sweeping.relax primal prices waiting offered
  refine ⟨wider.settle fresh label least, List.pairwise_cons.mpr ⟨?_, ?_⟩⟩
  · intro c member
    have before := (wider.distSettled member).2
    have after := wider.ahead col x fresh label
    rw [Labels.distSome label]
    exact Int.le_trans before after
  · refine sweeping.ordered.imp_of_mem ?_
    intro late soon lateInside soonInside le
    rw [offered.dist lateInside, offered.dist soonInside]
    exact le

theorem handOn {after : Fin n} (partner : m.rowOf[col] = some after) :
    Sweeping costs p m first after x next (row :: rows) (col :: cols) := by
  obtain ⟨sweep, ordered⟩ := sweeping.settled primal prices waiting offered fresh label least
  have wider := sweeping.relax primal prices waiting offered
  exact ⟨sweep, .next wider primal.agree waiting sweeping.pending.swept fresh label partner, ordered⟩

theorem ends (free : m.rowOf[col] = none) : EndsNearest priced p m first ⟨next, col :: cols, col, x⟩ := by
  obtain ⟨sweep, ordered⟩ := sweeping.settled primal prices waiting offered fresh label least
  have swept := sweeping.pending.swept
  have entered : Entered m first next (row :: rows) (col :: cols) x := by
    intro i way
    refine .inl (swept.complete i (way.imp_right ?_))
    rintro ⟨c, member, partner⟩
    rcases List.mem_cons.mp member with isCol | inside
    · rw [isCol, primal.agree, free] at partner
      cases partner
    · exact ⟨c, inside, partner⟩
  have distance : ∀ c ∈ col :: cols, Distance priced p m first c (next.dist c) :=
    fun c member => sweep.distance primal prices waiting entered member
  have levelWay : ∀ (j : Fin n) older length, Way priced p m first j older length →
      level next (col :: cols) x j ≤ length :=
    fun j older length way => sweep.levelWay primal prices waiting entered way
  have dist := Labels.distSome label
  constructor
  case settled => exact ⟨ordered, fun c member => ⟨_, (sweep.distSettled member).1, distance c member⟩⟩
  case last => rfl
  case free => exact free
  case distance => exact dist ▸ distance col List.mem_cons_self
  case nearest =>
    intro j older length isFree way
    have reached := levelWay j older length way
    by_cases member : j ∈ col :: cols
    · rcases List.mem_cons.mp member with isCol | inside
      · rwa [level, if_pos member, isCol, dist] at reached
      · obtain ⟨i, partner⟩ := swept.matched j inside
        rw [isFree] at partner
        cases partner
    · rwa [level, if_neg member] at reached
  case ahead =>
    intro j older length outside way
    have reached := levelWay j older length way
    rwa [level, if_neg outside] at reached

end Settle
end Sweeping

theorem FindsNearest.ofFound {a : Arrival n} (ends : EndsNearest priced p m first a) :
    FindsNearest priced p m first (.ok a) := by
  refine ⟨.inl ⟨a, rfl⟩, ?_, ?_⟩
  · rintro b ⟨⟩
    exact ends
  · refine ⟨nofun, ?_⟩
    intro closed
    obtain ⟨older, _, way⟩ := ends.distance.reached
    exact absurd way (closed a.sink older a.reached ends.free)

theorem FindsNearest.ofSealed (closed : Sealed priced p m first) :
    FindsNearest priced p m first (.error (.infeasible first.val)) :=
  ⟨.inr rfl, nofun, ⟨fun _ => closed, fun _ => rfl⟩⟩

end Ways
end OptimalMatching
