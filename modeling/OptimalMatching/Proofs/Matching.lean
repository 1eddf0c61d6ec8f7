import Mathlib.Data.Fintype.Card
import OptimalMatching.Matching

/-! Matchings of the first rows, and how one is lengthened along the way that a search leaves behind. The walk back
from the last column ends at the first row, because each column was reached from a row whose own column had been settled
before. The matching it leaves has one more row and one more column, and every new pair is a step of the search. -/
namespace OptimalMatching

variable {n : Nat}

structure Pairs (k : Nat) (m : Matching n) : Prop where
  agree : ∀ i j : Fin n, m.colOf[i] = some j ↔ m.rowOf[j] = some i
  rows : ∀ i : Fin n, (∃ j, m.colOf[i] = some j) ↔ i.val < k

def Matching.colAt (m : Matching n) (i : Fin n) : Fin n := (m.colOf[i]).getD i

theorem Matching.colAtSome {m : Matching n} {i j : Fin n} (found : m.colOf[i] = some j) : m.colAt i = j := by
  rw [Matching.colAt, found, Option.getD_some]

namespace Pairs
variable {k : Nat} {m : Matching n}

theorem colAt (pairs : Pairs k m) {i : Fin n} (early : i.val < k) : m.colOf[i] = some (m.colAt i) := by
  obtain ⟨j, found⟩ := (pairs.rows i).mpr early
  rw [Matching.colAtSome found, found]

theorem early (pairs : Pairs k m) {i j : Fin n} (found : m.colOf[i] = some j) : i.val < k :=
  (pairs.rows i).mp ⟨j, found⟩

theorem late (pairs : Pairs k m) {i : Fin n} (le : k ≤ i.val) : m.colOf[i] = none := by
  cases found : m.colOf[i] with
  | none => rfl
  | some j =>
    have early := pairs.early found
    omega

theorem injective (pairs : Pairs k m) {i i' j : Fin n} (left : m.colOf[i] = some j) (right : m.colOf[i'] = some j) :
    i = i' := by
  have first := (pairs.agree i j).mp left
  have second := (pairs.agree i' j).mp right
  rw [first] at second
  exact Option.some.inj second

theorem apart (pairs : Pairs k m) (i j : Fin n) (left : i.val < k) (right : j.val < k) (same : m.colAt i = m.colAt j) :
    i = j := by
  have first := pairs.colAt left
  have second := pairs.colAt right
  rw [same] at first
  exact pairs.injective first second

theorem unused (pairs : Pairs k m) {j : Fin n} (apart : ∀ i : Fin n, i.val < k → m.colAt i ≠ j) :
    m.rowOf[j] = none := by
  cases found : m.rowOf[j] with
  | none => rfl
  | some i =>
    have back := (pairs.agree i j).mpr found
    exact absurd (Matching.colAtSome back) (apart i (pairs.early back))

end Pairs

theorem pairsEmpty (n : Nat) : Pairs 0 (.empty n) := by
  refine ⟨?_, ?_⟩ <;> simp [Matching.empty]

inductive Trail (m : Matching n) (reachedFrom : Vector (Option (Fin n)) n) (first : Fin n) : List (Fin n) → Prop
  | nil : Trail m reachedFrom first []
  | cons {col row : Fin n} {older : List (Fin n)} (fresh : col ∉ older) (reached : reachedFrom[col] = some row)
      (way : row = first ∨ ∃ c ∈ older, m.colOf[row] = some c) (tail : Trail m reachedFrom first older) :
      Trail m reachedFrom first (col :: older)

namespace Trail
variable {m : Matching n} {reachedFrom : Vector (Option (Fin n)) n} {first : Fin n}

theorem nodup {cols : List (Fin n)} (trail : Trail m reachedFrom first cols) : cols.Nodup := by
  induction trail with
  | nil => exact List.nodup_nil
  | cons fresh reached way tail ih => exact List.nodup_cons.mpr ⟨fresh, ih⟩

theorem older {front cols : List (Fin n)} (trail : Trail m reachedFrom first (front ++ cols)) :
    Trail m reachedFrom first cols := by
  induction front with
  | nil => exact trail
  | cons col front ih =>
    cases trail with
    | cons fresh reached way tail => exact ih tail

theorem congr {other : Matching n} {otherFrom : Vector (Option (Fin n)) n} {cols : List (Fin n)}
    (trail : Trail m reachedFrom first cols)
    (partners : ∀ i : Fin n, ∀ c ∈ cols.tail, m.colOf[i] = some c → other.colOf[i] = some c)
    (origins : ∀ c ∈ cols, otherFrom[c] = reachedFrom[c]) : Trail other otherFrom first cols := by
  induction trail with
  | nil => exact .nil
  | @cons col row older fresh reached way tail ih =>
    have same : otherFrom[col] = some row := by rw [origins col List.mem_cons_self, reached]
    refine .cons fresh same ?_ ?_
    · rcases way with same | ⟨c, member, partner⟩
      · exact .inl same
      · exact .inr ⟨c, member, partners row c member partner⟩
    · refine ih ?_ ?_
      · intro i c member partner
        exact partners i c (List.mem_of_mem_tail member) partner
      · intro c member
        exact origins c (List.mem_cons_of_mem _ member)

end Trail

/-- A matching in which no row has column `col` any more. All else agrees, and the first row is not matched yet. -/
structure Loose (m : Matching n) (first col : Fin n) : Prop where
  forth : ∀ i j : Fin n, m.colOf[i] = some j → m.rowOf[j] = some i
  back : ∀ i j : Fin n, j ≠ col → m.rowOf[j] = some i → m.colOf[i] = some j
  free : ∀ i : Fin n, m.colOf[i] ≠ some col
  waiting : m.colOf[first] = none

structure Flipped (reachedFrom : Vector (Option (Fin n)) n) (first col : Fin n) (cols : List (Fin n))
    (old new : Matching n) : Prop where
  agree : ∀ i j : Fin n, new.colOf[i] = some j ↔ new.rowOf[j] = some i
  rowGain : ∀ i : Fin n, new.colOf[i] = none ↔ old.colOf[i] = none ∧ i ≠ first
  colGain : ∀ j : Fin n, new.rowOf[j] = none ↔ old.rowOf[j] = none ∧ j ≠ col
  pairs : ∀ i j : Fin n, new.colOf[i] = some j → old.colOf[i] = some j ∨ j ∈ cols ∧ reachedFrom[j] = some i

namespace Loose
variable {m : Matching n} {first row col next : Fin n}

theorem join (loose : Loose m first col) (other : row ≠ first) (former : m.colOf[row] = some next) :
    Loose (m.join row col) first next := by
  have apart : next ≠ col := fun same => loose.free row (same ▸ former)
  refine ⟨?_, ?_, ?_, ?_⟩
  · intro i j found
    rw [Matching.joinColOf] at found
    rw [Matching.joinRowOf]
    split at found
    case isTrue same =>
      rw [if_pos (Option.some.inj found).symm, same]
    case isFalse =>
      have elsewhere : j ≠ col := fun same => loose.free i (same ▸ found)
      rw [if_neg elsewhere]
      exact loose.forth i j found
  · intro i j notNext found
    rw [Matching.joinRowOf] at found
    rw [Matching.joinColOf]
    split at found
    case isTrue same =>
      rw [if_pos (Option.some.inj found).symm, same]
    case isFalse notCol =>
      have old := loose.back i j notCol found
      have notRow : i ≠ row := by
        intro same
        rw [same, former] at old
        exact notNext (Option.some.inj old).symm
      rw [if_neg notRow]
      exact old
  · intro i found
    rw [Matching.joinColOf] at found
    split at found
    case isTrue => exact apart (Option.some.inj found).symm
    case isFalse notRow =>
      have one := loose.forth i next found
      have two := loose.forth row next former
      rw [one] at two
      exact notRow (Option.some.inj two)
  · rw [Matching.joinColOf, if_neg other.symm]
    exact loose.waiting

theorem close (loose : Loose m first col) {reachedFrom : Vector (Option (Fin n)) n} {cols : List (Fin n)}
    (member : col ∈ cols) (reached : reachedFrom[col] = some first) :
    Flipped reachedFrom first col cols m (m.join first col) := by
  refine ⟨?_, ?_, ?_, ?_⟩
  · intro i j
    rw [Matching.joinColOf, Matching.joinRowOf]
    by_cases isFirst : i = first
    · rw [if_pos isFirst, isFirst]
      by_cases isCol : j = col
      · simp [isCol]
      · rw [if_neg isCol]
        refine ⟨fun found => absurd (Option.some.inj found).symm isCol, ?_⟩
        intro found
        have old := loose.back first j isCol found
        rw [loose.waiting] at old
        cases old
    · rw [if_neg isFirst]
      by_cases isCol : j = col
      · rw [if_pos isCol]
        refine ⟨fun found => absurd (isCol ▸ found) (loose.free i), ?_⟩
        intro found
        exact absurd (Option.some.inj found).symm isFirst
      · rw [if_neg isCol]
        exact ⟨loose.forth i j, loose.back i j isCol⟩
  · intro i
    rw [Matching.joinColOf]
    by_cases isFirst : i = first <;> simp [isFirst]
  · intro j
    rw [Matching.joinRowOf]
    by_cases isCol : j = col <;> simp [isCol]
  · intro i j found
    rw [Matching.joinColOf] at found
    split at found
    case isTrue isFirst =>
      have same := Option.some.inj found
      rw [← same, isFirst]
      exact .inr ⟨member, reached⟩
    case isFalse => exact .inl found

end Loose

theorem Flipped.before {reachedFrom : Vector (Option (Fin n)) n} {first row col next : Fin n}
    {cols older : List (Fin n)} {m new : Matching n} (loose : Loose m first col)
    (former : m.colOf[row] = some next) (reached : reachedFrom[col] = some row) (member : col ∈ cols)
    (fewer : ∀ c ∈ older, c ∈ cols) (flipped : Flipped reachedFrom first next older (m.join row col) new) :
    Flipped reachedFrom first col cols m new := by
  refine ⟨flipped.agree, ?_, ?_, ?_⟩
  · intro i
    rw [flipped.rowGain, Matching.joinColOf]
    by_cases isRow : i = row
    · simp [isRow, former]
    · rw [if_neg isRow]
  · intro j
    rw [flipped.colGain, Matching.joinRowOf]
    by_cases isCol : j = col
    · simp [isCol]
    · rw [if_neg isCol]
      have taken : m.rowOf[j] = none → j ≠ next := by
        intro none same
        rw [same, loose.forth row next former] at none
        cases none
      exact ⟨fun h => ⟨h.1, isCol⟩, fun h => ⟨h.1, taken h.1⟩⟩
  · intro i j found
    rcases flipped.pairs i j found with old | ⟨inside, step⟩
    · rw [Matching.joinColOf] at old
      split at old
      case isTrue isRow =>
        rw [← Option.some.inj old, isRow]
        exact .inr ⟨member, reached⟩
      case isFalse => exact .inl old
    · exact .inr ⟨fewer j inside, step⟩

inductive WalksBack (reachedFrom : Vector (Option (Fin n)) n) (first : Fin n) :
    Fin n → Matching n → List (Fin n) → Matching n → Prop
  | last {col : Fin n} {m : Matching n} (reached : reachedFrom[col] = some first) (waiting : m.colOf[first] = none) :
      WalksBack reachedFrom first col m [col] (m.join first col)
  | hop {row col next : Fin n} {path : List (Fin n)} {m new : Matching n} (reached : reachedFrom[col] = some row)
      (other : row ≠ first) (former : m.colOf[row] = some next)
      (onward : WalksBack reachedFrom first next (m.join row col) path new) :
      WalksBack reachedFrom first col m (col :: path) new

theorem WalksBack.flip {reachedFrom : Vector (Option (Fin n)) n} {first col : Fin n} {path : List (Fin n)} {fuel : Nat}
    {m new : Matching n} (walks : WalksBack reachedFrom first col m path new) (enough : path.length ≤ fuel) :
    Matching.flip reachedFrom first fuel col m = .ok new := by
  induction walks generalizing fuel with
  | last reached waiting =>
    cases fuel with
    | zero => cases enough
    | succ fuel => simp only [Matching.flip, reached, waiting, if_true]
  | hop reached other former onward ih =>
    cases fuel with
    | zero => cases enough
    | succ fuel =>
      simp only [Matching.flip, reached, former, if_neg other]
      exact ih (Nat.le_of_succ_le_succ enough)

theorem Trail.walksBack {reachedFrom : Vector (Option (Fin n)) n} {first col : Fin n} {older : List (Fin n)}
    {m : Matching n} (trail : Trail m reachedFrom first (col :: older)) (loose : Loose m first col) :
    ∃ path new, WalksBack reachedFrom first col m path new ∧ path.Sublist (col :: older) ∧
      Flipped reachedFrom first col (col :: older) m new := by
  -- The trail gets shorter with each hop, which the induction is on: the walk goes on at a column that was settled
  -- before.
  induction size : older.length using Nat.strong_induction_on generalizing col older m with
  | _ k ih =>
    cases trail with
    | @cons _ row _ fresh reached way tail =>
      by_cases isFirst : row = first
      · subst isFirst
        exact ⟨[col], _, .last reached loose.waiting, List.Sublist.cons_cons col (List.nil_sublist older),
          loose.close List.mem_cons_self reached⟩
      · obtain ⟨next, inside, former⟩ := way.resolve_left isFirst
        obtain ⟨front, rest, split⟩ := List.append_of_mem inside
        subst split
        have shorter : rest.length < k := by
          simp only [List.length_append, List.length_cons] at size
          omega
        have below : Trail (m.join row col) reachedFrom first (next :: rest) := by
          refine tail.older.congr ?_ fun _ _ => rfl
          intro i c member partner
          have different : i ≠ row := by
            intro same
            rw [same, former] at partner
            have nodup := tail.older.nodup
            exact (List.nodup_cons.mp nodup).1 (Option.some.inj partner ▸ member)
          rw [Matching.joinColOf, if_neg different]
          exact partner
        obtain ⟨path, new, onward, within, flipped⟩ := ih rest.length shorter below (loose.join isFirst former) rfl
        have later : path.Sublist (front ++ next :: rest) := within.trans (List.sublist_append_right front _)
        refine ⟨col :: path, new, .hop reached isFirst former onward, later.cons_cons col, ?_⟩
        refine flipped.before loose former reached List.mem_cons_self ?_
        intro c member
        exact List.mem_cons_of_mem _ (List.mem_append_right _ member)

theorem flipPathOk {reachedFrom : Vector (Option (Fin n)) n} {first sink : Fin n} {older : List (Fin n)}
    {m : Matching n} (pairs : Pairs first.val m) (unmatched : m.rowOf[sink] = none)
    (trail : Trail m reachedFrom first (sink :: older)) :
    ∃ path new, m.flipPath reachedFrom first sink = .ok new ∧ WalksBack reachedFrom first sink m path new ∧
      path.Sublist (sink :: older) ∧ Flipped reachedFrom first sink (sink :: older) m new ∧ Pairs (first.val + 1) new := by
  have loose : Loose m first sink := by
    refine ⟨fun i j => (pairs.agree i j).mp, fun i j _ => (pairs.agree i j).mpr, ?_, pairs.late (Nat.le_refl _)⟩
    intro i found
    rw [pairs.agree, unmatched] at found
    cases found
  obtain ⟨path, new, walks, within, flipped⟩ := trail.walksBack loose
  have enough : path.length ≤ n := by
    have le := List.Nodup.length_le_card trail.nodup
    rw [Fintype.card_fin] at le
    exact Nat.le_trans within.length_le le
  refine ⟨path, new, walks.flip enough, walks, within, flipped, flipped.agree, ?_⟩
  intro i
  have old := pairs.rows i
  have gain := flipped.rowGain i
  rw [← Option.ne_none_iff_exists'] at old ⊢
  rw [Ne, gain, not_and_or, ← Ne, old, not_not, Fin.ext_iff]
  omega

end OptimalMatching
