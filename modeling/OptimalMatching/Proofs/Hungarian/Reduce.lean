import OptimalMatching.Proofs.Hungarian.Search

/-! The first step. Taking its least cost from each row prices nothing below zero and something at zero; a row without any
cost admits no matching. The zeros that are starred first stand in lines of their own. -/
namespace OptimalMatching.Hungarian

variable {w : Width} {n : Nat} {costs : Costs n} {most : Int} {s : State n}

structure Reduced (costs : Costs n) (most : Int) (i : Fin n) (shift : Int) : Prop where
  sign : shift ≤ 0
  range : 0 ≤ shift + most
  feasible : ∀ (j : Fin n) cost, costs[i][j] = some cost → 0 ≤ cost + shift
  zero : ∃ (j : Fin n) (cost : Int), costs[i][j] = some cost ∧ cost + shift = 0

theorem memRow {i : Fin n} {cost : Int} :
    cost ∈ (costs[i]).toList.filterMap id ↔ ∃ j : Fin n, costs[i][j] = some cost := by
  rw [List.mem_filterMap]
  refine ⟨?_, ?_⟩
  · intro ⟨x, member, same⟩
    obtain ⟨j, inside, at_⟩ := Vector.getElem_of_mem (Vector.mem_toList_iff.mp member)
    exact ⟨⟨j, inside⟩, by rw [← same, ← at_]; rfl⟩
  · intro ⟨j, has⟩
    exact ⟨some cost, Vector.mem_toList_iff.mpr (has ▸ Vector.getElem_mem j.isLt), rfl⟩

theorem reducedOfLeast (priced : Priced w costs most) {i : Fin n} {least : Int}
    (found : ((costs[i]).toList.filterMap id).min? = some least) : Reduced costs most i (0 - least) := by
  obtain ⟨member, le⟩ := List.min?_eq_some_iff.mp found
  obtain ⟨j, has⟩ := memRow.mp member
  have bound := priced.within i j least has
  refine ⟨by omega, by omega, ?_, j, least, has, by omega⟩
  intro k cost other
  have less := le cost (memRow.mpr ⟨k, other⟩)
  omega

theorem leastFits (priced : Priced w costs most) {i : Fin n} {least : Int}
    (found : ((costs[i]).toList.filterMap id).min? = some least) : w.Holds (0 - least) := by
  have reduced := reducedOfLeast priced found
  have sign := reduced.sign
  have range := reduced.range
  have small := priced.small
  have balanced := w.balanced
  exact ⟨by omega, by omega⟩

theorem crowdedRow {i : Fin n} (blank : ((costs[i]).toList.filterMap id).min? = none) : CrowdedFrom costs i.val := by
  rw [List.min?_eq_none_iff] at blank
  refine ⟨[i], [], ⟨fun k _ => k.isLt, List.nodup_singleton i, ?_, by simp⟩, by simp, by simp⟩
  intro k member j cost has
  rw [List.mem_singleton.mp member] at has
  have inside := memRow.mpr ⟨j, has⟩
  rw [blank] at inside
  cases inside

theorem reduceRowsEnds (priced : Priced w costs most) {roomy : Prop} {rows : List (Fin n)} (distinct : rows.Nodup) :
    Ends roomy (CrowdedFrom costs)
      (fun t => (∃ shift, t = { s with rowShift := shift }) ∧ (∀ i : Fin n, i ∉ rows → t.rowShift[i] = s.rowShift[i]) ∧
        ∀ i ∈ rows, Reduced costs most i t.rowShift[i])
      (reduceRows w costs rows s) := by
  induction rows generalizing s with
  | nil => exact ⟨⟨_, rfl⟩, fun _ _ => rfl, nofun⟩
  | cons row rest ih =>
    obtain ⟨fresh, distinct⟩ := List.nodup_cons.mp distinct
    simp only [reduceRows]
    cases found : ((costs[row]).toList.filterMap id).min? with
    | none => exact crowdedRow found
    | some least =>
      have reduced := reducedOfLeast priced found
      simp only [Width.keepOk (leastFits priced found), bind, Except.bind]
      refine (@ih { s with rowShift := s.rowShift.set row (0 - least) } distinct).imp ?_
      intro t ⟨⟨shift, only⟩, kept, all⟩
      refine ⟨⟨shift, only⟩, ?_, ?_⟩
      · intro i outside
        have apart : row.val ≠ i.val := fun same => outside (Fin.ext same ▸ List.mem_cons_self)
        rw [kept i fun member => outside (List.mem_cons_of_mem _ member)]
        exact Vector.getElem_set_ne row.isLt i.isLt apart
      · intro i member
        rcases List.mem_cons.mp member with same | inside
        · have written : (s.rowShift.set row (0 - least))[row] = 0 - least := Vector.getElem_set_self row.isLt
          rw [same, kept row fresh, written]
          exact reduced
        · exact all i inside

structure Starring (costs : Costs n) (most : Int) (s : State n) : Prop where
  shifts : Shifts costs most 0 s
  noPrime : ∀ i j : Fin n, s.mark i j ≠ .prime
  rowCover : ∀ i : Fin n, s.rowCovered[i] = true ↔ ∃ j, s.mark i j = .star
  colCover : ∀ j : Fin n, s.colCovered[j] = true ↔ ∃ i, s.mark i j = .star

namespace Starring
variable {row col : Fin n}

theorem rowFree (starring : Starring costs most s) (open_ : s.rowCovered[row] = false) (j : Fin n) :
    s.mark row j ≠ .star := by
  intro star
  have covered := (starring.rowCover row).mpr ⟨j, star⟩
  rw [open_] at covered
  cases covered

theorem colFree (starring : Starring costs most s) (open_ : s.colCovered[col] = false) (i : Fin n) :
    s.mark i col ≠ .star := by
  intro star
  have covered := (starring.colCover col).mpr ⟨i, star⟩
  rw [open_] at covered
  cases covered

theorem star (starring : Starring costs most s) (zero : priceAt costs s row col = some 0)
    (rowOpen : s.rowCovered[row] = false) (colOpen : s.colCovered[col] = false) :
    Starring costs most (((s.setMark row col .star).coverRow row).coverCol col) := by
  have apart : Apart (s.setMark row col .star) :=
    starring.shifts.apart.add (starring.rowFree rowOpen) (starring.colFree colOpen)
  have here : (s.setMark row col .star).mark row col = .star := markStar.mpr (.inl ⟨rfl, rfl⟩)
  refine ⟨starring.shifts.restar rfl rfl ⟨apart.row, apart.col⟩ ?_ ?_ ?_, ?_, ?_, ?_⟩
  · intro i j star
    rcases markStar.mp star with ⟨isRow, isCol⟩ | before
    · rw [isRow, isCol]
      exact zero
    · exact starring.shifts.tight i j before
  · intro i ⟨j, star⟩
    exact ⟨j, markStar.mpr (.inr star)⟩
  · intro j ⟨i, star⟩
    exact ⟨i, markStar.mpr (.inr star)⟩
  · intro i j prime
    change (s.setMark row col .star).mark i j = .prime at prime
    rw [State.markSetMark] at prime
    split at prime
    case isTrue => cases prime
    case isFalse => exact starring.noPrime i j prime
  · intro i
    have at_ : (((s.setMark row col .star).coverRow row).coverCol col).rowCovered[i] =
        if i = row then true else s.rowCovered[i] := coverRowAt (s.setMark row col .star) row i
    rw [at_]
    by_cases isRow : i = row
    · rw [if_pos isRow, isRow]
      exact ⟨fun _ => ⟨col, here⟩, fun _ => rfl⟩
    · rw [if_neg isRow, starring.rowCover i]
      refine ⟨fun ⟨j, star⟩ => ⟨j, markStar.mpr (.inr star)⟩, ?_⟩
      intro ⟨j, star⟩
      exact ⟨j, (markStar.mp star).resolve_left fun same => isRow same.1⟩
  · intro j
    have at_ : (((s.setMark row col .star).coverRow row).coverCol col).colCovered[j] =
        if j = col then true else s.colCovered[j] := coverColAt ((s.setMark row col .star).coverRow row) col j
    rw [at_]
    by_cases isCol : j = col
    · rw [if_pos isCol, isCol]
      exact ⟨fun _ => ⟨row, here⟩, fun _ => rfl⟩
    · rw [if_neg isCol, starring.colCover j]
      refine ⟨fun ⟨i, star⟩ => ⟨i, markStar.mpr (.inr star)⟩, ?_⟩
      intro ⟨i, star⟩
      exact ⟨i, (markStar.mp star).resolve_left fun same => isCol same.2⟩

end Starring

/- Stars are only added, and a zero that is looked at leaves one somewhere. -/
theorem starZerosEnds (priced : Priced w costs most) {stuck : Nat → Prop} {cells : List (Fin n × Fin n)}
    (starring : Starring costs most s) :
    Ends (most * roomFactor n ≤ w.top) stuck
      (fun t => Starring costs most t ∧ t.covered = s.covered ∧
        ((∃ i j, s.mark i j = .star) → ∃ i j, t.mark i j = .star) ∧
        ((∃ c ∈ cells, priceAt costs s c.1 c.2 = some 0) → ∃ i j, t.mark i j = .star))
      (starZeros w costs cells s) := by
  induction cells generalizing s with
  | nil => exact ⟨starring, rfl, fun some_ => some_, nofun⟩
  | cons cell rest ih =>
    obtain ⟨row, col⟩ := cell
    have product : 0 ≤ n * most := Int.mul_nonneg (Int.natCast_nonneg n) priced.nonneg
    simp only [starZeros]
    refine Ends.bind (starring.shifts.price priced (by omega) row col) ?_
    intro price ⟨exact, _⟩
    subst exact
    split
    case isTrue open_ =>
      refine (ih (starring.star open_.1 open_.2.1 open_.2.2)).imp ?_
      intro t ⟨after, covered, kept, _⟩
      have made : ∃ i j, t.mark i j = .star := by
        refine kept ⟨row, col, ?_⟩
        exact (s.markSetMark row col row col .star).trans (if_pos ⟨rfl, rfl⟩)
      exact ⟨after, covered, fun _ => made, fun _ => made⟩
    case isFalse closed =>
      refine (ih starring).imp ?_
      intro t ⟨after, covered, kept, later⟩
      refine ⟨after, covered, kept, ?_⟩
      intro ⟨c, member, zero⟩
      rcases List.mem_cons.mp member with here | inside
      · rw [here] at zero
        refine kept ?_
        cases rowFlag : s.rowCovered[row] with
        | true =>
          obtain ⟨j, star⟩ := (starring.rowCover row).mp rowFlag
          exact ⟨row, j, star⟩
        | false =>
          cases colFlag : s.colCovered[col] with
          | true =>
            obtain ⟨i, star⟩ := (starring.colCover col).mp colFlag
            exact ⟨i, col, star⟩
          | false => exact absurd ⟨zero, rowFlag, colFlag⟩ closed
      · exact later ⟨c, inside, zero⟩

theorem memAllCells (cell : Fin n × Fin n) : cell ∈ allCells n := by
  obtain ⟨i, j⟩ := cell
  simp [allCells]

theorem shiftsStart {shift : Vector Int n} (sign : ∀ i : Fin n, shift[i] ≤ 0) (range : ∀ i : Fin n, 0 ≤ shift[i] + most)
    (nonneg : ∀ (i j : Fin n) cost, costs[i][j] = some cost → 0 ≤ cost + shift[i]) :
    Shifts costs most 0 { State.start n with rowShift := shift } := by
  have noStar : ∀ i j : Fin n, ({ State.start n with rowShift := shift } : State n).mark i j ≠ .star := by
    intro i j
    simp [State.mark, State.start]
  have col : ∀ j : Fin n, (State.start n).colShift[j] = 0 := fun j => Vector.getElem_replicate j.isLt
  refine ⟨⟨?_, ?_⟩, ?_, ?_, sign, ?_, ?_, ?_, ?_, ?_, Int.le_refl 0⟩
  · exact fun i j _ star => absurd star (noStar i j)
  · exact fun i _ j star => absurd star (noStar i j)
  · intro i j x price
    obtain ⟨cost, has, same⟩ := priceAtSome.mp price
    have above := nonneg i j cost has
    have zero := col j
    simp only at same
    omega
  · exact fun i j star => absurd star (noStar i j)
  · exact fun j => Int.le_of_eq (col j).symm
  · exact fun j _ => col j
  · intro i
    have low := range i
    simp only
    omega
  · exact fun j => Int.le_of_eq (col j)
  · intro i _
    have high := sign i
    simp only
    omega

theorem starringStart {shift : Vector Int n} (reduced : ∀ i : Fin n, Reduced costs most i shift[i]) :
    Starring costs most { State.start n with rowShift := shift } := by
  have empty : ∀ i j : Fin n, ({ State.start n with rowShift := shift } : State n).mark i j = .empty := by
    intro i j
    simp [State.mark, State.start]
  have noStar : ∀ i j : Fin n, ({ State.start n with rowShift := shift } : State n).mark i j ≠ .star := by
    intro i j star
    rw [empty] at star
    cases star
  have rowOpen : ∀ i : Fin n, (State.start n).rowCovered[i] = false := fun i => Vector.getElem_replicate i.isLt
  have colOpen : ∀ j : Fin n, (State.start n).colCovered[j] = false := fun j => Vector.getElem_replicate j.isLt
  refine ⟨shiftsStart (fun i => (reduced i).sign) (fun i => (reduced i).range) (fun i => (reduced i).feasible), ?_, ?_, ?_⟩
  · intro i j prime
    rw [empty] at prime
    cases prime
  · intro i
    simp only [rowOpen]
    refine ⟨by rintro ⟨⟩, ?_⟩
    rintro ⟨j, star⟩
    exact absurd star (noStar i j)
  · intro j
    simp only [colOpen]
    refine ⟨by rintro ⟨⟩, ?_⟩
    rintro ⟨i, star⟩
    exact absurd star (noStar i j)

theorem Starring.rest (starring : Starring costs most s) (nonneg : 0 ≤ most) (counted : s.covered = 0) :
    Rest costs most s.uncoverAll := by
  have product : 0 ≤ n * most := Int.mul_nonneg (Int.natCast_nonneg n) nonneg
  refine ⟨⟨0, starring.shifts.congr rfl rfl fun _ _ => Iff.rfl, product⟩, starring.noPrime, ?_, ?_, ?_⟩
  · intro i
    exact Vector.getElem_replicate i.isLt
  · intro j
    exact Vector.getElem_replicate j.isLt
  · exact Nat.le_trans (Nat.le_of_eq counted) (Nat.zero_le _)

theorem reduceEnds (priced : Priced w costs most) :
    Ends (most * roomFactor n ≤ w.top) (CrowdedFrom costs)
      (fun t => Rest costs most t ∧ (0 < n → 0 < t.stars)) (reduce w costs (.start n)) := by
  unfold reduce
  refine Ends.bind (reduceRowsEnds priced (List.nodup_finRange n)) ?_
  intro s ⟨⟨shift, only⟩, _, all⟩
  subst only
  have reduced : ∀ i : Fin n, Reduced costs most i shift[i] := fun i => all i (List.mem_finRange i)
  refine Ends.bind (starZerosEnds priced (starringStart reduced)) ?_
  intro t ⟨after, covered, _, made⟩
  refine ⟨after.rest priced.nonneg covered, ?_⟩
  intro positive
  obtain ⟨j, cost, has, zero⟩ := (reduced ⟨0, positive⟩).zero
  have free : (State.start n).colShift[j] = 0 := Vector.getElem_replicate j.isLt
  have price : priceAt costs { State.start n with rowShift := shift } ⟨0, positive⟩ j = some 0 := by
    refine priceAtSome.mpr ⟨cost, has, ?_⟩
    simp only
    omega
  obtain ⟨i, k, star⟩ := made ⟨(⟨0, positive⟩, j), memAllCells _, price⟩
  change 0 < t.stars
  rw [starsCard after.shifts.apart]
  exact Finset.card_pos.mpr ⟨i, memStarRows.mpr ⟨k, star⟩⟩

end OptimalMatching.Hungarian
