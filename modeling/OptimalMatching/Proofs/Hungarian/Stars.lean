import Mathlib.Algebra.BigOperators.Fin
import Mathlib.Combinatorics.Enumerative.DoubleCounting
import OptimalMatching.Hungarian.State

/-! The marks of the star and prime method, seen by lines, and how many stars there are. -/
namespace OptimalMatching.Hungarian

variable {n : Nat} {s : State n}

theorem markInRowSome {i j : Fin n} {mark : Mark} (found : s.markInRow i mark = some j) : s.mark i j = mark := by
  have same := List.find?_some found
  exact beq_iff_eq.mp same

theorem markInRowNone {i : Fin n} {mark : Mark} : s.markInRow i mark = none ↔ ∀ j, s.mark i j ≠ mark := by
  simp [State.markInRow, List.find?_eq_none]

theorem markInColSome {i j : Fin n} {mark : Mark} (found : s.markInCol j mark = some i) : s.mark i j = mark := by
  have same := List.find?_some found
  exact beq_iff_eq.mp same

theorem markInColNone {j : Fin n} {mark : Mark} : s.markInCol j mark = none ↔ ∀ i, s.mark i j ≠ mark := by
  simp [State.markInCol, List.find?_eq_none]

theorem markInColIsSome {j : Fin n} {mark : Mark} : (s.markInCol j mark).isSome = true ↔ ∃ i, s.mark i j = mark := by
  simp [State.markInCol, List.find?_isSome]

theorem coverColAt (s : State n) (col j : Fin n) :
    (s.coverCol col).colCovered[j] = if j = col then true else s.colCovered[j] :=
  readSet ..

theorem uncoverColAt (s : State n) (col j : Fin n) :
    (s.uncoverCol col).colCovered[j] = if j = col then false else s.colCovered[j] :=
  readSet ..

theorem coverRowAt (s : State n) (row i : Fin n) :
    (s.coverRow row).rowCovered[i] = if i = row then true else s.rowCovered[i] :=
  readSet ..

structure Apart (s : State n) : Prop where
  row : ∀ i j j' : Fin n, s.mark i j = .star → s.mark i j' = .star → j = j'
  col : ∀ i i' j : Fin n, s.mark i j = .star → s.mark i' j = .star → i = i'

def starRows (s : State n) : Finset (Fin n) := Finset.univ.filter fun i => ∃ j, s.mark i j = .star

def starCols (s : State n) : Finset (Fin n) := Finset.univ.filter fun j => ∃ i, s.mark i j = .star

theorem memStarRows {i : Fin n} : i ∈ starRows s ↔ ∃ j, s.mark i j = .star := by
  simp [starRows]

theorem memStarCols {j : Fin n} : j ∈ starCols s ↔ ∃ i, s.mark i j = .star := by
  simp [starCols]

theorem filterCard (p : Fin n → Bool) :
    ((List.finRange n).filter p).length = (Finset.univ.filter fun i => p i = true).card := by
  rw [Fin.univ_def]
  simp only [Finset.filter, Finset.card, Multiset.filter_coe, Multiset.coe_card, Bool.decide_eq_true]

theorem countRow (s : State n) (i : Fin n) :
    (s.marks[i]).toList.count .star = (Finset.univ.filter fun j => s.mark i j = .star).card := by
  have line : (s.marks[i]).toList = (List.finRange n).map fun j => s.mark i j := by
    refine List.ext_getElem (by simp) ?_
    intro j _ _
    simp [State.mark]
  rw [line, List.count, List.countP_map, List.countP_eq_length_filter, filterCard]
  simp only [Function.comp_apply, beq_iff_eq]

theorem starsCard (apart : Apart s) : s.stars = (starRows s).card := by
  have rows : s.marks.toList = (List.finRange n).map fun i => s.marks[i] := by
    refine List.ext_getElem (by simp) ?_
    intro i _ _
    simp
  rw [State.stars, List.count_flatMap, rows, List.map_map, ← Fin.sum_univ_def, starRows, Finset.card_filter]
  refine Finset.sum_congr rfl ?_
  intro i _
  rw [Function.comp_apply, Function.comp_apply, countRow]
  split
  case isTrue has =>
    obtain ⟨j, star⟩ := has
    refine Nat.le_antisymm (Finset.card_le_one.mpr ?_) (Finset.card_pos.mpr ⟨j, by simpa using star⟩)
    intro a left b right
    exact apart.row i a b (Finset.mem_filter.mp left).2 (Finset.mem_filter.mp right).2
  case isFalse none =>
    rw [Finset.card_eq_zero, Finset.filter_eq_empty_iff]
    intro j _ star
    exact none ⟨j, star⟩

theorem starLines (apart : Apart s) : (starRows s).card = (starCols s).card := by
  refine Nat.le_antisymm ?_ ?_
  · refine Finset.card_le_card_of_forall_subsingleton (fun i j => s.mark i j = .star) ?_ ?_
    · intro i member
      obtain ⟨j, star⟩ := memStarRows.mp member
      exact ⟨j, memStarCols.mpr ⟨i, star⟩, star⟩
    · intro j _ i left i' right
      exact apart.col i i' j left.2 right.2
  · refine Finset.card_le_card_of_forall_subsingleton (fun j i => s.mark i j = .star) ?_ ?_
    · intro j member
      obtain ⟨i, star⟩ := memStarCols.mp member
      exact ⟨i, memStarRows.mpr ⟨j, star⟩, star⟩
    · intro i _ j left j' right
      exact apart.row i j j' left.2 right.2

theorem starless (apart : Apart s) (few : s.stars ≠ n) : ∃ i : Fin n, ∀ j, s.mark i j ≠ .star := by
  by_contra all
  push Not at all
  refine few ?_
  have whole : starRows s = Finset.univ := by
    ext i
    simp only [memStarRows, Finset.mem_univ, iff_true]
    exact all i
  rw [starsCard apart, whole, Finset.card_univ, Fintype.card_fin]

theorem starred (apart : Apart s) (all : s.stars = n) (i : Fin n) : ∃ j, s.mark i j = .star := by
  have whole : starRows s = Finset.univ := by
    rw [← Finset.card_eq_iff_eq_univ, ← starsCard apart, all, Fintype.card_fin]
  exact memStarRows.mp (whole ▸ Finset.mem_univ i)

theorem markStar {row col i j : Fin n} :
    (s.setMark row col .star).mark i j = .star ↔ i = row ∧ j = col ∨ s.mark i j = .star := by
  rw [State.markSetMark]
  split
  case isTrue here => simp only [here, and_self, true_or]
  case isFalse apart => simp only [apart, false_or]

theorem Apart.add (apart : Apart s) {row col : Fin n} (rowFree : ∀ j, s.mark row j ≠ .star)
    (colFree : ∀ i, s.mark i col ≠ .star) : Apart (s.setMark row col .star) := by
  refine ⟨?_, ?_⟩
  · intro i j j' left right
    rcases markStar.mp left with ⟨isRow, isCol⟩ | star <;> rcases markStar.mp right with ⟨isRow', isCol'⟩ | star'
    · rw [isCol, isCol']
    · exact absurd (isRow ▸ star') (rowFree j')
    · exact absurd (isRow' ▸ star) (rowFree j)
    · exact apart.row i j j' star star'
  · intro i i' j left right
    rcases markStar.mp left with ⟨isRow, isCol⟩ | star <;> rcases markStar.mp right with ⟨isRow', isCol'⟩ | star'
    · rw [isRow, isRow']
    · exact absurd (isCol ▸ star') (colFree i')
    · exact absurd (isCol' ▸ star) (colFree i)
    · exact apart.col i i' j star star'

theorem starsCongr {t : State n} (same : ∀ i j : Fin n, t.mark i j = .star ↔ s.mark i j = .star) (apart : Apart s) :
    Apart t ∧ t.stars = s.stars := by
  have apart' : Apart t := by
    refine ⟨?_, ?_⟩
    · intro i j j' left right
      exact apart.row i j j' ((same i j).mp left) ((same i j').mp right)
    · intro i i' j left right
      exact apart.col i i' j ((same i j).mp left) ((same i' j).mp right)
  refine ⟨apart', ?_⟩
  rw [starsCard apart', starsCard apart, starRows, starRows]
  simp only [same]

end OptimalMatching.Hungarian
