import OptimalMatching.Proofs.Hungarian.Slack

/-! What the star and prime method keeps between two augmentations. The covered rows form a tree: each was reached over
its prime, from a row without a star or through the star of a row that was covered before. The search has lowered every
row outside the tree by the same amount. -/
namespace OptimalMatching.Hungarian

variable {w : Width} {n : Nat} {costs : Costs n} {most lift : Int} {s t : State n} {tree : List (Fin n)}

inductive Tree (s : State n) : List (Fin n) → Prop
  | nil : Tree s []
  | cons {row col : Fin n} {older : List (Fin n)} (fresh : row ∉ older) (star : ∃ j, s.mark row j = .star)
      (prime : s.mark row col = .prime) (only : ∀ j, s.mark row j = .prime → j = col)
      (way : ∀ i, s.mark i col = .star → i ∈ older) (tail : Tree s older) : Tree s (row :: older)

namespace Tree

theorem nodup (grown : Tree s tree) : tree.Nodup := by
  induction grown with
  | nil => exact List.nodup_nil
  | cons fresh star prime only way tail ih => exact List.nodup_cons.mpr ⟨fresh, ih⟩

theorem starred (grown : Tree s tree) {i : Fin n} (member : i ∈ tree) : ∃ j, s.mark i j = .star := by
  induction grown with
  | nil => cases member
  | cons fresh star prime only way tail ih =>
    rcases List.mem_cons.mp member with same | inside
    · rw [same]
      exact star
    · exact ih inside

theorem congr (grown : Tree s tree) (rows : ∀ i ∈ tree, ∀ j, t.mark i j = s.mark i j)
    (stars : ∀ i j, t.mark i j = .star → s.mark i j = .star) : Tree t tree := by
  induction grown with
  | nil => exact .nil
  | @cons row col older fresh star prime only way tail ih =>
    have same := rows row List.mem_cons_self
    obtain ⟨j, isStar⟩ := star
    refine .cons fresh ⟨j, by rw [same, isStar]⟩ (by rw [same, prime]) ?_ (fun i isStar => way i (stars i col isStar))
      (ih fun i member => rows i (List.mem_cons_of_mem _ member))
    intro j isPrime
    rw [same] at isPrime
    exact only j isPrime

theorem length (grown : Tree s tree) (apart : Apart s) (few : s.stars ≠ n) : tree.length + 1 ≤ n := by
  obtain ⟨row, free⟩ := starless apart few
  have fresh : row ∉ tree := by
    intro member
    obtain ⟨j, star⟩ := grown.starred member
    exact free j star
  have le := List.Nodup.length_le_card (List.nodup_cons.mpr ⟨fresh, grown.nodup⟩)
  rw [List.length_cons, Fintype.card_fin] at le
  exact le

theorem lengthStars (grown : Tree s tree) (apart : Apart s) : tree.length ≤ s.stars := by
  have inside : tree.toFinset ⊆ starRows s := by
    intro i member
    exact memStarRows.mpr (grown.starred (List.mem_toFinset.mp member))
  have le := Finset.card_le_card inside
  rwa [List.toFinset_card_of_nodup grown.nodup, ← starsCard apart] at le

end Tree

structure Rest (costs : Costs n) (most : Int) (s : State n) : Prop where
  shifts : ∃ drift, Shifts costs most drift s ∧ drift ≤ n * most
  noPrime : ∀ i j : Fin n, s.mark i j ≠ .prime
  rowOpen : ∀ i : Fin n, s.rowCovered[i] = false
  colOpen : ∀ j : Fin n, s.colCovered[j] = false
  counted : s.covered ≤ s.stars

structure Search (w : Width) (costs : Costs n) (most lift : Int) (tree : List (Fin n)) (s : State n) : Prop where
  shifts : ∃ drift, Shifts costs most drift s ∧ drift ≤ n * most + lift
  grown : Tree s tree
  primed : ∀ i j : Fin n, s.mark i j = .prime → i ∈ tree ∧ priceAt costs s i j = some 0
  rowCover : ∀ i : Fin n, s.rowCovered[i] = true ↔ i ∈ tree
  colCover : ∀ j : Fin n, s.colCovered[j] = true ↔ ∃ i, s.mark i j = .star ∧ i ∉ tree
  slacks : Slacks w costs s.uncoveredRows (fun j => s.colCovered[j] = false) s
  opened : ∀ j : Fin n, s.colCovered[j] = false → s.colShift[j] ≤ tree.length * most
  lifted : ∀ i : Fin n, i ∉ tree → s.rowShift[i] + lift ≤ 0
  liftLow : 0 ≤ lift
  liftHigh : lift ≤ n * most
  few : s.stars ≠ n
  counted : s.covered ≤ s.stars

structure Reached (costs : Costs n) (most : Int) (tree : List (Fin n)) (row col : Fin n) (s : State n) : Prop where
  shifts : ∃ drift, Shifts costs most drift s ∧ drift ≤ n * most
  grown : Tree s tree
  primed : ∀ i j : Fin n, s.mark i j = .prime → i ∈ tree ∨ i = row ∧ j = col
  tight : ∀ i j : Fin n, s.mark i j = .prime → priceAt costs s i j = some 0
  prime : s.mark row col = .prime
  free : ∀ j, s.mark row j ≠ .star
  way : ∀ i, s.mark i col = .star → i ∈ tree
  counted : s.covered ≤ s.stars

theorem memUncoveredRows {i : Fin n} : i ∈ s.uncoveredRows ↔ s.rowCovered[i] = false := by
  simp [State.uncoveredRows]

theorem memUncoveredCols {j : Fin n} : j ∈ s.uncoveredCols ↔ s.colCovered[j] = false := by
  simp [State.uncoveredCols]

theorem memCoveredCols {j : Fin n} : j ∈ s.coveredCols ↔ s.colCovered[j] = true := by
  simp [State.coveredCols]

namespace Search

theorem rowOpen (search : Search w costs most lift tree s) {i : Fin n} : i ∈ s.uncoveredRows ↔ i ∉ tree := by
  rw [memUncoveredRows, ← search.rowCover i, Bool.not_eq_true]

theorem colOpen (search : Search w costs most lift tree s) {i j : Fin n} (open_ : s.colCovered[j] = false)
    (star : s.mark i j = .star) : i ∈ tree := by
  by_contra outside
  have covered := (search.colCover j).mpr ⟨i, star, outside⟩
  rw [open_] at covered
  cases covered

theorem treeProduct (search : Search w costs most lift tree s) (nonneg : 0 ≤ most) :
    0 ≤ tree.length * most ∧ tree.length * most + most ≤ n * most := by
  obtain ⟨drift, shifts, _⟩ := search.shifts
  have short := search.grown.length shifts.apart search.few
  have le : ((tree.length + 1 : Nat) : Int) * most ≤ n * most :=
    Int.mul_le_mul_of_nonneg_right (by exact_mod_cast short) nonneg
  rw [Int.natCast_add, Int.add_mul] at le
  exact ⟨Int.mul_nonneg (Int.natCast_nonneg _) nonneg, by simpa using le⟩

end Search
end OptimalMatching.Hungarian
