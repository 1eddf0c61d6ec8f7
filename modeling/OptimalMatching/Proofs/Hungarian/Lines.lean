import OptimalMatching.Proofs.Hungarian.Moves

/-! How stars, primes and covers hang together between the steps of the star and prime method. A covered row is a primed
one, and every star has exactly one of its two lines covered, so there are as many covered lines as stars. -/
namespace OptimalMatching.Hungarian

variable {w : Width} {n : Nat} {costs : Costs n} {most lift : Int} {s : State n} {tree : List (Fin n)} {watch : Watch}
  {phase : Phase n}

def coveredRows (s : State n) : Finset (Fin n) := Finset.univ.filter fun i => s.rowCovered[i] = true

theorem memCoveredRows {i : Fin n} : i ∈ coveredRows s ↔ s.rowCovered[i] = true := by
  simp [coveredRows]

theorem Tree.primed (grown : Tree s tree) {i : Fin n} (member : i ∈ tree) : ∃ j, s.mark i j = .prime := by
  induction grown with
  | nil => cases member
  | cons fresh star prime only way tail ih =>
    rcases List.mem_cons.mp member with same | inside
    · rw [same]
      exact ⟨_, prime⟩
    · exact ih inside

def PrimedOnce (s : State n) : Prop := ∀ i j j' : Fin n, s.mark i j = .prime → s.mark i j' = .prime → j = j'

theorem primedNone (none : ∀ i j : Fin n, s.mark i j ≠ .prime) : PrimedOnce s :=
  fun i j _ prime => absurd prime (none i j)

structure Covering (s : State n) : Prop where
  row : ∀ i : Fin n, s.rowCovered[i] = true ↔ ∃ j, s.mark i j = .prime
  starred : ∀ i : Fin n, s.rowCovered[i] = true → ∃ j, s.mark i j = .star
  col : ∀ j : Fin n, s.colCovered[j] = true ↔ ∃ i, s.mark i j = .star ∧ s.rowCovered[i] = false
  count : (coveredRows s).card + s.coveredCols.length = s.stars
  few : s.stars < n

structure BeginsAt (row col : Fin n) (s : State n) : Prop where
  prime : s.mark row col = .prime
  rowOpen : s.rowCovered[row] = false
  colOpen : s.colCovered[col] = false
  free : ∀ j, s.mark row j ≠ .star
  others : ∀ i j : Fin n, s.mark i j = .prime → i ≠ row → s.rowCovered[i] = true

namespace Search

theorem primedOnce (search : Search w costs most lift tree s) : PrimedOnce s :=
  fun i j _ prime prime' => search.grown.primeOnce (search.primed i j prime).1 prime prime'

/- A covered column is that of the star of a row that is not covered, and no two of these stars share their column. -/
theorem coverCount (search : Search w costs most lift tree s) :
    (coveredRows s).card + s.coveredCols.length = s.stars := by
  obtain ⟨drift, shifts, _⟩ := search.shifts
  have apart := shifts.apart
  have inside : coveredRows s ⊆ starRows s := by
    intro i covered
    exact memStarRows.mpr (search.grown.starred ((search.rowCover i).mp (memCoveredRows.mp covered)))
  have cols : (Finset.univ.filter fun j : Fin n => s.colCovered[j] = true) =
      (starRows s \ coveredRows s).image (starAt s) := by
    ext j
    simp only [Finset.mem_filter, Finset.mem_univ, true_and, Finset.mem_image, Finset.mem_sdiff, memStarRows,
      memCoveredRows, search.rowCover, search.colCover]
    refine ⟨?_, ?_⟩
    · intro ⟨i, star, outside⟩
      exact ⟨i, ⟨⟨j, star⟩, outside⟩, apart.row i _ _ (starAtStar ⟨j, star⟩).2 star⟩
    · intro ⟨i, ⟨has, outside⟩, same⟩
      exact ⟨i, same ▸ (starAtStar has).2, outside⟩
  have single : Set.InjOn (starAt s) (starRows s \ coveredRows s : Finset (Fin n)) := by
    intro i left i' right same
    have star := (starAtStar (memStarRows.mp (Finset.mem_sdiff.mp left).1)).2
    have star' := (starAtStar (memStarRows.mp (Finset.mem_sdiff.mp right).1)).2
    rw [same] at star
    exact apart.col i i' _ star star'
  rw [State.coveredCols, filterCard, cols, Finset.card_image_of_injOn single, Nat.add_comm,
    Finset.card_sdiff_add_card_eq_card inside, ← starsCard apart]

theorem covering (search : Search w costs most lift tree s) : Covering s := by
  obtain ⟨drift, shifts, _⟩ := search.shifts
  have fewRows : s.stars ≤ n := by
    have le := Finset.card_le_univ (starRows s)
    rwa [← starsCard shifts.apart, Fintype.card_fin] at le
  have rowOpen : ∀ i : Fin n, s.rowCovered[i] = false ↔ i ∉ tree := by
    intro i
    rw [← search.rowCover i, Bool.not_eq_true]
  refine ⟨?_, ?_, ?_, search.coverCount, Nat.lt_of_le_of_ne fewRows search.few⟩
  · intro i
    rw [search.rowCover i]
    exact ⟨search.grown.primed, fun ⟨j, prime⟩ => (search.primed i j prime).1⟩
  · intro i covered
    exact search.grown.starred ((search.rowCover i).mp covered)
  · intro j
    rw [search.colCover j]
    simp only [rowOpen]

theorem beginsAt (search : Search w costs most lift tree s) {row col : Fin n} (zero : uncoveredZero s = some (row, col))
    (free : ∀ j, (s.setMark row col .prime).mark row j ≠ .star) :
    BeginsAt row col (s.setMark row col .prime) ∧ PrimedOnce (s.setMark row col .prime) := by
  obtain ⟨outside, open_, _⟩ := search.zero zero
  have member := (uncoveredZeroSome zero).1
  refine ⟨⟨?_, memUncoveredRows.mp member, open_, free, ?_⟩, ?_⟩
  · rw [State.markSetMark, if_pos ⟨rfl, rfl⟩]
  · intro i j prime other
    rcases primeCases prime with here | before
    · exact absurd here.1 other
    · exact (search.rowCover i).mpr (search.primed i j before).1
  · intro i j j' prime prime'
    rcases primeCases prime with here | before <;> rcases primeCases prime' with here' | before'
    · rw [here.2, here'.2]
    · exact absurd (here.1 ▸ (search.primed i j' before').1) outside
    · exact absurd (here'.1 ▸ (search.primed i j before).1) outside
    · exact search.primedOnce i j j' before before'

end Search

theorem coverRestMark {t : State n} {after : Phase n} (done : cover w costs s = .ok (after, t)) (i j : Fin n) :
    t.mark i j = s.mark i j := by
  obtain ⟨_, _, _, _, only⟩ := coverRest done
  rw [only]
  rfl

namespace Reachable

theorem rest (priced : Priced w costs most) (reached : Reachable w watch costs .cover s) : Rest costs most s := by
  obtain ⟨left, rest, _⟩ := reached.sound priced
  exact rest

theorem search (priced : Priced w costs most) (reached : Reachable w watch costs phase s)
    (searching : phase = .prime ∨ phase = .adjust) : ∃ lift tree, Search w costs most lift tree s := by
  obtain ⟨left, sound⟩ := reached.sound priced
  rcases searching with isPrime | isAdjust
  · subst isPrime
    obtain ⟨lift, tree, search, _⟩ := sound
    exact ⟨lift, tree, search⟩
  · subst isAdjust
    obtain ⟨lift, tree, search, _⟩ := sound
    exact ⟨lift, tree, search⟩

theorem beginsAt {row col : Fin n} (priced : Priced w costs most)
    (reached : Reachable w watch costs (.augment row col) s) : BeginsAt row col s ∧ PrimedOnce s := by
  obtain ⟨before, searching, zero, free, only⟩ := reached.found
  obtain ⟨lift, tree, search⟩ := searching.search priced (.inl rfl)
  subst only
  exact search.beginsAt zero free

theorem donePrimes (priced : Priced w costs most) (reached : Reachable w watch costs .done s) (i j : Fin n) :
    s.mark i j ≠ .prime := by
  obtain ⟨before, covers, made⟩ := reached.finished
  rw [coverRestMark made]
  exact (covers.rest priced).noPrime i j

theorem shifts (priced : Priced w costs most) (reached : Reachable w watch costs phase s) :
    ∃ drift, Shifts costs most drift s := by
  obtain ⟨left, sound⟩ := reached.sound priced
  by_cases isDone : phase = .done
  · subst isDone
    exact sound.2
  · obtain ⟨drift, shifts, _⟩ := sound.shifts priced isDone
    exact ⟨drift, shifts⟩

theorem primedOnce (priced : Priced w costs most) (reached : Reachable w watch costs phase s) : PrimedOnce s := by
  cases phase with
  | reduce =>
    obtain ⟨left, start, _⟩ := reached.sound priced
    refine primedNone ?_
    intro i j
    rw [start]
    simp [State.mark, State.start]
  | cover => exact primedNone (reached.rest priced).noPrime
  | prime =>
    obtain ⟨lift, tree, search⟩ := reached.search priced (.inl rfl)
    exact search.primedOnce
  | augment row col => exact (reached.beginsAt priced).2
  | adjust =>
    obtain ⟨lift, tree, search⟩ := reached.search priced (.inr rfl)
    exact search.primedOnce
  | done => exact primedNone (reached.donePrimes priced)

end Reachable

theorem linesKept {table : Square w n} (valid : table.toTable.Valid) (reached : Reachable w watch table.costs phase s) :
    Apart s ∧ PrimedOnce s ∧ (phase = .prime ∨ phase = .adjust → Covering s) ∧
    (∀ row col, phase = .augment row col → BeginsAt row col s) ∧
    (phase = .cover → (∀ i j : Fin n, s.mark i j ≠ .prime) ∧ (∀ i : Fin n, s.rowCovered[i] = false) ∧
      ∀ j : Fin n, s.colCovered[j] = false) := by
  have priced := pricedOfValid valid
  obtain ⟨drift, shifts⟩ := reached.shifts priced
  refine ⟨shifts.apart, reached.primedOnce priced, ?_, ?_, ?_⟩
  · intro searching
    obtain ⟨lift, tree, search⟩ := reached.search priced searching
    exact search.covering
  · intro row col isAugment
    subst isAugment
    exact (reached.beginsAt priced).1
  · intro isCover
    subst isCover
    have rest := reached.rest priced
    exact ⟨rest.noPrime, rest.rowOpen, rest.colOpen⟩

def tradedStar : Square byteWidth 2 := .whole #v[#v[0, 0], #v[0, 126]]

theorem tradedStarValid : tradedStar.toTable.Valid := Table.validOfValues (by decide) (by decide) (by decide)

theorem linesKeptTraded : ∃ s t, Reachable byteWidth .never tradedStar.costs .prime s ∧
    (s.mark 0 0 = .star ∧ s.mark 0 1 = .prime ∧ s.rowCovered[0] = true ∧ s.colCovered[0] = false) ∧
    (coveredRows s).card + s.coveredCols.length = 1 ∧
    Reachable byteWidth .never tradedStar.costs (.augment 1 0) t ∧ BeginsAt 1 0 t := by
  have covers : Reachable byteWidth .never tradedStar.costs .cover _ :=
    @Reachable.next 2 byteWidth .never tradedStar.costs .reduce .cover _ _ 0 _ .start rfl
  have begins : Reachable byteWidth .never tradedStar.costs .prime _ :=
    @Reachable.next 2 byteWidth .never tradedStar.costs .cover .prime _ _ 0 _ covers rfl
  have primes : Reachable byteWidth .never tradedStar.costs .prime _ :=
    @Reachable.next 2 byteWidth .never tradedStar.costs .prime .prime _ _ 0 _ begins rfl
  have arrives : Reachable byteWidth .never tradedStar.costs (.augment 1 0) _ :=
    @Reachable.next 2 byteWidth .never tradedStar.costs .prime (.augment 1 0) _ _ 0 _ primes rfl
  obtain ⟨-, -, search, -, -⟩ := linesKept tradedStarValid primes
  obtain ⟨-, -, -, path, -⟩ := linesKept tradedStarValid arrives
  exact ⟨_, _, primes, by decide, (search (.inl rfl)).count, arrives, path 1 0 rfl⟩

end OptimalMatching.Hungarian
