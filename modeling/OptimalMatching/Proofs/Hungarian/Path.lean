import OptimalMatching.Proofs.Hungarian.Search

/-! The alternating path. It follows stars and primes in turn down the tree, so it ends, and it meets no line twice.
Flipping it takes the star out of no line and puts one into the row where it began. -/
namespace OptimalMatching.Hungarian

variable {n : Nat} {costs : Costs n} {most : Int} {s : State n} {tree : List (Fin n)} {row col : Fin n}
  {rest : List (Fin n × Fin n)}

inductive Walk (s : State n) : Fin n → List (Fin n × Fin n) → Prop
  | free {col : Fin n} (starless : ∀ i, s.mark i col ≠ .star) : Walk s col []
  | step {row col next : Fin n} {rest : List (Fin n × Fin n)} (star : s.mark row col = .star)
      (prime : s.mark row next = .prime) (fresh : ∀ c ∈ rest, c.1 ≠ row) (tail : Walk s next rest) :
      Walk s col ((row, col) :: (row, next) :: rest)

namespace Tree

theorem older {front : List (Fin n)} (grown : Tree s (front ++ tree)) : Tree s tree := by
  induction front with
  | nil => exact grown
  | cons i front ih =>
    cases grown with
    | cons fresh star prime only way tail => exact ih tail

theorem primeOnce (grown : Tree s tree) {i j j' : Fin n} (member : i ∈ tree) (left : s.mark i j = .prime)
    (right : s.mark i j' = .prime) : j = j' := by
  induction grown with
  | nil => cases member
  | cons fresh star prime only way tail ih =>
    rcases List.mem_cons.mp member with same | inside
    · rw [same] at left right
      rw [only j left, only j' right]
    · exact ih inside

theorem tracePathOk (grown : Tree s tree) {fuel : Nat} (way : ∀ i, s.mark i col = .star → i ∈ tree)
    (enough : tree.length < fuel) :
    ∃ rest, tracePath s fuel col = .ok rest ∧ Walk s col rest ∧ ∀ c ∈ rest, c.1 ∈ tree := by
  -- The induction is on the fuel; the part of the tree that is left bounds what the way still needs.
  induction fuel generalizing col tree with
  | zero => omega
  | succ fuel ih =>
    simp only [tracePath]
    cases inCol : s.markInCol col .star with
    | none => exact ⟨[], rfl, .free (markInColNone.mp inCol), nofun⟩
    | some row =>
      have star := markInColSome inCol
      obtain ⟨front, older, split⟩ := List.append_of_mem (way row star)
      subst split
      have below := grown.older
      cases below with
      | @cons _ next _ fresh _ prime only onward tail =>
        have shorter : older.length < fuel := by
          simp only [List.length_append, List.length_cons] at enough
          omega
        obtain ⟨rest, done, walk, inside⟩ := ih tail onward shorter
        have inRow : s.markInRow row .prime = some next := by
          cases found : s.markInRow row .prime with
          | none => exact absurd prime (markInRowNone.mp found next)
          | some other => rw [only other (markInRowSome found)]
        refine ⟨(row, col) :: (row, next) :: rest, ?_, .step star prime ?_ walk, ?_⟩
        · simp only [inRow, done, bind, Except.bind, pure, Except.pure]
        · intro c member same
          exact fresh (same ▸ inside c member)
        · intro c member
          rw [List.mem_append, List.mem_cons]
          rcases List.mem_cons.mp member with first | later
          · exact .inr (.inl (by rw [first]))
          · rcases List.mem_cons.mp later with second | last
            · exact .inr (.inl (by rw [second]))
            · exact .inr (.inr (inside c last))

end Tree

namespace Walk

theorem marked (walk : Walk s col rest) {i j : Fin n} (member : (i, j) ∈ rest) :
    s.mark i j = .star ∨ s.mark i j = .prime := by
  induction walk with
  | free => cases member
  | step star prime fresh tail ih =>
    rcases List.mem_cons.mp member with first | later
    · obtain ⟨isRow, isCol⟩ := Prod.mk.inj first
      exact .inl (by rw [isRow, isCol, star])
    · rcases List.mem_cons.mp later with second | last
      · obtain ⟨isRow, isCol⟩ := Prod.mk.inj second
        exact .inr (by rw [isRow, isCol, prime])
      · exact ih last

theorem both (walk : Walk s col rest) {i j : Fin n} (member : (i, j) ∈ rest) :
    (∃ k, (i, k) ∈ rest ∧ s.mark i k = .star) ∧ ∃ k, (i, k) ∈ rest ∧ s.mark i k = .prime := by
  induction walk with
  | free => cases member
  | @step row col next rest star prime fresh tail ih =>
    have here : i = row → (∃ k, (i, k) ∈ (row, col) :: (row, next) :: rest ∧ s.mark i k = .star) ∧
        ∃ k, (i, k) ∈ (row, col) :: (row, next) :: rest ∧ s.mark i k = .prime := by
      intro same
      rw [same]
      exact ⟨⟨col, by simp, star⟩, next, by simp, prime⟩
    rcases List.mem_cons.mp member with first | later
    · exact here (Prod.mk.inj first).1
    · rcases List.mem_cons.mp later with second | last
      · exact here (Prod.mk.inj second).1
      · obtain ⟨⟨k, inside, isStar⟩, l, inside', isPrime⟩ := ih last
        exact ⟨⟨k, List.mem_cons_of_mem _ (List.mem_cons_of_mem _ inside), isStar⟩, l,
          List.mem_cons_of_mem _ (List.mem_cons_of_mem _ inside'), isPrime⟩

theorem starOf (walk : Walk s col rest) (apart : Apart s) {i j : Fin n} (star : s.mark i j = .star)
    (way : j = col ∨ ∃ k, (k, j) ∈ rest ∧ s.mark k j = .prime) : (i, j) ∈ rest := by
  induction walk with
  | free starless =>
    rcases way with same | ⟨k, inside, _⟩
    · exact absurd (same ▸ star) (starless i)
    · cases inside
  | @step row col next rest isStar prime fresh tail ih =>
    have further : (j = next ∨ ∃ k, (k, j) ∈ rest ∧ s.mark k j = .prime) → (i, j) ∈ (row, col) :: (row, next) :: rest :=
      fun onward => List.mem_cons_of_mem _ (List.mem_cons_of_mem _ (ih onward))
    rcases way with same | ⟨k, inside, isPrime⟩
    · rw [same] at star ⊢
      rw [apart.col i row col star isStar]
      exact List.mem_cons_self
    · rcases List.mem_cons.mp inside with first | later
      · obtain ⟨isRow, isCol⟩ := Prod.mk.inj first
        rw [isRow, isCol, isStar] at isPrime
        cases isPrime
      · rcases List.mem_cons.mp later with second | last
        · exact further (.inl (Prod.mk.inj second).2)
        · exact further (.inr ⟨k, last, isPrime⟩)

theorem primeOf (walk : Walk s col rest) {i j : Fin n} (member : (i, j) ∈ rest) (star : s.mark i j = .star) :
    j = col ∨ ∃ k, (k, j) ∈ rest ∧ s.mark k j = .prime := by
  induction walk with
  | free => cases member
  | @step row col next rest isStar prime fresh tail ih =>
    rcases List.mem_cons.mp member with first | later
    · exact .inl (Prod.mk.inj first).2
    · rcases List.mem_cons.mp later with second | last
      · obtain ⟨isRow, isCol⟩ := Prod.mk.inj second
        rw [isRow, isCol, prime] at star
        cases star
      · rcases ih last with same | ⟨k, inside, isPrime⟩
        · exact .inr ⟨row, by simp [same], by rw [same, prime]⟩
        · exact .inr ⟨k, List.mem_cons_of_mem _ (List.mem_cons_of_mem _ inside), isPrime⟩

theorem notFirst (walk : Walk s col rest) (apart : Apart s) {i j : Fin n} (member : (i, j) ∈ rest)
    (prime : s.mark i j = .prime) : j ≠ col := by
  cases walk with
  | free => cases member
  | @step row _ next rest star isPrime fresh tail =>
    intro same
    rw [same] at member prime
    rcases List.mem_cons.mp member with first | later
    · rw [(Prod.mk.inj first).1, star] at prime
      cases prime
    · have onward : col = next ∨ ∃ k, (k, col) ∈ rest ∧ s.mark k col = .prime := by
        rcases List.mem_cons.mp later with second | last
        · exact .inl (Prod.mk.inj second).2
        · exact .inr ⟨i, last, prime⟩
      exact fresh _ (tail.starOf apart star onward) rfl

theorem primeCol (walk : Walk s col rest) (apart : Apart s) {i i' j : Fin n} (left : (i, j) ∈ rest)
    (right : (i', j) ∈ rest) (prime : s.mark i j = .prime) (prime' : s.mark i' j = .prime) : i = i' := by
  induction walk with
  | free => cases left
  | @step row col next rest star isPrime fresh tail ih =>
    -- A primed cell of the way is its first prime or comes later.
    have primes : ∀ k, (k, j) ∈ (row, col) :: (row, next) :: rest → s.mark k j = .prime →
        k = row ∧ j = next ∨ (k, j) ∈ rest := by
      intro k member primed
      rcases List.mem_cons.mp member with first | later
      · obtain ⟨isRow, isCol⟩ := Prod.mk.inj first
        rw [isRow, isCol, star] at primed
        cases primed
      · rcases List.mem_cons.mp later with second | last
        · exact .inl (Prod.mk.inj second)
        · exact .inr last
    rcases primes i left prime with here | later <;> rcases primes i' right prime' with here' | later'
    · rw [here.1, here'.1]
    · exact absurd here.2 (tail.notFirst apart later' prime')
    · exact absurd here'.2 (tail.notFirst apart later prime)
    · exact ih later later'

theorem nodup (walk : Walk s col rest) : rest.Nodup := by
  induction walk with
  | free => exact List.nodup_nil
  | @step row col next rest star prime fresh tail ih =>
    have apart : col ≠ next := by
      intro same
      rw [same, prime] at star
      cases star
    have outside : ∀ j, (row, j) ∉ rest := fun j member => fresh _ member rfl
    simp [apart, outside, ih]

end Walk

def Mark.flip : Mark → Mark
  | empty => empty
  | star => empty
  | prime => star

theorem flipMarksOk {path : List (Fin n × Fin n)} (distinct : path.Nodup)
    (marked : ∀ i j, (i, j) ∈ path → s.mark i j = .star ∨ s.mark i j = .prime) :
    ∃ t, flipMarks path s = .ok t ∧ (∃ marks, t = { s with marks := marks }) ∧
      ∀ i j, t.mark i j = if (i, j) ∈ path then (s.mark i j).flip else s.mark i j := by
  induction path generalizing s with
  | nil => exact ⟨s, rfl, ⟨_, rfl⟩, by simp⟩
  | cons cell rest ih =>
    obtain ⟨row, col⟩ := cell
    obtain ⟨fresh, distinct⟩ := List.nodup_cons.mp distinct
    obtain ⟨t, done, ⟨marks, only⟩, at_⟩ := @ih (s.setMark row col (s.mark row col).flip) distinct (by
      intro i j member
      have other : ¬ (i = row ∧ j = col) := by
        intro same
        rw [same.1, same.2] at member
        exact fresh member
      rw [State.markSetMark, if_neg other]
      exact marked i j (List.mem_cons_of_mem _ member))
    refine ⟨t, ?_, ⟨marks, only⟩, ?_⟩
    · rcases marked row col List.mem_cons_self with star | prime
      · simp only [flipMarks, star]
        rw [star] at done
        exact done
      · simp only [flipMarks, prime]
        rw [prime] at done
        exact done
    · intro i j
      rw [at_, State.markSetMark]
      by_cases here : i = row ∧ j = col
      · simp [here.1, here.2, fresh]
      · have other : (i, j) ≠ (row, col) := fun same => here (Prod.mk.inj same)
        simp [here, other]

namespace Reached

theorem outside (reached : Reached costs most tree row col s) : row ∉ tree := by
  intro member
  obtain ⟨j, star⟩ := reached.grown.starred member
  exact reached.free j star

theorem path (reached : Reached costs most tree row col s) :
    ∃ rest, pathFrom s row col = .ok ((row, col) :: rest) ∧ Walk s col rest ∧ ∀ c ∈ rest, c.1 ∈ tree := by
  have enough : tree.length < n + 1 := by
    have le := List.Nodup.length_le_card reached.grown.nodup
    rw [Fintype.card_fin] at le
    omega
  obtain ⟨rest, done, walk, inside⟩ := reached.grown.tracePathOk reached.way enough
  refine ⟨rest, ?_, walk, inside⟩
  simp only [pathFrom, done, bind, Except.bind, pure, Except.pure]

end Reached

def Flips (path : List (Fin n × Fin n)) (s t : State n) : Prop :=
  ∀ i j, t.mark i j = .star ↔ (i, j) ∈ path ∧ s.mark i j = .prime ∨ (i, j) ∉ path ∧ s.mark i j = .star

namespace Flips
variable {t : State n}

theorem apart (flips : Flips ((row, col) :: rest) s t) (reached : Reached costs most tree row col s)
    (walk : Walk s col rest) : Apart t := by
  obtain ⟨drift, shifts, _⟩ := reached.shifts
  have apart := shifts.apart
  -- A row with a prime on the path has no star off it.
  have rowClash : ∀ i j j', (i, j) ∈ (row, col) :: rest → (i, j') ∉ (row, col) :: rest → s.mark i j' ≠ .star := by
    intro i j j' member out star
    rcases List.mem_cons.mp member with here | later
    · rw [(Prod.mk.inj here).1] at star
      exact reached.free j' star
    · obtain ⟨⟨k, on, isStar⟩, _⟩ := walk.both later
      rw [apart.row i j' k star isStar] at out
      exact out (List.mem_cons_of_mem _ on)
  have colClash : ∀ i i' j, (i, j) ∈ (row, col) :: rest → s.mark i j = .prime → (i', j) ∉ (row, col) :: rest →
      s.mark i' j ≠ .star := by
    intro i i' j member prime out star
    refine out (List.mem_cons_of_mem _ (walk.starOf apart star ?_))
    rcases List.mem_cons.mp member with here | later
    · exact .inl (Prod.mk.inj here).2
    · exact .inr ⟨i, later, prime⟩
  refine ⟨?_, ?_⟩
  · intro i j j' left right
    rcases (flips i j).mp left with ⟨on, prime⟩ | ⟨off, star⟩ <;>
      rcases (flips i j').mp right with ⟨on', prime'⟩ | ⟨off', star'⟩
    · rcases reached.primed i j prime with member | here
      · exact reached.grown.primeOnce member prime prime'
      · rcases reached.primed i j' prime' with member | here'
        · exact absurd (here.1 ▸ member) reached.outside
        · rw [here.2, here'.2]
    · exact absurd star' (rowClash i j j' on off')
    · exact absurd star (rowClash i j' j on' off)
    · exact apart.row i j j' star star'
  · intro i i' j left right
    rcases (flips i j).mp left with ⟨on, prime⟩ | ⟨off, star⟩ <;>
      rcases (flips i' j).mp right with ⟨on', prime'⟩ | ⟨off', star'⟩
    · rcases List.mem_cons.mp on with here | later <;> rcases List.mem_cons.mp on' with here' | later'
      · rw [(Prod.mk.inj here).1, (Prod.mk.inj here').1]
      · exact absurd (Prod.mk.inj here).2 (walk.notFirst apart later' prime')
      · exact absurd (Prod.mk.inj here').2 (walk.notFirst apart later prime)
      · exact walk.primeCol apart later later' prime prime'
    · exact absurd star' (colClash i i' j on prime off')
    · exact absurd star (colClash i' i j on' prime' off)
    · exact apart.col i i' j star star'

theorem rows (flips : Flips ((row, col) :: rest) s t) (reached : Reached costs most tree row col s)
    (walk : Walk s col rest) (i : Fin n) : (∃ j, t.mark i j = .star) ↔ i = row ∨ ∃ j, s.mark i j = .star := by
  refine ⟨?_, ?_⟩
  · intro ⟨j, star⟩
    rcases (flips i j).mp star with ⟨on, _⟩ | ⟨_, before⟩
    · rcases List.mem_cons.mp on with here | later
      · exact .inl (Prod.mk.inj here).1
      · obtain ⟨⟨k, _, isStar⟩, _⟩ := walk.both later
        exact .inr ⟨k, isStar⟩
    · exact .inr ⟨j, before⟩
  · intro way
    rcases way with same | ⟨j, star⟩
    · exact ⟨col, (flips i col).mpr (.inl ⟨by rw [same]; exact List.mem_cons_self, by rw [same, reached.prime]⟩)⟩
    · by_cases on : (i, j) ∈ (row, col) :: rest
      · rcases List.mem_cons.mp on with here | later
        · rw [(Prod.mk.inj here).1] at star
          exact absurd star (reached.free j)
        · obtain ⟨_, k, inside, prime⟩ := walk.both later
          exact ⟨k, (flips i k).mpr (.inl ⟨List.mem_cons_of_mem _ inside, prime⟩)⟩
      · exact ⟨j, (flips i j).mpr (.inr ⟨on, star⟩)⟩

theorem cols (flips : Flips ((row, col) :: rest) s t) (reached : Reached costs most tree row col s)
    (walk : Walk s col rest) {j : Fin n} (starred : ∃ i, s.mark i j = .star) : ∃ i, t.mark i j = .star := by
  obtain ⟨i, star⟩ := starred
  by_cases on : (i, j) ∈ (row, col) :: rest
  · rcases List.mem_cons.mp on with here | later
    · rw [(Prod.mk.inj here).1] at star
      exact absurd star (reached.free j)
    · rcases walk.primeOf later star with same | ⟨k, inside, prime⟩
      · rw [same]
        exact ⟨row, (flips row col).mpr (.inl ⟨List.mem_cons_self, reached.prime⟩)⟩
      · exact ⟨k, (flips k j).mpr (.inl ⟨List.mem_cons_of_mem _ inside, prime⟩)⟩
  · exact ⟨i, (flips i j).mpr (.inr ⟨on, star⟩)⟩

theorem count (flips : Flips ((row, col) :: rest) s t) (reached : Reached costs most tree row col s)
    (walk : Walk s col rest) (before : Apart s) (after : Apart t) : t.stars = s.stars + 1 := by
  have fresh : row ∉ starRows s := by
    intro member
    obtain ⟨j, star⟩ := memStarRows.mp member
    exact reached.free j star
  have gained : starRows t = insert row (starRows s) := by
    ext i
    rw [memStarRows, flips.rows reached walk, Finset.mem_insert, memStarRows]
  rw [starsCard after, starsCard before, gained, Finset.card_insert_of_notMem fresh]

end Flips

theorem dropPrimesAt (s : State n) (i j : Fin n) :
    (dropPrimes s).mark i j = if s.mark i j = .prime then .empty else s.mark i j := by
  simp [dropPrimes, State.mark]

structure Flipped (path : List (Fin n × Fin n)) (s t : State n) : Prop where
  stars : Flips path s t
  noPrime : ∀ i j : Fin n, t.mark i j ≠ .prime
  rowOpen : ∀ i : Fin n, t.rowCovered[i] = false
  colOpen : ∀ j : Fin n, t.colCovered[j] = false
  rowShift : t.rowShift = s.rowShift
  colShift : t.colShift = s.colShift
  covered : t.covered = s.covered

theorem flippedOfMarks {path : List (Fin n × Fin n)} {flipped : State n} (only : ∃ marks, flipped = { s with marks := marks })
    (at_ : ∀ i j, flipped.mark i j = if (i, j) ∈ path then (s.mark i j).flip else s.mark i j) :
    Flipped path s (dropPrimes flipped.uncoverAll) := by
  obtain ⟨marks, only⟩ := only
  have mark : ∀ i j, (dropPrimes flipped.uncoverAll).mark i j =
      if flipped.mark i j = .prime then .empty else flipped.mark i j :=
    fun i j => dropPrimesAt flipped.uncoverAll i j
  refine ⟨?_, ?_, ?_, ?_, ?_, ?_, ?_⟩
  · intro i j
    rw [mark, at_]
    cases s.mark i j <;> by_cases on : (i, j) ∈ path <;> simp [on, Mark.flip]
  · intro i j prime
    rw [mark] at prime
    split at prime
    case isTrue => cases prime
    case isFalse other => exact other prime
  · intro i
    exact Vector.getElem_replicate i.isLt
  · intro j
    exact Vector.getElem_replicate j.isLt
  · rw [only]
    rfl
  · rw [only]
    rfl
  · rw [only]
    rfl

theorem Reached.augmented (reached : Reached costs most tree row col s) :
    ∃ rest t, augment s row col = ⟨t, [pathEvent ((row, col) :: rest)], .ok .cover⟩ ∧ Walk s col rest ∧
      ((row, col) :: rest).Nodup ∧ Flipped ((row, col) :: rest) s t := by
  obtain ⟨rest, done, walk, inside⟩ := reached.path
  have distinct : ((row, col) :: rest).Nodup :=
    List.nodup_cons.mpr ⟨fun member => reached.outside (inside _ member), walk.nodup⟩
  obtain ⟨flipped, made, only, at_⟩ := @flipMarksOk n s ((row, col) :: rest) distinct (by
    intro i j member
    rcases List.mem_cons.mp member with here | later
    · obtain ⟨isRow, isCol⟩ := Prod.mk.inj here
      exact .inr (by rw [isRow, isCol, reached.prime])
    · exact walk.marked later)
  refine ⟨rest, _, ?_, walk, distinct, flippedOfMarks only at_⟩
  simp only [augment, done, made]

theorem Reached.augmentOk (reached : Reached costs most tree row col s) :
    (augment s row col).result = .ok .cover ∧ Rest costs most (augment s row col).state ∧
      (augment s row col).state.stars = s.stars + 1 := by
  obtain ⟨drift, shifts, range⟩ := reached.shifts
  obtain ⟨rest, t, made, walk, _, flipped⟩ := reached.augmented
  have flips := flipped.stars
  have apart := flips.apart reached walk
  have count := flips.count reached walk shifts.apart apart
  rw [made]
  refine ⟨rfl, ⟨⟨drift, ?_, range⟩, flipped.noPrime, flipped.rowOpen, flipped.colOpen, ?_⟩, count⟩
  · refine shifts.restar flipped.rowShift flipped.colShift apart ?_ ?_ ?_
    · intro i j star
      rcases (flips i j).mp star with ⟨_, prime⟩ | ⟨_, before⟩
      · exact reached.tight i j prime
      · exact shifts.tight i j before
    · intro i before
      exact (flips.rows reached walk i).mpr (.inr before)
    · intro j before
      exact flips.cols reached walk before
  · have counted := reached.counted
    rw [flipped.covered, count]
    omega

end OptimalMatching.Hungarian
