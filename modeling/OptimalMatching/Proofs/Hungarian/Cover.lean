import OptimalMatching.Proofs.Hungarian.Search

/-! The start of a search, and its steps. A cover finds the stars in all columns or begins a search; a zero that is primed
ends the search in a row without a star, or puts one more row into the tree. -/
namespace OptimalMatching.Hungarian

variable {w : Width} {n : Nat} {costs : Costs n} {most lift : Int} {s : State n} {tree : List (Fin n)}

theorem coverStarredAt (cols : List (Fin n)) (s : State n) :
    ∃ covered, coverStarred cols s = { s with colCovered := covered } ∧
      ∀ j : Fin n, covered[j] = true ↔ s.colCovered[j] = true ∨ j ∈ cols ∧ ∃ i, s.mark i j = .star := by
  induction cols generalizing s with
  | nil => exact ⟨s.colCovered, rfl, by simp⟩
  | cons col rest ih =>
    simp only [coverStarred]
    by_cases starred : ∃ i, s.mark i col = .star
    · rw [if_pos (markInColIsSome.mpr starred)]
      obtain ⟨covered, only, at_⟩ := ih (s.coverCol col)
      refine ⟨covered, only, ?_⟩
      intro j
      have mark : ∀ i, (s.coverCol col).mark i j = s.mark i j := fun _ => rfl
      rw [at_, coverColAt, List.mem_cons]
      simp only [mark]
      by_cases same : j = col
      · subst same
        simp [starred]
      · simp [same]
    · rw [if_neg fun is_ => starred (markInColIsSome.mp is_)]
      obtain ⟨covered, only, at_⟩ := ih s
      refine ⟨covered, only, ?_⟩
      intro j
      rw [at_, List.mem_cons]
      by_cases same : j = col
      · subst same
        simp [starred]
      · simp [same]

theorem coveredLength {t : State n} (apart : Apart s)
    (covered : ∀ j : Fin n, t.colCovered[j] = true ↔ ∃ i, s.mark i j = .star) : t.coveredCols.length = s.stars := by
  rw [State.coveredCols, filterCard, starsCard apart, starLines apart, starCols]
  simp only [covered]

theorem Rest.coverColumns (rest : Rest costs most s) :
    ∃ covered, coverStarred (List.finRange n) s = { s with colCovered := covered } ∧
      (∀ j : Fin n, covered[j] = true ↔ ∃ i, s.mark i j = .star) ∧
      ({ s with colCovered := covered } : State n).coveredCols.length = s.stars := by
  obtain ⟨drift, shifts, _⟩ := rest.shifts
  obtain ⟨covered, only, at_⟩ := coverStarredAt (List.finRange n) s
  have starred : ∀ j : Fin n, covered[j] = true ↔ ∃ i, s.mark i j = .star := by
    intro j
    rw [at_, rest.colOpen]
    simp
  exact ⟨covered, only, starred, coveredLength shifts.apart starred⟩

theorem Rest.search (rest : Rest costs most s) (priced : Priced w costs most) (few : s.stars ≠ n)
    {colCovered : Vector Bool n} (starred : ∀ j : Fin n, colCovered[j] = true ↔ ∃ i, s.mark i j = .star)
    {slack : Vector (Option (Slack n)) n}
    (slacks : Slacks w costs s.uncoveredRows (fun j => colCovered[j] = false) { s with slack := slack }) :
    Search w costs most 0 [] { s with colCovered := colCovered, covered := s.stars, slack := slack } := by
  obtain ⟨drift, shifts, range⟩ := rest.shifts
  have nonneg : 0 ≤ n * most := Int.mul_nonneg (Int.natCast_nonneg n) priced.nonneg
  refine ⟨⟨drift, shifts.congr rfl rfl fun _ _ => Iff.rfl, by omega⟩, .nil, ?_, ?_, ?_, ?_, ?_, ?_, Int.le_refl 0,
    nonneg, few, Nat.le_refl _⟩
  · intro i j prime
    exact absurd prime (rest.noPrime i j)
  · intro i
    have open_ := rest.rowOpen i
    simp [open_]
  · intro j
    refine (starred j).trans ?_
    simp only [List.not_mem_nil, not_false_eq_true, and_true]
    exact Iff.rfl
  · intro i member
    obtain ⟨tightest, top⟩ := slacks i member
    exact ⟨tightest.congr (fun _ _ => rfl) fun _ => Iff.rfl, top⟩
  · intro j open_
    have free : ∀ i, s.mark i j ≠ .star := by
      intro i star
      have closed := (starred j).mpr ⟨i, star⟩
      rw [open_] at closed
      cases closed
    have zero := shifts.colFree j free
    simp only [List.length_nil, Int.natCast_zero, Int.zero_mul]
    exact Int.le_of_eq zero
  · intro i _
    have sign := shifts.rowSign i
    exact Int.le_trans (Int.le_of_eq (Int.add_zero _)) sign

theorem coverEnds (rest : Rest costs most s) (priced : Priced w costs most) {stuck : Nat → Prop} :
    Ends (most * roomFactor n ≤ w.top) stuck
      (fun out => out.2.stars = s.stars ∧
        (out.1 = .done ∧ s.stars = n ∧ (∃ drift, Shifts costs most drift out.2) ∨
          out.1 = .prime ∧ Search w costs most 0 [] out.2))
      (cover w costs s) := by
  obtain ⟨drift, shifts, range⟩ := rest.shifts
  have nonneg : 0 ≤ n * most := Int.mul_nonneg (Int.natCast_nonneg n) priced.nonneg
  obtain ⟨covered, only, starred, length⟩ := rest.coverColumns
  have stars : ({ s with colCovered := covered } : State n).stars = s.stars := rfl
  have enough : ¬ s.stars < s.covered := Nat.not_lt.mpr rest.counted
  simp only [cover, only, length, stars, ne_eq, not_true_eq_false, if_false, enough]
  split
  case isTrue all =>
    exact ⟨rfl, .inl ⟨rfl, all, drift, shifts.congr rfl rfl fun _ _ => Iff.rfl⟩⟩
  case isFalse few =>
    let opening : State n := { s with colCovered := covered, covered := s.stars, slack := Vector.replicate n none }
    have shifts' : Shifts costs most drift opening := shifts.congr rfl rfl fun _ _ => Iff.rfl
    have blank : Slacks w costs opening.uncoveredRows (fun _ => False) opening := by
      intro i _
      have none : opening.slack[i] = none := Vector.getElem_replicate i.isLt
      rw [none]
      exact ⟨fun _ way => way.elim, nofun⟩
    refine Ends.bind (@openColsEnds w n costs most drift opening shifts' priced (by omega) stuck
      opening.uncoveredCols _ blank) ?_
    intro t ⟨⟨slack, same⟩, slacks⟩
    subst same
    refine ⟨rfl, .inr ⟨rfl, rest.search priced few starred ?_⟩⟩
    intro i member
    obtain ⟨tightest, top⟩ := slacks i member
    refine ⟨tightest.congr (fun _ _ => rfl) ?_, top⟩
    intro j
    rw [or_false]
    exact (@memUncoveredCols n opening j).symm

theorem uncoveredZeroSome {row col : Fin n} (found : uncoveredZero s = some (row, col)) :
    row ∈ s.uncoveredRows ∧ s.slack[row] = some ⟨0, col⟩ := by
  obtain ⟨i, member, at_⟩ := List.exists_of_findSome?_eq_some found
  split at at_
  case h_1 => cases at_
  case h_2 slack known =>
    split at at_
    case isFalse => cases at_
    case isTrue zero =>
      obtain ⟨isRow, isCol⟩ := Prod.mk.inj (Option.some.inj at_)
      subst isRow
      refine ⟨member, ?_⟩
      rw [known, ← zero, ← isCol]

theorem uncoveredZeroNone (none : uncoveredZero s = none) {i : Fin n} (member : i ∈ s.uncoveredRows) {slack : Slack n}
    (known : s.slack[i] = some slack) : slack.price ≠ 0 := by
  have at_ := List.findSome?_eq_none_iff.mp none i member
  rw [known] at at_
  intro zero
  simp only [zero, if_true, reduceCtorEq] at at_

def joined (s : State n) (row col starred : Fin n) : State n :=
  ((s.setMark row col .prime).coverRow row).uncoverCol starred

theorem joinedRow {row col starred i : Fin n} :
    (joined s row col starred).rowCovered[i] = if i = row then true else s.rowCovered[i] :=
  coverRowAt (s.setMark row col .prime) row i

theorem joinedCol {row col starred j : Fin n} :
    (joined s row col starred).colCovered[j] = if j = starred then false else s.colCovered[j] :=
  uncoverColAt ((s.setMark row col .prime).coverRow row) starred j

namespace Search
variable {row col starred : Fin n}

theorem zero (search : Search w costs most lift tree s) (found : uncoveredZero s = some (row, col)) :
    row ∉ tree ∧ s.colCovered[col] = false ∧ priceAt costs s row col = some 0 := by
  obtain ⟨member, known⟩ := uncoveredZeroSome found
  obtain ⟨tightest, _⟩ := search.slacks row member
  rw [known] at tightest
  exact ⟨search.rowOpen.mp member, tightest.1, tightest.2.1⟩

theorem primeStar (search : Search w costs most lift tree s) (found : uncoveredZero s = some (row, col)) (i j : Fin n) :
    (s.setMark row col .prime).mark i j = .star ↔ s.mark i j = .star := by
  obtain ⟨outside, open_, _⟩ := search.zero found
  rw [State.markSetMark]
  split
  case isFalse => exact Iff.rfl
  case isTrue here =>
    refine ⟨nofun, ?_⟩
    intro star
    rw [here.1, here.2] at star
    exact absurd (search.colOpen open_ star) outside

theorem primeTree (search : Search w costs most lift tree s) (found : uncoveredZero s = some (row, col)) :
    Tree (s.setMark row col .prime) tree := by
  obtain ⟨outside, _⟩ := search.zero found
  refine search.grown.congr ?_ fun i j => (search.primeStar found i j).mp
  intro i member j
  rw [State.markSetMark, if_neg]
  intro here
  exact outside (here.1 ▸ member)

theorem primeCases {i j : Fin n} (prime : (s.setMark row col .prime).mark i j = .prime) :
    i = row ∧ j = col ∨ s.mark i j = .prime := by
  rw [State.markSetMark] at prime
  split at prime
  case isTrue here => exact .inl here
  case isFalse => exact .inr prime

theorem zeroRange (search : Search w costs most lift tree s) (priced : Priced w costs most)
    (found : uncoveredZero s = some (row, col)) : 0 ≤ s.rowShift[row] + tree.length * most + most := by
  obtain ⟨_, open_, price⟩ := search.zero found
  obtain ⟨cost, has, zero⟩ := priceAtSome.mp price
  have bound := priced.within row col cost has
  have opened := search.opened col open_
  omega

theorem reached (search : Search w costs most lift tree s) (priced : Priced w costs most)
    (found : uncoveredZero s = some (row, col)) (free : ∀ j, (s.setMark row col .prime).mark row j ≠ .star) :
    Reached costs most tree row col (s.setMark row col .prime) := by
  obtain ⟨_, open_, price⟩ := search.zero found
  obtain ⟨drift, shifts, _⟩ := search.shifts
  have shifts' : Shifts costs most drift (s.setMark row col .prime) := shifts.congr rfl rfl (search.primeStar found)
  have waiting := shifts'.waiting row free
  have range := search.zeroRange priced found
  have product := search.treeProduct priced.nonneg
  have sameShift : (s.setMark row col .prime).rowShift = s.rowShift := rfl
  rw [sameShift] at waiting
  refine ⟨⟨drift, shifts', by omega⟩, search.primeTree found, ?_, ?_, ?_, free, ?_, ?_⟩
  · intro i j prime
    rcases primeCases prime with here | before
    · exact .inr here
    · exact .inl (search.primed i j before).1
  · intro i j prime
    rcases primeCases prime with here | before
    · rw [here.1, here.2]
      exact price
    · exact (search.primed i j before).2
  · rw [State.markSetMark, if_pos ⟨rfl, rfl⟩]
  · intro i star
    exact search.colOpen open_ ((search.primeStar found i col).mp star)
  · rw [(starsCongr (search.primeStar found) shifts.apart).2]
    exact search.counted

section Join
variable (search : Search w costs most lift tree s) (found : uncoveredZero s = some (row, col))
  (star : s.mark row starred = .star)
include search found star

/- The row joins the tree over its prime, whose column has no star outside the tree. -/
theorem joinTree : Tree (joined s row col starred) (row :: tree) := by
  obtain ⟨outside, open_, _⟩ := search.zero found
  have stars := search.primeStar found
  refine @Tree.cons n _ row col tree outside ⟨starred, (stars row starred).mpr star⟩ ?_ ?_ ?_ ?_
  · exact (s.markSetMark row col row col .prime).trans (if_pos ⟨rfl, rfl⟩)
  · intro j prime
    rcases primeCases prime with here | before
    · exact here.2
    · exact absurd (search.primed row j before).1 outside
  · intro i isStar
    exact search.colOpen open_ ((stars i col).mp isStar)
  · exact (search.primeTree found).congr (fun _ _ _ => rfl) fun _ _ isStar => isStar

theorem joinCover (j : Fin n) : (joined s row col starred).colCovered[j] = true ↔
    ∃ i, (joined s row col starred).mark i j = .star ∧ i ∉ row :: tree := by
  obtain ⟨drift, shifts, _⟩ := search.shifts
  have stars : ∀ i, (joined s row col starred).mark i j = .star ↔ s.mark i j = .star :=
    fun i => search.primeStar found i j
  simp only [stars, joinedCol]
  by_cases isCol : j = starred
  · rw [if_pos isCol, isCol]
    refine ⟨nofun, ?_⟩
    intro ⟨i, isStar, out⟩
    have isRow := shifts.apart.col i row starred isStar star
    exact absurd (isRow ▸ List.mem_cons_self) out
  · rw [if_neg isCol, search.colCover j]
    refine ⟨?_, ?_⟩
    · intro ⟨i, isStar, out⟩
      refine ⟨i, isStar, ?_⟩
      intro member
      rcases List.mem_cons.mp member with isRow | inside
      · exact isCol (shifts.apart.row row j starred (isRow ▸ isStar) star)
      · exact out inside
    · intro ⟨i, isStar, out⟩
      exact ⟨i, isStar, fun member => out (List.mem_cons_of_mem _ member)⟩

theorem joinOpened (priced : Priced w costs most) {j : Fin n}
    (opened : (joined s row col starred).colCovered[j] = false) : s.colShift[j] ≤ (row :: tree).length * most := by
  obtain ⟨drift, shifts, _⟩ := search.shifts
  have longer : ((row :: tree).length : Int) * most = tree.length * most + most := by
    rw [List.length_cons, Int.natCast_add, Int.add_mul]
    simp
  have nonneg := priced.nonneg
  rw [joinedCol] at opened
  rw [longer]
  split at opened
  case isTrue isCol =>
    obtain ⟨cost, has, zero⟩ := priceAtSome.mp (shifts.tight row starred star)
    have bound := priced.within row starred cost has
    have fall := search.zeroRange priced found
    rw [isCol]
    omega
  case isFalse =>
    have before := search.opened j opened
    omega

theorem join (priced : Priced w costs most) {slack : Vector (Option (Slack n)) n}
    (slacks : Slacks w costs (joined s row col starred).uncoveredRows (fun j => j = starred ∨ s.colCovered[j] = false)
      { joined s row col starred with slack := slack }) :
    Search w costs most lift (row :: tree) { joined s row col starred with slack := slack } := by
  obtain ⟨_, _, price⟩ := search.zero found
  obtain ⟨drift, shifts, range⟩ := search.shifts
  have stars := search.primeStar found
  have count := (starsCongr stars shifts.apart).2
  refine ⟨⟨drift, shifts.congr rfl rfl stars, range⟩, ?_, ?_, ?_, search.joinCover found star, ?_, ?_, ?_,
    search.liftLow, search.liftHigh, ?_, ?_⟩
  · exact (search.joinTree found star).congr (fun _ _ _ => rfl) fun _ _ isStar => isStar
  · intro i j prime
    rcases primeCases prime with here | before
    · rw [here.1, here.2]
      exact ⟨List.mem_cons_self, price⟩
    · exact ⟨List.mem_cons_of_mem _ (search.primed i j before).1, (search.primed i j before).2⟩
  · intro i
    change (joined s row col starred).rowCovered[i] = true ↔ i ∈ row :: tree
    rw [joinedRow, List.mem_cons, ← search.rowCover i]
    split
    case isTrue isRow => simp [isRow]
    case isFalse isRow => simp [isRow]
  · intro i member
    obtain ⟨tightest, top⟩ := slacks i member
    refine ⟨tightest.congr (fun _ _ => rfl) ?_, top⟩
    intro j
    change (joined s row col starred).colCovered[j] = false ↔ _
    rw [joinedCol]
    split
    case isTrue isCol => simp [isCol]
    case isFalse isCol => simp [isCol]
  · exact fun j opened => search.joinOpened found star priced opened
  · intro i out
    exact search.lifted i fun member => out (List.mem_cons_of_mem _ member)
  · exact fun all => search.few (count.symm.trans all)
  · exact Nat.le_trans search.counted (Nat.le_of_eq count.symm)

end Join

theorem primeZeroEnds (search : Search w costs most lift tree s) (priced : Priced w costs most) {stuck : Nat → Prop} :
    Ends (most * roomFactor n ≤ w.top) stuck
      (fun out => out.2.stars = s.stars ∧
        (out.1 = .adjust ∧ out.2 = s ∧ uncoveredZero s = none ∨
          (∃ row, out.1 = .prime ∧ Search w costs most lift (row :: tree) out.2) ∨
          ∃ row col, out.1 = .augment row col ∧ Reached costs most tree row col out.2))
      (primeZero w costs s) := by
  obtain ⟨drift, shifts, range⟩ := search.shifts
  have high := search.liftHigh
  unfold primeZero
  cases found : uncoveredZero s with
  | none => exact ⟨rfl, .inl ⟨rfl, rfl, rfl⟩⟩
  | some cell =>
    obtain ⟨row, col⟩ := cell
    have stars := search.primeStar found
    have count := (starsCongr stars shifts.apart).2
    simp only
    cases inRow : (s.setMark row col .prime).markInRow row .star with
    | none => exact ⟨count, .inr (.inr ⟨row, col, rfl, search.reached priced found (markInRowNone.mp inRow)⟩)⟩
    | some starred =>
      have star := (stars row starred).mp (markInRowSome inRow)
      have shifts' : Shifts costs most drift (joined s row col starred) := shifts.congr rfl rfl stars
      have fewer : ∀ i, i ∈ (joined s row col starred).uncoveredRows → i ∈ s.uncoveredRows := by
        intro i member
        rw [memUncoveredRows, joinedRow] at member
        split at member
        case isTrue => cases member
        case isFalse => exact memUncoveredRows.mpr member
      have slacks : Slacks w costs (joined s row col starred).uncoveredRows (fun j => s.colCovered[j] = false)
          (joined s row col starred) :=
        fun i member => search.slacks i (fewer i member)
      refine Ends.bind (@openColEnds w n costs most drift (joined s row col starred) starred shifts' priced (by omega)
        stuck _ _ ((List.nodup_finRange n).filter _) slacks) ?_
      intro t ⟨⟨slack, only⟩, _, told⟩
      subst only
      exact ⟨count, .inr (.inl ⟨row, rfl, search.join found star priced told⟩)⟩

end Search
end OptimalMatching.Hungarian
