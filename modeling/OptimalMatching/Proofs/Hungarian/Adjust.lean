import OptimalMatching.Proofs.Hungarian.Cover

/-! The change of the shifts. All rows outside the tree come down by the least of their slacks, which makes a zero and
keeps every price where it was or above zero. Where there is no slack, the rows outside the tree have too few columns. -/
namespace OptimalMatching.Hungarian

variable {w : Width} {n : Nat} {costs : Costs n} {most lift delta : Int} {s t : State n} {tree : List (Fin n)}

def Slack.lower (delta : Int) (slack : Slack n) : Slack n := ⟨slack.price - delta, slack.col⟩

structure Fallen (delta : Int) (rows : List (Fin n)) (s t : State n) : Prop where
  only : ∃ shift slack, t = { s with rowShift := shift, slack := slack }
  rowShift : ∀ i : Fin n, t.rowShift[i] = if i ∈ rows then s.rowShift[i] - delta else s.rowShift[i]
  slack : ∀ i : Fin n, t.slack[i] = if i ∈ rows then (s.slack[i]).map (Slack.lower delta) else s.slack[i]

namespace Fallen
variable {u : State n} {row : Fin n} {rest : List (Fin n)}

theorem one {slack : Vector (Option (Slack n)) n}
    (known : ∀ i : Fin n, slack[i] = if i = row then (s.slack[i]).map (Slack.lower delta) else s.slack[i]) :
    Fallen delta [row] s { s with rowShift := s.rowShift.set row (s.rowShift[row] - delta) row.isLt, slack := slack } := by
  refine ⟨⟨_, _, rfl⟩, ?_, ?_⟩
  · intro i
    simp only [List.mem_singleton]
    exact updateAt s.rowShift row i (· - delta)
  · simpa only [List.mem_singleton] using known

theorem cons (first : Fallen delta [row] s t) (later : Fallen delta rest t u) (fresh : row ∉ rest) :
    Fallen delta (row :: rest) s u := by
  obtain ⟨⟨_, _, only⟩, shifts, slacks⟩ := first
  obtain ⟨⟨shift, slack, only'⟩, shifts', slacks'⟩ := later
  refine ⟨⟨shift, slack, by rw [only', only]⟩, ?_, ?_⟩
  · intro i
    rw [shifts', shifts]
    by_cases same : i = row
    · simp [same, fresh]
    · simp [same]
  · intro i
    rw [slacks', slacks]
    by_cases same : i = row
    · simp [same, fresh]
    · simp [same]

end Fallen

theorem lowerRowsEnds {roomy : Prop} {stuck : Nat → Prop} {rows : List (Fin n)} (distinct : rows.Nodup)
    (fits : roomy → ∀ i ∈ rows, w.Holds (s.rowShift[i] - delta))
    (slackFits : ∀ i ∈ rows, ∀ slack, s.slack[i] = some slack → w.Holds (slack.price - delta)) :
    Ends roomy stuck (Fallen delta rows s) (lowerRows w delta rows s) := by
  induction rows generalizing s with
  | nil => exact ⟨⟨_, _, rfl⟩, by simp, by simp⟩
  | cons row rest ih =>
    obtain ⟨fresh, distinct⟩ := List.nodup_cons.mp distinct
    have other : ∀ i ∈ rest, i ∉ [row] := fun i member same => fresh (List.mem_singleton.mp same ▸ member)
    -- What is left to do once the first row has moved, with or without a slack.
    have further : ∀ t, Fallen delta [row] s t →
        Ends roomy stuck (Fallen delta (row :: rest) s) (lowerRows w delta rest t) := by
      intro t first
      refine (@ih t distinct ?_ ?_).imp fun u later => first.cons later fresh
      · intro room i member
        rw [first.rowShift, if_neg (other i member)]
        exact fits room i (List.mem_cons_of_mem _ member)
      · intro i member
        rw [first.slack, if_neg (other i member)]
        exact slackFits i (List.mem_cons_of_mem _ member)
    simp only [lowerRows]
    refine Ends.bind (Ends.keep fun room => fits room row List.mem_cons_self) ?_
    intro moved ⟨exact, _⟩
    subst exact
    cases known : s.slack[row] with
    | none =>
      refine further _ (.one ?_)
      intro i
      by_cases same : i = row
      · simp [same, known]
      · simp [same]
    | some slack =>
      have holds := slackFits row List.mem_cons_self slack known
      simp only [Width.keepOk holds, bind, Except.bind]
      refine further _ (.one ?_)
      intro i
      by_cases same : i = row
      · simp [same, known, Slack.lower]
      · have apart : ¬ row.val = i.val := fun equal => same (Fin.ext equal.symm)
        simp [same, apart]

theorem raiseColsEnds {roomy : Prop} {stuck : Nat → Prop} {cols : List (Fin n)} (distinct : cols.Nodup)
    (fits : roomy → ∀ j ∈ cols, w.Holds (s.colShift[j] + delta)) :
    Ends roomy stuck
      (fun t => (∃ shift, t = { s with colShift := shift }) ∧
        ∀ j : Fin n, t.colShift[j] = if j ∈ cols then s.colShift[j] + delta else s.colShift[j])
      (raiseCols w delta cols s) := by
  induction cols generalizing s with
  | nil => exact ⟨⟨_, rfl⟩, by simp⟩
  | cons col rest ih =>
    obtain ⟨fresh, distinct⟩ := List.nodup_cons.mp distinct
    simp only [raiseCols]
    refine Ends.bind (Ends.keep fun room => fits room col List.mem_cons_self) ?_
    intro moved ⟨exact, _⟩
    subst exact
    have shifts : ∀ j : Fin n, (s.colShift.set col (s.colShift[col] + delta))[j] =
        if j = col then s.colShift[j] + delta else s.colShift[j] := by
      intro j
      exact updateAt s.colShift col j (· + delta)
    refine (@ih { s with colShift := s.colShift.set col (s.colShift[col] + delta) } distinct ?_).imp ?_
    · intro room j member
      have other : j ≠ col := fun same => fresh (same ▸ member)
      rw [shifts, if_neg other]
      exact fits room j (List.mem_cons_of_mem _ member)
    · intro t ⟨⟨shift, only⟩, moved⟩
      refine ⟨⟨shift, only⟩, ?_⟩
      intro j
      rw [moved, shifts]
      by_cases same : j = col
      · simp [same, fresh]
      · simp [same]

structure Lowered (delta : Int) (s t : State n) : Prop where
  only : ∃ row col slack, t = { s with rowShift := row, colShift := col, slack := slack }
  rowShift : ∀ i : Fin n, t.rowShift[i] = if i ∈ s.uncoveredRows then s.rowShift[i] - delta else s.rowShift[i]
  colShift : ∀ j : Fin n, t.colShift[j] = if j ∈ s.coveredCols then s.colShift[j] + delta else s.colShift[j]
  slack : ∀ i : Fin n, t.slack[i] =
    if i ∈ s.uncoveredRows then (s.slack[i]).map (Slack.lower delta) else s.slack[i]

theorem Lowered.mark (lowered : Lowered delta s t) (i j : Fin n) : t.mark i j = s.mark i j := by
  obtain ⟨row, col, slack, only⟩ := lowered.only
  rw [only]
  rfl

theorem shiftByEnds {roomy : Prop} {stuck : Nat → Prop}
    (rowFits : roomy → ∀ i ∈ s.uncoveredRows, w.Holds (s.rowShift[i] - delta))
    (colFits : roomy → ∀ j ∈ s.coveredCols, w.Holds (s.colShift[j] + delta))
    (slackFits : ∀ i ∈ s.uncoveredRows, ∀ slack, s.slack[i] = some slack → w.Holds (slack.price - delta)) :
    Ends roomy stuck (Lowered delta s) (shiftBy w delta s) := by
  unfold shiftBy
  refine Ends.bind (lowerRowsEnds ((List.nodup_finRange n).filter _) rowFits slackFits) ?_
  intro t ⟨⟨row, slack, only⟩, rows, slacks⟩
  subst only
  refine (@raiseColsEnds w n delta { s with rowShift := row, slack := slack } roomy stuck s.coveredCols
    ((List.nodup_finRange n).filter _) colFits).imp ?_
  intro u ⟨⟨col, only⟩, cols⟩
  subst only
  exact ⟨⟨_, _, _, rfl⟩, rows, cols, slacks⟩

theorem Tightest.lower {price price' : Fin n → Option Int} {seen : Fin n → Prop} {slack : Option (Slack n)}
    (tightest : Tightest price seen slack) (lowered : ∀ j, seen j → price' j = (price j).map (· - delta)) :
    Tightest price' seen (slack.map (Slack.lower delta)) := by
  cases slack with
  | none =>
    intro j way
    rw [lowered j way, tightest j way]
    rfl
  | some slack =>
    obtain ⟨stands, at_, least⟩ := tightest
    refine ⟨stands, ?_, ?_⟩
    · simp only [Slack.lower]
      rw [lowered _ stands, at_]
      rfl
    · intro j x way found
      rw [lowered j way, Option.map_eq_some_iff] at found
      obtain ⟨y, before, same⟩ := found
      have le := least j y way before
      simp only [Slack.lower]
      omega

theorem Tree.primeCol (grown : Tree s tree) {i j : Fin n} (member : i ∈ tree) (prime : s.mark i j = .prime) {i' : Fin n}
    (star : s.mark i' j = .star) : i' ∈ tree := by
  induction grown with
  | nil => cases member
  | cons fresh starred primed only way tail ih =>
    rcases List.mem_cons.mp member with same | inside
    · rw [same] at prime
      rw [only j prime] at star
      exact List.mem_cons_of_mem _ (way i' star)
    · exact List.mem_cons_of_mem _ (ih inside)

theorem leastSlackNone (blank : leastSlack s = none) {i : Fin n} (member : i ∈ s.uncoveredRows) :
    s.slack[i] = none := by
  rw [leastSlack, List.min?_eq_none_iff, List.filterMap_eq_nil_iff] at blank
  exact Option.map_eq_none_iff.mp (blank i member)

theorem headLeast {first : Fin n} (head : s.uncoveredRows.head? = some first) :
    first ∈ s.uncoveredRows ∧ ∀ i ∈ s.uncoveredRows, first.val ≤ i.val := by
  refine ⟨List.mem_of_mem_head? head, ?_⟩
  have order : s.uncoveredRows.Pairwise (· < ·) := (List.pairwise_lt_finRange n).filter _
  obtain ⟨rest, split⟩ := List.head?_eq_some_iff.mp head
  rw [split] at order ⊢
  intro i member
  rcases List.mem_cons.mp member with same | later
  · rw [same]
  · exact Nat.le_of_lt ((List.pairwise_cons.mp order).1 i later)

theorem leastSlackSome (found : leastSlack s = some delta) :
    (∃ i ∈ s.uncoveredRows, ∃ slack, s.slack[i] = some slack ∧ slack.price = delta) ∧
      ∀ i ∈ s.uncoveredRows, ∀ slack, s.slack[i] = some slack → delta ≤ slack.price := by
  rw [leastSlack, List.min?_eq_some_iff] at found
  obtain ⟨member, least⟩ := found
  refine ⟨?_, ?_⟩
  · obtain ⟨i, inside, at_⟩ := List.mem_filterMap.mp member
    obtain ⟨slack, known, same⟩ := Option.map_eq_some_iff.mp at_
    exact ⟨i, inside, slack, known, same⟩
  · intro i inside slack known
    exact least _ (List.mem_filterMap.mpr ⟨i, inside, by rw [known]; rfl⟩)

namespace Search

/- A covered column is that of the star of a row outside the tree, and one row outside the tree has no star. -/
theorem fewCols (search : Search w costs most lift tree s) : s.coveredCols.length < s.uncoveredRows.length := by
  obtain ⟨drift, shifts, _⟩ := search.shifts
  obtain ⟨row, free⟩ := starless shifts.apart search.few
  have outside : row ∉ tree := by
    intro member
    obtain ⟨j, star⟩ := search.grown.starred member
    exact free j star
  have waits : row ∈ Finset.univ.filter fun i : Fin n => (!s.rowCovered[i]) = true := by
    simpa [State.uncoveredRows] using search.rowOpen.mpr outside
  rw [State.coveredCols, State.uncoveredRows, filterCard, filterCard]
  refine Nat.lt_of_le_of_lt ?_ (Finset.card_erase_lt_of_mem waits)
  refine Finset.card_le_card_of_forall_subsingleton (fun j i => s.mark i j = .star) ?_ ?_
  · intro j member
    obtain ⟨i, star, out⟩ := (search.colCover j).mp (Finset.mem_filter.mp member).2
    refine ⟨i, Finset.mem_erase.mpr ⟨?_, ?_⟩, star⟩
    · intro same
      exact free j (same ▸ star)
    · simpa [State.uncoveredRows] using search.rowOpen.mpr out
  · intro i _ j left j' right
    exact shifts.apart.row i j j' left.2 right.2

theorem firstOpen (search : Search w costs most lift tree s) : ∃ first, s.uncoveredRows.head? = some first := by
  have some_ := Nat.zero_lt_of_lt search.fewCols
  exact ⟨_, List.head?_eq_some_head (List.ne_nil_of_length_pos some_)⟩

theorem stuck (search : Search w costs most lift tree s) (blank : leastSlack s = none) :
    CrowdedFrom costs ((s.uncoveredRows.head?.map Fin.val).getD 0) := by
  obtain ⟨first, head⟩ := search.firstOpen
  obtain ⟨member, le⟩ := headLeast head
  rw [head]
  refine ⟨s.uncoveredRows, s.coveredCols, ?_, ⟨first, member, rfl⟩, le⟩
  refine ⟨fun i _ => i.isLt, (List.nodup_finRange n).filter _, ?_, search.fewCols⟩
  intro i member j cost has
  rw [memCoveredCols]
  by_contra open_
  have tightest := (search.slacks i member).1
  rw [leastSlackNone blank member] at tightest
  have nothing := tightest j (Bool.eq_false_iff.mpr open_)
  rw [priceAtNone, has] at nothing
  cases nothing

theorem deltaRange (search : Search w costs most lift tree s) (priced : Priced w costs most)
    (found : leastSlack s = some delta) : lift + delta ≤ n * most := by
  obtain ⟨⟨i, member, slack, known, same⟩, _⟩ := leastSlackSome found
  have tightest := (search.slacks i member).1
  rw [known] at tightest
  obtain ⟨open_, at_, _⟩ := tightest
  obtain ⟨cost, has, price⟩ := priceAtSome.mp at_
  have bound := priced.within i _ cost has
  have opened := search.opened _ open_
  have lifted := search.lifted i (search.rowOpen.mp member)
  have product := search.treeProduct priced.nonneg
  omega

theorem deltaPositive (search : Search w costs most lift tree s) (none : uncoveredZero s = none)
    (found : leastSlack s = some delta) : 0 < delta := by
  obtain ⟨drift, shifts, _⟩ := search.shifts
  obtain ⟨⟨i, member, slack, known, same⟩, _⟩ := leastSlackSome found
  have nonzero := uncoveredZeroNone none member known
  have tightest := (search.slacks i member).1
  rw [known] at tightest
  have nonneg := shifts.feasible i _ _ tightest.2.1
  omega

theorem slackFits (search : Search w costs most lift tree s) (found : leastSlack s = some delta) (positive : 0 < delta)
    {i : Fin n} (member : i ∈ s.uncoveredRows) {slack : Slack n} (known : s.slack[i] = some slack) :
    w.Holds (slack.price - delta) := by
  have least := (leastSlackSome found).2 i member slack known
  have top := (search.slacks i member).2 slack known
  exact Width.holdsNonneg (by omega) (by omega)

theorem deltaFits (search : Search w costs most lift tree s) (priced : Priced w costs most)
    (found : leastSlack s = some delta) (positive : 0 < delta) (room : most * roomFactor n ≤ w.top) :
    (∀ i : Fin n, w.Holds (s.rowShift[i] - delta)) ∧ ∀ j : Fin n, w.Holds (s.colShift[j] + delta) := by
  obtain ⟨drift, shifts, range⟩ := search.shifts
  have high := search.deltaRange priced found
  have low := search.liftLow
  have nonneg := priced.nonneg
  have product : 0 ≤ n * most := Int.mul_nonneg (Int.natCast_nonneg n) nonneg
  refine ⟨?_, ?_⟩
  · intro i
    have fall := shifts.rowFall i
    have sign := shifts.rowSign i
    exact roomHolds room (by omega) (by omega)
  · intro j
    have rise := shifts.colRise j
    have sign := shifts.colSign j
    exact roomHolds room (by omega) (by omega)

theorem lowerPrice (search : Search w costs most lift tree s) (lowered : Lowered delta s t) (i j : Fin n) :
    priceAt costs t i j = (priceAt costs s i j).map fun x =>
      if i ∈ tree then (if s.colCovered[j] = true then x + delta else x)
      else if s.colCovered[j] = true then x else x - delta := by
  have row := lowered.rowShift i
  have col := lowered.colShift j
  simp only [search.rowOpen] at row
  simp only [memCoveredCols] at col
  rw [priceAt, priceAt, Option.map_map, row, col]
  congr 1
  funext cost
  simp only [Function.comp_apply]
  by_cases inside : i ∈ tree
  · by_cases covered : s.colCovered[j] = true
    · simp only [inside, covered, not_true_eq_false, if_false, if_true]
      omega
    · simp only [inside, covered, not_true_eq_false, if_false, if_true, Bool.false_eq_true]
  · by_cases covered : s.colCovered[j] = true
    · simp only [inside, covered, not_false_eq_true, if_false, if_true]
      omega
    · simp only [inside, covered, not_false_eq_true, if_false, if_true, Bool.false_eq_true]
      omega

theorem slackLeast (search : Search w costs most lift tree s) (found : leastSlack s = some delta) {i j : Fin n}
    (outside : i ∉ tree) (open_ : s.colCovered[j] = false) {x : Int} (price : priceAt costs s i j = some x) :
    delta ≤ x := by
  have member := search.rowOpen.mpr outside
  have tightest := (search.slacks i member).1
  cases known : s.slack[i] with
  | none =>
    rw [known] at tightest
    rw [tightest j open_] at price
    cases price
  | some slack =>
    rw [known] at tightest
    have least := (leastSlackSome found).2 i member slack known
    have le := tightest.2.2 j x open_ price
    omega

theorem lowerFeasible (search : Search w costs most lift tree s) (found : leastSlack s = some delta)
    (positive : 0 < delta) (lowered : Lowered delta s t) {drift : Int} (shifts : Shifts costs most drift s)
    {i j : Fin n} {x : Int} (price : priceAt costs t i j = some x) : 0 ≤ x := by
  rw [search.lowerPrice lowered, Option.map_eq_some_iff] at price
  obtain ⟨y, before, same⟩ := price
  have nonneg := shifts.feasible i j y before
  have least : i ∉ tree → s.colCovered[j] = false → delta ≤ y :=
    fun outside open_ => search.slackLeast found outside open_ before
  split at same <;> split at same
  · omega
  · omega
  · omega
  · have le := least ‹_› (Bool.eq_false_iff.mpr ‹_›)
    omega

theorem lowerStar (search : Search w costs most lift tree s) (lowered : Lowered delta s t) {drift : Int}
    (shifts : Shifts costs most drift s) {i j : Fin n} (star : s.mark i j = .star) :
    priceAt costs t i j = some 0 := by
  rw [search.lowerPrice lowered, shifts.tight i j star, Option.map_some]
  by_cases inside : i ∈ tree
  · have open_ : ¬ s.colCovered[j] = true := by
      intro covered
      obtain ⟨i', star', out⟩ := (search.colCover j).mp covered
      exact out (shifts.apart.col i i' j star star' ▸ inside)
    rw [if_pos inside, if_neg open_]
  · rw [if_neg inside, if_pos ((search.colCover j).mpr ⟨i, star, inside⟩)]

theorem lowerPrime (search : Search w costs most lift tree s) (lowered : Lowered delta s t) {i j : Fin n}
    (prime : s.mark i j = .prime) : priceAt costs t i j = some 0 := by
  obtain ⟨member, zero⟩ := search.primed i j prime
  have open_ : ¬ s.colCovered[j] = true := by
    intro covered
    obtain ⟨i', star, out⟩ := (search.colCover j).mp covered
    exact out (search.grown.primeCol member prime star)
  rw [search.lowerPrice lowered, zero, Option.map_some, if_pos member, if_neg open_]

theorem lowerShifts (search : Search w costs most lift tree s) (found : leastSlack s = some delta)
    (positive : 0 < delta) (lowered : Lowered delta s t) {drift : Int} (shifts : Shifts costs most drift s) :
    Shifts costs most (drift + delta) t := by
  have mark := lowered.mark
  have row := lowered.rowShift
  have col := lowered.colShift
  simp only [search.rowOpen] at row
  simp only [memCoveredCols] at col
  refine ⟨(starsCongr (fun i j => by rw [mark]) shifts.apart).1, ?_, ?_, ?_, ?_, ?_, ?_, ?_, ?_, ?_⟩
  · exact fun i j x price => search.lowerFeasible found positive lowered shifts price
  · intro i j star
    rw [mark] at star
    exact search.lowerStar lowered shifts star
  · intro i
    have sign := shifts.rowSign i
    rw [row]
    split <;> omega
  · intro j
    have sign := shifts.colSign j
    rw [col]
    split <;> omega
  · intro j free
    have open_ : ¬ s.colCovered[j] = true := by
      intro covered
      obtain ⟨i, star, _⟩ := (search.colCover j).mp covered
      exact free i (by rw [mark, star])
    rw [col, if_neg open_]
    exact shifts.colFree j fun i star => free i (by rw [mark, star])
  · intro i
    have fall := shifts.rowFall i
    rw [row]
    split <;> omega
  · intro j
    have rise := shifts.colRise j
    rw [col]
    split <;> omega
  · intro i free
    have waits := shifts.waiting i fun j star => free j (by rw [mark, star])
    have outside : i ∉ tree := by
      intro member
      obtain ⟨j, star⟩ := search.grown.starred member
      exact free j (by rw [mark, star])
    rw [row, if_pos outside]
    omega
  · have before := shifts.positive
    omega

theorem lowerSlacks (search : Search w costs most lift tree s) (positive : 0 < delta) (lowered : Lowered delta s t) :
    Slacks w costs s.uncoveredRows (fun j => s.colCovered[j] = false) t := by
  intro i member
  obtain ⟨tightest, top⟩ := search.slacks i member
  rw [lowered.slack i, if_pos member]
  refine ⟨tightest.lower ?_, ?_⟩
  · intro j uncovered
    rw [search.lowerPrice lowered]
    congr 1
    funext x
    rw [if_neg (search.rowOpen.mp member), uncovered, if_neg Bool.false_ne_true]
  · intro slack known
    obtain ⟨before, had, same⟩ := Option.map_eq_some_iff.mp known
    have le := top before had
    rw [← same]
    simp only [Slack.lower]
    omega

theorem lower (search : Search w costs most lift tree s) (priced : Priced w costs most)
    (found : leastSlack s = some delta) (positive : 0 < delta) (lowered : Lowered delta s t) :
    Search w costs most (lift + delta) tree t := by
  obtain ⟨drift, shifts, range⟩ := search.shifts
  have high := search.deltaRange priced found
  have low := search.liftLow
  have after := search.lowerShifts found positive lowered shifts
  have mark := lowered.mark
  have stars : t.stars = s.stars := (starsCongr (fun i j => by rw [mark]) shifts.apart).2
  obtain ⟨rowShift, colShift, slack, only⟩ := lowered.only
  have rowCovered : t.rowCovered = s.rowCovered := by rw [only]
  have colCovered : t.colCovered = s.colCovered := by rw [only]
  have open_ : t.uncoveredRows = s.uncoveredRows := by rw [State.uncoveredRows, rowCovered, State.uncoveredRows]
  have counted : t.covered = s.covered := by rw [only]
  refine ⟨⟨drift + delta, after, by omega⟩, ?_, ?_, ?_, ?_, ?_, ?_, ?_, by omega, high, ?_, ?_⟩
  · refine search.grown.congr (fun i _ j => mark i j) ?_
    intro i j star
    rw [← mark]
    exact star
  · intro i j prime
    rw [mark] at prime
    exact ⟨(search.primed i j prime).1, search.lowerPrime lowered prime⟩
  · rw [rowCovered]
    exact search.rowCover
  · intro j
    rw [colCovered, search.colCover j]
    simp only [mark]
  · rw [open_]
    simp only [colCovered]
    exact search.lowerSlacks positive lowered
  · intro j uncovered
    rw [colCovered] at uncovered
    have notCovered : j ∉ s.coveredCols := by
      rw [memCoveredCols, uncovered]
      exact Bool.false_ne_true
    rw [lowered.colShift j, if_neg notCovered]
    exact search.opened j uncovered
  · intro i outside
    have lifted := search.lifted i outside
    rw [lowered.rowShift i, if_pos (search.rowOpen.mpr outside)]
    omega
  · rw [stars]
    exact search.few
  · rw [stars, counted]
    exact search.counted

theorem lowerZero (found : leastSlack s = some delta) (lowered : Lowered delta s t) : uncoveredZero t ≠ none := by
  obtain ⟨⟨i, member, slack, known, same⟩, _⟩ := leastSlackSome found
  obtain ⟨_, _, _, only⟩ := lowered.only
  have open_ : t.uncoveredRows = s.uncoveredRows := by
    rw [only]
    rfl
  have now := lowered.slack i
  rw [if_pos member, known] at now
  intro blank
  refine uncoveredZeroNone blank (open_ ▸ member) now ?_
  simp only [Slack.lower]
  omega

theorem adjustEnds (search : Search w costs most lift tree s) (priced : Priced w costs most)
    (blank : uncoveredZero s = none) :
    Ends (most * roomFactor n ≤ w.top) (CrowdedFrom costs)
      (fun phase => phase = .prime ∧ (adjust w s).state.stars = s.stars ∧ uncoveredZero (adjust w s).state ≠ none ∧
        ∃ lift, Search w costs most lift tree (adjust w s).state)
      (adjust w s).result := by
  unfold adjust
  cases found : leastSlack s with
  | none => exact search.stuck found
  | some delta =>
    have positive := search.deltaPositive blank found
    have ends := @shiftByEnds w n delta s (most * roomFactor n ≤ w.top) (CrowdedFrom costs)
      (fun room i _ => (search.deltaFits priced found positive room).1 i)
      (fun room j _ => (search.deltaFits priced found positive room).2 j)
      (fun i member slack known => search.slackFits found positive member known)
    simp only [positive, if_true]
    cases moved : shiftBy w delta s with
    | error failure =>
      rw [moved] at ends
      cases failure <;> exact ends
    | ok t =>
      rw [moved] at ends
      obtain ⟨_, _, _, only⟩ := ends.only
      refine ⟨rfl, ?_, lowerZero found ends, lift + delta, search.lower priced found positive ends⟩
      rw [only]
      rfl

end Search
end OptimalMatching.Hungarian
