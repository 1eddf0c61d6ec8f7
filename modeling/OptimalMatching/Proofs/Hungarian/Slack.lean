import OptimalMatching.Proofs.Hungarian.Shifts

/-! The slacks. The slack of a row is its least price over the columns opened so far; opening a column takes its prices
into the slacks of the rows that are not covered. -/
namespace OptimalMatching.Hungarian

variable {w : Width} {n : Nat} {costs : Costs n} {most drift : Int} {s : State n} {col : Fin n}

def Tightest (price : Fin n → Option Int) (seen : Fin n → Prop) : Option (Slack n) → Prop
  | none => ∀ j, seen j → price j = none
  | some slack => seen slack.col ∧ price slack.col = some slack.price ∧
      ∀ j x, seen j → price j = some x → slack.price ≤ x

theorem Tightest.skip {price : Fin n → Option Int} {seen : Fin n → Prop} {slack : Option (Slack n)}
    (tightest : Tightest price seen slack) (none : price col = none) :
    Tightest price (fun j => j = col ∨ seen j) slack := by
  cases slack with
  | none =>
    intro j way
    rcases way with same | before
    · rw [same, none]
    · exact tightest j before
  | some slack =>
    obtain ⟨stands, at_, least⟩ := tightest
    refine ⟨.inr stands, at_, ?_⟩
    intro j x way found
    rcases way with same | before
    · rw [same, none] at found
      cases found
    · exact least j x before found

theorem Tightest.congr {price price' : Fin n → Option Int} {seen seen' : Fin n → Prop} {slack : Option (Slack n)}
    (tightest : Tightest price seen slack) (same : ∀ j, seen j → price' j = price j) (cols : ∀ j, seen' j ↔ seen j) :
    Tightest price' seen' slack := by
  cases slack with
  | none =>
    intro j way
    rw [same j ((cols j).mp way)]
    exact tightest j ((cols j).mp way)
  | some slack =>
    obtain ⟨stands, at_, least⟩ := tightest
    refine ⟨(cols _).mpr stands, by rw [same _ stands, at_], ?_⟩
    intro j x way found
    rw [same j ((cols j).mp way)] at found
    exact least j x ((cols j).mp way) found

theorem tightenRest (s : State n) (row col : Fin n) (x : Int) :
    ∃ slack, s.tighten row col x = { s with slack := slack } := by
  unfold State.tighten
  split
  · exact ⟨_, rfl⟩
  · split
    · exact ⟨_, rfl⟩
    · exact ⟨_, rfl⟩

theorem tightenOther (s : State n) {row i : Fin n} (col : Fin n) (x : Int) (other : i ≠ row) :
    (s.tighten row col x).slack[i] = s.slack[i] := by
  have apart : row.val ≠ i.val := fun same => other (Fin.ext same.symm)
  unfold State.tighten
  split
  · exact Vector.getElem_set_ne row.isLt i.isLt apart
  · split
    · exact Vector.getElem_set_ne row.isLt i.isLt apart
    · rfl

def Slacks (w : Width) (costs : Costs n) (rows : List (Fin n)) (seen : Fin n → Prop) (s : State n) : Prop :=
  ∀ i ∈ rows, Tightest (priceAt costs s i) seen s.slack[i] ∧ ∀ slack, s.slack[i] = some slack → slack.price ≤ w.top

theorem tightenTightest {price : Fin n → Option Int} {seen : Fin n → Prop} {row : Fin n} {x : Int}
    (tightest : Tightest price seen s.slack[row])
    (range : ∀ slack, s.slack[row] = some slack → slack.price ≤ w.top) (has : price col = some x) (small : x ≤ w.top) :
    Tightest price (fun j => j = col ∨ seen j) (s.tighten row col x).slack[row] ∧
      ∀ slack, (s.tighten row col x).slack[row] = some slack → slack.price ≤ w.top := by
  have written : ∀ slack : Option (Slack n), ({ s with slack := s.slack.set row slack } : State n).slack[row] = slack :=
    fun slack => Vector.getElem_set_self _
  unfold State.tighten
  cases known : s.slack[row] with
  | none =>
    rw [known] at tightest
    simp only [written]
    refine ⟨⟨.inl rfl, has, ?_⟩, ?_⟩
    · intro j y way found
      rcases way with same | before
      · rw [same, has] at found
        exact Int.le_of_eq (Option.some.inj found)
      · rw [tightest j before] at found
        cases found
    · intro slack same
      rw [← Option.some.inj same]
      exact small
  | some slack =>
    rw [known] at tightest
    obtain ⟨stands, at_, least⟩ := tightest
    simp only
    split
    case isTrue better =>
      simp only [written]
      refine ⟨⟨.inl rfl, has, ?_⟩, ?_⟩
      · intro j y way found
        rcases way with same | before
        · rw [same, has] at found
          exact Int.le_of_eq (Option.some.inj found)
        · have le := least j y before found
          simp only
          omega
      · intro other same
        rw [← Option.some.inj same]
        exact small
    case isFalse worse =>
      rw [known]
      refine ⟨⟨.inr stands, at_, ?_⟩, fun other same => range other (known.trans same)⟩
      intro j y way found
      rcases way with same | before
      · rw [same, has] at found
        have equal := Option.some.inj found
        omega
      · exact least j y before found

theorem openColEnds (shifts : Shifts costs most drift s) (priced : Priced w costs most) (range : drift ≤ 2 * (n * most))
    {stuck : Nat → Prop} {rows : List (Fin n)} {seen : Fin n → Prop} (distinct : rows.Nodup)
    (slacks : Slacks w costs rows seen s) :
    Ends (most * roomFactor n ≤ w.top) stuck
      (fun t => (∃ slack, t = { s with slack := slack }) ∧ (∀ i : Fin n, i ∉ rows → t.slack[i] = s.slack[i]) ∧
        Slacks w costs rows (fun j => j = col ∨ seen j) t) (openCol w costs col rows s) := by
  -- The induction is on the rows that are still to be told of the column; the others keep their slack.
  induction rows generalizing s with
  | nil => exact ⟨⟨s.slack, rfl⟩, fun _ _ => rfl, nofun⟩
  | cons row rest ih =>
    obtain ⟨fresh, distinct⟩ := List.nodup_cons.mp distinct
    obtain ⟨tightest, top⟩ := slacks row List.mem_cons_self
    have below : Slacks w costs rest seen s := fun i member => slacks i (List.mem_cons_of_mem _ member)
    simp only [openCol]
    refine Ends.bind (shifts.price priced range row col) ?_
    intro price ⟨exact, small⟩
    cases price with
    | none =>
      refine (ih shifts distinct below).imp ?_
      intro t ⟨⟨slack, only⟩, kept, told⟩
      refine ⟨⟨slack, only⟩, fun i outside => kept i fun member => outside (List.mem_cons_of_mem _ member), ?_⟩
      intro i member
      rcases List.mem_cons.mp member with same | inside
      · rw [same, kept row fresh]
        refine ⟨?_, top⟩
        have skipped := tightest.skip exact.symm
        rwa [only]
      · exact told i inside
    | some x =>
      obtain ⟨slack', only'⟩ := tightenRest s row col x
      obtain ⟨tighter, top'⟩ := tightenTightest tightest top exact.symm (small x rfl)
      have shifts' : Shifts costs most drift (s.tighten row col x) := by
        rw [only']
        exact shifts.congr rfl rfl fun _ _ => Iff.rfl
      have below' : Slacks w costs rest seen (s.tighten row col x) := by
        intro i member
        have other : i ≠ row := fun same => fresh (same ▸ member)
        rw [tightenOther s col x other, only']
        exact below i member
      refine (ih shifts' distinct below').imp ?_
      intro t ⟨⟨slack, only⟩, kept, told⟩
      refine ⟨⟨slack, by rw [only, only']⟩, ?_, ?_⟩
      · intro i outside
        have other : i ≠ row := fun same => outside (same ▸ List.mem_cons_self)
        rw [kept i fun member => outside (List.mem_cons_of_mem _ member), tightenOther s col x other]
      · intro i member
        rcases List.mem_cons.mp member with same | inside
        · rw [same, kept row fresh]
          refine ⟨?_, top'⟩
          rw [only, only']
          rw [only'] at tighter
          exact tighter
        · exact told i inside

theorem openColsEnds (shifts : Shifts costs most drift s) (priced : Priced w costs most) (range : drift ≤ 2 * (n * most))
    {stuck : Nat → Prop} {cols : List (Fin n)} {seen : Fin n → Prop} (slacks : Slacks w costs s.uncoveredRows seen s) :
    Ends (most * roomFactor n ≤ w.top) stuck
      (fun t => (∃ slack, t = { s with slack := slack }) ∧
        Slacks w costs s.uncoveredRows (fun j => j ∈ cols ∨ seen j) t)
      (openCols w costs cols s) := by
  induction cols generalizing s seen with
  | nil =>
    refine ⟨⟨s.slack, rfl⟩, ?_⟩
    simpa using slacks
  | cons col rest ih =>
    have distinct : s.uncoveredRows.Nodup := (List.nodup_finRange n).filter _
    simp only [openCols]
    refine Ends.bind (@openColEnds w n costs most drift s col shifts priced range stuck _ seen distinct slacks) ?_
    intro t ⟨⟨slack, only⟩, _, told⟩
    subst only
    have shifts' : Shifts costs most drift { s with slack := slack } := shifts.congr rfl rfl fun _ _ => Iff.rfl
    refine (ih shifts' told).imp ?_
    intro t ⟨⟨slack', only⟩, all⟩
    refine ⟨⟨slack', only⟩, ?_⟩
    intro i member
    obtain ⟨tightest, top⟩ := all i member
    refine ⟨tightest.congr (fun _ _ => rfl) ?_, top⟩
    intro j
    rw [List.mem_cons]
    tauto

end OptimalMatching.Hungarian
