import OptimalMatching.Proofs.Duals
import OptimalMatching.Proofs.Selection

/-! What a choice of columns costs. The sum is exact, and a choice that is refused is refused at the first row with a fault:
its column is none of the table, or its cell is blocked, or the rows up to it cost more than the cost type holds. -/
namespace OptimalMatching.Table

variable {w : Width} {t : Table w} {colOf : List (Option Nat)} {row : Nat} {failure other : Failure}

def rowCost (t : Table w) (colOf : List (Option Nat)) (row : Nat) : Int :=
  match (colOf[row]?).join with
  | none => 0
  | some col => (t.get? row col).getD 0

def spent (t : Table w) (colOf : List (Option Nat)) (k : Nat) : Int := ∑ row ∈ Finset.range k, t.rowCost colOf row

inductive Faulty (t : Table w) (colOf : List (Option Nat)) (row : Nat) : Failure → Prop
  | noColumn {col : Nat} (chosen : colOf[row]? = some (some col)) (outside : t.cols ≤ col) :
      Faulty t colOf row (.malformed (.noColumn row col))
  | blocked {col : Nat} (chosen : colOf[row]? = some (some col)) (cell : t.get? row col = some w.blocked) :
      Faulty t colOf row (.infeasible row)
  | exceeds (inside : row < colOf.length) (priced : ∀ col, colOf[row]? = some (some col) → t.Prices (row, col))
      (large : w.top < t.spent colOf (row + 1)) : Faulty t colOf row (.overflow (.total row))

def Faultless (t : Table w) (colOf : List (Option Nat)) (k : Nat) : Prop :=
  ∀ row < k, ∀ failure, ¬ t.Faulty colOf row failure

theorem rowCostNonneg (valid : t.Valid) (colOf : List (Option Nat)) (row : Nat) : 0 ≤ t.rowCost colOf row := by
  unfold rowCost
  split
  · exact Int.le_refl 0
  · next col _ =>
    cases found : t.get? row col with
    | none => exact Int.le_refl 0
    | some x => exact (valid.cost row col x found).1

theorem spentStep (t : Table w) (colOf : List (Option Nat)) (k : Nat) :
    t.spent colOf (k + 1) = t.spent colOf k + t.rowCost colOf k :=
  Finset.sum_range_succ ..

theorem spentNonneg (valid : t.Valid) (colOf : List (Option Nat)) (k : Nat) : 0 ≤ t.spent colOf k :=
  Finset.sum_nonneg fun row _ => rowCostNonneg valid colOf row

theorem spentMono (valid : t.Valid) (colOf : List (Option Nat)) {k l : Nat} (le : k ≤ l) :
    t.spent colOf k ≤ t.spent colOf l :=
  Finset.sum_le_sum_of_subset_of_nonneg (Finset.range_subset_range.mpr le) fun row _ _ => rowCostNonneg valid colOf row

theorem Faulty.inside (faulty : t.Faulty colOf row failure) : row < colOf.length := by
  cases faulty with
  | noColumn chosen outside => exact (List.getElem?_eq_some_iff.mp chosen).1
  | blocked chosen cell => exact (List.getElem?_eq_some_iff.mp chosen).1
  | exceeds inside priced large => exact inside

theorem notPriced {col : Nat} (outside : t.cols ≤ col) : ¬ t.Prices (row, col) := by
  intro prices
  exact absurd (pricesInside prices).2 (Nat.not_lt.mpr outside)

theorem notBlocked {col : Nat} (cell : t.get? row col = some w.blocked) : ¬ t.Prices (row, col) := by
  intro ⟨x, found, price⟩
  exact price (Option.some.inj (found.symm.trans cell))

theorem Faulty.unique (left : t.Faulty colOf row failure) (right : t.Faulty colOf row other) : failure = other := by
  have sameCol : ∀ {a b : Nat}, colOf[row]? = some (some a) → colOf[row]? = some (some b) → a = b :=
    fun one two => Option.some.inj (Option.some.inj (one.symm.trans two))
  cases left with
  | noColumn chosen outside =>
    cases right with
    | noColumn chosen' => rw [sameCol chosen chosen']
    | blocked chosen' cell =>
      rw [sameCol chosen chosen'] at outside
      rw [getNone.mpr (.inr outside)] at cell
      cases cell
    | exceeds _ priced => exact absurd (priced _ chosen) (notPriced outside)
  | blocked chosen cell =>
    cases right with
    | noColumn chosen' outside =>
      rw [sameCol chosen chosen', getNone.mpr (.inr outside)] at cell
      cases cell
    | blocked => rfl
    | exceeds _ priced => exact absurd (priced _ chosen) (notBlocked cell)
  | exceeds inside priced large =>
    cases right with
    | noColumn chosen outside => exact absurd (priced _ chosen) (notPriced outside)
    | blocked chosen cell => exact absurd (priced _ chosen) (notBlocked cell)
    | exceeds => rfl

theorem Faultless.next {k : Nat} (faultless : t.Faultless colOf k) (here : ∀ failure, ¬ t.Faulty colOf k failure) :
    t.Faultless colOf (k + 1) := by
  intro row early failure faulty
  rcases Nat.lt_succ_iff_lt_or_eq.mp early with before | same
  · exact faultless row before failure faulty
  · rw [same] at faulty
    exact here failure faulty

theorem notFaulty (priced : ∀ col, colOf[row]? = some (some col) → t.Prices (row, col))
    (fits : t.spent colOf (row + 1) ≤ w.top) (failure : Failure) : ¬ t.Faulty colOf row failure := by
  intro faulty
  cases faulty with
  | noColumn chosen outside => exact notPriced outside (priced _ chosen)
  | blocked chosen cell => exact notBlocked cell (priced _ chosen)
  | exceeds inside priced large => omega

theorem totalStep (valid : t.Valid) {head : Option Nat} (here : colOf[row]? = some head) (rest : List (Option Nat))
    (inside : row < t.rows) (fits : t.spent colOf row ≤ w.top) :
    (t.totalFrom row (t.spent colOf row) (head :: rest) = t.totalFrom (row + 1) (t.spent colOf (row + 1)) rest ∧
      t.spent colOf (row + 1) ≤ w.top ∧ ∀ failure, ¬ t.Faulty colOf row failure) ∨
    ∃ failure, t.totalFrom row (t.spent colOf row) (head :: rest) = .error failure ∧ t.Faulty colOf row failure := by
  have low := spentNonneg valid colOf row
  have step := spentStep t colOf row
  unfold rowCost at step
  rw [here, Option.join_some] at step
  cases head with
  | none =>
    have same : t.spent colOf (row + 1) = t.spent colOf row := by rw [step, Int.add_zero]
    refine .inl ⟨by rw [totalFrom, same], by omega, notFaulty ?_ (by omega)⟩
    intro col chosen
    rw [here] at chosen
    cases chosen
  | some col =>
    simp only [totalFrom]
    cases found : t.get? row col with
    | none =>
      have outside := (getNone.mp found).resolve_left (Nat.not_le.mpr inside)
      exact .inr ⟨_, rfl, .noColumn here outside⟩
    | some x =>
      have range := valid.cost row col x found
      simp only [found, Option.getD_some] at step
      by_cases isBlocked : x = w.blocked
      · exact .inr ⟨_, if_pos isBlocked, .blocked here (found.trans (congrArg some isBlocked))⟩
      · have priced : ∀ c, colOf[row]? = some (some c) → t.Prices (row, c) := by
          intro c chosen
          rw [here] at chosen
          cases chosen
          exact ⟨x, found, isBlocked⟩
        simp only [if_neg isBlocked]
        by_cases small : t.spent colOf row + x ≤ w.top
        · rw [Width.keepOk (Width.holdsNonneg (by omega) small), step]
          exact .inl ⟨rfl, small, notFaulty priced (by omega)⟩
        · have out : ¬ w.Holds (t.spent colOf row + x) := fun holds => small holds.2
          refine .inr ⟨_, ?_, .exceeds (List.getElem?_eq_some_iff.mp here).1 priced (by omega)⟩
          rw [Width.keep, if_neg out]
          rfl

def Tells (t : Table w) (colOf : List (Option Nat)) : Except Failure Int → Prop
  | .ok sum => t.Faultless colOf colOf.length ∧ t.spent colOf colOf.length ≤ w.top ∧ sum = t.spent colOf colOf.length
  | .error failure => ∃ row, t.Faulty colOf row failure ∧ t.Faultless colOf row

theorem totalFromTells (valid : t.Valid) (covers : colOf.length = t.rows) {rest : List (Option Nat)}
    (split : colOf.drop row = rest) (faultless : t.Faultless colOf row) (fits : t.spent colOf row ≤ w.top) (le : row ≤ colOf.length) :
    t.Tells colOf (t.totalFrom row (t.spent colOf row) rest) := by
  -- The induction is on the rows to come; those before have no fault and cost what has been summed up.
  induction rest generalizing row with
  | nil =>
    have all : row = colOf.length := Nat.le_antisymm le (List.drop_eq_nil_iff.mp split)
    subst all
    exact ⟨faultless, fits, rfl⟩
  | cons head rest ih =>
    have here : colOf[row]? = some head := by
      rw [← List.head?_drop, split, List.head?_cons]
    have inside := (List.getElem?_eq_some_iff.mp here).1
    have later : colOf.drop (row + 1) = rest := by
      rw [← List.tail_drop, split, List.tail_cons]
    rcases totalStep valid here rest (covers ▸ inside) fits with ⟨same, small, sound⟩ | ⟨failure, failed, faulty⟩
    · rw [same]
      exact ih later (faultless.next sound) small inside
    · rw [failed]
      exact ⟨row, faulty, faultless⟩

theorem totalTells (valid : t.Valid) (covers : colOf.length = t.rows) : t.Tells colOf (t.total colOf) := by
  have wide := w.wide
  have zero : t.spent colOf 0 = 0 := Finset.sum_range_zero _
  have tells := @totalFromTells w t colOf 0 valid covers colOf rfl nofun (by omega) (Nat.zero_le _)
  rw [zero] at tells
  rw [total, if_pos covers]
  exact tells

theorem faultlessOfPrices (valid : t.Valid) (priced : ∀ row col, colOf[row]? = some (some col) → t.Prices (row, col))
    (fits : t.spent colOf colOf.length ≤ w.top) : t.Faultless colOf colOf.length := by
  intro row inside failure
  exact notFaulty (priced row) (Int.le_trans (spentMono valid _ inside) fits) failure

theorem Faultless.priced (faultless : t.Faultless colOf colOf.length) (covers : colOf.length = t.rows) {col : Nat}
    (chosen : colOf[row]? = some (some col)) : t.Prices (row, col) := by
  have inside := (List.getElem?_eq_some_iff.mp chosen).1
  cases found : t.get? row col with
  | none =>
    have outside := (getNone.mp found).resolve_left (Nat.not_le.mpr (covers ▸ inside))
    exact absurd (.noColumn chosen outside) (faultless row inside _)
  | some x =>
    refine ⟨x, found, ?_⟩
    intro isBlocked
    rw [isBlocked] at found
    exact faultless row inside _ (.blocked chosen found)

theorem pricesIff {col : Nat} (inside : row < t.rows) :
    t.Prices (row, col) ↔ col < t.cols ∧ t.get? row col ≠ some w.blocked := by
  refine ⟨fun prices => ⟨(pricesInside prices).2, fun cell => notBlocked cell prices⟩, ?_⟩
  intro ⟨small, price⟩
  cases found : t.get? row col with
  | none =>
    have outside := getNone.mp found
    omega
  | some x => exact ⟨x, found, fun same => price (found.trans (congrArg some same))⟩

theorem firstFault {row' : Nat} (faulty : t.Faulty colOf row failure) (before : t.Faultless colOf row)
    (faulty' : t.Faulty colOf row' other) (before' : t.Faultless colOf row') : failure = other := by
  rcases Nat.lt_trichotomy row row' with early | same | late
  · exact absurd faulty (before' row early failure)
  · subst same
    exact faulty.unique faulty'
  · exact absurd faulty' (before row' late other)

theorem totalExact (valid : t.Valid) (colOf : List (Option Nat)) :
    (colOf.length ≠ t.rows → t.total colOf = .error (.malformed (.uncovered colOf.length t.rows))) ∧
    (colOf.length = t.rows →
      (∀ sum, t.total colOf = .ok sum ↔
        (∀ row col, colOf[row]? = some (some col) → col < t.cols ∧ t.get? row col ≠ some w.blocked) ∧
          t.spent colOf t.rows ≤ w.top ∧ sum = t.spent colOf t.rows) ∧
      ∀ failure, t.total colOf = .error failure ↔
        ∃ row, t.Faulty colOf row failure ∧ t.Faultless colOf row) := by
  refine ⟨fun uncovered => if_neg uncovered, ?_⟩
  intro covers
  have tells := totalTells valid covers
  have priced : (∀ row col, colOf[row]? = some (some col) → col < t.cols ∧ t.get? row col ≠ some w.blocked) ↔
      ∀ row col, colOf[row]? = some (some col) → t.Prices (row, col) :=
    forall₂_congr fun row col => imp_congr_right fun chosen =>
      (pricesIff (covers ▸ (List.getElem?_eq_some_iff.mp chosen).1)).symm
  rw [priced, ← covers]
  cases result : t.total colOf with
  | ok all =>
    rw [result] at tells
    obtain ⟨faultless, fits, same⟩ := tells
    refine ⟨?_, ?_⟩
    · intro sum
      rw [Except.ok.injEq, same]
      exact ⟨fun isSum => ⟨fun row col => faultless.priced covers, fits, isSum.symm⟩, fun told => told.2.2.symm⟩
    · intro failure
      refine ⟨nofun, ?_⟩
      rintro ⟨row, faulty, _⟩
      exact absurd faulty (faultless row faulty.inside failure)
  | error first =>
    rw [result] at tells
    obtain ⟨row, faulty, before⟩ := tells
    refine ⟨?_, ?_⟩
    · intro sum
      refine ⟨nofun, ?_⟩
      rintro ⟨prices, fits, _⟩
      exact absurd faulty (faultlessOfPrices valid prices fits row faulty.inside first)
    · intro failure
      rw [Except.error.injEq]
      refine ⟨?_, ?_⟩
      · intro same
        rw [← same]
        exact ⟨row, faulty, before⟩
      · rintro ⟨row', faulty', before'⟩
        exact firstFault faulty before faulty' before'

def tightTable : Table byteWidth :=
  ⟨⟨3, 2, #[100, 5, 28, 127, 1, 127]⟩, rfl⟩

theorem tightTableValid : tightTable.Valid := validOfValues (by decide) (by decide) (by decide)

theorem totalExactTight : tightTable.spent [some 0, some 0, some 2] 2 = 128 ∧
    tightTable.total [some 0, some 0, some 2] = .error (.overflow (.total 1)) ∧
    tightTable.total [some 1, none, some 0] = .ok 6 := by
  have first : tightTable.Faultless [some 0, some 0, some 2] 1 := by
    intro earlier early other
    obtain rfl : earlier = 0 := Nat.lt_one_iff.mp early
    refine notFaulty ?_ (by decide) other
    intro col chosen
    cases chosen
    exact ⟨100, rfl, by decide⟩
  have second : tightTable.Faulty [some 0, some 0, some 2] 1 (.overflow (.total 1)) := by
    refine .exceeds (by decide) ?_ (by decide)
    intro col chosen
    cases chosen
    exact ⟨28, rfl, by decide⟩
  refine ⟨by decide, (((totalExact tightTableValid _).2 rfl).2 _).mpr ⟨1, second, first⟩, ?_⟩
  refine (((totalExact tightTableValid _).2 rfl).1 6).mpr ⟨?_, by decide, by decide⟩
  intro row col chosen
  rcases row with _ | _ | _ | row
  · cases chosen
    exact ⟨by decide, by decide⟩
  · cases chosen
  · cases chosen
    exact ⟨by decide, by decide⟩
  · cases chosen

end OptimalMatching.Table
