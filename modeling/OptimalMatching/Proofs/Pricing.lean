import OptimalMatching.Proofs.Padding
import OptimalMatching.Proofs.Totals

/-! From columns back to the table. The pairs of an assignment are the real cells of its placement, its two sides say
the same, and its total is the worth of these cells unless that exceeds the cost type. -/
namespace OptimalMatching

variable {w : Width} {n : Nat}

namespace Assignment

theorem pairsFromNodup (start : Nat) (colOf : List (Option Nat)) : (pairsFrom start colOf).Nodup := by
  fun_induction pairsFrom start colOf with
  | case1 => exact List.nodup_nil
  | case2 start rest ih => exact ih
  | case3 start rest col ih =>
    refine List.nodup_cons.mpr ⟨?_, ih⟩
    intro member
    have later := (memPairsFrom.mp member).1
    omega

theorem pairsNodup (a : Assignment) : a.pairs.Nodup := pairsFromNodup 0 a.colOf

theorem invertKeeps {start col : Nat} {colOf rowOf : List (Option Nat)}
    (absent : ∀ k : Nat, colOf[k]? ≠ some (some col)) : (invert start colOf rowOf)[col]? = rowOf[col]? := by
  induction colOf generalizing start rowOf with
  | nil => rfl
  | cons head rest ih =>
    have later : ∀ k : Nat, rest[k]? ≠ some (some col) := by
      intro k found
      exact absent (k + 1) (by rw [List.getElem?_cons_succ, found])
    cases head with
    | none => exact ih later
    | some other =>
      have apart : other ≠ col := by
        intro same
        exact absent 0 (by rw [List.getElem?_cons_zero, same])
      rw [invert, ih later, List.getElem?_set_ne apart]

theorem invertFinds {start col row : Nat} {colOf rowOf : List (Option Nat)} (inside : col < rowOf.length)
    (once : ∀ k l : Nat, colOf[k]? = some (some col) → colOf[l]? = some (some col) → k = l)
    (found : colOf[row]? = some (some col)) : (invert start colOf rowOf)[col]? = some (some (start + row)) := by
  induction colOf generalizing start rowOf row with
  | nil => cases found
  | cons head rest ih =>
    have onceRest : ∀ k l : Nat, rest[k]? = some (some col) → rest[l]? = some (some col) → k = l := by
      intro k l left right
      have same := once (k + 1) (l + 1) (by rw [List.getElem?_cons_succ, left]) (by rw [List.getElem?_cons_succ, right])
      omega
    cases row with
    | zero =>
      rw [List.getElem?_cons_zero, Option.some.injEq] at found
      subst found
      have absent : ∀ k : Nat, rest[k]? ≠ some (some col) := by
        intro k again
        have same := once 0 (k + 1) List.getElem?_cons_zero (by rw [List.getElem?_cons_succ, again])
        omega
      rw [invert, invertKeeps absent, List.getElem?_set_self inside, Nat.add_zero]
    | succ row =>
      rw [List.getElem?_cons_succ] at found
      have next : start + (row + 1) = start + 1 + row := by omega
      cases head with
      | none => rw [invert, ih inside onceRest found, next]
      | some other => rw [invert, ih (by rw [List.length_set]; exact inside) onceRest found, next]

theorem colAtSome {a : Assignment} {row col : Nat} : a.colAt row = some col ↔ a.colOf[row]? = some (some col) := by
  rw [colAt, Option.join_eq_some_iff]

theorem memPairs {a : Assignment} {row col : Nat} : (row, col) ∈ a.pairs ↔ a.colAt row = some col := by
  rw [pairs, memPairsFrom, colAtSome, Nat.sub_zero]
  exact and_iff_right (Nat.zero_le row)

def Once (columns : List Nat) (rows cols : Nat) : Prop :=
  ∀ k l c : Nat, k < rows → l < rows → c < cols → columns[k]? = some c → columns[l]? = some c → k = l

theorem colAtIff {columns : List Nat} {rows cols row c : Nat} :
    (ofColumns columns rows cols).colAt row = some c ↔ row < rows ∧ columns[row]? = some c ∧ c < cols := by
  rw [colAtSome]
  exact trimGet

theorem rowAtIff {columns : List Nat} {rows cols : Nat} (once : Once columns rows cols) (row c : Nat) :
    (ofColumns columns rows cols).rowAt c = some row ↔ (ofColumns columns rows cols).colAt row = some c := by
  have onceTrimmed : ∀ k l : Nat, (trim columns rows cols)[k]? = some (some c) →
      (trim columns rows cols)[l]? = some (some c) → k = l := by
    intro k l left right
    obtain ⟨early, found, small⟩ := trimGet.mp left
    obtain ⟨early', found', _⟩ := trimGet.mp right
    exact once k l c early early' small found found'
  have finds : ∀ k, (ofColumns columns rows cols).colAt k = some c → (ofColumns columns rows cols).rowAt c = some k := by
    intro k found
    have inside : c < (List.replicate cols (none : Option Nat)).length := by
      rw [List.length_replicate]
      exact (colAtIff.mp found).2.2
    rw [rowAt, ofColumns]
    simp only
    rw [invertFinds inside onceTrimmed (colAtSome.mp found), Nat.zero_add, Option.join_some]
  refine ⟨?_, finds row⟩
  intro found
  by_cases taken : ∃ k, (ofColumns columns rows cols).colAt k = some c
  · obtain ⟨k, here⟩ := taken
    have again := finds k here
    rw [found] at again
    rw [Option.some.inj again]
    exact here
  · have absent : ∀ k : Nat, (trim columns rows cols)[k]? ≠ some (some c) :=
      fun k here => taken ⟨k, colAtSome.mpr here⟩
    rw [rowAt, ofColumns] at found
    simp only at found
    rw [invertKeeps absent, List.getElem?_replicate] at found
    split at found <;> cases found

theorem ofColumnsLength {columns : List Nat} {rows : Nat} (enough : rows ≤ columns.length) (cols : Nat) :
    (ofColumns columns rows cols).colOf.length = rows := by
  simp [ofColumns, trim, enough]

theorem enterOk {start : Nat} {colOf rowOf : List (Option Nat)}
    (free : ∀ k c : Nat, colOf[k]? = some (some c) → rowOf[c]? = some none)
    (once : ∀ k l c : Nat, colOf[k]? = some (some c) → colOf[l]? = some (some c) → k = l) :
    enter start colOf rowOf = .ok (invert start colOf rowOf) := by
  fun_induction invert start colOf rowOf with
  | case1 => rfl
  | case2 start rest rowOf ih =>
    refine ih (fun k c found => free (k + 1) c found) fun k l c left right => ?_
    exact Nat.succ.inj (once (k + 1) (l + 1) c left right)
  | case3 start col rest rowOf ih =>
    rw [enter, free 0 col rfl]
    refine ih (fun k c found => ?_) fun k l c left right => ?_
    · have apart : col ≠ c := by
        rintro rfl
        exact Nat.succ_ne_zero k (once (k + 1) 0 col found rfl)
      rw [List.getElem?_set_ne apart]
      exact free (k + 1) c found
    · exact Nat.succ.inj (once (k + 1) (l + 1) c left right)

theorem buildOk {columns : List Nat} {rows cols : Nat} (enough : rows ≤ columns.length) (once : Once columns rows cols) :
    build columns rows cols = .ok (ofColumns columns rows cols) := by
  have entered : enter 0 (trim columns rows cols) (List.replicate cols none) =
      .ok (invert 0 (trim columns rows cols) (List.replicate cols none)) := by
    refine enterOk ?_ ?_
    · intro k c found
      rw [List.getElem?_replicate, if_pos (trimGet.mp found).2.2]
    · intro k l c left right
      obtain ⟨early, found, small⟩ := trimGet.mp left
      obtain ⟨early', found', _⟩ := trimGet.mp right
      exact once k l c early early' small found found'
  simp only [build, cut, if_pos enough, bind, Except.bind, entered, pure, Except.pure]
  rfl

def listed (col : Fin n → Fin n) : List Nat := (List.finRange n).map fun i => (col i).val

theorem listedLength (col : Fin n → Fin n) : (listed col).length = n := by
  rw [listed, List.length_map, List.length_finRange]

theorem listedGet {col : Fin n → Fin n} {row c : Nat} :
    (listed col)[row]? = some c ↔ ∃ inside : row < n, (col ⟨row, inside⟩).val = c := by
  simp [listed, List.getElem?_eq_some_iff]

section OfColumns
variable {rows cols : Nat} {col : Fin n → Fin n}

theorem ofColumnsAt {row c : Nat} : (ofColumns (listed col) rows cols).colAt row = some c ↔
    ∃ i : Fin n, (i.val < rows ∧ (col i).val < cols) ∧ i.val = row ∧ (col i).val = c := by
  rw [colAtIff, listedGet]
  refine ⟨?_, ?_⟩
  · intro ⟨real, ⟨inside, same⟩, small⟩
    exact ⟨⟨row, inside⟩, ⟨real, by rw [same]; exact small⟩, rfl, same⟩
  · intro ⟨i, real, isRow, isCol⟩
    subst isRow
    subst isCol
    exact ⟨real.1, ⟨i.isLt, rfl⟩, real.2⟩

theorem ofColumnsPairs : (ofColumns (listed col) rows cols).pairs.toFinset = realCells rows cols col := by
  ext c
  obtain ⟨row, c⟩ := c
  rw [List.mem_toFinset, memPairs, ofColumnsAt, memRealCells]
  simp only [Prod.mk.injEq]

theorem onceListed (injective : Function.Injective col) (rows cols : Nat) : Once (listed col) rows cols := by
  intro k l c _ _ _ left right
  obtain ⟨i, same⟩ := listedGet.mp left
  obtain ⟨j, same'⟩ := listedGet.mp right
  exact congrArg Fin.val (injective (Fin.ext (same.trans same'.symm)))

theorem ofColumnsInverse (injective : Function.Injective col) (row c : Nat) :
    (ofColumns (listed col) rows cols).rowAt c = some row ↔ (ofColumns (listed col) rows cols).colAt row = some c :=
  rowAtIff (onceListed injective rows cols) row c

end OfColumns
end Assignment

namespace Table
variable {t : Table w}

def listWorth (t : Table w) (cells : List (Nat × Nat)) : Int := (cells.map fun c => (t.get? c.1 c.2).getD 0).sum

theorem spentPairs {row : Nat} {colOf rest : List (Option Nat)} (split : colOf.drop row = rest) (le : row ≤ colOf.length) :
    t.spent colOf row + t.listWorth (Assignment.pairsFrom row rest) = t.spent colOf colOf.length := by
  induction rest generalizing row with
  | nil =>
    have all : row = colOf.length := Nat.le_antisymm le (List.drop_eq_nil_iff.mp split)
    rw [all]
    exact Int.add_zero _
  | cons head rest ih =>
    have here : colOf[row]? = some head := by
      rw [← List.head?_drop, split, List.head?_cons]
    have later : colOf.drop (row + 1) = rest := by
      rw [← List.tail_drop, split, List.tail_cons]
    have step := spentStep t colOf row
    rw [rowCost, here, Option.join_some] at step
    rw [← ih later (List.getElem?_eq_some_iff.mp here).1, step, Int.add_assoc]
    cases head with
    | none => simp only [Assignment.pairsFrom, Int.zero_add]
    | some col => simp only [Assignment.pairsFrom, listWorth, List.map_cons, List.sum_cons]

theorem spentAll (t : Table w) (colOf : List (Option Nat)) :
    t.spent colOf colOf.length = t.listWorth (Assignment.pairsFrom 0 colOf) := by
  have zero : t.spent colOf 0 = 0 := Finset.sum_range_zero _
  rw [← spentPairs rfl (Nat.zero_le _), zero, Int.zero_add]
  rfl

theorem totalOfPrices (valid : t.Valid) {colOf : List (Option Nat)} (covers : colOf.length = t.rows)
    (prices : ∀ c ∈ Assignment.pairsFrom 0 colOf, t.Prices c) :
    (t.listWorth (Assignment.pairsFrom 0 colOf) ≤ w.top ∧
      t.total colOf = .ok (t.listWorth (Assignment.pairsFrom 0 colOf))) ∨
    (w.top < t.listWorth (Assignment.pairsFrom 0 colOf) ∧ ∃ cause, t.total colOf = .error (.overflow cause)) := by
  have tells := totalTells valid covers
  have priced : ∀ {row col : Nat}, colOf[row]? = some (some col) → t.Prices (row, col) :=
    fun chosen => prices _ (Assignment.memPairsFrom.mpr ⟨Nat.zero_le _, chosen⟩)
  rw [← spentAll]
  cases result : t.total colOf with
  | ok sum =>
    rw [result] at tells
    obtain ⟨_, fits, same⟩ := tells
    exact .inl ⟨fits, congrArg _ same⟩
  | error failure =>
    rw [result] at tells
    obtain ⟨row, faulty, _⟩ := tells
    cases faulty with
    | noColumn chosen outside => exact absurd (priced chosen) (notPriced outside)
    | blocked chosen cell => exact absurd (priced chosen) (notBlocked cell)
    | exceeds inside _ large => exact .inr ⟨Int.lt_of_lt_of_le large (spentMono valid _ inside), _, rfl⟩

theorem worthOfList {cells : List (Nat × Nat)} (distinct : cells.Nodup) : t.worth cells.toFinset = t.listWorth cells :=
  List.sum_toFinset _ distinct

end Table

theorem Solution.priceEnds {t : Table w} (valid : t.Valid) {col : Fin n → Fin n}
    (injective : Function.Injective col) (enough : t.rows ≤ n)
    (full : t.Full (realCells t.rows t.cols col)) :
    (t.worth (realCells t.rows t.cols col) ≤ w.top ∧ (price t (Assignment.listed col)).result =
      .ok ⟨Assignment.ofColumns (Assignment.listed col) t.rows t.cols, t.worth (realCells t.rows t.cols col)⟩) ∨
    (w.top < t.worth (realCells t.rows t.cols col) ∧
      ∃ cause, (price t (Assignment.listed col)).result = .error (.overflow cause)) := by
  have cells := @Assignment.ofColumnsPairs n t.rows t.cols col
  have prices : ∀ c ∈ Assignment.pairsFrom 0 (Assignment.ofColumns (Assignment.listed col) t.rows t.cols).colOf,
      t.Prices c := by
    intro c member
    refine full.prices c ?_
    rw [← cells, List.mem_toFinset]
    exact member
  have worth : t.worth (realCells t.rows t.cols col) =
      t.listWorth (Assignment.pairsFrom 0 (Assignment.ofColumns (Assignment.listed col) t.rows t.cols).colOf) := by
    rw [← cells]
    exact Table.worthOfList (Assignment.pairsFromNodup _ _)
  rw [worth]
  have enough := enough.trans_eq (Assignment.listedLength col).symm
  have built := Assignment.buildOk enough (Assignment.onceListed injective t.rows t.cols)
  have covers := Assignment.ofColumnsLength enough t.cols
  rcases Table.totalOfPrices valid covers prices with ⟨fits, done⟩ | ⟨exceeds, cause, failed⟩
  · refine .inl ⟨fits, ?_⟩
    simp only [price, built, done]
  · refine .inr ⟨exceeds, cause, ?_⟩
    simp only [price, built, failed]

end OptimalMatching
