import OptimalMatching.Proofs.Pricing

/-! An assignment as a bijection between some of the rows and some of the columns. It can be read from either side; the
pairs are the same, and so is their number. When every line of the square has a partner, the pairs are as many as the
shorter side has lines. -/
namespace OptimalMatching.Assignment

variable {a : Assignment} {columns : List Nat} {rows cols : Nat}

structure Bijection (a : Assignment) (joins : Nat → Nat → Prop) : Prop where
  forth : ∀ row col, a.colAt row = some col ↔ joins row col
  back : ∀ row col, a.rowAt col = some row ↔ joins row col
  pairs : ∀ row col, (row, col) ∈ a.pairs ↔ joins row col
  sorted : a.pairs.Pairwise fun p q => p.1 < q.1
  size : a.size = a.pairs.length
  sizeBack : a.size = a.rowOf.countP Option.isSome

theorem pairsFromSorted (start : Nat) (colOf : List (Option Nat)) :
    (pairsFrom start colOf).Pairwise fun p q => p.1 < q.1 := by
  fun_induction pairsFrom start colOf with
  | case1 => exact .nil
  | case2 start rest ih => exact ih
  | case3 start rest col ih =>
    refine .cons ?_ ih
    intro p member
    have later := (memPairsFrom.mp member).1
    exact later

theorem pairsFromLength (start : Nat) (colOf : List (Option Nat)) :
    (pairsFrom start colOf).length = colOf.countP Option.isSome := by
  fun_induction pairsFrom start colOf with
  | case1 => rfl
  | case2 start rest ih => simpa using ih
  | case3 start rest col ih => simpa using ih

theorem sizeTurned (turned : ∀ row col, a.rowAt col = some row ↔ a.colAt row = some col) :
    a.rowOf.countP Option.isSome = a.colOf.countP Option.isSome := by
  have backNodup : ((pairsFrom 0 a.rowOf).map Prod.swap).Nodup :=
    (pairsFromNodup 0 a.rowOf).map Prod.swap_injective
  have same : ((pairsFrom 0 a.rowOf).map Prod.swap).Perm a.pairs := by
    refine (List.perm_ext_iff_of_nodup backNodup a.pairsNodup).mpr ?_
    rintro ⟨row, col⟩
    have back : (col, row) ∈ pairsFrom 0 a.rowOf ↔ a.rowAt col = some row := by
      rw [memPairsFrom, rowAt, Option.join_eq_some_iff, Nat.sub_zero]
      exact and_iff_right (Nat.zero_le col)
    rw [memPairs, ← turned, ← back, List.mem_map]
    constructor
    · rintro ⟨p, member, swapped⟩
      cases swapped
      exact member
    · intro member
      exact ⟨(col, row), member, rfl⟩
  rw [← pairsFromLength 0 a.rowOf, ← pairsFromLength 0 a.colOf, ← List.length_map Prod.swap, same.length_eq, pairs]

theorem invertLength (start : Nat) (colOf rowOf : List (Option Nat)) : (invert start colOf rowOf).length = rowOf.length := by
  fun_induction invert start colOf rowOf with
  | case1 => rfl
  | case2 start rest rowOf ih => exact ih
  | case3 start col rest rowOf ih => rw [ih, List.length_set]

theorem listedOfPerm {n : Nat} (perm : columns.Perm (List.range n)) :
    ∃ col : Fin n → Fin n, Function.Injective col ∧ columns = listed col := by
  have length : columns.length = n := by rw [perm.length_eq, List.length_range]
  have inside : ∀ i : Fin n, i.val < columns.length := fun i => length ▸ i.isLt
  have small : ∀ i : Fin n, columns.get ⟨i.val, inside i⟩ < n :=
    fun i => List.mem_range.mp (perm.mem_iff.mp (List.getElem_mem _))
  have distinct : columns.Nodup := perm.nodup_iff.mpr List.nodup_range
  refine ⟨fun i => ⟨columns.get ⟨i.val, inside i⟩, small i⟩, ?_, ?_⟩
  · intro i j same
    exact Fin.ext ((distinct.getElem_inj_iff).mp (congrArg Fin.val same))
  · refine List.ext_getElem (length.trans (listedLength _).symm) ?_
    intro k left right
    simp only [listed, List.getElem_map, List.getElem_finRange, Fin.val_cast, List.get_eq_getElem]

theorem sizeOfPerm (perm : columns.Perm (List.range (max rows cols))) :
    (ofColumns columns rows cols).size = min rows cols := by
  obtain ⟨col, injective, rfl⟩ := listedOfPerm perm
  rw [size, ← pairsFromLength 0, ← List.toFinset_card_of_nodup (pairsFromNodup 0 _), ← pairs, ofColumnsPairs]
  exact realCellsCard rfl injective

theorem onceOfNodup (distinct : columns.Nodup) : Once columns rows cols := by
  intro k l c _ _ _ left right
  exact (List.getElem?_inj (List.getElem?_eq_some_iff.mp left).1 distinct).mp (left.trans right.symm)

theorem ofColumnsBijection (enough : rows ≤ columns.length) (once : Once columns rows cols) :
    build columns rows cols = .ok (ofColumns columns rows cols) ∧
    Bijection (ofColumns columns rows cols) (fun row col => row < rows ∧ columns[row]? = some col ∧ col < cols) ∧
    (ofColumns columns rows cols).colOf.length = rows ∧ (ofColumns columns rows cols).rowOf.length = cols ∧
    (columns.Perm (List.range (max rows cols)) → (ofColumns columns rows cols).size = min rows cols) := by
  have colSide : (ofColumns columns rows cols).rowOf.length = cols := by
    rw [ofColumns, invertLength, List.length_replicate]
  refine ⟨buildOk enough once, ?_, ofColumnsLength enough cols, colSide, sizeOfPerm⟩
  constructor
  case forth => exact fun row col => colAtIff
  case back => exact fun row col => (rowAtIff once row col).trans colAtIff
  case pairs => exact fun row col => memPairs.trans colAtIff
  case sorted => exact pairsFromSorted 0 _
  case size => exact (pairsFromLength 0 _).symm
  case sizeBack => exact (sizeTurned (rowAtIff once)).symm

theorem ofColumnsBijectionWide :
    2 ≤ [1, 2, 0].length ∧ Once [1, 2, 0] 2 3 ∧ build [1, 2, 0] 2 3 = .ok ⟨[some 1, some 2], [none, some 0, some 1]⟩ ∧
      Bijection (ofColumns [1, 2, 0] 2 3) (fun row col => row < 2 ∧ [1, 2, 0][row]? = some col ∧ col < 3) ∧
      (ofColumns [1, 2, 0] 2 3).size = min 2 3 ∧ (ofColumns [1, 2, 0] 2 3).pairs = [(0, 1), (1, 2)] := by
  have once : Once [1, 2, 0] 2 3 := onceOfNodup (by decide)
  obtain ⟨built, bijection, _, _, size⟩ := ofColumnsBijection (by decide) once
  exact ⟨by decide, once, built.trans rfl, bijection, size (by decide), by decide⟩

end OptimalMatching.Assignment
