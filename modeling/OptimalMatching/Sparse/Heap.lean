import OptimalMatching.Matching

/-! A pairing heap of labelled columns: a tree hangs below each head, and the heads come before what hangs below
them. No two candidates of a heap are ever equal, so its shape among equals is of no effect. -/
namespace OptimalMatching.Sparse

structure Candidate (n : Nat) where
  cost : Int
  taken : Bool
  col : Fin n
  deriving DecidableEq, Repr

variable {n : Nat}

def Candidate.before (a b : Candidate n) : Bool :=
  decide (a.cost < b.cost) ||
    (a.cost == b.cost && ((!a.taken && b.taken) || (a.taken == b.taken && decide (a.col ≤ b.col))))

theorem beforeIff {a b : Candidate n} : a.before b = true ↔ a.cost < b.cost ∨ a.cost = b.cost ∧
    (a.taken = false ∧ b.taken = true ∨ a.taken = b.taken ∧ a.col.val ≤ b.col.val) := by
  simp only [Candidate.before, Bool.or_eq_true, Bool.and_eq_true, decide_eq_true_eq, beq_iff_eq,
    Bool.not_eq_eq_eq_not, Bool.not_true, Fin.le_def]

theorem beforeTotal {a b : Candidate n} (h : ¬ a.before b = true) : b.before a = true := by
  rw [beforeIff] at *
  cases first : a.taken <;> cases second : b.taken <;> simp_all <;> omega

theorem beforeTrans {a b c : Candidate n} (ab : a.before b = true) (bc : b.before c = true) :
    a.before c = true := by
  rw [beforeIff] at *
  cases first : a.taken <;> cases second : b.taken <;> cases third : c.taken <;> simp_all <;> omega

inductive Forest (n : Nat)
  | nil
  | tree (head : Candidate n) (below beside : Forest n)
  deriving DecidableEq, Repr

structure Heap (n : Nat) where
  head : Candidate n
  below : Forest n
  deriving DecidableEq, Repr

def Forest.toList : Forest n → List (Candidate n)
  | nil => []
  | tree head below beside => head :: (below.toList ++ beside.toList)

def Forest.Ordered : Forest n → Prop
  | nil => True
  | tree head below beside =>
    (∀ c ∈ below.toList, head.before c = true) ∧ below.Ordered ∧ beside.Ordered

namespace Heap

def Ordered (h : Heap n) : Prop := (∀ c ∈ h.below.toList, h.head.before c = true) ∧ h.below.Ordered

def toList (h : Heap n) : List (Candidate n) := h.head :: h.below.toList

def meld (a b : Heap n) : Heap n :=
  if a.head.before b.head then ⟨a.head, .tree b.head b.below a.below⟩
  else ⟨b.head, .tree a.head a.below b.below⟩

theorem toListMeld (a b : Heap n) : (a.meld b).toList.Perm (a.toList ++ b.toList) := by
  unfold meld
  split
  · simp only [toList, Forest.toList, List.cons_append]
    refine .cons _ ?_
    exact @List.perm_append_comm _ (b.head :: b.below.toList) a.below.toList
  · simp only [toList, Forest.toList, List.cons_append]
    refine .trans (.swap ..) (.cons _ ?_)
    exact List.perm_middle.symm

theorem orderedMeld {a b : Heap n} (left : a.Ordered) (right : b.Ordered) : (a.meld b).Ordered := by
  unfold meld
  split
  case isTrue first =>
    refine ⟨?_, right.1, right.2, left.2⟩
    intro c member
    simp only [Forest.toList, List.mem_cons, List.mem_append] at member
    rcases member with rfl | below | beside
    · exact first
    · exact beforeTrans first (right.1 c below)
    · exact left.1 c beside
  case isFalse second =>
    have second := beforeTotal second
    refine ⟨?_, left.1, left.2, right.2⟩
    intro c member
    simp only [Forest.toList, List.mem_cons, List.mem_append] at member
    rcases member with rfl | below | beside
    · exact second
    · exact beforeTrans second (left.1 c below)
    · exact right.1 c beside

def ofForest : Forest n → Option (Heap n)
  | .nil => none
  | .tree a x .nil => some ⟨a, x⟩
  | .tree a x (.tree b y rest) =>
    let first := meld ⟨a, x⟩ ⟨b, y⟩
    match ofForest rest with
    | none => some first
    | some others => some (first.meld others)

end Heap

def heapList : Option (Heap n) → List (Candidate n)
  | none => []
  | some h => h.toList

theorem toListOfForest (f : Forest n) : (heapList (Heap.ofForest f)).Perm f.toList := by
  fun_induction Heap.ofForest f with
  | case1 => exact .refl _
  | case2 a x => simp [heapList, Heap.toList, Forest.toList]
  | case3 a x b y rest first none ih =>
    simp only [none, heapList] at ih
    have melded := Heap.toListMeld ⟨a, x⟩ ⟨b, y⟩
    have empty := List.nil_perm.mp ih
    simpa [heapList, Heap.toList, Forest.toList, empty] using melded
  | case4 a x b y rest first others some ih =>
    simp only [some, heapList] at ih
    have melded := Heap.toListMeld ⟨a, x⟩ ⟨b, y⟩
    have joined := (Heap.toListMeld first others).trans (melded.append ih)
    simpa [heapList, Heap.toList, Forest.toList, List.append_assoc] using joined

theorem orderedOfForest {f : Forest n} (ordered : f.Ordered) :
    ∀ h, Heap.ofForest f = some h → h.Ordered := by
  fun_induction Heap.ofForest f with
  | case1 => exact fun _ made => nomatch made
  | case2 a x =>
    rintro _ ⟨⟩
    exact ⟨ordered.1, ordered.2.1⟩
  | case3 a x b y rest first none ih =>
    rintro _ ⟨⟩
    exact Heap.orderedMeld ⟨ordered.1, ordered.2.1⟩ ⟨ordered.2.2.1, ordered.2.2.2.1⟩
  | case4 a x b y rest first others some ih =>
    rintro _ ⟨⟩
    have two := Heap.orderedMeld (a := ⟨a, x⟩) (b := ⟨b, y⟩) ⟨ordered.1, ordered.2.1⟩
      ⟨ordered.2.2.1, ordered.2.2.2.1⟩
    exact Heap.orderedMeld two (ih ordered.2.2.2.2 others some)

end OptimalMatching.Sparse
