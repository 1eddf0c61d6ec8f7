import OptimalMatching.Sparse.Heap

/-! The frontier of the sparse search: what may be settled next, cheapest first. A cheaper label is added as a new
candidate and the one before it stays behind; it is thrown away when it comes to the top. -/
namespace OptimalMatching.Sparse

variable {n : Nat}

structure Frontier (n : Nat) where
  size : Nat
  heap : Option (Heap n)
  deriving DecidableEq, Repr

namespace Frontier

def empty : Frontier n := ⟨0, none⟩

def toList (f : Frontier n) : List (Candidate n) := heapList f.heap

def insert (f : Frontier n) (c : Candidate n) : Frontier n :=
  let single : Heap n := ⟨c, .nil⟩
  match f.heap with
  | none => ⟨f.size + 1, some single⟩
  | some h => ⟨f.size + 1, some (single.meld h)⟩

theorem toListInsert (f : Frontier n) (c : Candidate n) : (f.insert c).toList.Perm (c :: f.toList) := by
  unfold insert toList
  split
  · simp_all [heapList, Heap.toList, Forest.toList]
  · next h heap =>
    simpa [heap, heapList, Heap.toList, Forest.toList] using Heap.toListMeld ⟨c, .nil⟩ h

def pop? (f : Frontier n) : Option (Candidate n × Frontier n) :=
  f.heap.map fun h => (h.head, ⟨f.size - 1, Heap.ofForest h.below⟩)

theorem toListPop {f rest : Frontier n} {c : Candidate n} (popped : f.pop? = some (c, rest)) :
    f.toList.Perm (c :: rest.toList) := by
  unfold pop? at popped
  cases heap : f.heap with
  | none => simp [heap] at popped
  | some h =>
    simp only [heap, Option.map_some, Option.some.injEq, Prod.mk.injEq] at popped
    obtain ⟨rfl, rfl⟩ := popped
    simpa [toList, heap, heapList, Heap.toList] using (toListOfForest h.below).symm

structure Sound (f : Frontier n) : Prop where
  size : f.size = f.toList.length
  ordered : ∀ h, f.heap = some h → h.Ordered

theorem soundEmpty : (empty : Frontier n).Sound :=
  ⟨rfl, fun _ h => nomatch h⟩

theorem soundInsert {f : Frontier n} (sound : f.Sound) (c : Candidate n) : (f.insert c).Sound := by
  have single : Heap.Ordered (⟨c, .nil⟩ : Heap n) :=
    ⟨fun _ member => (List.not_mem_nil member).elim, trivial⟩
  constructor
  · have counted : (f.insert c).size = f.size + 1 := by unfold insert; split <;> rfl
    rw [counted, sound.size, (toListInsert f c).length_eq, List.length_cons]
  · intro h made
    unfold insert at made
    split at made
    case h_1 => cases made; exact single
    case h_2 heap found => cases made; exact Heap.orderedMeld single (sound.ordered _ found)

theorem soundPop {f rest : Frontier n} {c : Candidate n} (sound : f.Sound)
    (popped : f.pop? = some (c, rest)) : rest.Sound := by
  have parts := (toListPop popped).length_eq
  unfold pop? at popped
  obtain ⟨h, found, same⟩ := Option.map_eq_some_iff.mp popped
  cases same
  refine ⟨?_, orderedOfForest (sound.ordered h found).2⟩
  rw [List.length_cons, ← sound.size] at parts
  simp only
  omega

theorem popFirst {f rest : Frontier n} {c : Candidate n} (sound : f.Sound)
    (popped : f.pop? = some (c, rest)) (x : Candidate n) (member : x ∈ rest.toList) : c.before x = true := by
  unfold pop? at popped
  obtain ⟨h, found, same⟩ := Option.map_eq_some_iff.mp popped
  cases same
  exact (sound.ordered h found).1 x ((toListOfForest h.below).mem_iff.mp member)

theorem popNone {f : Frontier n} : f.pop? = none ↔ f.toList = [] := by
  unfold pop? toList
  cases f.heap <;> simp [heapList, Heap.toList]

def popGood (good : Candidate n → Bool) : Nat → Frontier n → Option (Candidate n × Frontier n)
  | 0, _ => none
  | fuel + 1, f =>
    match f.pop? with
    | none => none
    | some (c, rest) => if good c then some (c, rest) else popGood good fuel rest

def next? (good : Candidate n → Bool) (f : Frontier n) : Option (Candidate n × Frontier n) :=
  popGood good f.size f

/-- What is found is good and comes before all other good ones, and none of those is lost. -/
structure Found (good : Candidate n → Bool) (f : Frontier n) (c : Candidate n) (rest : Frontier n) : Prop where
  chosen : good c = true
  member : c ∈ f.toList
  first : ∀ x ∈ f.toList, good x = true → c.before x = true
  kept : ∀ x ∈ f.toList, good x = true → x = c ∨ x ∈ rest.toList
  fewer : ∀ x ∈ rest.toList, x ∈ f.toList
  sound : rest.Sound

theorem popGoodSome {good : Candidate n → Bool} {fuel : Nat} {f rest : Frontier n} {c : Candidate n}
    (sound : f.Sound) (h : popGood good fuel f = some (c, rest)) : Found good f c rest := by
  induction fuel generalizing f with
  | zero => simp [popGood] at h
  | succ fuel ih =>
    simp only [popGood] at h
    split at h
    case h_1 => cases h
    case h_2 top others popped =>
      have perm := toListPop popped
      split at h
      case isTrue isGood =>
        simp only [Option.some.injEq, Prod.mk.injEq] at h
        obtain ⟨rfl, rfl⟩ := h
        refine ⟨isGood, perm.mem_iff.mpr (by simp), ?_, ?_, ?_, soundPop sound popped⟩
        · intro x member _
          rcases List.mem_cons.mp (perm.mem_iff.mp member) with rfl | left
          · exact beforeIff.mpr (.inr ⟨rfl, .inr ⟨rfl, Nat.le_refl _⟩⟩)
          · exact popFirst sound popped x left
        · exact fun x member _ => List.mem_cons.mp (perm.mem_iff.mp member)
        · exact fun x member => perm.mem_iff.mpr (List.mem_cons_of_mem _ member)
      case isFalse stale =>
        have found := ih (soundPop sound popped) h
        have alive : ∀ x ∈ f.toList, good x = true → x ∈ others.toList := by
          intro x member isGood
          rcases List.mem_cons.mp (perm.mem_iff.mp member) with rfl | left
          · exact absurd isGood stale
          · exact left
        refine ⟨found.chosen, ?_, ?_, ?_, ?_, found.sound⟩
        · exact perm.mem_iff.mpr (List.mem_cons_of_mem _ found.member)
        · exact fun x member isGood => found.first x (alive x member isGood) isGood
        · exact fun x member isGood => found.kept x (alive x member isGood) isGood
        · exact fun x member => perm.mem_iff.mpr (List.mem_cons_of_mem _ (found.fewer x member))

theorem popGoodNone {good : Candidate n → Bool} {fuel : Nat} {f : Frontier n} (sound : f.Sound)
    (enough : f.size ≤ fuel) (h : popGood good fuel f = none) : ∀ x ∈ f.toList, good x = false := by
  induction fuel generalizing f with
  | zero =>
    have none : f.toList = [] := List.eq_nil_of_length_eq_zero (by rw [← sound.size]; omega)
    simp [none]
  | succ fuel ih =>
    simp only [popGood] at h
    split at h
    case h_1 popped => simp [popNone.mp popped]
    case h_2 top others popped =>
      have perm := toListPop popped
      split at h
      case isTrue => cases h
      case isFalse stale =>
        have fewer := perm.length_eq
        rw [List.length_cons, ← sound.size, ← (soundPop sound popped).size] at fewer
        intro x member
        rcases List.mem_cons.mp (perm.mem_iff.mp member) with rfl | left
        · exact Bool.not_eq_true _ ▸ stale
        · exact ih (soundPop sound popped) (by omega) h x left

theorem nextSome {good : Candidate n → Bool} {f rest : Frontier n} {c : Candidate n} (sound : f.Sound)
    (h : f.next? good = some (c, rest)) : Found good f c rest := popGoodSome sound h

theorem nextNone {good : Candidate n → Bool} {f : Frontier n} (sound : f.Sound)
    (h : f.next? good = none) : ∀ x ∈ f.toList, good x = false := popGoodNone sound (Nat.le_refl _) h

end Frontier
end OptimalMatching.Sparse
