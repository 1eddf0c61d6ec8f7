import OptimalMatching.Potential
import OptimalMatching.Square

/-! The search of the dense solver: from an unmatched row it settles one column after the other, each time one of
least label, until it meets a column without a row. The columns not yet settled stand in a list; the order of this
list decides between columns of equal label. -/
namespace OptimalMatching.Dense

structure Search (n : Nat) where
  labels : Labels n
  remaining : List (Fin n)
  rows : List (Fin n)
  cols : List (Fin n)
  deriving DecidableEq, Repr

variable {n : Nat}

def Search.start (labels : Labels n) : Search n := ⟨labels.clear, (List.finRange n).reverse, [], []⟩

structure Choice (n : Nat) where
  col : Fin n
  cost : Int
  place : Nat
  deriving DecidableEq, Repr

def relax (w : Width) (costs : Costs n) (p : Potentials n) (base : Int) (row : Fin n) :
    List (Fin n) → Labels n → Except Failure (Labels n)
  | [], labels => .ok labels
  | col :: rest, labels =>
    match costs[row][col] with
    | none => relax w costs p base row rest labels
    | some price => do
      let cost ← p.reach w base price row col
      relax w costs p base row rest (labels.offer row col cost)

/-- A cheaper column wins, and of two equal ones the later if it has no row: there the path may end. -/
def prefer (m : Matching n) (labels : Labels n) (col : Fin n) (place : Nat) (best : Option (Choice n)) :
    Option (Choice n) :=
  match labels.cost[col], best with
  | none, _ => best
  | some cost, none => some ⟨col, cost, place⟩
  | some cost, some known =>
    if cost < known.cost ∨ (cost = known.cost ∧ m.rowOf[col] = none) then some ⟨col, cost, place⟩ else best

def choose (m : Matching n) (labels : Labels n) :
    List (Fin n) → Nat → Option (Choice n) → Option (Choice n)
  | [], _, best => best
  | col :: rest, place, best => choose m labels rest (place + 1) (prefer m labels col place best)

def takeOut (xs : List (Fin n)) (place : Nat) : List (Fin n) :=
  match xs.getLast? with
  | none => []
  | some last => (xs.set place last).dropLast

theorem takeOutLast (front : List (Fin n)) (x : Fin n) : takeOut (front ++ [x]) front.length = front := by
  simp [takeOut]

theorem takeOutInside (front back : List (Fin n)) (x last : Fin n) :
    takeOut (front ++ x :: (back ++ [last])) front.length = front ++ last :: back := by
  have ends : (front ++ x :: (back ++ [last])).getLast? = some last := by
    rw [← List.cons_append, ← List.append_assoc, List.getLast?_concat]
  have set : (front ++ x :: (back ++ [last])).set front.length last =
      (front ++ last :: back) ++ [last] := by simp
  simp only [takeOut, ends, set, List.dropLast_concat]

theorem takeOutPerm (xs : List (Fin n)) (place : Nat) (inside : place < xs.length) :
    xs.Perm (xs[place] :: takeOut xs place) := by
  obtain ⟨front, x, back, rfl, rfl⟩ : ∃ front x back, xs = front ++ x :: back ∧ front.length = place :=
    ⟨xs.take place, xs[place], xs.drop (place + 1), by simp, by simp; omega⟩
  rw [List.getElem_append_right (Nat.le_refl _)]
  simp only [Nat.sub_self, List.getElem_cons_zero]
  rcases List.eq_nil_or_concat back with rfl | ⟨back, last, rfl⟩
  · rw [takeOutLast]
    exact List.perm_append_singleton x front
  · rw [List.concat_eq_append, takeOutInside]
    refine List.perm_middle.trans (.cons _ ?_)
    rw [← List.append_assoc]
    exact (List.perm_append_singleton last _).trans List.perm_middle.symm

def advance (w : Width) (costs : Costs n) (p : Potentials n) (m : Matching n) (first row : Fin n)
    (base : Int) (s : Search n) : Except Failure (Choice n × Search n) := do
  let labels ← relax w costs p base row s.remaining s.labels
  match choose m labels s.remaining 0 none with
  | none => .error (.infeasible first)
  | some choice =>
    pure (choice, ⟨labels, takeOut s.remaining choice.place, row :: s.rows, choice.col :: s.cols⟩)

def searchFrom (w : Width) (costs : Costs n) (p : Potentials n) (m : Matching n) (first : Fin n) :
    Nat → Fin n → Int → Search n → Except Failure (Choice n × Search n)
  | 0, _, _, _ => .error (.infeasible first)
  | fuel + 1, row, base, s => do
    let (choice, s) ← advance w costs p m first row base s
    match m.rowOf[choice.col] with
    | none => pure (choice, s)
    | some next => searchFrom w costs p m first fuel next choice.cost s

def search (w : Width) (costs : Costs n) (p : Potentials n) (m : Matching n) (labels : Labels n)
    (first : Fin n) : Except Failure (Choice n × Search n) :=
  searchFrom w costs p m first n first 0 (.start labels)

end OptimalMatching.Dense
