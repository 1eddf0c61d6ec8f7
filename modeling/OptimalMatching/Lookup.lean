/-! Vectors are read and written at positions below their own length. Such a position is inside, and what is left to show is
that the two lengths are one. -/
namespace OptimalMatching

variable {α : Type} {k n : Nat}

instance readAt : GetElem (Vector α n) (Fin k) α fun _ _ => k = n where
  getElem xs i same := getElem xs i.val (Nat.lt_of_lt_of_eq i.isLt same)

@[simp] theorem readVal (xs : Vector α n) (i : Fin n) : xs[i] = getElem xs i.val i.isLt := rfl

theorem readSet (xs : Vector α n) (i j : Fin n) (x : α) : (xs.set i x i.isLt)[j] = if j = i then x else xs[j] := by
  simp only [readVal, Vector.getElem_set, Fin.ext_iff, eq_comm]

end OptimalMatching
