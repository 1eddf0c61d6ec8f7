import OptimalMatching.Failure

/-! The signed integers that a cost may take. The largest of them is no price: it marks a pairing that is
not allowed. -/
namespace OptimalMatching

structure Width where
  bottom : Int
  top : Int
  balanced : bottom = -top - 1
  wide : 127 ≤ top
  deriving Repr

namespace Width

def ofBits (bits : Nat) (h : 8 ≤ bits) : Width where
  bottom := -Int.pow 2 (bits - 1)
  top := Int.pow 2 (bits - 1) - 1
  balanced := by omega
  wide := by
    have two : 128 ≤ Int.pow 2 (bits - 1) := by
      change (2 : Int) ^ 7 ≤ 2 ^ (bits - 1)
      exact_mod_cast Nat.pow_le_pow_right (by decide) (by omega : 7 ≤ bits - 1)
    omega

/-- The value of a cell whose row and column must not be paired. -/
def blocked (w : Width) : Int := w.top

def Holds (w : Width) (x : Int) : Prop := w.bottom ≤ x ∧ x ≤ w.top

instance (w : Width) (x : Int) : Decidable (w.Holds x) := by unfold Holds; infer_instance

def keep (w : Width) (failure : Failure) (x : Int) : Except Failure Int :=
  if w.Holds x then .ok x else .error failure

theorem bottomNegative (w : Width) : w.bottom < 0 := by
  have balanced := w.balanced
  have wide := w.wide
  omega

theorem holdsNonneg {w : Width} {x : Int} (low : 0 ≤ x) (high : x ≤ w.top) : w.Holds x :=
  ⟨Int.le_trans (Int.le_of_lt w.bottomNegative) low, high⟩

theorem keepOk {w : Width} {failure : Failure} {x : Int} (h : w.Holds x) : w.keep failure x = .ok x :=
  if_pos h

theorem keepIff {w : Width} {failure : Failure} {x y : Int} :
    w.keep failure x = .ok y ↔ y = x ∧ w.Holds x := by
  unfold keep
  split
  case isTrue inside => simp [inside, eq_comm]
  case isFalse outside => simp [outside]

end Width
end OptimalMatching
