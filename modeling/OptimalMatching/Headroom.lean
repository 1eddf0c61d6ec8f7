import OptimalMatching.Width

/-! The room that a search by shortest paths asks for before it starts. Path costs and potentials stay below a
small multiple of the size times the largest cost. -/
namespace OptimalMatching

def wordLimit : Nat := UInt64.size

def roomFactor (n : Nat) : Nat := 4 * n + 4

structure Roomy (w : Width) (largest : Int) (n : Nat) : Prop where
  word : roomFactor n < wordLimit
  factor : (roomFactor n : Int) ≤ w.top
  product : largest * roomFactor n ≤ w.top

def requireRoom (w : Width) (largest : Int) (n : Nat) : Except Failure Unit :=
  if roomFactor n < wordLimit ∧ (roomFactor n : Int) ≤ w.top then do
    let _ ← w.keep (.overflow (.headroom largest n)) (largest * roomFactor n)
    pure ()
  else .error (.overflow (.size n))

theorem requireRoomOk {w : Width} {largest : Int} {n : Nat} (cost : 0 ≤ largest) :
    requireRoom w largest n = .ok () ↔ Roomy w largest n := by
  have product : 0 ≤ largest * roomFactor n := Int.mul_nonneg cost (Int.natCast_nonneg _)
  unfold requireRoom
  constructor
  · intro h
    split at h
    case isFalse => cases h
    case isTrue fits =>
      unfold Width.keep at h
      split at h
      case isFalse => cases h
      case isTrue room => exact ⟨fits.1, fits.2, room.2⟩
  · intro room
    rw [if_pos ⟨room.word, room.factor⟩, Width.keepOk (Width.holdsNonneg product room.product)]
    rfl

end OptimalMatching
