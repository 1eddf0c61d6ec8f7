/-! Why no matching is returned. Each failure names its cause as data; the wording is in `message` only.
A `fault` is a broken promise of the library itself and no answer to any input. -/
namespace OptimalMatching

inductive Malformed
  | empty (rows cols : Nat)
  | ragged (row width expected : Nat)
  | negative (cost : Int)
  | outside (row col rows cols : Nat)
  | uncovered (given rows : Nat)
  | noColumn (row col : Nat)
  | notSquare (rows cols : Nat)
  deriving DecidableEq, Repr

def Malformed.message : Malformed → String
  | empty rows cols => s!"cost matrix must not be empty, got {rows}x{cols}"
  | ragged row width expected => s!"row {row} has {width} columns, expected {expected}"
  | negative cost => s!"negative cost {cost}"
  | outside row col rows cols => s!"cell ({row}, {col}) is outside a {rows}x{cols} matrix"
  | uncovered given rows => s!"assignment covers {given} rows, matrix has {rows}"
  | noColumn row col => s!"row {row} is assigned to column {col} out of range"
  | notSquare rows cols => s!"sparse solver needs a non-empty square graph, got {rows}x{cols}"

inductive Overflow
  | size (n : Nat)
  | headroom (largest : Int) (n : Nat)
  | reduced (row col : Nat)
  | adjustment (delta : Int)
  | total (row : Nat)
  deriving DecidableEq, Repr

def Overflow.message : Overflow → String
  | size n => s!"size {n} does not fit the cost type"
  | headroom largest n => s!"largest cost {largest} leaves no headroom for size {n}"
  | reduced row col => s!"reduced cost of cell ({row}, {col})"
  | adjustment delta => s!"adjusting potentials by {delta}"
  | total row => s!"total cost overflows at row {row}"

inductive Fault
  | arithmetic
  | layout
  | unassigned (row : Nat)
  | reassigned (row : Nat)
  | orphan (col : Nat)
  | endlessPath
  | starCount
  | lostCover
  | delta (value : Int)
  | unprimed (row : Nat)
  | unmarked (row col : Nat)
  | endlessSteps
  | short (given rows : Nat)
  | claimed (col : Nat)
  deriving DecidableEq, Repr

inductive Failure
  | malformed (cause : Malformed)
  | infeasible (row : Nat)
  | overflow (cause : Overflow)
  | cancelled
  | fault (cause : Fault)
  deriving DecidableEq, Repr

def Failure.message : Failure → String
  | malformed cause => "malformed input: " ++ cause.message
  | infeasible row => s!"infeasible: row {row} cannot be assigned at finite cost"
  | overflow cause => "numeric overflow: " ++ cause.message
  | cancelled => "solve cancelled"
  | fault _ => "internal fault"

theorem bindOk {α β : Type} {x : Except Failure α} {f : α → Except Failure β} {b : β} :
    (x >>= f) = .ok b ↔ ∃ a, x = .ok a ∧ f a = .ok b := by
  cases x <;> simp [bind, Except.bind]

theorem bindError {α β : Type} {x : Except Failure α} {f : α → Except Failure β} {failure : Failure} :
    (x >>= f) = .error failure ↔
      x = .error failure ∨ ∃ a, x = .ok a ∧ f a = .error failure := by
  cases x <;> simp [bind, Except.bind]

theorem pureOk {α : Type} {a b : α} : (pure a : Except Failure α) = .ok b ↔ a = b := by
  simp [pure, Except.pure]

def sure {α : Type} (x : Except Failure α) (comes : ∃ a, x = .ok a) : α :=
  match x, comes with
  | .ok a, _ => a
  | .error _, never => False.elim (by obtain ⟨_, same⟩ := never; cases same)

theorem sureOk {α : Type} (x : Except Failure α) (comes : ∃ a, x = .ok a) : x = .ok (sure x comes) := by
  obtain ⟨a, rfl⟩ := comes
  rfl

theorem sureHas {α : Type} {x : Except Failure α} {good : α → Prop} (comes : ∃ a, x = .ok a ∧ good a) :
    good (sure x (comes.imp fun _ => And.left)) := by
  obtain ⟨a, rfl, isGood⟩ := comes
  exact isGood

end OptimalMatching
