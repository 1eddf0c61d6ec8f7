import OptimalMatching.Square

/-! Bipartite graphs of rows and columns. An edge is an allowed pairing with its price; a pair may have several.
The sizes cost nothing until a solver starts, so they may be as large as the machine counts. -/
namespace OptimalMatching

structure Edge (rows cols : Nat) where
  row : Fin rows
  col : Fin cols
  cost : Int
  deriving DecidableEq, Repr

structure Graph (w : Width) (rows cols : Nat) where
  edges : Array (Edge rows cols)
  deriving DecidableEq, Repr

namespace Graph
variable {w : Width} {rows cols n : Nat}

def empty : Graph w rows cols := ⟨#[]⟩

def size (g : Graph w rows cols) : Nat := g.edges.size

def Accepts (w : Width) (rows cols row col : Nat) (cost : Int) : Prop :=
  (row < rows ∧ col < cols) ∧ 0 ≤ cost ∧ cost ≠ w.blocked

instance (w : Width) (rows cols row col : Nat) (cost : Int) : Decidable (Accepts w rows cols row col cost) := by
  unfold Accepts
  infer_instance

def push (g : Graph w rows cols) (row col : Nat) (cost : Int) (ends : row < rows ∧ col < cols) :
    Graph w rows cols :=
  ⟨g.edges.push ⟨⟨row, ends.1⟩, ⟨col, ends.2⟩, cost⟩⟩

def insert? (g : Graph w rows cols) (row col : Nat) (cost : Int) : Option (Graph w rows cols) :=
  if ok : Accepts w rows cols row col cost then some (g.push row col cost ok.1) else none

def insert (g : Graph w rows cols) (row col : Nat) (cost : Int) : Graph w rows cols :=
  (g.insert? row col cost).getD g

theorem insertCases (g : Graph w rows cols) (row col : Nat) (cost : Int) :
    (∃ ok : Accepts w rows cols row col cost, g.insert row col cost = g.push row col cost ok.1) ∨
      (¬ Accepts w rows cols row col cost ∧ g.insert row col cost = g) := by
  unfold insert insert?
  split
  case isTrue ok => exact .inl ⟨ok, rfl⟩
  case isFalse refused => exact .inr ⟨refused, rfl⟩

theorem pushEdges (g : Graph w rows cols) {row col : Nat} {cost : Int} (ends : row < rows ∧ col < cols) :
    (g.push row col cost ends).edges.toList = g.edges.toList ++ [⟨⟨row, ends.1⟩, ⟨col, ends.2⟩, cost⟩] := by
  simp [push]

def edge? (g : Graph w rows cols) (id : Nat) : Option (Edge rows cols) := g.edges[id]?

def squared (g : Graph w rows cols) (square : rows ≠ 0 ∧ rows = cols) : Graph w rows rows := square.2.symm ▸ g

def largest (g : Graph w rows cols) : Int := (g.edges.toList.map Edge.cost).foldl max 0

def rowEdges (costs : Costs n) (i : Fin n) : List (Edge n n) :=
  (List.finRange n).filterMap fun j => (costs[i][j]).map (Edge.mk i j)

theorem memRowEdges {costs : Costs n} {i : Fin n} {e : Edge n n} :
    e ∈ rowEdges costs i ↔ e.row = i ∧ costs[e.row][e.col] = some e.cost := by
  simp only [rowEdges, List.mem_filterMap, List.mem_finRange, true_and, Option.map_eq_some_iff]
  constructor
  · rintro ⟨j, cost, found, rfl⟩
    exact ⟨rfl, found⟩
  · rintro ⟨rfl, found⟩
    exact ⟨e.col, e.cost, found, rfl⟩

def ofCosts (costs : Costs n) : Graph w n n :=
  ⟨((List.finRange n).flatMap (rowEdges costs)).toArray⟩

theorem memOfCosts {costs : Costs n} {e : Edge n n} :
    e ∈ (@ofCosts w n costs).edges ↔ costs[e.row][e.col] = some e.cost := by
  simp [ofCosts, memRowEdges]

def ofSquare (s : Square w n) : Graph w n n := ofCosts s.costs

end Graph
end OptimalMatching
