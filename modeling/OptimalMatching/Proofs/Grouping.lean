import OptimalMatching.Proofs.Forms

/-! Grouping the edges of any graph, in buffers that hold anything. No edge is lost, none comes twice or into another row,
and those of one row stay in the order in which they have been added. -/
namespace OptimalMatching

variable {w : Width} {k rows cols n : Nat}

namespace Graph

structure Request where
  row : Nat
  col : Nat
  cost : Int
  deriving DecidableEq

def ofRequests (w : Width) (rows cols : Nat) (requests : List Request) : Graph w rows cols :=
  requests.foldl (fun g asked => g.insert asked.row asked.col asked.cost) .empty

def asked (e : Edge rows cols) : Request := ⟨e.row, e.col, e.cost⟩

def accepted (w : Width) (rows cols : Nat) (requests : List Request) : List Request :=
  requests.filter fun asked => Accepts w rows cols asked.row asked.col asked.cost

theorem insertAsked (g : Graph w rows cols) (request : Request) :
    (g.insert request.row request.col request.cost).edges.toList.map asked =
      g.edges.toList.map asked ++ accepted w rows cols [request] := by
  rw [accepted, List.filter_cons, List.filter_nil]
  rcases g.insertCases request.row request.col request.cost with ⟨ok, pushed⟩ | ⟨refused, same⟩
  · rw [pushed, pushEdges, List.map_append, if_pos (decide_eq_true ok)]
    rfl
  · rw [same, decide_eq_false refused, if_neg Bool.false_ne_true, List.append_nil]

theorem edgesOfRequests (requests : List Request) :
    (ofRequests w rows cols requests).edges.toList.map asked = accepted w rows cols requests := by
  have later : ∀ g : Graph w rows cols,
      (requests.foldl (fun g asked => g.insert asked.row asked.col asked.cost) g).edges.toList.map asked =
        g.edges.toList.map asked ++ accepted w rows cols requests := by
    induction requests with
    | nil => exact fun g => (List.append_nil _).symm
    | cons request rest ih =>
      intro g
      rw [List.foldl_cons, ih, insertAsked, List.append_assoc, accepted, accepted, accepted, ← List.filter_append]
      rfl
  exact later .empty

theorem validOfRequests {requests : List Request} (typed : ∀ asked ∈ requests, asked.cost ≤ w.top) :
    (ofRequests w rows cols requests).Valid := by
  have later : ∀ g : Graph w rows cols, g.Valid →
      (requests.foldl (fun g asked => g.insert asked.row asked.col asked.cost) g).Valid := by
    induction requests with
    | nil => exact fun _ valid => valid
    | cons request rest ih =>
      obtain ⟨first, others⟩ := List.forall_mem_cons.mp typed
      exact fun g valid => ih others _ (validInsert valid first)
  exact later _ validEmpty

end Graph

theorem rowArcsAsked (edges : List (Edge rows cols)) (i : Fin rows) :
    (rowArcs edges i).map (fun arc => (arc.1.val, arc.2)) =
      ((edges.map Graph.asked).filter fun asked => asked.row = i.val).map fun asked => (asked.col, asked.cost) := by
  have own : (edges.filter fun e => e.row = i) = edges.filter fun e => (Graph.asked e).row = i.val :=
    List.filter_congr fun _ _ => decide_eq_decide.mpr Fin.ext_iff
  rw [rowArcs, own, List.filter_map, List.map_map, List.map_map]
  rfl

def Grouped.edges (grouped : Grouped rows cols) : List (Edge rows cols) :=
  (List.finRange rows).flatMap fun i => (grouped.arcs i).map fun arc => ⟨i, arc.1, arc.2⟩

theorem rowArcsEdges (edges : List (Edge rows cols)) (i : Fin rows) :
    ((rowArcs edges i).map fun arc => (⟨i, arc.1, arc.2⟩ : Edge rows cols)) = edges.filter fun e => e.row = i := by
  have back : ∀ e ∈ edges.filter fun e => e.row = i, (⟨i, e.col, e.cost⟩ : Edge rows cols) = e := by
    intro e member
    obtain ⟨_, isRow⟩ := List.mem_filter.mp member
    rw [← of_decide_eq_true isRow]
  rw [rowArcs, List.map_map]
  exact (List.map_congr_left back).trans (List.map_id _)

theorem partedPerm (edges : List (Edge rows cols)) :
    ((List.finRange rows).flatMap fun i => edges.filter fun e => e.row = i).Perm edges := by
  induction edges with
  | nil => simp
  | cons e rest ih =>
    obtain ⟨front, back, split⟩ := List.append_of_mem (List.mem_finRange e.row)
    have distinct := List.nodup_finRange rows
    rw [split] at distinct ih ⊢
    have others : ∀ i, i ≠ e.row → ((e :: rest).filter fun e => e.row = i) = rest.filter fun e => e.row = i :=
      fun i other => List.filter_cons_of_neg (by simpa using other.symm)
    have own : ((e :: rest).filter fun d => d.row = e.row) = e :: rest.filter fun d => d.row = e.row :=
      List.filter_cons_of_pos (by simp)
    obtain ⟨_, tail, apart⟩ := List.nodup_append.mp distinct
    have before : (front.flatMap fun i => (e :: rest).filter fun d => d.row = i) =
        front.flatMap fun i => rest.filter fun d => d.row = i :=
      List.flatMap_congr fun i member => others i (apart i member e.row List.mem_cons_self)
    have behind : (back.flatMap fun i => (e :: rest).filter fun d => d.row = i) =
        back.flatMap fun i => rest.filter fun d => d.row = i :=
      List.flatMap_congr fun i member => others i fun same => (List.nodup_cons.mp tail).1 (same ▸ member)
    rw [List.flatMap_append, List.flatMap_cons] at ih ⊢
    rw [before, behind, own, List.cons_append]
    exact List.perm_middle.trans (ih.cons e)

theorem Grouped.Groups.edgesPerm {edges : List (Edge rows cols)} {grouped : Grouped rows cols}
    (groups : Groups edges grouped) : grouped.edges.Perm edges := by
  have parts : grouped.edges = (List.finRange rows).flatMap fun i => edges.filter fun e => e.row = i :=
    List.flatMap_congr fun i _ => (congrArg _ (groups.each i)).trans (rowArcsEdges edges i)
  rw [parts]
  exact partedPerm edges

theorem groupingStable (oldStart : Array Nat) (oldPlaces : Array (Option (Arc k))) :
    (∀ g : Graph w rows cols, ∃ grouped, Grouped.build oldStart oldPlaces g = .ok grouped ∧
      Grouped.Groups g.edges.toList grouped ∧ grouped.edges.Perm g.edges.toList) ∧
    (∀ requests : List Graph.Request, ∃ grouped,
      Grouped.build oldStart oldPlaces (Graph.ofRequests w rows cols requests) = .ok grouped ∧
      grouped.start[Fin.last rows] = (Graph.accepted w rows cols requests).length ∧
      ∀ i : Fin rows, (grouped.arcs i).map (fun arc => (arc.1.val, arc.2)) =
        ((Graph.accepted w rows cols requests).filter fun asked => asked.row = i.val).map
          fun asked => (asked.col, asked.cost)) ∧
    ∀ table : Square w n, ∃ grouped, Grouped.build oldStart oldPlaces (Graph.ofSquare table) = .ok grouped ∧
      ∀ i, grouped.arcs i = table.costs.arcs i := by
  refine ⟨?_, ?_, ?_⟩
  · intro g
    obtain ⟨grouped, made, groups⟩ := Grouped.ofGraphGroups g
    exact ⟨grouped, (Grouped.buildSame _ _ g).trans made, groups, groups.edgesPerm⟩
  · intro requests
    obtain ⟨grouped, made, groups⟩ := Grouped.ofGraphGroups (Graph.ofRequests w rows cols requests)
    refine ⟨grouped, (Grouped.buildSame _ _ _).trans made, ?_, ?_⟩
    · rw [groups.last, ← Graph.edgesOfRequests, List.length_map]
    · intro i
      rw [groups.each, rowArcsAsked, Graph.edgesOfRequests]
  · intro table
    obtain ⟨grouped, made, arcs⟩ := @arcsOfCosts w n table.costs
    exact ⟨grouped, (Grouped.buildSame _ _ _).trans made, arcs⟩

example : (Grouped.build #[5, 9] #[some ((0 : Fin 1), 3)] (Graph.ofRequests byteWidth 3 3
      [⟨2, 0, 5⟩, ⟨0, 1, 1⟩, ⟨3, 0, 1⟩, ⟨2, 2, 7⟩, ⟨0, 0, 3⟩])).map
      (fun grouped => (grouped.start.toList, (List.finRange 3).map grouped.arcs)) =
    .ok ([0, 2, 2, 4], [[(1, 1), (0, 3)], [], [(0, 5), (2, 7)]]) := rfl

end OptimalMatching
