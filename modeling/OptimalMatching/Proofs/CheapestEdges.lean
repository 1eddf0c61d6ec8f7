import OptimalMatching.Proofs.Duals
import OptimalMatching.Proofs.Scaling.Sparse

/-! What the sparse solver sees of a graph is the cheapest edge of each pair. The order of the edges does not matter, nor
do edges that run beside others at no smaller cost. -/
namespace OptimalMatching

variable {w : Width} {n : Nat}

structure SameRun (watch : Watch) (emitted : Nat) (g g' : Graph w n n) : Prop where
  result : (Sparse.solve watch emitted g').result = (Sparse.solve watch emitted g).result
  potentials : (Sparse.solve watch emitted g').state.map Sparse.State.potentials =
    (Sparse.solve watch emitted g).state.map Sparse.State.potentials
  traces : (Sparse.solve watch emitted g').events.filter (·.level = .trace) =
    (Sparse.solve watch emitted g).events.filter (·.level = .trace)

theorem ScaledPotentials.equal {k : Nat} {p p' : Potentials n} (potentials : ScaledPotentials (.same n) k p p') :
    p' = p := by
  have rows : p'.row = p.row := by
    refine Vector.ext ?_
    intro i inside
    by_cases early : i < k
    · exact (potentials.row ⟨i, inside⟩ early).trans Scale.sameCost
    · obtain ⟨one, two⟩ := potentials.late ⟨i, inside⟩ (Nat.le_of_not_lt early)
      exact two.trans one.symm
  have cols : p'.col = p.col := by
    refine Vector.ext ?_
    intro j inside
    exact (potentials.col ⟨j, inside⟩).trans (Int.one_mul _)
  obtain ⟨row, col⟩ := p
  obtain ⟨row', col'⟩ := p'
  simp only at rows cols
  rw [rows, cols]

theorem scaledReportsEqual {told told' : List Event} (reports : List.Forall₂ (ScaledReport (.same n)) told told') :
    told' = told := by
  induction reports with
  | nil => rfl
  | cons report _ ih =>
    cases report <;> rw [ih, Scale.sameCost]

theorem sameCheapest {g g' : Graph w n n} (valid : g.Valid) (valid' : g'.Valid)
    (accepted : requireRoom w g.largest n = .ok ()) (accepted' : requireRoom w g'.largest n = .ok ())
    (same : g'.cheapest = g.cheapest) (watch : Watch) (emitted : Nat) : SameRun watch emitted g g' := by
  have room := (requireRoomOk (Graph.largestNonneg g)).mp accepted
  have room' := (requireRoomOk (Graph.largestNonneg g')).mp accepted'
  have scaled : ScaledCosts (.same n) g.cheapest g'.cheapest := by
    rw [same]
    exact scaledSame g.cheapest
  by_cases size : n = 0
  · have refused : ∀ h : Graph w n n,
        Sparse.solve watch emitted h = ⟨none, [], .error (.malformed (.notSquare n n))⟩ :=
      fun h => dif_neg fun whole => whole.1 size
    refine ⟨?_, ?_, ?_⟩ <;> rw [refused, refused]
  · have square : ∀ h : Graph w n n, Sparse.solve watch emitted h = Sparse.solveSquare watch emitted h :=
      fun h => dif_pos ⟨size, rfl⟩
    obtain ⟨result, ⟨told, told', closing, reports, events, events'⟩, s, s', l, state, state', potentials, _⟩ :=
      Sparse.solveAlike scaled valid valid' room room' watch emitted
    refine ⟨?_, ?_, ?_⟩
    · rw [square, square, result]
    · rw [square, square, state, state', Option.map_some, Option.map_some, potentials.equal]
    · rw [square, square, events, events', scaledReportsEqual reports]
      rfl

def Undercuts (g g' : Graph w n n) : Prop :=
  ∀ e' ∈ g'.edges.toList, ∃ e ∈ g.edges.toList, e.row = e'.row ∧ e.col = e'.col ∧ e.cost ≤ e'.cost

theorem Undercuts.least {g g' : Graph w n n} (undercuts : Undercuts g g') {i j : Fin n} {x y : Int}
    (least : g.cheapest[i][j] = some x) (member : ⟨i, j, y⟩ ∈ g'.edges.toList) : x ≤ y := by
  obtain ⟨e, inside, row, col, le⟩ := undercuts _ member
  obtain ⟨i', j', cost⟩ := e
  simp only at row col le
  rw [row, col] at inside
  exact Int.le_trans ((Graph.cheapestSome.mp least).2 cost inside) le

theorem Undercuts.none {g g' : Graph w n n} (undercuts : Undercuts g g') {i j : Fin n}
    (without : g.cheapest[i][j] = none) : g'.cheapest[i][j] = none := by
  rw [Graph.cheapestNone] at without ⊢
  intro cost member
  obtain ⟨e, inside, row, col, _⟩ := undercuts _ member
  obtain ⟨i', j', price⟩ := e
  simp only at row col
  rw [row, col] at inside
  exact without price inside

theorem cheapestSame {g g' : Graph w n n} : g'.cheapest = g.cheapest ↔ Undercuts g g' ∧ Undercuts g' g := by
  constructor
  · have one : ∀ h h' : Graph w n n, h'.cheapest = h.cheapest → Undercuts h h' := by
      intro h h' same e' member
      obtain ⟨cost, has⟩ : ∃ cost, h'.cheapest[e'.row][e'.col] = some cost := by
        refine Option.ne_none_iff_exists'.mp ?_
        intro without
        exact Graph.cheapestNone.mp without e'.cost member
      have le := (Graph.cheapestSome.mp has).2 e'.cost member
      rw [same] at has
      exact ⟨_, (Graph.cheapestSome.mp has).1, rfl, rfl, le⟩
    exact fun same => ⟨one g g' same, one g' g same.symm⟩
  · intro ⟨under, under'⟩
    have entries : ∀ i j : Fin n, g'.cheapest[i][j] = g.cheapest[i][j] := by
      intro i j
      cases has : g.cheapest[i][j] with
      | none => exact under.none has
      | some x =>
        cases has' : g'.cheapest[i][j] with
        | none =>
          rw [under'.none has'] at has
          cases has
        | some y =>
          have le := under.least has (Graph.cheapestSome.mp has').1
          have le' := under'.least has' (Graph.cheapestSome.mp has).1
          rw [Int.le_antisymm le' le]
    refine Vector.ext ?_
    intro i hi
    refine Vector.ext ?_
    intro j hj
    exact entries ⟨i, hi⟩ ⟨j, hj⟩

theorem undercutsPerm {g g' : Graph w n n} (perm : g.edges.toList.Perm g'.edges.toList) : Undercuts g g' :=
  fun e member => ⟨e, perm.mem_iff.mpr member, rfl, rfl, Int.le_refl _⟩

theorem undercutsParallel {g g' : Graph w n n} {front back : List (Edge n n)} {e known : Edge n n}
    (edges : g.edges.toList = front ++ back) (edges' : g'.edges.toList = front ++ e :: back)
    (member : known ∈ front ++ back) (beside : known.row = e.row ∧ known.col = e.col) (le : known.cost ≤ e.cost) :
    Undercuts g g' ∧ Undercuts g' g := by
  refine ⟨?_, ?_⟩
  · intro e' inside
    rw [edges', List.mem_append, List.mem_cons] at inside
    rw [edges]
    rcases inside with left | isNew | right
    · exact ⟨e', List.mem_append_left _ left, rfl, rfl, Int.le_refl _⟩
    · rw [isNew]
      exact ⟨known, member, beside.1, beside.2, le⟩
    · exact ⟨e', List.mem_append_right _ right, rfl, rfl, Int.le_refl _⟩
  · intro e' inside
    rw [edges, List.mem_append] at inside
    rw [edges']
    refine ⟨e', ?_, rfl, rfl, Int.le_refl _⟩
    rw [List.mem_append, List.mem_cons]
    exact inside.imp_right .inr

/- For two graphs that both leave room, the cheapest edges decide all that can be seen of a run: so the order of the edges
is of no effect, and an edge may come or go where another one of its pair costs no more. -/
theorem cheapestDecides (watch : Watch) (emitted : Nat) (g g' : Graph w n n) (valid : g.Valid) (valid' : g'.Valid)
    (accepted : requireRoom w g.largest n = .ok ()) (accepted' : requireRoom w g'.largest n = .ok ()) :
    (g'.cheapest = g.cheapest → SameRun watch emitted g g') ∧
    (g.edges.toList.Perm g'.edges.toList → SameRun watch emitted g g') ∧
    (∀ front back e known, g.edges.toList = front ++ back → g'.edges.toList = front ++ e :: back →
      known ∈ front ++ back → known.row = e.row ∧ known.col = e.col → known.cost ≤ e.cost →
      SameRun watch emitted g g' ∧ SameRun watch emitted g' g) := by
  have decides := fun same => sameCheapest valid valid' accepted accepted' same watch emitted
  have decides' := fun same => sameCheapest valid' valid accepted' accepted same watch emitted
  refine ⟨decides, ?_, ?_⟩
  · exact fun perm => decides (cheapestSame.mpr ⟨undercutsPerm perm, undercutsPerm perm.symm⟩)
  · intro front back e known edges edges' member beside le
    have same := cheapestSame.mpr (undercutsParallel edges edges' member beside le)
    exact ⟨decides same, decides' same.symm⟩

def twoRowsShuffled : Graph byteWidth 2 2 := ⟨#[⟨1, 1, 1⟩, ⟨1, 0, 7⟩, ⟨1, 0, 2⟩, ⟨0, 1, 1⟩, ⟨0, 0, 3⟩]⟩

theorem cheapestDecidesTwo : SameRun .never 0 (Graph.ofSquare twoRows) twoRowsShuffled ∧
    (Sparse.solve .never 0 twoRowsShuffled).result = .ok [1, 0] := by
  have valid : twoRowsShuffled.Valid := by
    unfold Graph.Valid
    decide
  have decides := @cheapestDecides byteWidth 2 .never 0 (Graph.ofSquare twoRows) twoRowsShuffled
    (Graph.validOfSquare twoRowsValid) valid (by decide) (by decide)
  exact ⟨decides.1 (by decide), rfl⟩

end OptimalMatching
