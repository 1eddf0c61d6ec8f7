import OptimalMatching.Proofs.FailedCall
import OptimalMatching.Proofs.Frontier

/-! What a sparse search changes it puts on record, and from the record it is put back. So the scratch is blank again after
each row, whether the row has been matched or is stuck, and whatever the potentials, the matching and the graph are. -/
namespace OptimalMatching

variable {w : Width} {n : Nat}

namespace Sparse
variable {grouped : Grouped n n} {p : Potentials n} {m : Matching n} {first row : Fin n} {base : Int}
  {scratch s next : Scratch n} {f : Frontier n}

structure Records (before now : Scratch n) : Prop where
  once : now.touched.Nodup
  changed : ∀ j : Fin n, j ∈ now.touched ↔
    now.labels.cost[j] ≠ before.labels.cost[j] ∨ now.settled[j] ≠ before.settled[j]

structure RecordsAll (w : Width) (grouped : Grouped n n) (p : Potentials n) (m : Matching n) (scratch : Scratch n)
    (first : Fin n) : Prop where
  before : ∀ row base f s, Enters w grouped p m scratch first row base f s → Records scratch s
  behind : ∀ row base f s, Enters w grouped p m scratch first row base f s →
    ∀ next outcome, advance w grouped p m row base f s = .ok (next, outcome) → Records scratch next

inductive Leaves {α : Type} (first : Fin n) (found stuck : Prop) : Except Failure α → Prop
  | found (a : α) (way : found) : Leaves first found stuck (.ok a)
  | stuck (closed : stuck) : Leaves first found stuck (.error (.infeasible first.val))
  | fault (cause : Fault) : Leaves first found stuck (.error (.fault cause))

theorem Kept.records (clean : Clean scratch) (kept : Kept m f s) : Records scratch s := by
  obtain ⟨knows, _, recorded⟩ := kept
  refine ⟨recorded.once, ?_⟩
  intro j
  rw [clean.labels, clean.settled, recorded.labelled, ← Option.ne_none_iff_exists']
  refine ⟨.inl, ?_⟩
  rintro (labelled | marked)
  · exact labelled
  · have inside : j ∈ s.cols := (knows.flags j).mp (by simpa using marked)
    exact Option.ne_none_iff_exists'.mpr ((recorded.labelled j).mp (recorded.settled j inside))

theorem Kept.clean (kept : Kept m f s) : Clean s.reset := by
  obtain ⟨knows, _, recorded⟩ := kept
  exact resetClean knows.touched fun j marked => recorded.settled j ((knows.flags j).mp marked)

/- A step that has found no candidate has settled nothing, but it may have touched columns that are settled already. -/
theorem Kept.behind {outcome : Option (Candidate n × Frontier n)} (kept : Kept m f s)
    (step : Sparse.advance w grouped p m row base f s = .ok (next, outcome)) : ∃ rest, Kept m rest next := by
  cases advanceStepped step with
  | stuck relaxed _ => exact ⟨_, ((kept.visit row).relax relaxed).1⟩
  | settled relaxed found => exact ⟨_, ((kept.visit row).relax relaxed).1.settle found⟩

theorem recordsAll (clean : Clean scratch) : RecordsAll w grouped p m scratch first := by
  refine ⟨fun _ _ _ _ enters => (enters.kept clean).records clean, ?_⟩
  intro row base f s enters next outcome step
  obtain ⟨_, kept⟩ := (enters.kept clean).behind step
  exact kept.records clean

theorem relaxFaults (arcs : List (Arc n)) (f : Frontier n) (s : Scratch n) : OnlyFaults (relax w p m base row arcs f s) := by
  induction arcs generalizing f s with
  | nil => exact onlyFaultsOk _
  | cons arc rest ih =>
    obtain ⟨col, price⟩ := arc
    simp only [relax]
    split
    · exact ih f s
    · refine OnlyFaults.bind ?_ fun cost => ?_
      · exact (onlyFaultsKeep _ _).bind fun _ => (onlyFaultsKeep _ _).bind fun _ => onlyFaultsKeep _ _
      · split
        · exact ih _ _
        · exact ih f s

theorem advanceFaults (f : Frontier n) (s : Scratch n) : OnlyFaults (advance w grouped p m row base f s) := by
  refine (relaxFaults _ f _).bind fun out => ?_
  dsimp only
  split <;> exact onlyFaultsOk _

theorem Kept.searchFrom (kept : Kept m f s) (fuel : Nat) :
    Leaves first (Clean (Sparse.searchFrom w grouped p m first fuel row base f s).1.reset)
      (Clean (Sparse.searchFrom w grouped p m first fuel row base f s).1)
      (Sparse.searchFrom w grouped p m first fuel row base f s).2 := by
  induction fuel generalizing f s row base with
  | zero => exact .stuck kept.clean
  | succ fuel ih =>
    simp only [Sparse.searchFrom]
    cases step : Sparse.advance w grouped p m row base f s with
    | error failure =>
      obtain ⟨cause, rfl⟩ := advanceFaults f s failure step
      exact .fault cause
    | ok out =>
      obtain ⟨next, _ | ⟨chosen, rest⟩⟩ := out
      · obtain ⟨_, later⟩ := kept.behind step
        exact .stuck later.clean
      · have later := kept.advance step
        simp only
        cases m.rowOf[chosen.col] with
        | none => exact .found chosen later.clean
        | some row => exact ih later

theorem augmentLeaves {s : State n} (clean : Clean s.scratch) :
    Leaves first (Clean (augment w grouped s first).1.scratch) (Clean (augment w grouped s first).1.scratch)
      (augment w grouped s first).2 := by
  obtain ⟨p, m, scratch⟩ := s
  have kept : Kept m .empty scratch := .start clean
  have leaves := @Kept.searchFrom w n grouped p m first first 0 scratch .empty kept n
  simp only [augment, search]
  generalize Sparse.searchFrom w grouped p m first n first 0 .empty scratch = out at leaves
  obtain ⟨found, result⟩ := out
  cases leaves with
  | stuck closed => exact .stuck closed
  | fault cause => exact .fault cause
  | found sink way =>
    simp only
    cases committed : commit w p m first sink found with
    | error failure =>
      obtain ⟨cause, rfl⟩ := commitFaults p m first sink found failure committed
      exact .fault cause
    | ok next =>
      obtain ⟨_, _, scratch⟩ := commitOk committed
      rw [← scratch] at way
      exact .found _ way

theorem Memory.augmentLeaves {m : Memory n} (clean : Clean m.scratch) :
    Leaves first (Clean (m.augment w first).1.scratch) (Clean (m.augment w first).1.scratch) (m.augment w first).2 := by
  obtain ⟨_, result, same, _⟩ := @augmentMirrors w n m first
  have scratch : (m.augment w first).1.scratch = (Sparse.augment w m.graph m.view first).1.scratch :=
    congrArg State.scratch same
  rw [result, scratch]
  exact Sparse.augmentLeaves clean

theorem Memory.rowsLeave (watch : Watch) (emitted : Nat) {m : Memory n} (clean : Clean m.scratch) (rows : List (Fin n)) :
    (∃ cause, (rowByRow watch (augment w) rows emitted m).result = .error (.fault cause)) ∨
      Clean (rowByRow watch (augment w) rows emitted m).state.scratch := by
  refine @rowByRowKeeps _ _ watch (augment w) (fun m => Clean m.scratch) ?_ rows emitted m clean
  intro m i clean
  have leaves := @augmentLeaves w n i m clean
  generalize m.augment w i = out at leaves
  obtain ⟨next, result⟩ := out
  cases leaves with
  | found _ way => exact .inr way
  | stuck closed => exact .inr closed
  | fault cause => exact .inl ⟨cause, rfl⟩

end Sparse

theorem resetComplete :
    (∀ (grouped : Grouped n n) p m (scratch : Sparse.Scratch n) first, Sparse.Clean scratch →
      Sparse.RecordsAll w grouped p m scratch first) ∧
    (∀ (m : Sparse.Memory n) first, Sparse.Clean m.scratch →
      Sparse.Leaves first (Sparse.Clean (m.augment w first).1.scratch) (Sparse.Clean (m.augment w first).1.scratch)
        (m.augment w first).2) ∧
    (∀ (grouped : Grouped n n) size (old : Sparse.Memory size) watch emitted rows,
      (∃ cause, (rowByRow watch (Sparse.Memory.augment w) rows emitted (old.load grouped)).result = .error (.fault cause)) ∨
        Sparse.Clean (rowByRow watch (Sparse.Memory.augment w) rows emitted (old.load grouped)).state.scratch) ∧
    ∀ g : Graph w n n, g.Valid → requireRoom w g.largest n = .ok () → ∃ grouped, Grouped.ofGraph g = .ok grouped ∧
      ∀ size (old : Sparse.Memory size) watch emitted k cause,
        (rowByRow watch (Sparse.Memory.augment w) ((List.finRange n).take k) emitted (old.load grouped)).result ≠
          .error (.fault cause) := by
  refine ⟨fun _ _ _ _ _ clean => Sparse.recordsAll clean, fun _ _ clean => Sparse.Memory.augmentLeaves clean, ?_, ?_⟩
  · intro grouped size old watch emitted rows
    exact Sparse.Memory.rowsLeave watch emitted (Sparse.cleanBlank n) rows
  · intro g valid accepted
    have room := (requireRoomOk (Graph.largestNonneg g)).mp accepted
    obtain ⟨grouped, made, arcs⟩ := Grouped.ofGraphOk g
    refine ⟨grouped, made, ?_⟩
    intro size old watch emitted k cause faulted
    obtain ⟨_, _, _, ended⟩ := Sparse.rowsEnd (takeOrder n k) arcs valid room.product watch emitted
    obtain ⟨_, result, _⟩ := @rowByRowMirrors _ _ _ _ watch (Sparse.augment w grouped) (Sparse.Memory.augment w)
      Sparse.Memory.view id (fun m => m.graph = grouped) (by
        rintro m i same
        rw [← same]
        exact Sparse.Memory.augmentMirrors m i) ((List.finRange n).take k) emitted (old.load grouped) rfl
    have same : (rowByRow watch (Sparse.augment w grouped) ((List.finRange n).take k) emitted (.start n)).result =
        .error (.fault cause) := result.symm.trans faulted
    rw [same] at ended
    cases ended

theorem resetCompleteWorn :
    ∃ grouped m events, Grouped.ofGraph (Graph.ofSquare twoRows) = .ok grouped ∧
      rowByRow .never (Sparse.Memory.augment byteWidth) ((List.finRange 2).take 1) 0 (wornSparse.state.load grouped) =
        ⟨m, events, .ok ()⟩ ∧
      Sparse.Clean m.scratch ∧ Sparse.RecordsAll byteWidth grouped m.potentials m.matching m.scratch 1 ∧
      Sparse.Leaves (1 : Fin 2) (Sparse.Clean (m.augment byteWidth 1).1.scratch)
        (Sparse.Clean (m.augment byteWidth 1).1.scratch) (m.augment byteWidth 1).2 ∧
      ∀ k cause, (rowByRow .never (Sparse.Memory.augment byteWidth) ((List.finRange 2).take k) 0
        (wornSparse.state.load grouped)).result ≠ .error (.fault cause) := by
  obtain ⟨records, row, rows, accepted⟩ := @resetComplete byteWidth 2
  obtain ⟨grouped, made, whole⟩ := accepted (Graph.ofSquare twoRows) (Graph.validOfSquare twoRowsValid) (by decide)
  have kept := rows grouped _ wornSparse.state .never 0 ((List.finRange 2).take 1)
  have clean := kept.resolve_left fun faulted => faulted.elim (whole _ wornSparse.state .never 0 1)
  rw [twoRowsGrouped] at made
  obtain rfl := Except.ok.inj made
  exact ⟨_, _, _, twoRowsGrouped, rfl, clean, records _ _ _ _ 1 clean, row _ 1 clean, whole _ wornSparse.state .never 0⟩

end OptimalMatching
