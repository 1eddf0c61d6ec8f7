import OptimalMatching.Proofs.Ending
import OptimalMatching.Proofs.Graph
import OptimalMatching.Sparse

/-! The sparse solver keeps the same scan as the dense one, over the cheapest edges of its graph. Every label of an open
column stands in the frontier, so the first current candidate is one of least label; and every column with a label has
been touched, so a reset leaves the scratch as it was before the search. -/
namespace OptimalMatching.Sparse

variable {w : Width} {n : Nat} {costs : Costs n} {most base : Int} {p : Potentials n} {m : Matching n}
  {first row : Fin n}

structure Told (p : Potentials n) (row : Fin n) (base : Int) (arcs : List (Arc n)) (old new : Labels n) (j : Fin n) :
    Prop where
  way : (new.cost[j] = old.cost[j] ∧ new.reachedFrom[j] = old.reachedFrom[j]) ∨
    ∃ cost, (j, cost) ∈ arcs ∧ new.cost[j] = some (base + cost - p.row[row] - p.col[j]) ∧
      new.reachedFrom[j] = some row ∧ ∀ y, old.cost[j] = some y → base + cost - p.row[row] - p.col[j] < y
  least : ∀ cost, (j, cost) ∈ arcs →
    ∃ x, new.cost[j] = some x ∧ x ≤ base + cost - p.row[row] - p.col[j]

namespace Told
variable {arcs : List (Arc n)} {old mid new : Labels n} {j col : Fin n} {price : Int}

theorem falls (told : Told p row base arcs old new j) {y : Int} (known : old.cost[j] = some y) :
    ∃ x, new.cost[j] = some x ∧ x ≤ y := by
  rcases told.way with ⟨same, _⟩ | ⟨cost, _, made, _, less⟩
  · exact ⟨y, by rw [same, known], Int.le_refl y⟩
  · exact ⟨_, made, Int.le_of_lt (less y known)⟩

theorem skip (told : Told p row base arcs old new j)
    (no : j = col → ∃ y, old.cost[j] = some y ∧ y ≤ base + price - p.row[row] - p.col[j]) :
    Told p row base ((col, price) :: arcs) old new j := by
  refine ⟨?_, ?_⟩
  · refine told.way.imp_right ?_
    intro ⟨cost, member, rest⟩
    exact ⟨cost, List.mem_cons_of_mem _ member, rest⟩
  · intro cost member
    rcases List.mem_cons.mp member with same | inside
    · obtain ⟨isCol, isPrice⟩ := Prod.mk.inj same
      obtain ⟨y, known, le⟩ := no isCol
      obtain ⟨x, found, fall⟩ := told.falls known
      rw [isPrice]
      exact ⟨x, found, by omega⟩
    · exact told.least cost inside

theorem other (told : Told p row base arcs mid new j) (cost : mid.cost[j] = old.cost[j])
    (from_ : mid.reachedFrom[j] = old.reachedFrom[j]) : Told p row base arcs old new j := by
  refine ⟨?_, told.least⟩
  have way := told.way
  rwa [cost, from_] at way

theorem improve (told : Told p row base arcs mid new col)
    (label : mid.cost[col] = some (base + price - p.row[row] - p.col[col]))
    (from_ : mid.reachedFrom[col] = some row)
    (better : ∀ y, old.cost[col] = some y → base + price - p.row[row] - p.col[col] < y) :
    Told p row base ((col, price) :: arcs) old new col := by
  refine ⟨.inr ?_, ?_⟩
  · rcases told.way with ⟨same, sameFrom⟩ | ⟨cost, member, made, reached, less⟩
    · exact ⟨price, List.mem_cons_self, by rw [same, label], by rw [sameFrom, from_], better⟩
    · refine ⟨cost, List.mem_cons_of_mem _ member, made, reached, ?_⟩
      intro y known
      have one := less _ label
      have two := better y known
      omega
  · intro cost member
    rcases List.mem_cons.mp member with same | inside
    · rw [(Prod.mk.inj same).2]
      exact told.falls label
    · exact told.least cost inside

theorem write (told : Told p row base arcs (old.write row col (base + price - p.row[row] - p.col[col])) new j)
    (better : ∀ y, old.cost[col] = some y → base + price - p.row[row] - p.col[col] < y) :
    Told p row base ((col, price) :: arcs) old new j := by
  by_cases same : j = col
  · subst same
    refine told.improve ?_ ?_ better
    · rw [Labels.writeCost, if_pos rfl]
    · rw [Labels.writeFrom, if_pos rfl]
  · refine (told.other ?_ ?_).skip fun isCol => absurd isCol same
    · rw [Labels.writeCost, if_neg same]
    · rw [Labels.writeFrom, if_neg same]

theorem cheapest {g : Graph w n n} (told : Told p row base (rowArcs g.edges.toList row) old new j) {cost : Int}
    (has : g.cheapest[row][j] = some cost) :
    new.cost[j] = (old.offer row j (base + cost - p.row[row] - p.col[j])).cost[j] ∧
      new.reachedFrom[j] = (old.offer row j (base + cost - p.row[row] - p.col[j])).reachedFrom[j] := by
  obtain ⟨edge, cheap⟩ := Graph.cheapestSome.mp has
  obtain ⟨x, label, le⟩ := told.least cost (memRowArcs.mpr edge)
  rcases old.offerCases row j (base + cost - p.row[row] - p.col[j]) with
    ⟨made, reached, better⟩ | ⟨same, y, known, below⟩
  · rw [made, reached]
    rcases told.way with ⟨kept, _⟩ | ⟨other, member, now, origin, _⟩
    · rw [kept] at label
      have less := better x label
      omega
    · have lower := cheap other (memRowArcs.mp member)
      rw [now] at label ⊢
      have equal := Option.some.inj label
      exact ⟨congrArg some (by omega), origin⟩
  · rw [same]
    rcases told.way with kept | ⟨other, member, _, _, less⟩
    · exact kept
    · have lower := cheap other (memRowArcs.mp member)
      have under := less y known
      omega

end Told

structure Knows (m : Matching n) (f : Frontier n) (s : Scratch n) : Prop where
  sound : f.Sound
  flags : ∀ j : Fin n, s.settled[j] = true ↔ j ∈ s.cols
  listed : ∀ (j : Fin n) x, j ∉ s.cols → s.labels.cost[j] = some x → ⟨x, (m.rowOf[j]).isSome, j⟩ ∈ f.toList
  touched : ∀ (j : Fin n) x, s.labels.cost[j] = some x → j ∈ s.touched

theorem touchRest (s : Scratch n) (col : Fin n) :
    (s.touch col).labels = s.labels ∧ (s.touch col).settled = s.settled ∧ (s.touch col).rows = s.rows ∧
      (s.touch col).cols = s.cols := by
  unfold Scratch.touch
  split <;> exact ⟨rfl, rfl, rfl, rfl⟩

theorem Knows.insert {f : Frontier n} {s : Scratch n} (knows : Knows m f s) (row col : Fin n) (cost : Int) :
    Knows m (f.insert ⟨cost, (m.rowOf[col]).isSome, col⟩) ((s.touch col).write row col cost) := by
  obtain ⟨labels, settled, _, cols⟩ := touchRest s col
  have inserted := fun x => (Frontier.toListInsert f ⟨cost, (m.rowOf[col]).isSome, col⟩).mem_iff (a := x)
  have labelAt : ∀ j : Fin n, ((s.touch col).write row col cost).labels.cost[j] =
      if j = col then some cost else s.labels.cost[j] := by
    intro j
    simp only [Scratch.write, labels, Labels.writeCost]
  refine ⟨Frontier.soundInsert knows.sound _, ?_, ?_, ?_⟩
  · simpa only [Scratch.write, settled, cols] using knows.flags
  · intro j x outside found
    simp only [Scratch.write, cols] at outside
    rw [labelAt] at found
    rw [inserted, List.mem_cons]
    split at found
    case isTrue same =>
      rw [same, Option.some.inj found]
      exact .inl rfl
    case isFalse => exact .inr (knows.listed j x outside found)
  · intro j x found
    rw [labelAt] at found
    simp only [Scratch.write, Scratch.touch]
    split at found
    case isTrue same =>
      rw [same]
      split
      case isTrue => exact List.mem_cons_self
      case isFalse labelled =>
        obtain ⟨y, known⟩ := Option.ne_none_iff_exists'.mp labelled
        exact knows.touched col y known
    case isFalse =>
      have member := knows.touched j x found
      split
      case isTrue => exact List.mem_cons_of_mem _ member
      case isFalse => exact member

theorem relaxOk {arcs : List (Arc n)} {f : Frontier n} {s : Scratch n} (knows : Knows m f s)
    (fits : ∀ j cost, (j, cost) ∈ arcs → j ∉ s.cols →
      p.reach w base cost row j = .ok (base + cost - p.row[row] - p.col[j])) :
    ∃ f' s', relax w p m base row arcs f s = .ok (f', s') ∧ Knows m f' s' ∧ s'.rows = s.rows ∧ s'.cols = s.cols ∧
      s'.settled = s.settled ∧
      (∀ j ∈ s.cols, s'.labels.cost[j] = s.labels.cost[j] ∧ s'.labels.reachedFrom[j] = s.labels.reachedFrom[j]) ∧
      ∀ j, j ∉ s.cols → Told p row base arcs s.labels s'.labels j := by
  -- The induction is on the arcs. Those to settled columns are passed over, and each of the others is one offer.
  induction arcs generalizing f s with
  | nil =>
    refine ⟨f, s, rfl, knows, rfl, rfl, rfl, fun _ _ => ⟨rfl, rfl⟩, ?_⟩
    exact fun j _ => ⟨.inl ⟨rfl, rfl⟩, nofun⟩
  | cons arc rest ih =>
    obtain ⟨col, price⟩ := arc
    have restFits : ∀ j cost, (j, cost) ∈ rest → j ∉ s.cols →
        p.reach w base cost row j = .ok (base + cost - p.row[row] - p.col[j]) :=
      fun j cost member => fits j cost (List.mem_cons_of_mem _ member)
    by_cases settled : col ∈ s.cols
    · obtain ⟨f', s', done, knows', rows, cols, flags, kept, told⟩ := ih knows restFits
      refine ⟨f', s', ?_, knows', rows, cols, flags, kept, ?_⟩
      · simp only [relax, (knows.flags col).mpr settled, if_true]
        exact done
      · intro j outside
        refine (told j outside).skip ?_
        exact fun same => absurd (same ▸ settled) outside
    · have closed : ¬ s.settled[col] = true := fun flag => settled ((knows.flags col).mp flag)
      have reached := fits col price List.mem_cons_self settled
      simp only [relax, closed, Bool.false_eq_true, if_false, reached, bind, Except.bind]
      by_cases improves : s.labels.improves col (base + price - p.row[row] - p.col[col]) = true
      · obtain ⟨labels, settledSame, rowsSame, colsSame⟩ := touchRest s col
        have made := knows.insert row col (base + price - p.row[row] - p.col[col])
        obtain ⟨f', s', done, knows', rows, cols, flags, kept, told⟩ := ih made (by
          simpa only [Scratch.write, colsSame] using restFits)
        simp only [Scratch.write, labels, settledSame, rowsSame, colsSame] at rows cols flags kept told
        refine ⟨f', s', ?_, knows', rows, cols, flags, ?_, ?_⟩
        · rw [if_pos improves]
          exact done
        · intro j member
          have other : j ≠ col := fun same => settled (same ▸ member)
          obtain ⟨label, origin⟩ := kept j member
          rw [Labels.writeCost, if_neg other] at label
          rw [Labels.writeFrom, if_neg other] at origin
          exact ⟨label, origin⟩
        · exact fun j outside => (told j outside).write (Labels.improvesIff.mp improves)
      · obtain ⟨f', s', done, knows', rows, cols, flags, kept, told⟩ := ih knows restFits
        refine ⟨f', s', ?_, knows', rows, cols, flags, kept, ?_⟩
        · rw [if_neg improves]
          exact done
        · intro j outside
          refine (told j outside).skip ?_
          intro same
          rw [Labels.improvesIff] at improves
          push Not at improves
          rw [same]
          exact improves

structure Clean (s : Scratch n) : Prop where
  labels : ∀ j : Fin n, s.labels.cost[j] = none
  settled : ∀ j : Fin n, s.settled[j] = false
  touched : s.touched = []
  rows : s.rows = []
  cols : s.cols = []

theorem cleanBlank (n : Nat) : Clean (.blank n) := by
  refine ⟨?_, ?_, rfl, rfl, rfl⟩ <;> simp [Scratch.blank, Labels.blank]

theorem clearColsAt (cols : List (Fin n)) (s : Scratch n) (j : Fin n) :
    (Scratch.clearCols cols s).labels.cost[j] = (if j ∈ cols then none else s.labels.cost[j]) ∧
      (Scratch.clearCols cols s).settled[j] = (if j ∈ cols then false else s.settled[j]) := by
  induction cols generalizing s with
  | nil => exact ⟨rfl, rfl⟩
  | cons col rest ih =>
    rw [Scratch.clearCols, (ih _).1, (ih _).2]
    by_cases same : j = col
    · simp [same]
    · have apart : ¬ col.val = j.val := fun equal => same (Fin.ext equal.symm)
      simp [same, apart]

/- Only touched columns are put back; that is enough where every label and every mark stands at one. -/
theorem resetClean {s : Scratch n} (labels : ∀ (j : Fin n) x, s.labels.cost[j] = some x → j ∈ s.touched)
    (settled : ∀ j : Fin n, s.settled[j] = true → j ∈ s.touched) : Clean s.reset := by
  refine ⟨?_, ?_, rfl, rfl, rfl⟩
  · intro j
    simp only [Scratch.reset, (clearColsAt s.touched s j).1]
    split
    case isTrue => rfl
    case isFalse outside =>
      cases found : s.labels.cost[j] with
      | none => rfl
      | some x => exact absurd (labels j x found) outside
  · intro j
    simp only [Scratch.reset, (clearColsAt s.touched s j).2]
    split
    case isTrue => rfl
    case isFalse outside =>
      cases flag : s.settled[j] with
      | false => rfl
      | true => exact absurd (settled j flag) outside

theorem Knows.clean {f : Frontier n} {s : Scratch n} (knows : Knows m f s)
    (scan : Scan costs most p m first s.labels s.rows s.cols base) : Clean s.reset := by
  refine resetClean knows.touched ?_
  intro j flag
  obtain ⟨x, found, _⟩ := scan.settled j ((knows.flags j).mp flag)
  exact knows.touched j x found

theorem isCurrentIff {s : Scratch n} {c : Candidate n} {f : Frontier n} (knows : Knows m f s) :
    s.isCurrent c = true ↔ c.col ∉ s.cols ∧ s.labels.cost[c.col] = some c.cost := by
  rw [← knows.flags]
  simp [Scratch.isCurrent]

theorem Knows.none {f : Frontier n} {s : Scratch n} (knows : Knows m f s) (empty : f.next? s.isCurrent = none)
    (j : Fin n) (outside : j ∉ s.cols) : s.labels.cost[j] = none := by
  cases found : s.labels.cost[j] with
  | none => rfl
  | some x =>
    have stale := Frontier.nextNone knows.sound empty _ (knows.listed j x outside found)
    have current := (@isCurrentIff n m s ⟨x, (m.rowOf[j]).isSome, j⟩ f knows).mpr ⟨outside, found⟩
    rw [stale] at current
    cases current

theorem Knows.least {f rest : Frontier n} {s : Scratch n} {chosen : Candidate n} (knows : Knows m f s)
    (next : f.next? s.isCurrent = some (chosen, rest)) :
    chosen.col ∉ s.cols ∧ s.labels.cost[chosen.col] = some chosen.cost ∧
      (∀ (j : Fin n) y, j ∉ s.cols → s.labels.cost[j] = some y → chosen.cost ≤ y) ∧
      Knows m rest (s.settle chosen.col) := by
  have found := Frontier.nextSome knows.sound next
  obtain ⟨fresh, label⟩ := (isCurrentIff knows).mp found.chosen
  have current : ∀ (j : Fin n) y, j ∉ s.cols → s.labels.cost[j] = some y →
      s.isCurrent ⟨y, (m.rowOf[j]).isSome, j⟩ = true :=
    fun j y outside known => (isCurrentIff knows).mpr ⟨outside, known⟩
  refine ⟨fresh, label, ?_, found.sound, ?_, ?_, knows.touched⟩
  · intro j y outside known
    have before := found.first _ (knows.listed j y outside known) (current j y outside known)
    rcases beforeIff.mp before with less | ⟨equal, _⟩
    · exact Int.le_of_lt less
    · exact Int.le_of_eq equal
  · intro j
    have flag := knows.flags j
    simp only [Scratch.settle, readVal, Vector.getElem_set, List.mem_cons, Fin.ext_iff] at flag ⊢
    split
    case isTrue same => simp [same]
    case isFalse apart =>
      rw [flag]
      refine ⟨.inr, fun way => way.resolve_left fun same => apart same.symm⟩
  · intro j y outside known
    simp only [Scratch.settle, List.mem_cons, not_or] at outside known
    rcases found.kept _ (knows.listed j y outside.2 known) (current j y outside.2 known) with same | left
    · exact absurd (congrArg Candidate.col same) outside.1
    · exact left

def Ends (costs : Costs n) (most : Int) (p : Potentials n) (m : Matching n) (first : Fin n) (s : Scratch n) :
    Except Failure (Candidate n) → Prop
  | .ok sink => Clean s.reset ∧ ∃ older, s.cols = sink.col :: older ∧
      Found costs most p m first s.labels s.rows older sink.col sink.cost
  | .error failure => Clean s ∧ failure = .infeasible first.val ∧ ∃ rows cols, Crowded costs (first.val + 1) rows cols

section Graph
variable {g : Graph w n n} {grouped : Grouped n n}

theorem Knows.relaxed (arcs : ∀ i, grouped.arcs i = rowArcs g.edges.toList i) {f : Frontier n} {s : Scratch n}
    (knows : Knows m f s)
    (fits : ∀ (j : Fin n) cost, j ∉ s.cols → ⟨row, j, cost⟩ ∈ g.edges.toList → StepFits w p base cost row j) :
    ∃ f' s', relax w p m base row (grouped.arcs row) f (s.visit row) = .ok (f', s') ∧ Knows m f' s' ∧
      s'.rows = row :: s.rows ∧ s'.cols = s.cols ∧ Offered g.cheapest p row base s.cols s.labels s'.labels := by
  have visited : Knows m f (s.visit row) := ⟨knows.sound, knows.flags, knows.listed, knows.touched⟩
  obtain ⟨f', s', done, knows', rows, cols, _, kept, told⟩ := @relaxOk w n base p m row (grouped.arcs row) f
    (s.visit row) visited (by
      intro j cost member outside
      rw [arcs, memRowArcs] at member
      exact (fits j cost outside member).reach)
  refine ⟨f', s', done, knows', rows, cols, ?_, ?_⟩
  · intro j way
    by_cases settled : j ∈ s.cols
    · exact kept j settled
    · have none := Graph.cheapestNone.mp (way.resolve_left settled)
      rcases (told j settled).way with same | ⟨cost, member, _⟩
      · exact same
      · rw [arcs, memRowArcs] at member
        exact absurd member (none cost)
  · intro j cost outside has
    have one := told j outside
    rw [arcs] at one
    exact one.cheapest has

theorem relaxOffered (arcs : ∀ i, grouped.arcs i = rowArcs g.edges.toList i) {f : Frontier n} {s : Scratch n}
    (knows : Knows m f s) (scan : Scan g.cheapest most p m first s.labels s.rows s.cols base)
    (pending : Pending m first s.labels s.rows s.cols row base) (ready : Ready g.cheapest most first.val p m)
    (edges : ∀ e ∈ g.edges.toList, 0 ≤ e.cost ∧ e.cost ≤ most) (room : most * roomFactor n ≤ w.top) :
    ∃ f' s', relax w p m base row (grouped.arcs row) f (s.visit row) = .ok (f', s') ∧ Knows m f' s' ∧
      s'.rows = row :: s.rows ∧ s'.cols = s.cols ∧ Offered g.cheapest p row base s.cols s.labels s'.labels :=
  knows.relaxed arcs fun j _ _ member => pending.fits scan ready room j (edges _ member)

theorem advanceCases {f f' : Frontier n} {s s' : Scratch n} (knows : Knows m f' s')
    (relaxed : relax w p m base row (grouped.arcs row) f (s.visit row) = .ok (f', s')) :
    (advance w grouped p m row base f s = .ok (s', none) ∧ ∀ j : Fin n, j ∉ s'.cols → s'.labels.cost[j] = none) ∨
    ∃ chosen rest, advance w grouped p m row base f s = .ok (s'.settle chosen.col, some (chosen, rest)) ∧
      chosen.col ∉ s'.cols ∧ s'.labels.cost[chosen.col] = some chosen.cost ∧
      (∀ (j : Fin n) y, j ∉ s'.cols → s'.labels.cost[j] = some y → chosen.cost ≤ y) ∧
      Knows m rest (s'.settle chosen.col) := by
  simp only [Sparse.advance, relaxed, bind, Except.bind]
  cases next : f'.next? s'.isCurrent with
  | none => exact .inl ⟨rfl, knows.none next⟩
  | some found =>
    obtain ⟨chosen, rest⟩ := found
    exact .inr ⟨chosen, rest, rfl, knows.least next⟩

structure Underway (costs : Costs n) (most : Int) (p : Potentials n) (m : Matching n) (first row : Fin n) (base : Int)
    (f : Frontier n) (s : Scratch n) : Prop where
  knows : Knows m f s
  scan : Scan costs most p m first s.labels s.rows s.cols base
  pending : Pending m first s.labels s.rows s.cols row base

theorem Clean.knows {s : Scratch n} (clean : Clean s) : Knows m .empty s := by
  refine ⟨Frontier.soundEmpty, ?_, ?_, ?_⟩
  · simp [clean.settled, clean.cols]
  · intro j x _ found
    rw [clean.labels] at found
    cases found
  · intro j x found
    rw [clean.labels] at found
    cases found

theorem underwayStart {s : Scratch n} (clean : Clean s) (waiting : m.colOf[first] = none) :
    Underway costs most p m first first 0 .empty s := by
  refine ⟨clean.knows, ?_, ?_⟩
  · rw [clean.rows, clean.cols]
    exact Scan.start clean.labels
  · rw [clean.rows, clean.cols]
    exact Pending.start _ waiting

theorem Underway.advance (arcs : ∀ i, grouped.arcs i = rowArcs g.edges.toList i) {f : Frontier n} {s : Scratch n}
    (underway : Underway g.cheapest most p m first row base f s) (ready : Ready g.cheapest most first.val p m)
    (edges : ∀ e ∈ g.edges.toList, 0 ≤ e.cost ∧ e.cost ≤ most) (room : most * roomFactor n ≤ w.top) :
    (∃ next, advance w grouped p m row base f s = .ok (next, none) ∧ Clean next.reset ∧
      ∃ rows cols, Crowded g.cheapest (first.val + 1) rows cols) ∨
    ∃ next chosen rest, advance w grouped p m row base f s = .ok (next, some (chosen, rest)) ∧
      next.cols = chosen.col :: s.cols ∧ Clean next.reset ∧
      (m.rowOf[chosen.col] = none →
        Found g.cheapest most p m first next.labels next.rows s.cols chosen.col chosen.cost) ∧
      ∀ after, m.rowOf[chosen.col] = some after → Underway g.cheapest most p m first after chosen.cost rest next := by
  obtain ⟨knows, scan, pending⟩ := underway
  have pairs := ready.certificate.pairs
  have waiting := pairs.late (Nat.le_refl first.val)
  obtain ⟨f', s', relaxed, knows', rows, cols, offered⟩ := relaxOffered arcs knows scan pending ready edges room
  have wider := scan.relax ready pending offered
  have swept := pending.swept
  rw [← rows, ← cols] at wider swept
  rcases advanceCases knows' relaxed with ⟨made, none⟩ | ⟨chosen, rest, made, fresh, label, least, after⟩
  · exact .inl ⟨s', made, knows'.clean wider, s'.rows, s'.cols, wider.crowded pairs swept none⟩
  · have settled := wider.settle fresh label least
    rw [← cols]
    refine .inr ⟨_, chosen, rest, made, rfl, after.clean settled, fun free => ⟨settled, swept, free, label⟩, ?_⟩
    intro row' partner
    exact ⟨after, settled, Pending.next wider.toSweep pairs.agree waiting swept fresh label partner⟩

theorem searchFromEnds (arcs : ∀ i, grouped.arcs i = rowArcs g.edges.toList i)
    (ready : Ready g.cheapest most first.val p m) (edges : ∀ e ∈ g.edges.toList, 0 ≤ e.cost ∧ e.cost ≤ most)
    (room : most * roomFactor n ≤ w.top) {fuel : Nat} {f : Frontier n} {s : Scratch n}
    (underway : Underway g.cheapest most p m first row base f s) (enough : fuel + s.cols.length = n) :
    Ends g.cheapest most p m first (searchFrom w grouped p m first fuel row base f s).1
      (searchFrom w grouped p m first fuel row base f s).2 := by
  induction fuel generalizing f s row base with
  | zero =>
    have few := Pending.fewRows underway.scan underway.pending ready.certificate.pairs
    have size := underway.pending.size
    omega
  | succ fuel ih =>
    rcases underway.advance arcs ready edges room with
      ⟨next, failed, clean, crowded⟩ | ⟨next, chosen, rest, made, cols, clean, free, later⟩
    · simp only [searchFrom, failed]
      exact ⟨clean, rfl, crowded⟩
    · cases partner : m.rowOf[chosen.col] with
      | none =>
        simp only [searchFrom, made, partner]
        exact ⟨clean, s.cols, cols, free partner⟩
      | some after =>
        simp only [searchFrom, made, partner]
        refine ih (later after partner) ?_
        rw [cols, List.length_cons]
        omega

theorem searchEnds (arcs : ∀ i, grouped.arcs i = rowArcs g.edges.toList i)
    (ready : Ready g.cheapest most first.val p m) (edges : ∀ e ∈ g.edges.toList, 0 ≤ e.cost ∧ e.cost ≤ most)
    (room : most * roomFactor n ≤ w.top) {s : Scratch n} (clean : Clean s) :
    Ends g.cheapest most p m first (search w grouped p m first s).1 (search w grouped p m first s).2 :=
  searchFromEnds arcs ready edges room (underwayStart clean (ready.certificate.pairs.late (Nat.le_refl _)))
    (by simp [clean.cols])

theorem commitEnds {sink : Candidate n} {t : Scratch n} {older : List (Fin n)} (settled : t.cols = sink.col :: older)
    (found : Found costs most p m first t.labels t.rows older sink.col sink.cost)
    (ready : Ready costs most first.val p m) (room : most * roomFactor n ≤ w.top) :
    ∃ next, commit w p m first sink t = .ok next ∧ next.scratch = t.reset ∧
      Augmented costs most first p m next.potentials next.matching sink.cost := by
  obtain ⟨q, new, updated, walked, augmented⟩ := found.commit ready room
  refine ⟨⟨q, new, t.reset⟩, ?_, rfl, augmented⟩
  simp only [commit, settled, updated, walked, bind, Except.bind, pure, Except.pure]

theorem commitOk {sink : Candidate n} {found : Scratch n} {next : State n} (done : commit w p m first sink found = .ok next) :
    p.update w m found.labels first sink.cost found.rows found.cols = .ok next.potentials ∧
      m.flipPath found.labels.reachedFrom first sink.col = .ok next.matching ∧ next.scratch = found.reset := by
  obtain ⟨_, updated, done⟩ := bindOk.mp done
  obtain ⟨_, walked, done⟩ := bindOk.mp done
  cases done
  exact ⟨updated, walked, rfl⟩

theorem augmentEnds (arcs : ∀ i, grouped.arcs i = rowArcs g.edges.toList i) {s : State n}
    (ready : Ready g.cheapest most first.val s.potentials s.matching)
    (edges : ∀ e ∈ g.edges.toList, 0 ≤ e.cost ∧ e.cost ≤ most) (room : most * roomFactor n ≤ w.top)
    (clean : Clean s.scratch) :
    (∃ next sink reached visited,
      augment w grouped s first = (next, .ok (.sparseReached first.val sink reached visited)) ∧
      Augmented g.cheapest most first s.potentials s.matching next.potentials next.matching reached ∧
      Clean next.scratch) ∨
    (∃ scratch, augment w grouped s first = (⟨s.potentials, s.matching, scratch⟩, .error (.infeasible first.val)) ∧
      Clean scratch ∧ ∃ rows cols, Crowded g.cheapest (first.val + 1) rows cols) := by
  obtain ⟨potentials, matching, scratch⟩ := s
  have ends := searchEnds arcs ready edges room clean
  rcases result : search w grouped potentials matching first scratch with ⟨found, failure | sink⟩
  · rw [result] at ends
    obtain ⟨cleaned, same, crowded⟩ := ends
    refine .inr ⟨found, ?_, cleaned, crowded⟩
    simp only [augment, result, same]
  · rw [result] at ends
    obtain ⟨cleaned, older, settled, ended⟩ := ends
    dsimp only at ready settled ended
    obtain ⟨next, committed, scratch, augmented⟩ := commitEnds settled ended ready room
    refine .inl ⟨next, sink.col, sink.cost, found.rows.length, ?_, augmented, by rwa [scratch]⟩
    simp only [augment, result, committed]

theorem rowsEndClean {rows : List (Fin n)} (order : rows.map Fin.val = List.range' 0 rows.length)
    (arcs : ∀ i, grouped.arcs i = rowArcs g.edges.toList i) (valid : g.Valid)
    (room : g.largest * roomFactor n ≤ w.top) (watch : Watch) (emitted : Nat) :
    ∃ l, l ≤ rows.length ∧ Clean (rowByRow watch (augment w grouped) rows emitted (.start n)).state.scratch ∧
      Advanced g.cheapest g.largest l (rowByRow watch (augment w grouped) rows emitted (.start n)).state.potentials
        (rowByRow watch (augment w grouped) rows emitted (.start n)).state.matching
        (rowByRow watch (augment w grouped) rows emitted (.start n)).events ∧
      RowsEnded watch (fun i : Fin n => ∃ rows cols, Crowded g.cheapest (i.val + 1) rows cols) emitted 0 l rows.length
        (rowByRow watch (augment w grouped) rows emitted (.start n)).result := by
  have within := Graph.cheapestWithin valid
  have nonneg := Graph.largestNonneg g
  have edges := Graph.edgesWithin valid
  obtain ⟨l, _, high, _, state, ended⟩ := @rowByRowEnds _ n watch (augment w grouped)
    (fun k s events => Advanced g.cheapest g.largest k s.potentials s.matching events ∧ Clean s.scratch)
    (fun i => ∃ rows cols, Crowded g.cheapest (i.val + 1) rows cols) (by
      intro i s events ⟨advanced, clean⟩
      rcases augmentEnds arcs (advanced.ready within nonneg) edges room clean with
        ⟨next, _, _, _, made, step, cleaned⟩ | ⟨scratch, failed, cleaned, crowded⟩
      · exact .inl ⟨next, _, made, advanced.row step rfl, cleaned⟩
      · exact .inr ⟨_, failed, ⟨advanced, cleaned⟩, crowded⟩)
    rows 0 emitted (.start n) [] order ⟨.start, cleanBlank n⟩
  rw [Nat.zero_add] at high ended
  exact ⟨l, high, state.2, state.1, ended⟩

theorem rowsEnd {rows : List (Fin n)} (order : rows.map Fin.val = List.range' 0 rows.length)
    (arcs : ∀ i, grouped.arcs i = rowArcs g.edges.toList i) (valid : g.Valid)
    (room : g.largest * roomFactor n ≤ w.top) (watch : Watch) (emitted : Nat) :
    ∃ l, l ≤ rows.length ∧
      Advanced g.cheapest g.largest l (rowByRow watch (augment w grouped) rows emitted (.start n)).state.potentials
        (rowByRow watch (augment w grouped) rows emitted (.start n)).state.matching
        (rowByRow watch (augment w grouped) rows emitted (.start n)).events ∧
      RowsEnded watch (fun i : Fin n => ∃ rows cols, Crowded g.cheapest (i.val + 1) rows cols) emitted 0 l rows.length
        (rowByRow watch (augment w grouped) rows emitted (.start n)).result := by
  obtain ⟨l, high, _, advanced, ended⟩ := rowsEndClean order arcs valid room watch emitted
  exact ⟨l, high, advanced, ended⟩

theorem solveEnds (size : n ≠ 0) (valid : g.Valid) (room : Roomy w g.largest n) (watch : Watch) (emitted : Nat) :
    ∃ s l, (solve watch emitted g).state = some s ∧
      Advanced g.cheapest g.largest l s.potentials s.matching (solve watch emitted g).events ∧
      Solved watch g.cheapest (emitted + 1) l s.matching (solve watch emitted g).result := by
  have within := Graph.cheapestWithin valid
  have nonneg := Graph.largestNonneg g
  have accepted : requireRoom w g.largest n = .ok () := (requireRoomOk nonneg).mpr room
  obtain ⟨grouped, ofGraph, arcs⟩ := Grouped.ofGraphOk g
  obtain ⟨l, _, advanced, ended⟩ := rowsEnd (finRangeOrder n) arcs valid room.product watch (emitted + 1)
  rw [List.length_finRange] at ended
  have square : solve watch emitted g = solveSquare watch emitted g := dif_pos ⟨size, rfl⟩
  rw [square]
  simp only [solveSquare, accepted, ofGraph, matchRows]
  generalize rowByRow watch (augment w grouped) (List.finRange n) (emitted + 1) (.start n) = e at advanced ended
  obtain ⟨state, events, solved⟩ := @finishSolved _ n g.cheapest e.state.matching watch (emitted + 1) l e finish
    .sparseClosed ended (by
      intro all
      have pairs := (advanced.ready within nonneg).certificate.pairs
      rw [all] at pairs
      simp only [finish, pairs.columnsOk]) rfl
  refine ⟨e.state, l, congrArg some state, advanced.told ?_, solved⟩
  rw [← events]
  rfl

theorem solveRefused (size : n ≠ 0) (tight : ¬ Roomy w g.largest n) (watch : Watch) (emitted : Nat) :
    ∃ cause, (solve watch emitted g).result = .error (.overflow cause) := by
  obtain ⟨cause, refused⟩ := requireRoomRefuses (Graph.largestNonneg g) tight
  have square : solve watch emitted g = solveSquare watch emitted g := dif_pos ⟨size, rfl⟩
  rw [square]
  exact ⟨cause, by simp only [solveSquare, refused]⟩

theorem solveStops (size : n ≠ 0) (valid : g.Valid) (watch : Watch) (emitted : Nat) :
    Stops watch (Roomy w g.largest n) (fun _ => ∃ rows cols, Crowded g.cheapest n rows cols) (Optimum g.cheapest)
      (solve watch emitted g).result := by
  by_cases room : Roomy w g.largest n
  · obtain ⟨_, _, _, advanced, solved⟩ := solveEnds size valid room watch emitted
    exact solved.stops advanced (Graph.cheapestWithin valid) (Graph.largestNonneg g)
  · obtain ⟨cause, refused⟩ := solveRefused size room watch emitted
    rw [refused]
    exact room

end Graph

end OptimalMatching.Sparse
