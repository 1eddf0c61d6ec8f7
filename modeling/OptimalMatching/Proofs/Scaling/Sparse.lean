import OptimalMatching.Proofs.Frontier
import OptimalMatching.Proofs.Scaling.Lines

/-! The sparse solver on two graphs whose cheapest edges are scaled. The frontiers of the two searches may differ in what
they hold of dearer edges and in the order they hold it in. What stands first among the current candidates does not
depend on that: it is the one that comes before every label of an open column. -/
namespace OptimalMatching.Sparse

variable {w : Width} {n : Nat} {z : Scale n} {most most' base base' : Int} {p p' : Potentials n} {m : Matching n}
  {first row : Fin n} {f f' rest rest' : Frontier n} {s s' : Scratch n}

def Candidate.scale (z : Scale n) (first : Fin n) (c : Candidate n) : Candidate n :=
  { c with cost := z.cost first c.cost }

theorem beforeScaled {a b : Candidate n} : (a.scale z first).before (b.scale z first) = a.before b := by
  rw [Bool.eq_iff_iff, beforeIff, beforeIff]
  simp only [Candidate.scale, Scale.costLt, Scale.costInj]

theorem nextScaled (knows : Knows m f s) (knows' : Knows m f' s') (flagged : Flagged m f) (flagged' : Flagged m f')
    (labels : ScaledLabels z first s.labels s'.labels) (cols : s'.cols = s.cols) :
    (f.next? s.isCurrent = none ∧ f'.next? s'.isCurrent = none) ∨
    ∃ chosen rest rest', f.next? s.isCurrent = some (chosen, rest) ∧
      f'.next? s'.isCurrent = some (chosen.scale z first, rest') ∧ Flagged m rest ∧ Flagged m rest' := by
  cases next : f.next? s.isCurrent with
  | none =>
    cases next' : f'.next? s'.isCurrent with
    | none => exact .inl ⟨rfl, rfl⟩
    | some found' =>
      obtain ⟨fresh', label', _, _⟩ := knows'.least next'
      rw [cols] at fresh'
      rw [labels.cost, knows.none next _ fresh'] at label'
      cases label'
  | some found =>
    obtain ⟨chosen, rest⟩ := found
    obtain ⟨fresh, label, _, _⟩ := knows.least next
    have scaledLabel := labels.cost chosen.col
    rw [label, Option.map_some] at scaledLabel
    rw [← cols] at fresh
    cases next' : f'.next? s'.isCurrent with
    | none =>
      rw [knows'.none next' _ fresh] at scaledLabel
      cases scaledLabel
    | some found' =>
      obtain ⟨chosen', rest'⟩ := found'
      obtain ⟨fresh', label', _, _⟩ := knows'.least next'
      obtain ⟨taken, flags, before⟩ := knows.earliest flagged next
      obtain ⟨taken', flags', before'⟩ := knows'.earliest flagged' next'
      obtain ⟨x, known, same⟩ := Option.map_eq_some_iff.mp ((labels.cost chosen'.col).symm.trans label')
      have one := before chosen'.col x (cols ▸ fresh') known
      have two := before' chosen.col _ fresh scaledLabel
      rw [← taken'] at one
      rw [← taken] at two
      have isScaled : chosen' = Candidate.scale z first ⟨x, chosen'.taken, chosen'.col⟩ := by
        rw [Candidate.scale, same]
      have two : (Candidate.scale z first ⟨x, chosen'.taken, chosen'.col⟩).before (chosen.scale z first) = true := by
        rw [← isScaled]
        exact two
      rw [beforeScaled] at two
      rw [← beforeAntisymm one two] at isScaled
      exact .inr ⟨chosen, rest, rest', rfl, by rw [isScaled], flags, flags'⟩

theorem clearColsFrom (cols : List (Fin n)) (s : Scratch n) :
    (Scratch.clearCols cols s).labels.reachedFrom = s.labels.reachedFrom := by
  induction cols generalizing s with
  | nil => rfl
  | cons col rest ih => rw [Scratch.clearCols, ih]

theorem resetFrom (s : Scratch n) : s.reset.labels.reachedFrom = s.labels.reachedFrom := by
  simp only [Scratch.reset, clearColsFrom]

structure ScaledScratch (z : Scale n) (first : Fin n) (s s' : Scratch n) : Prop where
  labels : ScaledLabels z first s.labels s'.labels
  rows : s'.rows = s.rows
  cols : s'.cols = s.cols

namespace ScaledScratch

theorem start (clean : Clean s) (clean' : Clean s') (origins : s'.labels.reachedFrom = s.labels.reachedFrom) :
    ScaledScratch z first s s' := by
  refine ⟨⟨?_, fun j => by rw [origins]⟩, ?_, ?_⟩
  · intro j
    rw [clean.labels, clean'.labels, Option.map_none]
  · rw [clean.rows, clean'.rows]
  · rw [clean.cols, clean'.cols]

theorem origins (scratch : ScaledScratch z first s s') : s'.labels.reachedFrom = s.labels.reachedFrom :=
  Vector.ext fun j inside => scratch.labels.origin ⟨j, inside⟩

theorem settle (scratch : ScaledScratch z first s s') (col : Fin n) :
    ScaledScratch z first (s.settle col) (s'.settle col) := by
  refine ⟨scratch.labels, scratch.rows, ?_⟩
  simp only [Scratch.settle, scratch.cols]

end ScaledScratch

section Search
variable {g g' : Graph w n n} {grouped grouped' : Grouped n n}
  (arcs : ∀ i, grouped.arcs i = rowArcs g.edges.toList i)
  (arcs' : ∀ i, grouped'.arcs i = rowArcs g'.edges.toList i)
  (scaled : ScaledCosts z g.cheapest g'.cheapest)
  (edges : ∀ e ∈ g.edges.toList, 0 ≤ e.cost ∧ e.cost ≤ most)
  (edges' : ∀ e ∈ g'.edges.toList, 0 ≤ e.cost ∧ e.cost ≤ most')
  (room : most * roomFactor n ≤ w.top) (room' : most' * roomFactor n ≤ w.top)
include arcs arcs' scaled edges edges' room room'

theorem advanceScaled (potentials : ScaledPotentials z first.val p p')
    (ready : Ready g.cheapest most first.val p m) (ready' : Ready g'.cheapest most' first.val p' m)
    (scratch : ScaledScratch z first s s') (flagged : Flagged m f) (flagged' : Flagged m f')
    (underway : Underway g.cheapest most p m first row base f s)
    (underway' : Underway g'.cheapest most' p' m first row base' f' s')
    (entry : ScaledEntry z first p p' row base base') :
    ∃ next next', ScaledScratch z first next next' ∧
      ((advance w grouped p m row base f s = .ok (next, none) ∧
        advance w grouped' p' m row base' f' s' = .ok (next', none)) ∨
      ∃ chosen rest rest', advance w grouped p m row base f s = .ok (next, some (chosen, rest)) ∧
        advance w grouped' p' m row base' f' s' = .ok (next', some (chosen.scale z first, rest')) ∧
        Flagged m rest ∧ Flagged m rest') := by
  obtain ⟨mid, t, relaxed, knows, rows, cols, offered⟩ :=
    relaxOffered arcs underway.knows underway.scan underway.pending ready edges room
  obtain ⟨mid', t', relaxed', knows', rows', cols', offered'⟩ :=
    relaxOffered arcs' underway'.knows underway'.scan underway'.pending ready' edges' room'
  rw [scratch.cols] at offered'
  have wider : ScaledScratch z first t t' := by
    refine ⟨scratch.labels.offered scaled potentials entry offered offered', ?_, ?_⟩
    · rw [rows, rows', scratch.rows]
    · rw [cols, cols', scratch.cols]
  simp only [advance, relaxed, relaxed', bind, Except.bind]
  rcases nextScaled knows knows' (flagged.relax relaxed) (flagged'.relax relaxed') wider.labels wider.cols with
    ⟨next, next'⟩ | ⟨chosen, rest, rest', next, next', flags, flags'⟩
  · simp only [next, next']
    exact ⟨t, t', wider, .inl ⟨rfl, rfl⟩⟩
  · simp only [next, next']
    exact ⟨_, _, wider.settle chosen.col, .inr ⟨chosen, rest, rest', rfl, rfl, flags, flags'⟩⟩

theorem searchFromScaled (potentials : ScaledPotentials z first.val p p')
    (ready : Ready g.cheapest most first.val p m) (ready' : Ready g'.cheapest most' first.val p' m) {fuel : Nat}
    (scratch : ScaledScratch z first s s') (flagged : Flagged m f) (flagged' : Flagged m f')
    (underway : Underway g.cheapest most p m first row base f s)
    (underway' : Underway g'.cheapest most' p' m first row base' f' s')
    (entry : ScaledEntry z first p p' row base base') :
    (∃ left left' failure, searchFrom w grouped p m first fuel row base f s = (left, .error failure) ∧
      searchFrom w grouped' p' m first fuel row base' f' s' = (left', .error failure) ∧
      left'.labels.reachedFrom = left.labels.reachedFrom) ∨
    ∃ found found' sink, searchFrom w grouped p m first fuel row base f s = (found, .ok sink) ∧
      searchFrom w grouped' p' m first fuel row base' f' s' = (found', .ok (sink.scale z first)) ∧
      ScaledScratch z first found found' := by
  induction fuel generalizing row base base' f f' s s' with
  | zero =>
    refine .inl ⟨s.reset, s'.reset, .infeasible first.val, rfl, rfl, ?_⟩
    rw [resetFrom, resetFrom, scratch.origins]
  | succ fuel ih =>
    obtain ⟨next, next', later, ⟨stuck, stuck'⟩ | ⟨chosen, rest, rest', made, made', flags, flags'⟩⟩ :=
      advanceScaled arcs arcs' scaled edges edges' room room' potentials ready ready' scratch flagged flagged'
        underway underway' entry
    · simp only [searchFrom, stuck, stuck']
      refine .inl ⟨_, _, _, rfl, rfl, ?_⟩
      rw [resetFrom, resetFrom, later.origins]
    · simp only [searchFrom, made, made', Candidate.scale]
      cases partner : m.rowOf[chosen.col] with
      | none => exact .inr ⟨next, next', chosen, rfl, rfl, later⟩
      | some after =>
        obtain ⟨_, stuck, _⟩ | ⟨_, _, _, step, _, _, _, goOn⟩ := underway.advance arcs ready edges room
        · rw [made] at stuck
          cases stuck
        obtain ⟨_, stuck, _⟩ | ⟨_, _, _, step', _, _, _, goOn'⟩ := underway'.advance arcs' ready' edges' room'
        · rw [made'] at stuck
          cases stuck
        rw [made] at step
        rw [made'] at step'
        cases step
        cases step'
        have early := ready.certificate.pairs.early ((ready.certificate.pairs.agree after chosen.col).mpr partner)
        exact ih later flags flags' (goOn after partner) (goOn' after partner) (potentials.enter early)

end Search

structure Alike (z : Scale n) (costs costs' : Costs n) (most most' : Int) (k : Nat) (s s' : State n) : Prop where
  matching : s'.matching = s.matching
  origins : s'.scratch.labels.reachedFrom = s.scratch.labels.reachedFrom
  potentials : ScaledPotentials z k s.potentials s'.potentials
  ready : Ready costs most k s.potentials s.matching
  ready' : Ready costs' most' k s'.potentials s.matching
  clean : Clean s.scratch
  clean' : Clean s'.scratch

section Rows
variable {g g' : Graph w n n} {grouped grouped' : Grouped n n}
  (arcs : ∀ i, grouped.arcs i = rowArcs g.edges.toList i)
  (arcs' : ∀ i, grouped'.arcs i = rowArcs g'.edges.toList i)
  (scaled : ScaledCosts z g.cheapest g'.cheapest)
  (valid : g.Valid) (valid' : g'.Valid)
  (room : g.largest * roomFactor n ≤ w.top) (room' : g'.largest * roomFactor n ≤ w.top)
include arcs arcs' scaled valid valid' room room'

theorem Alike.augment {s s' : State n} (alike : Alike z g.cheapest g'.cheapest g.largest g'.largest first.val s s') :
    (∃ next next' event event', Sparse.augment w grouped s first = (next, .ok event) ∧
      Sparse.augment w grouped' s' first = (next', .ok event') ∧
      Alike z g.cheapest g'.cheapest g.largest g'.largest (first.val + 1) next next' ∧ ScaledReport z event event') ∨
    (∃ next next' failure, Sparse.augment w grouped s first = (next, .error failure) ∧
      Sparse.augment w grouped' s' first = (next', .error failure) ∧
      Alike z g.cheapest g'.cheapest g.largest g'.largest first.val next next') := by
  obtain ⟨p, m, t⟩ := s
  obtain ⟨p', m', t'⟩ := s'
  obtain ⟨sameMatching, origins, potentials, ready, ready', clean, clean'⟩ := alike
  dsimp only at sameMatching origins potentials ready ready' clean clean'
  subst sameMatching
  have waiting := ready.certificate.pairs.late (Nat.le_refl first.val)
  have edges := Graph.edgesWithin valid
  have edges' := Graph.edgesWithin valid'
  have ends := searchEnds arcs ready edges room clean
  have ends' := searchEnds arcs' ready' edges' room' clean'
  have searches := @searchFromScaled w n z g.largest g'.largest 0 0 p p' m' first first _ _ _ _ g g' grouped grouped'
    arcs arcs' scaled edges edges' room room' potentials ready ready' n (.start clean clean' origins) flaggedEmpty
    flaggedEmpty (underwayStart clean waiting) (underwayStart clean' waiting) potentials.enterFirst
  rcases searches with ⟨left, left', failure, failed, failed', same⟩ | ⟨found, found', sink, made, made', scratch⟩
  · have failed : search w grouped p m' first t = (left, .error failure) := failed
    have failed' : search w grouped' p' m' first t' = (left', .error failure) := failed'
    rw [failed] at ends
    rw [failed'] at ends'
    refine .inr ⟨⟨p, m', left⟩, ⟨p', m', left'⟩, failure, ?_, ?_,
      ⟨rfl, same, potentials, ready, ready', ends.1, ends'.1⟩⟩
    · simp only [Sparse.augment, failed]
    · simp only [Sparse.augment, failed']
  · have made : search w grouped p m' first t = (found, .ok sink) := made
    have made' : search w grouped' p' m' first t' = (found', .ok (sink.scale z first)) := made'
    rw [made] at ends
    rw [made'] at ends'
    obtain ⟨cleaned, older, settled, ended⟩ := ends
    obtain ⟨cleaned', older', settled', ended'⟩ := ends'
    dsimp only at cleaned settled ended cleaned' settled' ended'
    have cols := scratch.cols
    rw [settled, settled', List.cons.injEq] at cols
    obtain ⟨-, same⟩ := cols
    subst same
    rw [scratch.rows] at ended'
    obtain ⟨q, q', new, updated, updated', walked, walked', moved, after, after'⟩ :=
      scaledCommit scratch.labels potentials ended ended' ready ready' room room'
    refine .inl ⟨⟨q, new, found.reset⟩, ⟨q', new, found'.reset⟩, _, _, ?_, ?_,
      ⟨rfl, ?_, moved, after, after', cleaned, cleaned'⟩, .sparse first sink.col sink.cost found.rows.length⟩
    · simp only [Sparse.augment, made, commit, settled, updated, walked, bind, Except.bind, pure, Except.pure]
    · have updated' : p'.update w m' found'.labels first (sink.scale z first).cost found.rows found'.cols = .ok q' := by
        rw [scratch.cols, settled]
        exact updated'
      have walked' : m'.flipPath found'.labels.reachedFrom first (sink.scale z first).col = .ok new := walked'
      simp only [Sparse.augment, made', commit, updated', walked', bind, Except.bind, pure, Except.pure, scratch.rows]
      rfl
    · rw [resetFrom, resetFrom, scratch.origins]

theorem rowsAlike (watch : Watch) (emitted : Nat) :
    (matchRows w watch emitted grouped').result = (matchRows w watch emitted grouped).result ∧
      List.Forall₂ (ScaledReport z) (matchRows w watch emitted grouped).events
        (matchRows w watch emitted grouped').events ∧
      ∃ l, Alike z g.cheapest g'.cheapest g.largest g'.largest l (matchRows w watch emitted grouped).state
        (matchRows w watch emitted grouped').state ∧
        ((matchRows w watch emitted grouped).result = .ok () → l = n) := by
  have start : Alike z g.cheapest g'.cheapest g.largest g'.largest 0 (.start n) (.start n) :=
    ⟨rfl, rfl, .zero z, Advanced.start.ready (Graph.cheapestWithin valid) (Graph.largestNonneg g),
      Advanced.start.ready (Graph.cheapestWithin valid') (Graph.largestNonneg g'), cleanBlank n, cleanBlank n⟩
  obtain ⟨result, events, l, alike, all⟩ := @rowByRowAlike _ n _ watch (augment w grouped) (augment w grouped')
    (Alike z g.cheapest g'.cheapest g.largest g'.largest) (ScaledReport z)
    (fun i s s' alike => alike.augment arcs arcs' scaled valid valid' room room') (List.finRange n) 0 emitted
    (.start n) (.start n) (finRangeOrder n) start
  rw [List.length_finRange, Nat.zero_add] at all
  exact ⟨result, events, l, alike, all⟩

end Rows

theorem solveAlike {g g' : Graph w n n} (scaled : ScaledCosts z g.cheapest g'.cheapest) (valid : g.Valid)
    (valid' : g'.Valid) (room : Roomy w g.largest n) (room' : Roomy w g'.largest n) (watch : Watch) (emitted : Nat) :
    (solveSquare watch emitted g').result = (solveSquare watch emitted g).result ∧
      (∃ told told' closing, List.Forall₂ (ScaledReport z) told told' ∧
        (solveSquare watch emitted g).events = .sparseOpened n g.size :: told ++ closing ∧
        (solveSquare watch emitted g').events = .sparseOpened n g'.size :: told' ++ closing) ∧
      ∃ s s' l, (solveSquare watch emitted g).state = some s ∧ (solveSquare watch emitted g').state = some s' ∧
        ScaledPotentials z l s.potentials s'.potentials ∧
        ∀ columns, (solveSquare watch emitted g).result = .ok columns → l = n := by
  have accepted : requireRoom w g.largest n = .ok () := (requireRoomOk (Graph.largestNonneg g)).mpr room
  have accepted' : requireRoom w g'.largest n = .ok () := (requireRoomOk (Graph.largestNonneg g')).mpr room'
  obtain ⟨grouped, made, arcs⟩ := Grouped.ofGraphOk g
  obtain ⟨grouped', made', arcs'⟩ := Grouped.ofGraphOk g'
  obtain ⟨result, events, l, alike, all⟩ := rowsAlike arcs arcs' scaled valid valid' room.product room'.product watch
    (emitted + 1)
  simp only [solveSquare, accepted, accepted', made, made']
  generalize matchRows w watch (emitted + 1) grouped = e at result events alike all
  generalize matchRows w watch (emitted + 1) grouped' = e' at result events alike
  cases ended : e.result with
  | error failure =>
    rw [ended] at result
    simp only [Ended.andThen, ended, result]
    refine ⟨trivial, ⟨e.events, e'.events, [], events, ?_, ?_⟩, _, _, l, rfl, rfl, alike.potentials, by rintro _ ⟨⟩⟩
    · simp
    · simp
  | ok done =>
    rw [ended] at result
    simp only [Ended.andThen, ended, result, Ended.after, finish, alike.matching]
    exact ⟨trivial, ⟨e.events, e'.events, [.sparseClosed], events, rfl, rfl⟩, _, _, l, rfl, rfl, alike.potentials,
      fun _ _ => all ended⟩

end OptimalMatching.Sparse
