import OptimalMatching.Proofs.Nearest

/-! How a row lengthens the matching. The labels keep what earlier searches have written, but the walk back comes only to
columns that this search has settled, each of them once, and it ends at the row where the search began. -/
namespace OptimalMatching

variable {w : Width} {n : Nat}

structure Lengthened (priced : Fin n → Fin n → Int → Prop) (reachedFrom : Vector (Option (Fin n)) n) (first sink : Fin n)
    (settled : List (Fin n)) (old new : Matching n) : Prop where
  flipped : old.flipPath reachedFrom first sink = .ok new
  walk : ∃ path, WalksBack reachedFrom first sink old path new ∧ path.Nodup ∧ ∀ j ∈ path, j ∈ settled
  inverse : ∀ i j : Fin n, new.colOf[i] = some j ↔ new.rowOf[j] = some i
  rows : ∀ i : Fin n, (∃ j, new.colOf[i] = some j) ↔ i.val ≤ first.val
  fresh : old.rowOf[sink] = none
  cols : ∀ j : Fin n, (∃ i, new.rowOf[j] = some i) ↔ (∃ i, old.rowOf[j] = some i) ∨ j = sink
  cells : ∀ i j : Fin n, new.colOf[i] = some j → ∃ cost, priced i j cost

theorem Found.lengthened {costs : Costs n} {most reached : Int} {p q : Potentials n} {m new : Matching n}
    {first sink : Fin n} {labels : Labels n} {rows older : List (Fin n)} {priced : Fin n → Fin n → Int → Prop}
    (found : Found costs most p m first labels rows older sink reached) (ready : Ready costs most first.val p m)
    (after : Ready costs most (first.val + 1) q new) (done : m.flipPath labels.reachedFrom first sink = .ok new)
    (prices : LeastPrices costs priced) : Lengthened priced labels.reachedFrom first sink (sink :: older) m new := by
  have trail := found.scan.trail
  obtain ⟨path, made, walked, walks, within, flipped, pairs⟩ := flipPathOk ready.certificate.pairs found.free trail
  rw [walked] at done
  obtain rfl := Except.ok.inj done
  refine ⟨walked, ⟨path, walks, within.nodup trail.nodup, fun j member => within.subset member⟩, flipped.agree, ?_,
    found.free, ?_, ?_⟩
  · intro i
    rw [pairs.rows, Nat.lt_succ_iff]
  · intro j
    have gain := flipped.colGain j
    rw [← Option.ne_none_iff_exists', ← Option.ne_none_iff_exists', Ne, gain, not_and_or, not_not]
  · intro i j matched
    obtain ⟨cost, has, _⟩ := after.certificate.tight i j matched
    exact ⟨cost, prices.taken i j cost has⟩

namespace Dense

inductive Lengthens (w : Width) (costs : Costs n) (s : State n) (first : Fin n) : Prop
  | stuck {left : State n} (result : augment w costs s first = (left, .error (.infeasible first.val)))
      (kept : left.matching = s.matching)
  | matched {sink : Choice n} {found : Search n} {next : State n}
      (searched : search w costs s.potentials s.matching s.labels first = .ok (sink, found))
      (result : augment w costs s first = (next, .ok (.denseReached first.val sink.col sink.cost)))
      (lengthened : Lengthened costs.Priced found.labels.reachedFrom first sink.col found.cols s.matching next.matching)

theorem lengthens {costs : Costs n} {most : Int} {s : State n} {first : Fin n}
    (ready : Ready costs most first.val s.potentials s.matching) (room : most * roomFactor n ≤ w.top) :
    Lengthens w costs s first := by
  have ends := @searchEnds w n costs most s.potentials s.matching first s.labels ready room
  cases searched : search w costs s.potentials s.matching s.labels first with
  | error failure =>
    rw [searched] at ends
    obtain ⟨rfl, _⟩ := ends
    exact .stuck (by simp only [augment, searched]) rfl
  | ok out =>
    obtain ⟨sink, found⟩ := out
    rw [searched] at ends
    obtain ⟨older, settled, isFound⟩ := ends
    obtain ⟨next, committed, augmented⟩ := commitEnds settled isFound ready room
    have result : augment w costs s first = (next, .ok (.denseReached first.val sink.col sink.cost)) := by
      simp only [augment, searched, committed]
    refine .matched searched result ?_
    rw [settled]
    exact isFound.lengthened ready augmented.ready (commitOk committed).2.1 costs.leastPrices

end Dense

namespace Sparse

inductive Lengthens (g : Graph w n n) (grouped : Grouped n n) (s : State n) (first : Fin n) : Prop
  | stuck {left : State n} (result : augment w grouped s first = (left, .error (.infeasible first.val)))
      (kept : left.matching = s.matching)
  | matched {sink : Candidate n} {found : Scratch n} {next : State n}
      (searched : search w grouped s.potentials s.matching first s.scratch = (found, .ok sink))
      (result : augment w grouped s first = (next, .ok (.sparseReached first.val sink.col sink.cost found.rows.length)))
      (lengthened : Lengthened g.Priced found.labels.reachedFrom first sink.col found.cols s.matching next.matching)

theorem lengthens {g : Graph w n n} {grouped : Grouped n n} (arcs : ∀ i, grouped.arcs i = rowArcs g.edges.toList i)
    {most : Int} {s : State n} {first : Fin n} (ready : Ready g.cheapest most first.val s.potentials s.matching)
    (edges : ∀ e ∈ g.edges.toList, 0 ≤ e.cost ∧ e.cost ≤ most) (room : most * roomFactor n ≤ w.top)
    (clean : Clean s.scratch) : Lengthens g grouped s first := by
  obtain ⟨p, m, scratch⟩ := s
  have ends := searchEnds arcs ready edges room clean
  rcases searched : search w grouped p m first scratch with ⟨found, failure | sink⟩
  · rw [searched] at ends
    obtain ⟨_, rfl, _⟩ := ends
    have result : augment w grouped ⟨p, m, scratch⟩ first = (⟨p, m, found⟩, .error (.infeasible first.val)) := by
      simp only [augment, searched]
    exact .stuck result rfl
  · rw [searched] at ends
    obtain ⟨_, older, settled, isFound⟩ := ends
    dsimp only at ready settled isFound
    obtain ⟨next, committed, _, augmented⟩ := commitEnds settled isFound ready room
    have result : augment w grouped ⟨p, m, scratch⟩ first =
        (next, .ok (.sparseReached first.val sink.col sink.cost found.rows.length)) := by
      simp only [augment, searched, committed]
    refine .matched searched result ?_
    rw [settled]
    exact isFound.lengthened ready augmented.ready (commitOk committed).2.1 g.leastPrices

end Sparse

theorem pathsFlipped :
    (∀ table : Square w n, table.toTable.Valid → requireRoom w table.largest n = .ok () →
      ∀ watch emitted (first : Fin n) s events,
        rowByRow watch (Dense.augment w table.costs) ((List.finRange n).take first.val) emitted (.start n) =
          ⟨s, events, .ok ()⟩ →
        Dense.Lengthens w table.costs s first) ∧
    ∀ (g : Graph w n n) grouped, g.Valid → requireRoom w g.largest n = .ok () → Grouped.ofGraph g = .ok grouped →
      ∀ watch emitted (first : Fin n) s events,
        rowByRow watch (Sparse.augment w grouped) ((List.finRange n).take first.val) emitted (.start n) =
          ⟨s, events, .ok ()⟩ →
        Sparse.Lengthens g grouped s first := by
  refine ⟨?_, ?_⟩
  · intro table valid accepted watch emitted first s events run
    have room := (requireRoomOk (Table.largestNonneg table.toTable)).mp accepted
    exact Dense.lengthens (Dense.runReady valid room run) room.product
  · intro g grouped valid accepted made watch emitted first s events run
    have room := (requireRoomOk (Graph.largestNonneg g)).mp accepted
    have arcs := Grouped.arcsOfGraph made
    obtain ⟨ready, clean⟩ := Sparse.runReady arcs valid room run
    exact Sparse.lengthens arcs ready (Graph.edgesWithin valid) room.product clean

def reroutedRows : Square byteWidth 2 := .whole #v[#v[1, 3], #v[1, 9]]

theorem reroutedRowsValid : reroutedRows.toTable.Valid := Table.validOfValues (by decide) (by decide) (by decide)

theorem pathsFlippedRerouted :
    (∃ s events, rowByRow .never (Dense.augment byteWidth reroutedRows.costs) ((List.finRange 2).take 1) 0 (.start 2) =
        ⟨s, events, .ok ()⟩ ∧
      s.matching.colOf = #v[some 0, none] ∧ Dense.Lengthens byteWidth reroutedRows.costs s 1 ∧
      (Dense.augment byteWidth reroutedRows.costs s 1).1.matching.colOf = #v[some 1, some 0]) ∧
    ∃ grouped s events, Grouped.ofGraph (Graph.ofSquare reroutedRows) = .ok grouped ∧
      rowByRow .never (Sparse.augment byteWidth grouped) ((List.finRange 2).take 1) 0 (.start 2) = ⟨s, events, .ok ()⟩ ∧
      s.matching.colOf = #v[some 0, none] ∧ Sparse.Lengthens (Graph.ofSquare reroutedRows) grouped s 1 ∧
      (Sparse.augment byteWidth grouped s 1).1.matching.colOf = #v[some 1, some 0] := by
  obtain ⟨dense, sparse⟩ := @pathsFlipped byteWidth 2
  refine ⟨⟨_, _, rfl, rfl, dense reroutedRows reroutedRowsValid (by decide) .never 0 1 _ _ rfl, rfl⟩, ?_⟩
  have lengthens := sparse (Graph.ofSquare reroutedRows) _ (Graph.validOfSquare reroutedRowsValid) (by decide) rfl .never 0 1
    _ _ rfl
  exact ⟨_, _, _, rfl, rfl, rfl, lengthens, rfl⟩

end OptimalMatching
