import OptimalMatching.Proofs.Range

/-! What the sparse search keeps on record beside its labels. Each candidate in the frontier tells whether its column has a
row, so the first current one is the earliest of all that are current. Each column with a label has been touched once. Both
hold of any search, whatever its numbers. -/
namespace OptimalMatching.Sparse

variable {w : Width} {n : Nat} {p : Potentials n} {m : Matching n} {row : Fin n} {base : Int} {f f' rest : Frontier n}
  {s s' next : Scratch n}

theorem beforeAntisymm {a b : Candidate n} (ab : a.before b = true) (ba : b.before a = true) : a = b := by
  obtain ⟨cost, taken, col⟩ := a
  obtain ⟨cost', taken', col'⟩ := b
  rw [beforeIff] at ab ba
  simp only at ab ba
  rcases ab with less | ⟨equal, way⟩
  · omega
  · rcases ba with less | ⟨_, back⟩
    · omega
    · have flags : taken = taken' := by
        cases taken <;> cases taken' <;> simp_all
      have cols : col = col' := by
        subst flags
        refine Fin.ext ?_
        cases taken <;> simp_all <;> omega
      rw [equal, flags, cols]

def Flagged (m : Matching n) (f : Frontier n) : Prop := ∀ c ∈ f.toList, c.taken = (m.rowOf[c.col]).isSome

theorem flaggedEmpty : Flagged m .empty := by
  intro c member
  simp [Frontier.toList, Frontier.empty, heapList] at member

theorem Flagged.insert (flagged : Flagged m f) (col : Fin n) (cost : Int) :
    Flagged m (f.insert ⟨cost, (m.rowOf[col]).isSome, col⟩) := by
  intro c member
  rcases List.mem_cons.mp ((Frontier.toListInsert f _).mem_iff.mp member) with new | old
  · rw [new]
  · exact flagged c old

theorem Flagged.relax {arcs : List (Arc n)} (flagged : Flagged m f)
    (done : Sparse.relax w p m base row arcs f s = .ok (f', s')) : Flagged m f' := by
  induction arcs generalizing f s with
  | nil =>
    cases done
    exact flagged
  | cons arc rest ih =>
    obtain ⟨col, price⟩ := arc
    simp only [Sparse.relax] at done
    split at done
    · exact ih flagged done
    · obtain ⟨cost, _, done⟩ := bindOk.mp done
      split at done
      · exact ih (flagged.insert col cost) done
      · exact ih flagged done

/- The chosen candidate comes before what any label of an open column would make. -/
theorem Knows.earliest {chosen : Candidate n} (knows : Knows m f s) (flagged : Flagged m f)
    (next : f.next? s.isCurrent = some (chosen, rest)) :
    chosen.taken = (m.rowOf[chosen.col]).isSome ∧ Flagged m rest ∧
      ∀ (j : Fin n) x, j ∉ s.cols → s.labels.cost[j] = some x →
        chosen.before ⟨x, (m.rowOf[j]).isSome, j⟩ = true := by
  have found := Frontier.nextSome knows.sound next
  refine ⟨flagged chosen found.member, fun c member => flagged c (found.fewer c member), ?_⟩
  intro j x outside label
  exact found.first _ (knows.listed j x outside label) ((isCurrentIff knows).mpr ⟨outside, label⟩)

structure Recorded (s : Scratch n) : Prop where
  once : s.touched.Nodup
  labelled : ∀ j : Fin n, j ∈ s.touched ↔ ∃ x, s.labels.cost[j] = some x
  settled : ∀ j ∈ s.cols, j ∈ s.touched

namespace Recorded

theorem start (clean : Clean s) : Recorded s := by
  refine ⟨?_, ?_, ?_⟩
  · rw [clean.touched]
    exact List.nodup_nil
  · intro j
    simp [clean.touched, clean.labels]
  · simp [clean.cols]

theorem write (recorded : Recorded s) (row col : Fin n) (cost : Int) : Recorded ((s.touch col).write row col cost) := by
  obtain ⟨labels, _, _, cols⟩ := touchRest s col
  have on : ∀ j, j ∈ (s.touch col).touched ↔ j = col ∨ j ∈ s.touched := by
    intro j
    unfold Scratch.touch
    split
    case isTrue => exact List.mem_cons
    case isFalse labelled =>
      have there : col ∈ s.touched := (recorded.labelled col).mpr (Option.ne_none_iff_exists'.mp labelled)
      exact ⟨.inr, fun way => way.elim (fun same => same ▸ there) id⟩
  refine ⟨?_, ?_, ?_⟩
  · change (s.touch col).touched.Nodup
    unfold Scratch.touch
    split
    case isTrue blank =>
      refine List.nodup_cons.mpr ⟨?_, recorded.once⟩
      intro there
      obtain ⟨x, label⟩ := (recorded.labelled col).mp there
      rw [blank] at label
      cases label
    case isFalse => exact recorded.once
  · intro j
    change j ∈ (s.touch col).touched ↔ _
    rw [on]
    simp only [Scratch.write, labels, Labels.writeCost]
    by_cases same : j = col
    · simp [same]
    · rw [if_neg same, ← recorded.labelled j]
      simp only [same, false_or]
  · intro j inside
    change j ∈ (s.touch col).cols at inside
    rw [cols] at inside
    exact (on j).mpr (.inr (recorded.settled j inside))

end Recorded

structure Kept (m : Matching n) (f : Frontier n) (s : Scratch n) : Prop where
  knows : Knows m f s
  flagged : Flagged m f
  recorded : Recorded s

namespace Kept

theorem start (clean : Clean s) : Kept m .empty s := ⟨clean.knows, flaggedEmpty, .start clean⟩

theorem visit (kept : Kept m f s) (row : Fin n) : Kept m f (s.visit row) := by
  obtain ⟨knows, flagged, recorded⟩ := kept
  exact ⟨⟨knows.sound, knows.flags, knows.listed, knows.touched⟩, flagged,
    ⟨recorded.once, recorded.labelled, recorded.settled⟩⟩

theorem relax {arcs : List (Arc n)} (kept : Kept m f s)
    (done : Sparse.relax w p m base row arcs f s = .ok (f', s')) :
    Kept m f' s' ∧ s'.settled = s.settled ∧ s'.cols = s.cols := by
  induction arcs generalizing f s with
  | nil =>
    cases done
    exact ⟨kept, rfl, rfl⟩
  | cons arc rest ih =>
    obtain ⟨col, price⟩ := arc
    simp only [Sparse.relax] at done
    split at done
    · exact ih kept done
    · obtain ⟨cost, _, done⟩ := bindOk.mp done
      split at done
      · obtain ⟨_, settled, _, cols⟩ := touchRest s col
        obtain ⟨later, sameSettled, sameCols⟩ := ih
          ⟨kept.knows.insert row col cost, kept.flagged.insert col cost, kept.recorded.write row col cost⟩ done
        exact ⟨later, sameSettled.trans settled, sameCols.trans cols⟩
      · exact ih kept done

theorem settle {chosen : Candidate n} (kept : Kept m f s) (next : f.next? s.isCurrent = some (chosen, rest)) :
    Kept m rest (s.settle chosen.col) := by
  obtain ⟨knows, flagged, recorded⟩ := kept
  obtain ⟨_, label, _, after⟩ := knows.least next
  refine ⟨after, (knows.earliest flagged next).2.1, recorded.once, recorded.labelled, ?_⟩
  intro j inside
  rcases List.mem_cons.mp inside with isChosen | before
  · rw [isChosen]
    exact (recorded.labelled _).mpr ⟨_, label⟩
  · exact recorded.settled j before

end Kept

inductive Stepped (w : Width) (grouped : Grouped n n) (p : Potentials n) (m : Matching n) (row : Fin n) (base : Int)
    (f : Frontier n) (s : Scratch n) : Scratch n → Option (Candidate n × Frontier n) → Prop
  | stuck {f' : Frontier n} {s' : Scratch n}
      (relaxed : relax w p m base row (grouped.arcs row) f (s.visit row) = .ok (f', s'))
      (stale : f'.next? s'.isCurrent = none) : Stepped w grouped p m row base f s s' none
  | settled {f' rest : Frontier n} {s' : Scratch n} {chosen : Candidate n}
      (relaxed : relax w p m base row (grouped.arcs row) f (s.visit row) = .ok (f', s'))
      (first : f'.next? s'.isCurrent = some (chosen, rest)) :
      Stepped w grouped p m row base f s (s'.settle chosen.col) (some (chosen, rest))

theorem advanceStepped {grouped : Grouped n n} {outcome : Option (Candidate n × Frontier n)}
    (step : advance w grouped p m row base f s = .ok (next, outcome)) :
    Stepped w grouped p m row base f s next outcome := by
  obtain ⟨⟨f', s'⟩, relaxed, done⟩ := bindOk.mp step
  cases first : f'.next? s'.isCurrent with
  | none =>
    simp only [first, pure, Except.pure] at done
    cases done
    exact .stuck relaxed first
  | some found =>
    simp only [first, pure, Except.pure] at done
    cases done
    exact .settled relaxed first

theorem Kept.advance {grouped : Grouped n n} {chosen : Candidate n} (kept : Kept m f s)
    (step : Sparse.advance w grouped p m row base f s = .ok (next, some (chosen, rest))) : Kept m rest next := by
  cases advanceStepped step with
  | settled relaxed first => exact ((kept.visit row).relax relaxed).1.settle first

theorem Enters.kept {grouped : Grouped n n} {scratch : Scratch n} {first : Fin n} (clean : Clean scratch)
    (enters : Enters w grouped p m scratch first row base f s) : Kept m f s := by
  induction enters with
  | start => exact .start clean
  | next _ step _ ih => exact ih.advance step

end OptimalMatching.Sparse
