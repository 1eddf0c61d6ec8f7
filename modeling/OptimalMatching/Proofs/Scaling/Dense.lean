import OptimalMatching.Proofs.Dense
import OptimalMatching.Proofs.Scaling.Lines

/-! The dense solver on two scaled problems. The remaining columns stand in the same order in both searches and their
labels compare alike, so the same column is settled each time, and the rows are matched with the same columns. -/
namespace OptimalMatching.Dense

variable {w : Width} {n : Nat} {z : Scale n} {costs costs' : Costs n} {most most' base base' : Int}
  {p p' : Potentials n} {m : Matching n} {first row : Fin n} {l l' : Labels n}

def Choice.scale (z : Scale n) (first : Fin n) (choice : Choice n) : Choice n :=
  { choice with cost := z.cost first choice.cost }

theorem preferScaled (labels : ScaledLabels z first l l') (col : Fin n) (place : Nat) (best : Option (Choice n)) :
    prefer m l' col place (best.map (·.scale z first)) = (prefer m l col place best).map (·.scale z first) := by
  unfold prefer
  rw [labels.cost col]
  cases l.cost[col] with
  | none => rfl
  | some x =>
    cases best with
    | none => rfl
    | some known =>
      simp only [Option.map_some, Choice.scale, Scale.costLt, Scale.costInj]
      split <;> rfl

theorem chooseScaled (labels : ScaledLabels z first l l') (cols : List (Fin n)) (place : Nat)
    (best : Option (Choice n)) :
    choose m l' cols place (best.map (·.scale z first)) = (choose m l cols place best).map (·.scale z first) := by
  induction cols generalizing place best with
  | nil => rfl
  | cons col rest ih =>
    simp only [choose]
    rw [preferScaled labels, ih]

structure Together (z : Scale n) (first : Fin n) (s s' : Search n) : Prop where
  labels : ScaledLabels z first s.labels s'.labels
  remaining : s'.remaining = s.remaining
  rows : s'.rows = s.rows
  cols : s'.cols = s.cols

theorem togetherStart (origins : ∀ j : Fin n, l'.reachedFrom[j] = l.reachedFrom[j]) :
    Together z first (.start l) (.start l') := by
  refine ⟨⟨?_, origins⟩, rfl, rfl, rfl⟩
  intro j
  simp [Search.start, Labels.clear]

section Search
variable (scaled : ScaledCosts z costs costs') (potentials : ScaledPotentials z first.val p p')
  (ready : Ready costs most first.val p m) (ready' : Ready costs' most' first.val p' m)
  (room : most * roomFactor n ≤ w.top) (room' : most' * roomFactor n ≤ w.top)
include scaled potentials ready ready' room room'

theorem Together.advance {s s' : Search n} (together : Together z first s s')
    (underway : Underway costs most p m first row base s) (underway' : Underway costs' most' p' m first row base' s')
    (entry : ScaledEntry z first p p' row base base') :
    (Dense.advance w costs p m first row base s = .error (.infeasible first) ∧
      Dense.advance w costs' p' m first row base' s' = .error (.infeasible first)) ∨
    ∃ choice next next', Dense.advance w costs p m first row base s = .ok (choice, next) ∧
      Dense.advance w costs' p' m first row base' s' = .ok (choice.scale z first, next') ∧
      Together z first next next' := by
  obtain ⟨next, relaxed, offered⟩ := relaxOffered underway.knows underway.scan underway.pending ready room
  obtain ⟨next', relaxed', offered'⟩ := relaxOffered underway'.knows underway'.scan underway'.pending ready' room'
  rw [together.cols] at offered'
  have labels := together.labels.offered scaled potentials entry offered offered'
  have choices := @chooseScaled n z m first next next' labels s.remaining 0 none
  rw [Option.map_none, ← together.remaining] at choices
  simp only [Dense.advance, relaxed, relaxed', bind, Except.bind]
  cases chosen : choose m next s.remaining 0 none with
  | none =>
    rw [together.remaining, chosen, Option.map_none] at choices
    rw [together.remaining, choices]
    exact .inl ⟨rfl, rfl⟩
  | some choice =>
    rw [together.remaining, chosen, Option.map_some] at choices
    rw [together.remaining, choices]
    refine .inr ⟨choice, _, _, rfl, rfl, labels, rfl, ?_, ?_⟩
    · rw [together.rows]
    · rw [together.cols]
      rfl

theorem Together.searchFrom {fuel : Nat} {s s' : Search n} (together : Together z first s s')
    (underway : Underway costs most p m first row base s) (underway' : Underway costs' most' p' m first row base' s')
    (entry : ScaledEntry z first p p' row base base') :
    (∃ failure, Dense.searchFrom w costs p m first fuel row base s = .error failure ∧
      Dense.searchFrom w costs' p' m first fuel row base' s' = .error failure) ∨
    ∃ sink found found', Dense.searchFrom w costs p m first fuel row base s = .ok (sink, found) ∧
      Dense.searchFrom w costs' p' m first fuel row base' s' = .ok (sink.scale z first, found') ∧
      Together z first found found' := by
  induction fuel generalizing row base base' s s' with
  | zero => exact .inl ⟨.infeasible first.val, rfl, rfl⟩
  | succ fuel ih =>
    rcases together.advance scaled potentials ready ready' room room' underway underway' entry with
      ⟨failed, failed'⟩ | ⟨choice, next, next', made, made', later⟩
    · refine .inl ⟨.infeasible first.val, ?_, ?_⟩
      · simp only [Dense.searchFrom, failed, bind, Except.bind]
      · simp only [Dense.searchFrom, failed', bind, Except.bind]
    · simp only [Dense.searchFrom, made, made', bind, Except.bind, Choice.scale]
      cases partner : m.rowOf[choice.col] with
      | none => exact .inr ⟨choice, next, next', rfl, rfl, later⟩
      | some after =>
        obtain ⟨failed, _⟩ | ⟨one, _, step, _, _, goOn⟩ := underway.advance ready room
        · rw [made] at failed
          cases failed
        obtain ⟨failed, _⟩ | ⟨two, _, step', _, _, goOn'⟩ := underway'.advance ready' room'
        · rw [made'] at failed
          cases failed
        rw [made] at step
        rw [made'] at step'
        cases step
        cases step'
        have early := ready.certificate.pairs.early ((ready.certificate.pairs.agree after choice.col).mpr partner)
        exact ih later (goOn after partner) (goOn' after partner) (potentials.enter early)

end Search

structure Alike (z : Scale n) (costs costs' : Costs n) (most most' : Int) (k : Nat) (s s' : State n) : Prop where
  matching : s'.matching = s.matching
  origins : ∀ j : Fin n, s'.labels.reachedFrom[j] = s.labels.reachedFrom[j]
  potentials : ScaledPotentials z k s.potentials s'.potentials
  ready : Ready costs most k s.potentials s.matching
  ready' : Ready costs' most' k s'.potentials s.matching

theorem Alike.augment {s s' : State n} (scaled : ScaledCosts z costs costs')
    (alike : Alike z costs costs' most most' first.val s s') (room : most * roomFactor n ≤ w.top)
    (room' : most' * roomFactor n ≤ w.top) :
    (∃ next next' event event', Dense.augment w costs s first = (next, .ok event) ∧
      Dense.augment w costs' s' first = (next', .ok event') ∧
      Alike z costs costs' most most' (first.val + 1) next next' ∧ ScaledReport z event event') ∨
    (∃ next next' failure, Dense.augment w costs s first = (next, .error failure) ∧
      Dense.augment w costs' s' first = (next', .error failure) ∧
      Alike z costs costs' most most' first.val next next') := by
  obtain ⟨p, m, l⟩ := s
  obtain ⟨p', m', l'⟩ := s'
  obtain ⟨sameMatching, origins, potentials, ready, ready'⟩ := alike
  dsimp only at sameMatching origins potentials ready ready'
  subst sameMatching
  have waiting := ready.certificate.pairs.late (Nat.le_refl first.val)
  have ends := @searchEnds w n costs most p m' first l ready room
  have ends' := @searchEnds w n costs' most' p' m' first l' ready' room'
  have together := @togetherStart n z first l l' origins
  have searches := @Together.searchFrom w n z costs costs' most most' 0 0 p p' m' first first scaled potentials
    ready ready' room room' n _ _ together (underwayStart l waiting) (underwayStart l' waiting) potentials.enterFirst
  rcases searches with ⟨failure, failed, failed'⟩ | ⟨sink, found, found', made, made', together⟩
  · refine .inr ⟨⟨p, m', l⟩, ⟨p', m', l'⟩, failure, ?_, ?_, ⟨rfl, origins, potentials, ready, ready'⟩⟩
    · simp only [Dense.augment, search, failed]
    · simp only [Dense.augment, search, failed']
  · have made : search w costs p m' l first = .ok (sink, found) := made
    have made' : search w costs' p' m' l' first = .ok (sink.scale z first, found') := made'
    rw [made] at ends
    rw [made'] at ends'
    obtain ⟨older, settled, ended⟩ := ends
    obtain ⟨older', settled', ended'⟩ := ends'
    have cols := together.cols
    rw [settled, settled', List.cons.injEq] at cols
    obtain ⟨-, same⟩ := cols
    subst same
    rw [together.rows] at ended'
    obtain ⟨q, q', new, updated, updated', walked, walked', moved, after, after'⟩ :=
      scaledCommit together.labels potentials ended ended' ready ready' room room'
    refine .inl ⟨⟨q, new, found.labels⟩, ⟨q', new, found'.labels⟩, _, _, ?_, ?_,
      ⟨rfl, together.labels.origin, moved, after, after'⟩, .dense first sink.col sink.cost⟩
    · simp only [Dense.augment, made, commit, settled, updated, walked, bind, Except.bind, pure, Except.pure]
    · have updated' : p'.update w m' found'.labels first (sink.scale z first).cost found'.rows found'.cols = .ok q' := by
        rw [together.rows, together.cols, settled]
        exact updated'
      have walked' : m'.flipPath found'.labels.reachedFrom first (sink.scale z first).col = .ok new := walked'
      simp only [Dense.augment, made', commit, updated', walked', bind, Except.bind, pure, Except.pure]
      rfl

theorem alikeStart (within : CostsWithin costs most) (within' : CostsWithin costs' most') (nonneg : 0 ≤ most)
    (nonneg' : 0 ≤ most') : Alike z costs costs' most most' 0 (.start n) (.start n) :=
  ⟨rfl, fun _ => rfl, .zero z, Advanced.start.ready within nonneg, Advanced.start.ready within' nonneg'⟩

theorem rowsAlike (scaled : ScaledCosts z costs costs') (within : CostsWithin costs most)
    (within' : CostsWithin costs' most') (nonneg : 0 ≤ most) (nonneg' : 0 ≤ most') (room : most * roomFactor n ≤ w.top)
    (room' : most' * roomFactor n ≤ w.top) (watch : Watch) (emitted : Nat) :
    (matchRows w watch emitted costs').result = (matchRows w watch emitted costs).result ∧
      List.Forall₂ (ScaledReport z) (matchRows w watch emitted costs).events (matchRows w watch emitted costs').events ∧
      ∃ l, Alike z costs costs' most most' l (matchRows w watch emitted costs).state
        (matchRows w watch emitted costs').state ∧ ((matchRows w watch emitted costs).result = .ok () → l = n) := by
  obtain ⟨result, events, l, alike, all⟩ := @rowByRowAlike _ n _ watch (augment w costs) (augment w costs')
    (Alike z costs costs' most most') (ScaledReport z)
    (fun i s s' alike => alike.augment scaled room room') (List.finRange n) 0 emitted (.start n) (.start n)
    (finRangeOrder n) (alikeStart within within' nonneg nonneg')
  rw [List.length_finRange, Nat.zero_add] at all
  exact ⟨result, events, l, alike, all⟩

theorem solveAlike {a b : Square w n} (scaled : ScaledCosts z a.costs b.costs) (valid : a.toTable.Valid)
    (valid' : b.toTable.Valid) (room : Roomy w a.largest n) (room' : Roomy w b.largest n) (watch : Watch)
    (emitted : Nat) :
    (solve watch emitted b).result = (solve watch emitted a).result ∧
      ∃ s s' l, (solve watch emitted a).state = some s ∧ (solve watch emitted b).state = some s' ∧
        ScaledPotentials z l s.potentials s'.potentials ∧
        ∀ columns, (solve watch emitted a).result = .ok columns → l = n := by
  have nonneg := Table.largestNonneg a.toTable
  have nonneg' := Table.largestNonneg b.toTable
  have accepted : requireRoom w a.largest n = .ok () := (requireRoomOk nonneg).mpr room
  have accepted' : requireRoom w b.largest n = .ok () := (requireRoomOk nonneg').mpr room'
  obtain ⟨result, events, l, alike, all⟩ := rowsAlike scaled (Square.costsWithin valid) (Square.costsWithin valid')
    nonneg nonneg' room.product room'.product watch (emitted + 1)
  simp only [solve, accepted, accepted']
  generalize matchRows w watch (emitted + 1) a.costs = e at result events alike all
  generalize matchRows w watch (emitted + 1) b.costs = e' at result events alike
  have same : (finish e'.state).result = (finish e.state).result := by
    unfold finish
    rw [alike.matching]
    split <;> rfl
  have kept : ∀ s : State n, (finish s).state = s := by
    intro s
    unfold finish
    split <;> rfl
  cases ended : e.result with
  | error failure =>
    rw [ended] at result
    simp only [Ended.andThen, ended, result]
    exact ⟨trivial, _, _, l, rfl, rfl, alike.potentials, by rintro _ ⟨⟩⟩
  | ok done =>
    rw [ended] at result
    simp only [Ended.andThen, ended, result, Ended.after]
    refine ⟨same, _, _, l, rfl, rfl, ?_, fun _ _ => all ended⟩
    rw [kept, kept]
    exact alike.potentials

end OptimalMatching.Dense
