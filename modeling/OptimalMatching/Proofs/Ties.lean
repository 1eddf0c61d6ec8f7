import Mathlib.Data.Prod.Lex
import OptimalMatching.Proofs.Frontier
import OptimalMatching.Proofs.Nearest

/-! Which column a search settles when several have the least label. The dense search takes the last free one in the order
of its list, and the first of all if none is free. The sparse search takes the one that is least by label, by whether it has
a row, and by number. So both spare a column that has a row as long as a free one will do. -/
namespace OptimalMatching

variable {w : Width} {n : Nat} {p : Potentials n} {m : Matching n} {first row : Fin n} {base : Int}

namespace Dense
variable {costs : Costs n} {labels old : Labels n} {cols : List (Fin n)}

def tied (labels : Labels n) (cols : List (Fin n)) (cost : Int) : List (Fin n) :=
  cols.filter fun j => labels.cost[j] = some cost

def lastFree (m : Matching n) (cols : List (Fin n)) : Option (Fin n) :=
  (cols.filter fun j => m.rowOf[j] = none).getLast?.or cols.head?

structure ByRule (m : Matching n) (labels : Labels n) (cols : List (Fin n)) (choice : Choice n) : Prop where
  least : Least labels cols choice
  rule : lastFree m (tied labels cols choice.cost) = some choice.col
  spares : m.rowOf[choice.col] ≠ none → ∀ j ∈ cols, labels.cost[j] = some choice.cost → m.rowOf[j] ≠ none

theorem lastFreeConcat (cols : List (Fin n)) (col : Fin n) :
    lastFree m (cols ++ [col]) = if m.rowOf[col] = none then some col else (lastFree m cols).or (some col) := by
  unfold lastFree
  rw [List.filter_append]
  split
  case isTrue free =>
    simp only [List.filter_cons, List.filter_nil, free, decide_true, if_true]
    rw [List.getLast?_concat, Option.some_or]
  case isFalse taken =>
    simp only [List.filter_cons, List.filter_nil, taken, decide_false, Bool.false_eq_true, if_false]
    rw [List.append_nil, List.head?_append, List.head?_singleton, Option.or_assoc]

theorem lastFreeFree {j : Fin n} (member : j ∈ cols) (free : m.rowOf[j] = none) :
    ∃ k, lastFree m cols = some k ∧ m.rowOf[k] = none := by
  have inside : j ∈ cols.filter fun j => m.rowOf[j] = none := List.mem_filter.mpr ⟨member, decide_eq_true free⟩
  have last := List.getLast?_eq_some_getLast (List.ne_nil_of_mem inside)
  have isFree := (List.mem_filter.mp (List.mem_of_getLast? last)).2
  exact ⟨_, by rw [lastFree, last, Option.some_or], of_decide_eq_true isFree⟩

theorem memTied {j : Fin n} {cost : Int} : j ∈ tied labels cols cost ↔ j ∈ cols ∧ labels.cost[j] = some cost := by
  simp only [tied, List.mem_filter, decide_eq_true_eq]

theorem tiedConcat (cols : List (Fin n)) (col : Fin n) (cost : Int) :
    tied labels (cols ++ [col]) cost = if labels.cost[col] = some cost then tied labels cols cost ++ [col]
      else tied labels cols cost := by
  unfold tied
  rw [List.filter_append]
  split
  case isTrue same => simp only [List.filter_cons, List.filter_nil, same, decide_true, if_true]
  case isFalse other =>
    simp only [List.filter_cons, List.filter_nil, other, decide_false, Bool.false_eq_true, if_false, List.append_nil]

structure RuledOf (m : Matching n) (labels : Labels n) (seen : List (Fin n)) (best : Option (Choice n)) : Prop where
  least : LeastOf labels seen best
  rule : ∀ choice, best = some choice → lastFree m (tied labels seen choice.cost) = some choice.col

/- A column of the least label so far takes the place of the one before it if it is free, so the last free one stays; if
none is, the first one has stayed. -/
theorem RuledOf.prefer {seen : List (Fin n)} {best : Option (Choice n)} (ruled : RuledOf m labels seen best) (col : Fin n) :
    RuledOf m labels (seen ++ [col]) (prefer m labels col seen.length best) := by
  obtain ⟨least, rule⟩ := ruled
  refine ⟨least.prefer col, ?_⟩
  rcases @preferCases n m labels best col seen.length with ⟨same, known⟩ | ⟨x, label, made, less⟩
  · rw [same]
    intro choice isSome
    rw [tiedConcat]
    split
    case isTrue equal =>
      obtain ⟨other, isBest, _, taken⟩ := known _ equal
      rw [isSome] at isBest
      obtain rfl := Option.some.inj isBest
      rw [lastFreeConcat, if_neg (taken rfl), rule choice isSome, Option.some_or]
    case isFalse => exact rule choice isSome
  · rw [made]
    intro choice isSome
    obtain rfl := Option.some.inj isSome
    simp only
    rw [tiedConcat, if_pos label, lastFreeConcat]
    split
    case isTrue => rfl
    case isFalse taken =>
      have alone : tied labels seen x = [] := by
        refine List.eq_nil_iff_forall_not_mem.mpr ?_
        intro j member
        obtain ⟨before, equal⟩ := memTied.mp member
        cases isBest : best with
        | none =>
          rw [least.blank isBest j before] at equal
          cases equal
        | some known =>
          obtain ⟨le, free⟩ := less known isBest
          have ge := (least.held known isBest).least j before x equal
          exact taken (free (by omega))
      rw [alone]
      rfl

theorem chooseByRule {choice : Choice n} (chosen : choose m labels cols 0 none = some choice) :
    ByRule m labels cols choice := by
  have ruled := @chooseKeeps n m labels cols (RuledOf m labels) (fun _ col _ ruled => ruled.prefer col) [] none
    ⟨⟨by simp, nofun⟩, nofun⟩
  have rule := ruled.rule choice chosen
  refine ⟨ruled.least.held choice chosen, rule, ?_⟩
  intro taken j member label free
  obtain ⟨k, last, isFree⟩ := lastFreeFree (memTied.mpr ⟨member, label⟩) free
  rw [List.nil_append] at rule
  rw [rule] at last
  exact taken (Option.some.inj last ▸ isFree)

def pass (w : Width) (costs : Costs n) (p : Potentials n) (m : Matching n) (base : Int) (row : Fin n) :
    List (Fin n) → Nat → Labels n → Option (Choice n) → Except Failure (Labels n × Option (Choice n))
  | [], _, labels, best => .ok (labels, best)
  | col :: rest, place, labels, best =>
    match costs[row][col] with
    | none => pass w costs p m base row rest (place + 1) labels (prefer m labels col place best)
    | some price => do
      let cost ← p.reach w base price row col
      let labels := labels.offer row col cost
      pass w costs p m base row rest (place + 1) labels (prefer m labels col place best)

theorem relaxOther {col : Fin n} (outside : col ∉ cols) (done : relax w costs p base row cols old = .ok labels) :
    labels.cost[col] = old.cost[col] := by
  induction cols generalizing old with
  | nil =>
    cases done
    rfl
  | cons head rest ih =>
    obtain ⟨other, later⟩ := not_or.mp (fun way => outside (List.mem_cons.mpr way))
    simp only [relax] at done
    split at done
    · exact ih later done
    · obtain ⟨cost, _, done⟩ := bindOk.mp done
      rw [ih later done, old.offerOther cost other]

theorem preferCongr {col : Fin n} (same : labels.cost[col] = old.cost[col]) (place : Nat) (best : Option (Choice n)) :
    prefer m labels col place best = prefer m old col place best := by
  unfold prefer
  rw [same]

/- No column comes twice, so a label that has been compared is not offered anything any more. -/
theorem passSame (distinct : cols.Nodup) (place : Nat) (best : Option (Choice n)) :
    pass w costs p m base row cols place old best =
      (relax w costs p base row cols old).map fun labels => (labels, choose m labels cols place best) := by
  induction cols generalizing old place best with
  | nil => rfl
  | cons col rest ih =>
    obtain ⟨absent, distinct⟩ := List.nodup_cons.mp distinct
    have later : ∀ mid : Labels n, (relax w costs p base row rest mid).map (fun labels =>
        (labels, choose m labels rest (place + 1) (prefer m mid col place best))) =
        (relax w costs p base row rest mid).map fun labels => (labels, choose m labels (col :: rest) place best) := by
      intro mid
      cases done : relax w costs p base row rest mid with
      | error failure => rfl
      | ok labels => simp only [Except.map, choose, preferCongr (relaxOther absent done) place best]
    simp only [pass, relax]
    cases costs[row][col] with
    | none => exact (ih distinct _ _).trans (later old)
    | some price =>
      simp only [bind, Except.bind]
      cases p.reach w base price row col with
      | error failure => rfl
      | ok cost => exact (ih distinct _ _).trans (later _)

structure SettlesByRule (w : Width) (costs : Costs n) (p : Potentials n) (m : Matching n) (labels : Labels n)
    (first : Fin n) : Prop where
  listed : ∀ row base s, Enters w costs p m labels first row base s → Knows s
  settles : ∀ row base s, Enters w costs p m labels first row base s →
    ∀ after, relax w costs p base row s.remaining s.labels = .ok after →
      (advance w costs p m first row base s = .error (.infeasible first.val) ∧
        ∀ j ∈ s.remaining, after.cost[j] = none) ∨
      ∃ choice next, advance w costs p m first row base s = .ok (choice, next) ∧ next.labels = after ∧
        next.cols = choice.col :: s.cols ∧ Knows next ∧ ByRule m after s.remaining choice
  together : ∀ row base s, Enters w costs p m labels first row base s →
    pass w costs p m base row s.remaining 0 s.labels none =
      (relax w costs p base row s.remaining s.labels).map fun after => (after, choose m after s.remaining 0 none)

theorem Knows.settles {s : Search n} {after : Labels n} (knows : Knows s)
    (relaxed : relax w costs p base row s.remaining s.labels = .ok after) :
    (advance w costs p m first row base s = .error (.infeasible first.val) ∧ ∀ j ∈ s.remaining, after.cost[j] = none) ∨
    ∃ choice next, advance w costs p m first row base s = .ok (choice, next) ∧ next.labels = after ∧
      next.cols = choice.col :: s.cols ∧ Knows next ∧ ByRule m after s.remaining choice := by
  have least := @chooseLeast n m after s.remaining
  simp only [Dense.advance, relaxed, bind, Except.bind]
  cases chosen : choose m after s.remaining 0 none with
  | none => exact .inl ⟨rfl, least.blank chosen⟩
  | some choice =>
    exact .inr ⟨choice, _, rfl, rfl, rfl, takeOutKnows knows (least.held choice chosen), chooseByRule chosen⟩

theorem Enters.knows {s : Search n} (enters : Enters w costs p m labels first row base s) : Knows s := by
  induction enters with
  | start => exact knowsStart labels
  | @next row _ base s settled choice _ step _ ih =>
    obtain ⟨after, relaxed, _⟩ := bindOk.mp step
    rcases @Knows.settles w n p m first row base costs s after ih relaxed with ⟨failed, _⟩ | ⟨_, _, made, _, _, knows, _⟩
    · rw [step] at failed
      cases failed
    · rw [step] at made
      cases made
      exact knows

theorem settlesByRule (w : Width) (costs : Costs n) (p : Potentials n) (m : Matching n) (labels : Labels n)
    (first : Fin n) : SettlesByRule w costs p m labels first :=
  ⟨fun _ _ _ enters => enters.knows, fun _ _ _ enters _ relaxed => enters.knows.settles relaxed,
    fun _ _ _ enters => passSame enters.knows.distinct 0 none⟩

end Dense

namespace Sparse
variable {grouped : Grouped n n} {scratch s s' next : Scratch n} {f f' rest : Frontier n} {chosen : Candidate n}

def Candidate.key (c : Candidate n) : Int ×ₗ Bool ×ₗ Fin n := toLex (c.cost, toLex (c.taken, c.col))

theorem beforeKey {a b : Candidate n} : a.before b = true ↔ a.key ≤ b.key := by
  rw [beforeIff, Candidate.key, Candidate.key, Prod.Lex.toLex_le_toLex, Prod.Lex.toLex_le_toLex]
  simp only [Bool.lt_iff, Fin.le_def]

structure Earliest (m : Matching n) (s : Scratch n) (chosen : Candidate n) : Prop where
  touched : chosen.col ∈ s.touched
  unsettled : s.settled[chosen.col] = false
  label : s.labels.cost[chosen.col] = some chosen.cost
  flag : chosen.taken = (m.rowOf[chosen.col]).isSome
  first : ∀ j ∈ s.touched, s.settled[j] = false →
    ∃ x, s.labels.cost[j] = some x ∧ chosen.key ≤ Candidate.key ⟨x, (m.rowOf[j]).isSome, j⟩
  spares : m.rowOf[chosen.col] ≠ none → ∀ j ∈ s.touched, s.settled[j] = false →
    s.labels.cost[j] = some chosen.cost → m.rowOf[j] ≠ none

def SettlesByRule (w : Width) (grouped : Grouped n n) (p : Potentials n) (m : Matching n) (scratch : Scratch n)
    (first : Fin n) : Prop :=
  ∀ row base f s, Enters w grouped p m scratch first row base f s →
    ∀ f' after, relax w p m base row (grouped.arcs row) f (s.visit row) = .ok (f', after) →
      (advance w grouped p m row base f s = .ok (after, none) ∧ ∀ j ∈ after.touched, after.settled[j] = true) ∨
      ∃ chosen rest, advance w grouped p m row base f s = .ok (after.settle chosen.col, some (chosen, rest)) ∧
        Earliest m after chosen

theorem unsettledIff (knows : Knows m f s) (j : Fin n) : s.settled[j] = false ↔ j ∉ s.cols := by
  rw [← knows.flags, Bool.not_eq_true]

theorem Kept.earliest (kept : Kept m f s) (next : f.next? s.isCurrent = some (chosen, rest)) : Earliest m s chosen := by
  obtain ⟨knows, flagged, recorded⟩ := kept
  obtain ⟨outside, label, _⟩ := knows.least next
  obtain ⟨flag, _, before⟩ := knows.earliest flagged next
  refine ⟨(recorded.labelled _).mpr ⟨_, label⟩, (unsettledIff knows _).mpr outside, label, flag, ?_, ?_⟩
  · intro j touched unsettled
    obtain ⟨x, known⟩ := (recorded.labelled j).mp touched
    exact ⟨x, known, beforeKey.mp (before j x ((unsettledIff knows j).mp unsettled) known)⟩
  · intro taken j _ unsettled known free
    have ahead := before j chosen.cost ((unsettledIff knows j).mp unsettled) known
    rw [free, Option.isSome_none, beforeIff] at ahead
    rw [Option.ne_none_iff_isSome, ← flag] at taken
    simp [taken] at ahead

theorem settlesByRule (clean : Clean scratch) : SettlesByRule w grouped p m scratch first := by
  intro row base f s enters f' after relaxed
  obtain ⟨kept, _, _⟩ := ((enters.kept clean).visit row).relax relaxed
  simp only [advance, relaxed, bind, Except.bind]
  cases next : f'.next? after.isCurrent with
  | none =>
    refine .inl ⟨rfl, ?_⟩
    intro j touched
    obtain ⟨x, label⟩ := (kept.recorded.labelled j).mp touched
    by_contra unsettled
    rw [Bool.not_eq_true] at unsettled
    rw [kept.knows.none next j ((unsettledIff kept.knows j).mp unsettled)] at label
    cases label
  | some found =>
    obtain ⟨chosen, rest⟩ := found
    exact .inr ⟨chosen, rest, rfl, kept.earliest next⟩

end Sparse

theorem tiesSettled :
    (∀ (costs : Costs n) p m (labels : Labels n) first, Dense.SettlesByRule w costs p m labels first) ∧
    (∀ (grouped : Grouped n n) p m (scratch : Sparse.Scratch n) first, Sparse.Clean scratch →
      Sparse.SettlesByRule w grouped p m scratch first) ∧
    (∀ table : Square w n, table.toTable.Valid → requireRoom w table.largest n = .ok () →
      ∀ watch emitted (first : Fin n) s events,
        rowByRow watch (Dense.augment w table.costs) ((List.finRange n).take first.val) emitted (.start n) =
          ⟨s, events, .ok ()⟩ →
        ∀ row base t, Dense.Enters w table.costs s.potentials s.matching s.labels first row base t →
          ∃ after, Dense.relax w table.costs s.potentials base row t.remaining t.labels = .ok after) ∧
    ∀ (g : Graph w n n) grouped, g.Valid → requireRoom w g.largest n = .ok () → Grouped.ofGraph g = .ok grouped →
      ∀ watch emitted (first : Fin n) s events,
        rowByRow watch (Sparse.augment w grouped) ((List.finRange n).take first.val) emitted (.start n) =
          ⟨s, events, .ok ()⟩ →
        Sparse.Clean s.scratch ∧
        ∀ row base f t, Sparse.Enters w grouped s.potentials s.matching s.scratch first row base f t →
          ∃ f' after, Sparse.relax w s.potentials s.matching base row (grouped.arcs row) f (t.visit row) =
            .ok (f', after) := by
  refine ⟨Dense.settlesByRule w, fun _ _ _ _ _ clean => Sparse.settlesByRule clean, ?_, ?_⟩
  · intro table valid accepted watch emitted first s events run row base t enters
    have room := (requireRoomOk (Table.largestNonneg table.toTable)).mp accepted
    have range := Dense.inRange (Dense.runReady valid room run) room.product
    obtain ⟨after, relaxed, _⟩ := enters.knows.relaxed fun j cost _ has => range.steps row base t enters j cost has
    exact ⟨after, relaxed⟩
  · intro g grouped valid accepted made watch emitted first s events run
    have room := (requireRoomOk (Graph.largestNonneg g)).mp accepted
    have arcs := Grouped.arcsOfGraph made
    obtain ⟨ready, clean⟩ := Sparse.runReady arcs valid room run
    have range := Sparse.inRange arcs ready (Graph.edgesWithin valid) room.product clean
    refine ⟨clean, ?_⟩
    intro row base f t enters
    obtain ⟨f', after, relaxed, _⟩ := (enters.kept clean).knows.relaxed arcs (by
      intro j cost _ member
      rw [← memRowArcs, ← arcs] at member
      exact range.steps row base f t enters j cost member)
    exact ⟨f', after, relaxed⟩

def evenRows : Square byteWidth 3 := .whole #v[#v[1, 1, 3], #v[1, 1, 3], #v[1, 1, 2]]

theorem evenRowsValid : evenRows.toTable.Valid := Table.validOfValues (by decide) (by decide) (by decide)

theorem tiesSettledEven :
    (∃ s events, rowByRow .never (Dense.augment byteWidth evenRows.costs) ((List.finRange 3).take 2) 0 (.start 3) =
        ⟨s, events, .ok ()⟩ ∧
      Dense.SettlesByRule byteWidth evenRows.costs s.potentials s.matching s.labels 2 ∧
      (Dense.advance byteWidth evenRows.costs s.potentials s.matching 2 2 0 (.start s.labels)).map (fun out => out.1.col) =
        .ok 1 ∧
      ∃ after, Dense.relax byteWidth evenRows.costs s.potentials 0 2 [2, 1, 0] s.labels.clear = .ok after) ∧
    ∃ grouped s events, Grouped.ofGraph (Graph.ofSquare evenRows) = .ok grouped ∧
      rowByRow .never (Sparse.augment byteWidth grouped) ((List.finRange 3).take 2) 0 (.start 3) = ⟨s, events, .ok ()⟩ ∧
      Sparse.SettlesByRule byteWidth grouped s.potentials s.matching s.scratch 2 ∧
      (Sparse.advance byteWidth grouped s.potentials s.matching 2 0 .empty s.scratch).map
        (fun out => out.2.map fun way => way.1.col) = .ok (some 0) ∧
      ∃ f' after, Sparse.relax byteWidth s.potentials s.matching 0 2 (grouped.arcs 2) .empty (s.scratch.visit 2) =
        .ok (f', after) := by
  obtain ⟨dense, sparse, denseRun, sparseRun⟩ := @tiesSettled byteWidth 3
  refine ⟨⟨_, _, rfl, dense _ _ _ _ 2, by decide, ?_⟩, ?_⟩
  · exact denseRun evenRows evenRowsValid (by decide) .never 0 2 _ _ rfl 2 0 _ .start
  · obtain ⟨clean, through⟩ := sparseRun (Graph.ofSquare evenRows) _ (Graph.validOfSquare evenRowsValid) (by decide) rfl
      .never 0 2 _ _ rfl
    exact ⟨_, _, _, rfl, rfl, sparse _ _ _ _ 2 clean, by decide, through 2 0 _ _ .start⟩

end OptimalMatching
