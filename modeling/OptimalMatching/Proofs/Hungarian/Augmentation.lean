import OptimalMatching.Proofs.Hungarian.Prices

/-! The path that an augmentation reports, and what its flip makes of the stars. The path goes from a row without a star to a
column without one; these two lines gain a star, and every other line keeps as many as it had. -/
namespace OptimalMatching.Hungarian

variable {w : Width} {n : Nat} {costs : Costs n} {most : Int} {s t : State n} {tree : List (Fin n)}
  {row col last : Fin n} {rest path : List (Fin n × Fin n)} {watch : Watch}

/-- Primes and stars take turns, primes first and last. A star stands in the column of the prime before it and in the row of
the prime after it. -/
structure Alternating (s : State n) (path : List (Fin n × Fin n)) : Prop where
  odd : path.length % 2 = 1
  prime : ∀ (k : Nat) cell, path[2 * k]? = some cell → s.mark cell.1 cell.2 = .prime
  star : ∀ (k : Nat) cell, path[2 * k + 1]? = some cell → s.mark cell.1 cell.2 = .star
  inCol : ∀ (k : Nat) before cell, path[2 * k]? = some before → path[2 * k + 1]? = some cell → cell.2 = before.2
  inRow : ∀ (k : Nat) before cell, path[2 * k + 1]? = some before → path[2 * k + 2]? = some cell → cell.1 = before.1

theorem alternatingOne (prime : s.mark row col = .prime) : Alternating s [(row, col)] := by
  refine ⟨rfl, ?_, nofun, nofun, nofun⟩
  intro k cell found
  cases k with
  | zero =>
    obtain rfl := Option.some.inj found
    exact prime
  | succ k => cases found

theorem Alternating.cons {next : Fin n} {i : Fin n} (tail : Alternating s ((i, next) :: rest)) (prime : s.mark row col = .prime)
    (star : s.mark i col = .star) : Alternating s ((row, col) :: (i, col) :: (i, next) :: rest) := by
  have later : ∀ k : Nat, ((row, col) :: (i, col) :: (i, next) :: rest)[k + 2]? = ((i, next) :: rest)[k]? := fun k => rfl
  have odd := tail.odd
  refine ⟨?_, ?_, ?_, ?_, ?_⟩
  · simp only [List.length_cons] at odd ⊢
    omega
  · intro k cell found
    cases k with
    | zero =>
      obtain rfl := Option.some.inj found
      exact prime
    | succ k => exact tail.prime k cell found
  · intro k cell found
    cases k with
    | zero =>
      obtain rfl := Option.some.inj found
      exact star
    | succ k => exact tail.star k cell found
  · intro k before cell found next
    cases k with
    | zero =>
      obtain rfl := Option.some.inj found
      obtain rfl := Option.some.inj next
      rfl
    | succ k => exact tail.inCol k before cell found next
  · intro k before cell found next
    cases k with
    | zero =>
      obtain rfl := Option.some.inj found
      obtain rfl := Option.some.inj next
      rfl
    | succ k => exact tail.inRow k before cell found next

theorem Alternating.primeCol (alternating : Alternating s path) {i j k : Fin n} (member : (i, j) ∈ path)
    (prime : s.mark i j = .prime) (final : path.getLast? = some (k, last)) : j = last ∨ ∃ i', s.mark i' j = .star := by
  obtain ⟨place, inside, found⟩ := List.getElem_of_mem member
  have here : path[place]? = some (i, j) := by rw [List.getElem?_eq_getElem inside, found]
  have odd := alternating.odd
  rcases Nat.mod_two_eq_zero_or_one place with even | uneven
  · obtain ⟨half, rfl⟩ : ∃ half, place = 2 * half := ⟨place / 2, by omega⟩
    by_cases more : 2 * half + 1 < path.length
    · have after : path[2 * half + 1]? = some path[2 * half + 1] := List.getElem?_eq_getElem more
      have star := alternating.star half _ after
      rw [alternating.inCol half _ _ here after] at star
      exact .inr ⟨_, star⟩
    · have same : path.length - 1 = 2 * half := by omega
      rw [List.getLast?_eq_getElem?, same, here] at final
      exact .inl (Prod.mk.inj (Option.some.inj final)).2
  · obtain ⟨half, rfl⟩ : ∃ half, place = 2 * half + 1 := ⟨place / 2, by omega⟩
    have star := alternating.star half _ here
    rw [prime] at star
    cases star

theorem Alternating.lastPrime (alternating : Alternating s path) {i : Fin n} (final : path.getLast? = some (i, last)) :
    s.mark i last = .prime := by
  have odd := alternating.odd
  have place : path.length - 1 = 2 * (path.length / 2) := by omega
  rw [List.getLast?_eq_getElem?, place] at final
  exact alternating.prime _ _ final

namespace Walk

theorem alternating (walk : Walk s col rest) (prime : s.mark row col = .prime) : Alternating s ((row, col) :: rest) := by
  induction walk generalizing row with
  | free starless => exact alternatingOne prime
  | step star next fresh tail ih => exact (ih next).cons prime star

theorem ends (walk : Walk s col rest) (row : Fin n) :
    ∃ i last, ((row, col) :: rest).getLast? = some (i, last) ∧ ∀ i, s.mark i last ≠ .star := by
  induction walk generalizing row with
  | @free col starless => exact ⟨row, col, rfl, starless⟩
  | @step i col next rest star prime fresh tail ih =>
    obtain ⟨k, last, final, starless⟩ := ih i
    exact ⟨k, last, by rw [List.getLast?_cons_cons, List.getLast?_cons_cons, final], starless⟩

end Walk

structure Route (s : State n) (row col last : Fin n) (path : List (Fin n × Fin n)) : Prop where
  alternating : Alternating s path
  distinct : path.Nodup
  first : path.head? = some (row, col)
  rowFree : ∀ j, s.mark row j ≠ .star
  final : ∃ i, path.getLast? = some (i, last)
  colFree : ∀ i, s.mark i last ≠ .star

structure Gains (costs : Costs n) (path : List (Fin n × Fin n)) (s t : State n) (row col : Fin n) : Prop where
  moved : Flips path s t
  apart : Apart t
  tight : ∀ i j : Fin n, t.mark i j = .star → priceAt costs t i j = some 0
  rows : ∀ i : Fin n, (∃ j, t.mark i j = .star) ↔ i = row ∨ ∃ j, s.mark i j = .star
  cols : ∀ j : Fin n, (∃ i, t.mark i j = .star) ↔ j = col ∨ ∃ i, s.mark i j = .star
  noPrime : ∀ i j : Fin n, t.mark i j ≠ .prime
  rowOpen : ∀ i : Fin n, t.rowCovered[i] = false
  colOpen : ∀ j : Fin n, t.colCovered[j] = false

theorem Route.colsGained (route : Route s row col last path) (flips : Flips path s t)
    (kept : ∀ j : Fin n, (∃ i, s.mark i j = .star) → ∃ i, t.mark i j = .star) (j : Fin n) :
    (∃ i, t.mark i j = .star) ↔ j = last ∨ ∃ i, s.mark i j = .star := by
  obtain ⟨k, final⟩ := route.final
  refine ⟨?_, ?_⟩
  · intro ⟨i, star⟩
    rcases (flips i j).mp star with ⟨on, prime⟩ | ⟨_, before⟩
    · exact route.alternating.primeCol on prime final
    · exact .inr ⟨i, before⟩
  · intro way
    rcases way with same | before
    · rw [same]
      exact ⟨k, (flips k last).mpr (.inl ⟨List.mem_of_getLast? final, route.alternating.lastPrime final⟩)⟩
    · exact kept j before

theorem Reached.gains (reached : Reached costs most tree row col s) :
    ∃ path last t, augment s row col = ⟨t, [pathEvent path], .ok .cover⟩ ∧ Route s row col last path ∧
      Gains costs path s t row last := by
  obtain ⟨rest, t, made, walk, distinct, flipped⟩ := reached.augmented
  obtain ⟨_, calm, _⟩ := reached.augmentOk
  rw [made] at calm
  obtain ⟨drift, shifts, _⟩ := calm.shifts
  obtain ⟨i, last, final, starless⟩ := walk.ends row
  have route : Route s row col last ((row, col) :: rest) :=
    ⟨walk.alternating reached.prime, distinct, rfl, reached.free, ⟨i, final⟩, starless⟩
  have cols := route.colsGained flipped.stars fun j before => flipped.stars.cols reached walk before
  exact ⟨_, last, t, made, route, flipped.stars, shifts.apart, shifts.tight, flipped.stars.rows reached walk, cols,
    calm.noPrime, calm.rowOpen, calm.colOpen⟩

theorem starGained {table : Square w n} (valid : table.toTable.Valid)
    (reached : Reachable w watch table.costs (.augment row col) s) (emitted : Nat) :
    ∃ path last t, step w watch emitted table.costs (.augment row col) s =
        ⟨t, [pathEvent path, .hungarianStage .augment .cover], .ok .cover⟩ ∧
      Route s row col last path ∧ Gains table.costs path s t row last := by
  obtain ⟨left, tree, arrived, _⟩ := reached.sound (pricedOfValid valid)
  obtain ⟨path, last, t, made, route, gains⟩ := arrived.gains
  refine ⟨path, last, t, ?_, route, gains⟩
  simp only [step, act, made, Ended.andThen, Ended.after, Phase.stage, List.singleton_append]

theorem starGainedTraded : ∃ s t, Reachable byteWidth .never tradedStar.costs (.augment 1 0) s ∧
    step byteWidth .never 0 tradedStar.costs (.augment 1 0) s =
      ⟨t, [.hungarianPath [(1, 0), (0, 0), (0, 1)], .hungarianStage .augment .cover], .ok .cover⟩ ∧
    t.marks = #v[#v[.empty, .star], #v[.star, .empty]] ∧
    ∃ path last, Route s 1 0 last path ∧ Gains tradedStar.costs path s t 1 last := by
  have covers : Reachable byteWidth .never tradedStar.costs .cover _ :=
    @Reachable.next 2 byteWidth .never tradedStar.costs .reduce .cover _ _ 0 _ .start rfl
  have begins : Reachable byteWidth .never tradedStar.costs .prime _ :=
    @Reachable.next 2 byteWidth .never tradedStar.costs .cover .prime _ _ 0 _ covers rfl
  have primes : Reachable byteWidth .never tradedStar.costs .prime _ :=
    @Reachable.next 2 byteWidth .never tradedStar.costs .prime .prime _ _ 0 _ begins rfl
  have arrives : Reachable byteWidth .never tradedStar.costs (.augment 1 0) _ :=
    @Reachable.next 2 byteWidth .never tradedStar.costs .prime (.augment 1 0) _ _ 0 _ primes rfl
  obtain ⟨path, last, t, made, route, gains⟩ := starGained tradedStarValid arrives 0
  have marks : t.marks = #v[#v[.empty, .star], #v[.star, .empty]] := (congrArg (fun e => e.state.marks) made).symm.trans rfl
  have events : [pathEvent path, .hungarianStage .augment .cover] =
      [.hungarianPath [(1, 0), (0, 0), (0, 1)], .hungarianStage .augment .cover] := (congrArg Ended.events made).symm.trans rfl
  rw [events] at made
  exact ⟨_, t, arrives, made, marks, path, last, route, gains⟩

end OptimalMatching.Hungarian
