/-! Cancellation. A run polls a token between its outer steps. Who may cancel, and when, is data: a token may
be raised before the call, or right after a given number of events. -/
namespace OptimalMatching

/-- `token` is `none` when nobody can cancel; otherwise it tells whether the token is raised already. -/
structure Watch where
  token : Option Bool
  after : Option Nat
  deriving DecidableEq, Repr

namespace Watch

def never : Watch := ⟨none, none⟩

def due (watch : Watch) (emitted : Nat) : Bool :=
  match watch.after with
  | none => false
  | some k => decide (k ≤ emitted)

def tokenAfter (watch : Watch) (emitted : Nat) : Option Bool :=
  watch.token.map (· || watch.due emitted)

def raised (watch : Watch) (emitted : Nat) : Bool := watch.tokenAfter emitted == some true

theorem neverRaised (emitted : Nat) : never.raised emitted = false := rfl

theorem dueMono {watch : Watch} {k l : Nat} (le : k ≤ l) (due : watch.due k = true) :
    watch.due l = true := by
  unfold Watch.due at *
  split at due <;> simp_all
  omega

theorem raisedMono {watch : Watch} {k l : Nat} (le : k ≤ l) (raised : watch.raised k = true) :
    watch.raised l = true := by
  cases watch with
  | mk token after =>
    cases token with
    | none => simp [Watch.raised, tokenAfter] at raised
    | some early =>
      have later : due ⟨some early, after⟩ k = true → due ⟨some early, after⟩ l = true := dueMono le
      simp only [Watch.raised, tokenAfter, Option.map_some, beq_iff_eq, Option.some.injEq,
        Bool.or_eq_true] at raised ⊢
      exact raised.imp_right later

end Watch

structure Tokens where
  flagOf : List Nat
  raised : List Bool
  deriving DecidableEq, Repr

namespace Tokens

def empty : Tokens := ⟨[], []⟩

def fresh (pool : Tokens) : Tokens :=
  ⟨pool.flagOf ++ [pool.raised.length], pool.raised ++ [false]⟩

def copy? (pool : Tokens) (token : Nat) : Option Tokens :=
  (pool.flagOf[token]?).map fun flag => { pool with flagOf := pool.flagOf ++ [flag] }

def cancel? (pool : Tokens) (token : Nat) : Option Tokens :=
  (pool.flagOf[token]?).map fun flag => { pool with raised := pool.raised.set flag true }

def cancelled (pool : Tokens) : List Bool :=
  pool.flagOf.map fun flag => pool.raised.getD flag false

end Tokens
end OptimalMatching
