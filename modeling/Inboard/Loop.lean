import Mathlib.Tactic.Common
import Mathlib.Algebra.Order.Ring.Int
import Mathlib.Algebra.Order.Ring.Nat

/-!
# Loops that end

An assembly loop is a step function on the registers it keeps : a step either goes
round again (`.inl`) or leaves the loop (`.inr`). A `Loop` carries a measure that every
step round lowers, so it ends on every input and `Loop.run` is total. `run` counts the
measure down, so it computes; `run_of_inl` and `run_of_inr` unfold it one step, and
`run_induct` is the invariant rule : what a step keeps, and what leaving gives.

A jump out of a routine is `Except.error`. `Ends Q P` is its postcondition, `P` where it
falls through and `Q` where it jumps, and `Ends.bind` composes routines.
-/

namespace Inboard

/-- A loop body with a measure each step round lowers. -/
structure Loop (σ ρ : Type*) where
  step : σ → σ ⊕ ρ
  /-- What bounds the steps left. -/
  measure : σ → ℕ
  decreases : ∀ s s', step s = .inl s' → measure s' < measure s

namespace Loop

variable {σ ρ : Type*} (L : Loop σ ρ)

/-- At most `n` steps, with the measure below `n`. -/
def runFor : (n : ℕ) → (s : σ) → L.measure s < n → ρ
  | 0, _, h => absurd h (Nat.not_lt_zero _)
  | n + 1, s, h =>
    match hs : L.step s with
    | .inl s' => runFor n s' (Nat.lt_of_lt_of_le (L.decreases s s' hs) (Nat.lt_succ_iff.1 h))
    | .inr r => r

/-- Run the loop from `s` until it leaves. -/
def run (s : σ) : ρ :=
  L.runFor (L.measure s + 1) s (Nat.lt_succ_self _)

/-- Any bound above the measure gives the same result. -/
theorem runFor_eq : ∀ (n m : ℕ) (s : σ) (hn : L.measure s < n) (hm : L.measure s < m),
    L.runFor n s hn = L.runFor m s hm
  | 0, _, _, hn, _ => absurd hn (Nat.not_lt_zero _)
  | _ + 1, 0, _, _, hm => absurd hm (Nat.not_lt_zero _)
  | n + 1, m + 1, s, hn, hm => by
    unfold runFor
    split
    · exact runFor_eq n m _ _ _
    · rfl

theorem run_of_inl {s s' : σ} (h : L.step s = .inl s') : L.run s = L.run s' := by
  have hlt := L.decreases s s' h
  unfold run
  rw [runFor]
  split
  next t ht =>
    obtain rfl : t = s' := Sum.inl.inj (ht.symm.trans h)
    exact L.runFor_eq _ _ _ _ _
  next r hr => simp [hr] at h

theorem run_of_inr {s : σ} {r : ρ} (h : L.step s = .inr r) : L.run s = r := by
  unfold run
  rw [runFor]
  split
  next t ht => simp [ht] at h
  next r' hr => exact Sum.inr.inj (hr.symm.trans h)

/-- The invariant rule. If `I` holds at the start, every step round keeps it, and
leaving from `I` gives `P`, the result satisfies `P`. -/
theorem run_induct {I : σ → Prop} {P : ρ → Prop}
    (round : ∀ s s', I s → L.step s = .inl s' → I s')
    (leave : ∀ s r, I s → L.step s = .inr r → P r) (s : σ) (hs : I s) : P (L.run s) := by
  induction hm : L.measure s using Nat.strong_induction_on generalizing s with
  | _ m ih =>
    subst hm
    cases h : L.step s with
    | inl s' =>
      rw [L.run_of_inl h]
      exact ih _ (L.decreases s s' h) s' (round s s' hs h) rfl
    | inr r =>
      rw [L.run_of_inr h]
      exact leave s r hs h

end Loop

/-! ## Routines that jump out -/

/-- `x` falls through with `P`, or jumps out with `Q`. -/
def Ends {ε α : Type*} (Q : ε → Prop) (P : α → Prop) : Except ε α → Prop
  | .ok a => P a
  | .error e => Q e

namespace Ends

universe u

variable {ε : Type*} {α β : Type u} {Q : ε → Prop} {P : α → Prop} {R : β → Prop}

theorem bind {x : Except ε α} {f : α → Except ε β} (hx : Ends Q P x)
    (hf : ∀ a, P a → Ends Q R (f a)) : Ends Q R (x >>= f) := by
  cases x with
  | ok a => exact hf a hx
  | error e => exact hx

theorem mono {x : Except ε α} {Q' : ε → Prop} {P' : α → Prop} (hx : Ends Q P x)
    (hQ : ∀ e, Q e → Q' e) (hP : ∀ a, P a → P' a) : Ends Q' P' x := by
  cases x with
  | ok a => exact hP a hx
  | error e => exact hQ e hx

end Ends

end Inboard
