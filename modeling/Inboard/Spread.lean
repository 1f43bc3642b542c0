import Mathlib.Tactic.Common
import Mathlib.Data.Nat.Basic

/-!
# Spreading lines in place

`n` lines of a store, each of which is to become the line at a `k`-th of its number. The loops run
from the last line down, so each copy reads a line that is as it was (`SpreadFrom.step`) : a line's
source is not after it. The first line is its own source and is left out.
-/

set_option linter.unusedSectionVars false

namespace Inboard

variable {ι P β : Type*}

/-- Line `q` becomes what line `q / k` is. -/
structure LineCopy (cell : ℕ → ι → P) (I : ι → Prop) (k q : ℕ) (c c' : P → β) : Prop where
  line : ∀ i, I i → c' (cell q i) = c (cell (q / k) i)
  rest : ∀ p, (∀ i, I i → p ≠ cell q i) → c' p = c p

/-- The lines from `q` on are spread. -/
structure SpreadFrom (cell : ℕ → ι → P) (I : ι → Prop) (k n q : ℕ) (c c' : P → β) : Prop where
  spread : ∀ r, q ≤ r → r < n → ∀ i, I i → c' (cell r i) = c (cell (r / k) i)
  rest : ∀ p, (∀ r, q ≤ r → r < n → ∀ i, I i → p ≠ cell r i) → c' p = c p

section Steps

variable {cell : ℕ → ι → P} {I : ι → Prop} {k n q : ℕ} {c c' c'' : P → β}

theorem SpreadFrom.start (cell : ℕ → ι → P) (I : ι → Prop) (k n : ℕ) (c : P → β) :
    SpreadFrom cell I k n n c c :=
  ⟨fun _ hq hr => absurd hr (Nat.not_lt.mpr hq), fun _ _ => rfl⟩

/-- The line before them is copied from one that was not yet. -/
theorem SpreadFrom.step (hcell : ∀ q r i j, cell q i = cell r j → q = r)
    (h : SpreadFrom cell I k n (q + 1) c c') (hq : q < n) (hc : LineCopy cell I k q c' c'') :
    SpreadFrom cell I k n q c c'' := by
  constructor
  · intro r hr hrn i hi
    rcases Nat.eq_or_lt_of_le hr with rfl | hlt
    · rw [hc.line i hi]
      refine h.rest _ fun r hr _ j _ heq => ?_
      have hline := hcell _ _ _ _ heq
      have hsource := Nat.div_le_self q k
      omega
    · rw [hc.rest _ fun j _ heq => ?_]
      · exact h.spread r hlt hrn i hi
      · have hline := hcell _ _ _ _ heq
        omega
  · intro p hp
    rw [hc.rest p fun i hi => hp q (Nat.le_refl q) hq i hi]
    exact h.rest p fun r hr hrn => hp r (by omega) hrn

/-- All but the first are spread, and the first is. -/
theorem SpreadFrom.all (hcell : ∀ q r i j, cell q i = cell r j → q = r)
    (h : SpreadFrom cell I k n 1 c c') {r : ℕ} (hr : r < n) {i : ι} (hi : I i) :
    c' (cell r i) = c (cell (r / k) i) := by
  rcases Nat.eq_zero_or_pos r with rfl | hpos
  · rw [Nat.zero_div]
    refine h.rest _ fun r hr _ j _ heq => ?_
    have hline := hcell _ _ _ _ heq
    omega
  · exact h.spread r hpos hr i hi

end Steps

/-! ## The loops -/

section Loops

variable {σ : Type*}

/-- For `t` down to `stop`. -/
def downTo (copy : ℕ → σ → σ) (stop : ℕ) : ℕ → σ → σ
  | 0, s => s
  | t + 1, s => if stop ≤ t then downTo copy stop t (copy t s) else s

/-- For `j` down to 0, and for the `k` lines of each, but for the very first. -/
def spreadLoop (k : ℕ) (copy : ℕ → ℕ → σ → σ) : ℕ → σ → σ
  | 0, s => s
  | j + 1, s => spreadLoop k copy j (downTo (copy j) (if j = 0 then 1 else 0) k s)

variable {cell : ℕ → ι → P} {I : ι → Prop} {k n : ℕ} {c : P → β}

/-- What the inner loop spreads. -/
theorem downTo_spread (hcell : ∀ q r i j, cell q i = cell r j → q = r) {j stop : ℕ}
    {copy : ℕ → (P → β) → P → β} (hcopy : ∀ t c, t < k → LineCopy cell I k (j * k + t) c (copy t c))
    (hn : j * k + k ≤ n) : ∀ (t : ℕ) (c' : P → β), stop ≤ t → t ≤ k →
      SpreadFrom cell I k n (j * k + t) c c' →
        SpreadFrom cell I k n (j * k + stop) c (downTo copy stop t c')
  | 0, c', hstop, _, h => by
    obtain rfl : stop = 0 := Nat.le_zero.mp hstop
    exact h
  | t + 1, c', hstop, ht, h => by
    rw [downTo]
    by_cases hmore : stop ≤ t
    · rw [if_pos hmore]
      exact downTo_spread hcell hcopy hn t _ hmore (by omega)
        (h.step hcell (by omega) (hcopy t c' (by omega)))
    · rw [if_neg hmore]
      obtain rfl : stop = t + 1 := by omega
      exact h

/-- What both spread. -/
theorem spreadLoop_spread (hcell : ∀ q r i j, cell q i = cell r j → q = r) (hk : 0 < k)
    {copy : ℕ → ℕ → (P → β) → P → β}
    (hcopy : ∀ j t c, t < k → j * k + t < n → LineCopy cell I k (j * k + t) c (copy j t c)) :
    ∀ (j : ℕ) (c' : P → β), j * k ≤ n → SpreadFrom cell I k n (if j = 0 then 1 else j * k) c c' →
      SpreadFrom cell I k n 1 c (spreadLoop k copy j c')
  | 0, _, _, h => h
  | j + 1, c', hn, h => by
    rw [if_neg (Nat.succ_ne_zero j), Nat.succ_mul] at h
    rw [Nat.succ_mul] at hn
    rw [spreadLoop]
    refine spreadLoop_spread hcell hk hcopy j _ (by omega) ?_
    have hinner := @downTo_spread _ _ _ _ _ _ _ _ hcell j (if j = 0 then 1 else 0) _
      (fun t c ht => hcopy j t c ht (by omega)) hn k c' (by split_ifs <;> omega) (Nat.le_refl k) h
    have hlow : j * k + (if j = 0 then 1 else 0) = if j = 0 then 1 else j * k := by
      split_ifs with hj
      · rw [hj, Nat.zero_mul]
      · rfl
    rwa [hlow] at hinner

/-- The loops spread all `s * k` lines, and nothing else changes. -/
theorem spreadLoop_all (hcell : ∀ q r i j, cell q i = cell r j → q = r) (hk : 0 < k) {s : ℕ}
    (hs : 0 < s) {copy : ℕ → ℕ → (P → β) → P → β}
    (hcopy : ∀ j t c, t < k → j * k + t < s * k →
      LineCopy cell I k (j * k + t) c (copy j t c)) (c : P → β) :
    (∀ q < s * k, ∀ i, I i → spreadLoop k copy s c (cell q i) = c (cell (q / k) i)) ∧
      ∀ p, (∀ q < s * k, ∀ i, I i → p ≠ cell q i) → spreadLoop k copy s c p = c p := by
  have hspread := spreadLoop_spread hcell hk hcopy s c (Nat.le_refl _) (by
    rw [if_neg (Nat.ne_of_gt hs)]
    exact SpreadFrom.start _ _ _ _ _)
  exact ⟨fun q hq i hi => hspread.all hcell hq hi,
    fun p hp => hspread.rest p fun q _ hq => hp q hq⟩

/-- A line's source. -/
theorem line_source {j t : ℕ} (ht : t < k) : (j * k + t) / k = j := by
  rw [Nat.mul_comm, Nat.mul_add_div (by omega), Nat.div_eq_of_lt ht, Nat.add_zero]

end Loops

end Inboard
