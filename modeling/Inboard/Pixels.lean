import Mathlib.Tactic.Common
import Mathlib.Logic.Function.Basic
import Mathlib.Algebra.Order.Ring.Int
import Mathlib.Algebra.Order.Ring.Nat

/-!
# Rectangles of pixels

Rectangles with an exclusive right and bottom edge, and loops over their pixels, row by row
and from left to right. A loop that stores a value for each pixel stores all of them and
nothing else (`Rect.each_update`, `Rect.each_update_of_ne`).
-/

set_option linter.unusedSectionVars false

namespace Inboard

/-- An `int` of 16 bits. -/
def int16 (x : ℤ) : ℤ := (x + 32768) % 65536 - 32768

theorem int16_eq {x : ℤ} (h : -32768 ≤ x ∧ x < 32768) : int16 x = x := by
  unfold int16
  omega

/-- The last of the engine's 12-bit coordinates. -/
def M8_COORD_MAX : ℤ := 2047

/-! ## The sizes of the small tables

Named, so that an entry written as a literal is the same term in every module. -/

instance neZero_two : NeZero 2 := ⟨by decide⟩
instance neZero_three : NeZero 3 := ⟨by decide⟩
instance neZero_sixteen : NeZero 16 := ⟨by decide⟩
instance neZero_thirtyTwo : NeZero 32 := ⟨by decide⟩
instance neZero_sixtyFour : NeZero 64 := ⟨by decide⟩

/-- A pixel : its column and its row. -/
abbrev Pixel := ℤ × ℤ

/-- `RECT`. -/
@[ext] structure Rect where
  left : ℤ
  top : ℤ
  right : ℤ
  bottom : ℤ
  deriving DecidableEq, Repr

namespace Rect

variable (r : Rect) (p : Pixel)

instance : Membership Pixel Rect :=
  ⟨fun r p => r.left ≤ p.1 ∧ p.1 < r.right ∧ r.top ≤ p.2 ∧ p.2 < r.bottom⟩

variable {r p}

theorem mem_iff : p ∈ r ↔ r.left ≤ p.1 ∧ p.1 < r.right ∧ r.top ≤ p.2 ∧ p.2 < r.bottom := Iff.rfl

instance : Decidable (p ∈ r) := decidable_of_iff _ mem_iff.symm

/-- The edges moved out to even columns. -/
def even (r : Rect) : Rect := { r with left := r.left / 2 * 2, right := (r.right + 1) / 2 * 2 }

theorem mem_even (h : p ∈ r) : p ∈ r.even := by
  rw [mem_iff] at h
  rw [even, mem_iff]
  dsimp only
  omega

/-! ## Loops -/

variable {σ : Type*}

/-- `f i` for `n` numbers from `i` on. -/
def loop (f : ℤ → σ → σ) : ℕ → ℤ → σ → σ
  | 0, _, s => s
  | n + 1, i, s => loop f n (i + 1) (f i s)

/-- `f` for each pixel. -/
def each (f : Pixel → σ → σ) (r : Rect) (s : σ) : σ :=
  loop (fun y => loop (fun x => f (x, y)) (r.right - r.left).toNat r.left)
    (r.bottom - r.top).toNat r.top s

/-- What each round of a loop keeps, with what the rounds done have added. -/
theorem loop_induct {P : ℤ → σ → Prop} {f : ℤ → σ → σ} : ∀ {n : ℕ} {i : ℤ} {s : σ}, P i s →
    (∀ j s, i ≤ j → j < i + n → P j s → P (j + 1) (f j s)) → P (i + n) (loop f n i s)
  | 0, i, s, h, _ => by
    rw [loop]
    simpa using h
  | n + 1, i, s, h, hstep => by
    rw [loop]
    have hnext : P (i + 1 + n) (loop f n (i + 1) (f i s)) :=
      loop_induct (hstep i s (Int.le_refl i) (by omega) h) fun j t hj hlt =>
        hstep j t (by omega) (by omega)
    have heq : i + 1 + n = i + (n + 1 : ℕ) := by omega
    rwa [← heq]

/-- Pixels of the rows before `y`, and of row `y` before column `x`. -/
def Before (r : Rect) (x y : ℤ) (p : Pixel) : Prop :=
  p ∈ r ∧ (p.2 < y ∨ p.2 = y ∧ p.1 < x)

/-- What each pixel of a loop keeps, over the set of the pixels that are done. -/
theorem each_induct {P : (Pixel → Prop) → σ → Prop} {f : Pixel → σ → σ} {s : σ}
    (h : P (fun _ => False) s)
    (hstep : ∀ p ∈ r, ∀ (D : Pixel → Prop) s, (∀ q, D q → q ∈ r) → P D s →
      P (fun q => D q ∨ q = p) (f p s)) : P (· ∈ r) (r.each f s) := by
  have hcols : ∀ y, r.top ≤ y → y < r.bottom → ∀ s, P (r.Before r.left y) s →
      P (r.Before r.left (y + 1)) (loop (fun x => f (x, y)) (r.right - r.left).toNat r.left s) := by
    intro y hy hlt s hs
    have hrow := loop_induct (P := fun x s => P (r.Before x y) s) (f := fun x => f (x, y))
      (n := (r.right - r.left).toNat) hs fun x s hx hxr hP => by
        have hmem : (x, y) ∈ r := by
          rw [mem_iff]
          dsimp only
          omega
        have hnext := hstep (x, y) hmem _ s (fun q hq => hq.1) hP
        have heq : (fun q => r.Before x y q ∨ q = (x, y)) = r.Before (x + 1) y := by
          ext ⟨qx, qy⟩
          rw [Before, Before, mem_iff, Prod.mk.injEq]
          dsimp only
          omega
        rwa [heq] at hnext
    have heq : r.Before (r.left + (r.right - r.left).toNat) y = r.Before r.left (y + 1) := by
      ext ⟨qx, qy⟩
      rw [Before, Before, mem_iff]
      dsimp only
      omega
    rwa [heq] at hrow
  have hrows := loop_induct (P := fun y s => P (r.Before r.left y) s)
    (f := fun y => loop (fun x => f (x, y)) (r.right - r.left).toNat r.left)
    (n := (r.bottom - r.top).toNat) (i := r.top) (s := s) (by
      have heq : r.Before r.left r.top = fun _ => False := by
        ext ⟨qx, qy⟩
        rw [Before, mem_iff]
        dsimp only
        refine ⟨fun hbefore => ?_, False.elim⟩
        omega
      rwa [heq]) fun y s hy hlt hP => hcols y hy (by omega) s hP
  have heq : r.Before r.left (r.top + (r.bottom - r.top).toNat) = (· ∈ r) := by
    ext ⟨qx, qy⟩
    rw [Before, mem_iff]
    dsimp only
    omega
  rwa [heq] at hrows

section Update

variable {γ β : Type*} [DecidableEq γ] {place : Pixel → γ} {v : Pixel → β} {m : γ → β}

/-- A loop that stores `v p` at `place p`. -/
def store (place : Pixel → γ) (v : Pixel → β) (r : Rect) (m : γ → β) : γ → β :=
  r.each (fun p m => Function.update m (place p) (v p)) m

theorem store_of_ne {q : γ} (h : ∀ p ∈ r, place p ≠ q) : r.store place v m q = m q := by
  refine each_induct (P := fun _ (s : γ → β) => s q = m q) rfl fun p hp _ s _ hs => ?_
  rw [Function.update_of_ne (h p hp).symm]
  exact hs

theorem store_of_mem (hinj : ∀ p ∈ r, ∀ q ∈ r, place p = place q → p = q) (hp : p ∈ r) :
    r.store place v m (place p) = v p := by
  refine each_induct (P := fun D (s : γ → β) => ∀ p, D p → s (place p) = v p) (fun p hp => hp.elim)
    (fun p hp D s hD hs q hq => ?_) p hp
  by_cases heq : q = p
  · rw [heq, Function.update_self]
  · have hDq := hq.resolve_right heq
    rw [Function.update_of_ne fun h => heq (hinj q (hD q hDq) p hp h)]
    exact hs q hDq

end Update

/-! ## Painting -/

section Paint

variable {α : Type*}

/-- `v` on the pixels of `r`, and `f` elsewhere. -/
def paint (r : Rect) (v f : Pixel → α) : Pixel → α := fun p => if p ∈ r then v p else f p

theorem paint_mem {v f : Pixel → α} (h : p ∈ r) : r.paint v f p = v p := if_pos h

theorem paint_not_mem {v f : Pixel → α} (h : p ∉ r) : r.paint v f p = f p := if_neg h

/-- The row of `r` at `y`. -/
def row (r : Rect) (y : ℤ) : Rect := ⟨r.left, y, r.right, y + 1⟩

theorem mem_row {y : ℤ} : p ∈ r.row y ↔ r.left ≤ p.1 ∧ p.1 < r.right ∧ p.2 = y := by
  rw [row, mem_iff]
  dsimp only
  omega

end Paint

/-! ## Two rectangles -/

/-- `a` is inside `b`. -/
def Inside (a b : Rect) : Prop :=
  b.left ≤ a.left ∧ b.top ≤ a.top ∧ a.right ≤ b.right ∧ a.bottom ≤ b.bottom

instance (a b : Rect) : Decidable (a.Inside b) := by unfold Inside; infer_instance

theorem Inside.mem {a b : Rect} (h : a.Inside b) (hp : p ∈ a) : p ∈ b := by
  obtain ⟨hl, ht, hr, hb⟩ := h
  rw [mem_iff] at hp ⊢
  omega

/-- The box around both. -/
def box (a b : Rect) : Rect where
  left := min a.left b.left
  top := min a.top b.top
  right := max a.right b.right
  bottom := max a.bottom b.bottom

theorem mem_box_left {a b : Rect} (h : p ∈ a) : p ∈ a.box b := by
  rw [mem_iff] at h
  rw [box, mem_iff]
  dsimp only
  omega

theorem mem_box_right {a b : Rect} (h : p ∈ b) : p ∈ a.box b := by
  rw [mem_iff] at h
  rw [box, mem_iff]
  dsimp only
  omega

def Empty (a : Rect) : Prop := a.right ≤ a.left ∨ a.bottom ≤ a.top

instance (a : Rect) : Decidable a.Empty := by unfold Empty; infer_instance

theorem Empty.not_mem {a : Rect} (h : a.Empty) : p ∉ a := by
  intro hp
  rw [mem_iff] at hp
  unfold Empty at h
  omega

/-- `UnionRect` : an empty rectangle adds nothing. -/
def union (a b : Rect) : Rect := if a.Empty then b else if b.Empty then a else a.box b

theorem mem_union_left {a b : Rect} (h : p ∈ a) : p ∈ a.union b := by
  unfold union
  split_ifs with ha hb
  · exact absurd h ha.not_mem
  · exact h
  · exact mem_box_left h

theorem mem_union_right {a b : Rect} (h : p ∈ b) : p ∈ a.union b := by
  unfold union
  split_ifs with ha hb
  · exact h
  · exact absurd h hb.not_mem
  · exact mem_box_right h

/-- `m8_rect_and`. -/
def inter (a b : Rect) : Rect where
  left := max a.left b.left
  top := max a.top b.top
  right := min a.right b.right
  bottom := min a.bottom b.bottom

theorem mem_inter {a b : Rect} : p ∈ a.inter b ↔ p ∈ a ∧ p ∈ b := by
  simp only [mem_iff, inter, Int.max_le, Int.lt_min]
  tauto

/-- No pixel is in both. -/
def Apart (a b : Rect) : Prop := ∀ p, p ∈ a → p ∉ b

theorem Apart.symm {a b : Rect} (h : a.Apart b) : b.Apart a := fun p hb ha => h p ha hb

def area (a : Rect) : ℤ := (a.right - a.left) * (a.bottom - a.top)

end Rect

end Inboard
