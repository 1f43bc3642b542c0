import Inboard.Card

/-!
# Rows through a table

`m8_hw_write_xlat` sends rows of an 8 bpp DIB to the card, each byte through a table, a buffer of
rows at a time. The blit is of even columns, and may start before the DIB's columns or end after
them : there it sends zeros, which the scissors cut away.
-/

set_option linter.unusedSectionVars false

namespace Inboard

def M8_XROW_MAX : ℤ := 1024

/-- The size of `m8_xrow`. -/
def M8_XROW_SIZE : ℕ := 4096

/-- A host write within scissors, these with their last column. -/
def scissorWrite (clipL clipR x y w h : ℤ) (src : ℕ → UInt8) (pitch : ℕ) (c : Card) : Card :=
  fun p => if clipL ≤ p.1 ∧ p.1 ≤ clipR then (CardOp.write x y w h src pitch).apply c p else c p

/-- What `m8_hw_write_xlat` is given. `mem` is the memory from `row0` on. -/
structure XlatWrite where
  x : ℤ
  y : ℤ
  w : ℤ
  h : ℤ
  clipL : ℤ
  clipR : ℤ
  mem : ℤ → UInt8
  step : ℤ
  col0 : ℤ
  cols : ℤ
  tbl : UInt8 → UInt8

namespace XlatWrite

variable (a : XlatWrite)

/-- The DIB's columns in the row : [lo, hi). -/
def lo : ℤ := if a.col0 < 0 then int16 (-a.col0) else 0

def hi : ℤ := if int16 (a.cols - a.col0) < a.w then int16 (a.cols - a.col0) else a.w

/-- The byte for a pixel of a row, which `M8_XLAT` reads, or 0. -/
def rowByte (row k : ℤ) : UInt8 :=
  if a.lo ≤ k ∧ k < a.hi then a.tbl (a.mem (row * a.step + a.col0 + k)) else 0

/-- An offset that is read. -/
def Reads (off : ℤ) : Prop :=
  ∃ row k, 0 ≤ row ∧ row < a.h ∧ a.lo ≤ k ∧ k < a.hi ∧ off = row * a.step + a.col0 + k

/-- `m8_xrow`, filled with the rows from one on. -/
def xrow (row : ℕ) (i : ℕ) : UInt8 :=
  a.rowByte ((row + i / a.w.toNat : ℕ) : ℤ) ((i % a.w.toNat : ℕ) : ℤ)

/-- The rows a buffer holds. -/
def band : ℕ := if a.w % 2 = 1 then 1 else M8_XROW_SIZE / a.w.toNat

/-- Nothing is sent, or read. -/
def Empty : Prop := a.w ≤ 0 ∨ a.h ≤ 0 ∨ a.w > M8_XROW_MAX

instance : Decidable a.Empty := by unfold Empty; infer_instance

/-- `m8_hw_write_xlat`. -/
def m8HwWriteXlat (c : Card) : Card :=
  if a.Empty then c
  else
    (strips a.band a.h.toNat 0).foldl (fun c s =>
      scissorWrite a.clipL (int16 (a.clipR - 1)) a.x (a.y + s.1) a.w s.2 (a.xrow s.1) a.w.toNat c) c

variable {a}

/-- What it leaves : the rows' bytes within the scissors. -/
theorem m8HwWriteXlat_apply (hempty : ¬a.Empty) (heven : 2 ∣ a.w) (c : Card) (p : Pixel) :
    a.m8HwWriteXlat c p =
      if p ∈ Rect.at a.x a.y a.w a.h ∧ a.clipL ≤ p.1 ∧ p.1 ≤ int16 (a.clipR - 1) then
        a.rowByte (p.2 - a.y) (p.1 - a.x) else c p := by
  unfold Empty M8_XROW_MAX at hempty
  push Not at hempty
  obtain ⟨hw, hh, hmax⟩ := hempty
  have hband : 0 < a.band := by
    unfold band M8_XROW_SIZE
    split_ifs
    · exact Nat.one_pos
    · exact Nat.div_pos (by omega) (by omega)
  rw [m8HwWriteXlat, if_neg (by unfold Empty M8_XROW_MAX; omega)]
  have hrows := @strips_induct _ (fun d c' => ∀ p : Pixel, c' p =
      if p ∈ Rect.at a.x a.y a.w d ∧ a.clipL ≤ p.1 ∧ p.1 ≤ int16 (a.clipR - 1) then
        a.rowByte (p.2 - a.y) (p.1 - a.x) else c p)
    (fun c s => scissorWrite a.clipL (int16 (a.clipR - 1)) a.x (a.y + s.1) a.w s.2 (a.xrow s.1)
      a.w.toNat c) a.band a.h.toNat ?_ hband 0 c (Nat.zero_le _) ?_
  · rw [hrows p, Int.toNat_of_nonneg (by omega)]
  · intro d n c' hn _ hP p
    have hwords : a.w / 2 * 2 = a.w := Int.ediv_mul_cancel heven
    unfold scissorWrite CardOp.apply
    dsimp only
    rw [hwords]
    by_cases hclip : a.clipL ≤ p.1 ∧ p.1 ≤ int16 (a.clipR - 1)
    · rw [if_pos hclip]
      by_cases hin : p ∈ Rect.at a.x (a.y + d) a.w n
      · rw [Rect.paint_mem hin]
        rw [Rect.mem_at] at hin
        rw [if_pos ⟨by rw [Rect.mem_at]; omega, hclip⟩, xrow]
        have hcol : (p.1 - a.x).toNat < a.w.toNat := by omega
        rw [Nat.mul_comm, Nat.mul_add_div (by omega), Nat.div_eq_of_lt hcol, Nat.mul_add_mod,
          Nat.mod_eq_of_lt hcol]
        congr 1
        · omega
        · omega
      · rw [Rect.paint_not_mem hin, hP p]
        rw [Rect.mem_at] at hin
        refine if_congr (and_congr_left fun _ => ?_) rfl rfl
        rw [Rect.mem_at, Rect.mem_at]
        omega
    · rw [if_neg hclip, hP p, if_neg fun h => hclip h.2, if_neg fun h => hclip h.2]
  · intro p
    rw [if_neg]
    rintro ⟨hin, -⟩
    rw [Rect.mem_at] at hin
    omega

end XlatWrite

end Inboard
