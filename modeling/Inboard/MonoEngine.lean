import Inboard.Card
import Inboard.M8Engine

/-!
# Bits to pixels

The engine makes pixels of bits that the host sends (`Expansion`), or that a plane of the card
holds (`PlaneBlit`) : a 1 takes the foreground's mix and a 0 the background's. It does so for what
its coordinates hold, and for as many bits as the rectangle has ; of anything else nothing is said
(`MonoEngine`). `m8_mono` sends rows of bytes, in one piece or a row at a time.
-/

set_option linter.unusedSectionVars false

namespace Inboard

/-! ## The engine -/

/-- The first of the engine's 12-bit coordinates. -/
def M8_COORD_MIN : ℤ := -2048

/-- Where an expansion's columns may start. -/
def M8_EXPAND_X_MIN : ℤ := -512

def M8_EXPAND_X_MAX : ℤ := 1535

/-- A value as a `WORD`. -/
def toWord (z : ℤ) : ℕ := (z % 65536).toNat

/-- Bit `n` of a row of bytes, the leftmost in the top bit. -/
def pixelBit (bits : ℕ → UInt8) (n : ℕ) : Bool := (bits (n / 8)).toNat.testBit (7 - n % 8)

/-- An expansion of host data : the columns and rows, the scissors with their last column and row,
the bytes, the mix registers with their colours, and the planes that are written. -/
structure Expansion where
  x : ℤ
  xEnd : ℤ
  y : ℤ
  yEnd : ℤ
  clip : Rect
  data : List UInt8
  fgMix : ℕ
  fg : UInt8
  bgMix : ℕ
  bg : UInt8
  wrtMask : UInt8

/-- A blit that one plane of its source chooses the mix for. -/
structure PlaneBlit where
  sx : ℤ
  sy : ℤ
  dx : ℤ
  dy : ℤ
  w : ℤ
  h : ℤ
  plane : ℕ
  fgMix : ℕ
  fg : UInt8
  bgMix : ℕ
  bg : UInt8

/-- What a mix register's value makes of the two colours and of the pixel that is there. -/
abbrev Mixed := ℕ → UInt8 → UInt8 → UInt8 → UInt8

namespace Expansion

variable (e : Expansion)

/-- What the engine's coordinates hold, with a bit for every pixel. -/
structure Takes : Prop where
  column : M8_EXPAND_X_MIN ≤ e.x ∧ e.x ≤ M8_EXPAND_X_MAX
  columns : e.x < e.xEnd ∧ e.xEnd ≤ M8_COORD_MAX
  rows : M8_COORD_MIN ≤ e.y ∧ e.y < e.yEnd ∧ e.yEnd ≤ M8_COORD_MAX
  bits : (8 * e.data.length : ℤ) = (e.xEnd - e.x) * (e.yEnd - e.y)

/-- The pixels, within the scissors. -/
def Draws (p : Pixel) : Prop :=
  (e.x ≤ p.1 ∧ p.1 < e.xEnd ∧ e.y ≤ p.2 ∧ p.2 < e.yEnd) ∧
    e.clip.left ≤ p.1 ∧ p.1 ≤ e.clip.right ∧ e.clip.top ≤ p.2 ∧ p.2 ≤ e.clip.bottom

instance : DecidablePred e.Draws := fun p => by unfold Draws; infer_instance

/-- The bit of a pixel : the bits run on across the rows. -/
def bit (p : Pixel) : Bool :=
  pixelBit (e.data.getD · 0) ((p.2 - e.y) * (e.xEnd - e.x) + (p.1 - e.x)).toNat

def drawn (mixed : Mixed) (c : Card) : Card := fun p =>
  if e.Draws p then
    (c p &&& ~~~e.wrtMask) |||
      (mixed (if e.bit p = true then e.fgMix else e.bgMix) e.fg e.bg (c p) &&& e.wrtMask)
  else c p

end Expansion

namespace PlaneBlit

variable (b : PlaneBlit)

/-- What the engine's coordinates hold, of a source apart from the destination. -/
structure Takes : Prop where
  size : 0 < b.w ∧ 0 < b.h
  source : 0 ≤ b.sx ∧ b.sx + b.w ≤ M8_COORD_MAX ∧ 0 ≤ b.sy ∧ b.sy + b.h ≤ M8_COORD_MAX
  dest : 0 ≤ b.dx ∧ b.dx + b.w ≤ M8_COORD_MAX ∧ 0 ≤ b.dy ∧ b.dy + b.h ≤ M8_COORD_MAX
  apart : (Rect.at b.sx b.sy b.w b.h).Apart (Rect.at b.dx b.dy b.w b.h)

def drawn (mixed : Mixed) (c : Card) : Card := fun p =>
  if p ∈ Rect.at b.dx b.dy b.w b.h then
    mixed (if (c (b.sx + (p.1 - b.dx), b.sy + (p.2 - b.dy))).toNat.testBit b.plane = true then
      b.fgMix else b.bgMix) b.fg b.bg (c p)
  else c p

end PlaneBlit

/-- An engine, by what it does with what it takes. -/
structure MonoEngine where
  mixed : Mixed
  expand : Expansion → Card → Card
  planes : PlaneBlit → Card → Card
  mixed_fg : ∀ fg bg d, mixed (M8_MIX_SRC_FRGD ||| M8_MIX_REPLACE) fg bg d = fg
  mixed_bg : ∀ fg bg d, mixed (M8_MIX_SRC_BKGD ||| M8_MIX_REPLACE) fg bg d = bg
  expand_eq : ∀ e c, e.Takes → expand e c = e.drawn mixed c
  planes_eq : ∀ b c, b.Takes → planes b c = b.drawn mixed c

/-! ## Sending rows -/

/-- The bytes that `m8_mono` sends : rows `stride` apart a row at a time, or all in one piece with
an odd last byte alone. -/
def monoData (bits : ℕ → UInt8) (stride widthBytes height : ℕ) : List UInt8 :=
  if stride ≠ widthBytes then
    (List.range height).flatMap fun row =>
      (List.range (widthBytes / 2 * 2)).map fun i => bits (row * stride % 65536 + i)
  else
    (List.range (widthBytes * height / 2 % 65536 * 2)).map bits ++
      if widthBytes * height % 2 = 1 then [bits (widthBytes * height - 1)] else []

/-- The mixes with their colours. -/
structure MonoInk where
  fgMix : ℕ
  fg : UInt8
  bgMix : ℕ
  bg : UInt8

namespace MonoEngine

variable (E : MonoEngine)

/-- `m8_mono`. -/
def m8Mono (x y : ℤ) (widthBytes height : ℕ) (bits : ℕ → UInt8) (stride : ℕ) (ink : MonoInk)
    (clip : Rect) (wrtMask : UInt8) (c : Card) : Card :=
  if widthBytes = 0 ∨ height = 0 then c
  else
    E.expand ⟨x, int16 (x + widthBytes * 8), y, int16 (y + height), clip,
      monoData bits stride widthBytes height, ink.fgMix, ink.fg, ink.bgMix, ink.bg, wrtMask⟩ c

/-- `m8_hw_mono`. -/
def m8HwMono (hwOff : Bool) (x y : ℤ) (widthBytes height : ℕ) (bits : ℕ → UInt8) (ink : MonoInk)
    (clip : Rect) (c : Card) : Card :=
  if hwOff = true then c else E.m8Mono x y widthBytes height bits widthBytes ink clip 0xFF c

/-- `m8_hw_mono_rows`. -/
def m8HwMonoRows (hwOff : Bool) (x y : ℤ) (widthBytes height : ℕ) (bits : ℕ → UInt8)
    (stride : ℕ) (ink : MonoInk) (clip : Rect) (c : Card) : Card :=
  if hwOff = true ∨ widthBytes % 2 = 1 then c
  else E.m8Mono x y widthBytes height bits stride ink clip 0xFF c

/-- `m8_hw_mono_plane`. -/
def m8HwMonoPlane (hwOff : Bool) (x y : ℤ) (widthBytes height : ℕ) (bits : ℕ → UInt8)
    (plane : ℕ) (c : Card) : Card :=
  if hwOff = true then c
  else
    E.m8Mono x y widthBytes height bits widthBytes
      ⟨M8_MIX_SRC_FRGD ||| M8_MIX_REPLACE, 0xFF, M8_MIX_SRC_BKGD ||| M8_MIX_REPLACE, 0x00⟩
      ⟨x, y, int16 (x + widthBytes * 8 - 1), int16 (y + height - 1)⟩ (UInt8.ofNat (2 ^ plane)) c

/-- `m8_hw_plane_mixes`. -/
def m8HwPlaneMixes (hwOff : Bool) (sx sy dx dy w h : ℤ) (plane : ℕ) (ink : MonoInk) (c : Card) :
    Card :=
  if hwOff = true ∨ w ≤ 0 ∨ h ≤ 0 then c
  else E.planes ⟨sx, sy, dx, dy, w, h, plane, ink.fgMix, ink.fg, ink.bgMix, ink.bg⟩ c

end MonoEngine

/-! ## What is sent -/

/-- A list made of rows of one length. -/
theorem length_rows {α : Type*} (f : ℕ → ℕ → α) (w : ℕ) : ∀ n : ℕ,
    ((List.range n).flatMap fun j => (List.range w).map (f j)).length = n * w
  | 0 => by simp
  | n + 1 => by
    rw [List.range_succ, List.flatMap_append, List.length_append, length_rows f w n, Nat.succ_mul]
    simp

theorem getElem?_rows {α : Type*} (f : ℕ → ℕ → α) {w i : ℕ} (hi : i < w) : ∀ {n j : ℕ}, j < n →
    ((List.range n).flatMap fun j => (List.range w).map (f j))[j * w + i]? = some (f j i)
  | n + 1, j, hj => by
    rw [List.range_succ, List.flatMap_append]
    rcases Nat.lt_succ_iff_lt_or_eq.mp hj with hlt | rfl
    · have hle : (j + 1) * w ≤ n * w := Nat.mul_le_mul_right w hlt
      rw [Nat.succ_mul] at hle
      rw [List.getElem?_append_left (by rw [length_rows]; omega)]
      exact getElem?_rows f hi hlt
    · rw [List.getElem?_append_right (by rw [length_rows]; omega), length_rows]
      simp [hi]

section Sent

variable {bits : ℕ → UInt8} {stride wb h : ℕ}

/-- Rows of whole words, or rows that follow each other. -/
structure Sendable (stride wb h : ℕ) : Prop where
  words : stride = wb ∨ wb % 2 = 0
  reach : h * stride ≤ 65536

theorem Sendable.length (hs : Sendable stride wb h) :
    (monoData bits stride wb h).length = h * wb := by
  have hreach := hs.reach
  have hcomm := Nat.mul_comm wb h
  unfold monoData
  split_ifs with hstride hodd
  · rw [length_rows, Nat.div_mul_cancel (by have := hs.words; omega)]
  · rw [not_not] at hstride
    rw [hstride] at hreach
    rw [List.length_append, List.length_map, List.length_range, List.length_singleton]
    omega
  · rw [not_not] at hstride
    rw [hstride] at hreach
    rw [List.length_append, List.length_map, List.length_range, List.length_nil]
    omega

/-- The byte that is sent for column `i` of row `j`. -/
theorem Sendable.byte (hs : Sendable stride wb h) {i j : ℕ} (hi : i < wb) (hj : j < h) :
    (monoData bits stride wb h).getD (j * wb + i) 0 = bits (j * stride + i) := by
  have hreach := hs.reach
  have hle : (j + 1) * wb ≤ h * wb := Nat.mul_le_mul_right wb hj
  rw [Nat.succ_mul] at hle
  unfold monoData
  split_ifs with hstride hodd
  · have heven : wb / 2 * 2 = wb := Nat.div_mul_cancel (by have := hs.words; omega)
    have hrow : (j + 1) * stride ≤ h * stride := Nat.mul_le_mul_right stride hj
    rw [heven, List.getD_eq_getElem?_getD, getElem?_rows _ hi hj]
    rcases Nat.eq_zero_or_pos stride with rfl | hpos
    · rfl
    rw [Nat.succ_mul] at hrow
    rw [Option.getD_some, Nat.mod_eq_of_lt (by omega)]
  · rw [not_not] at hstride
    subst hstride
    rw [Nat.mul_comm stride h] at hodd ⊢
    rw [List.getD_eq_getElem?_getD]
    by_cases hlast : j * stride + i < h * stride / 2 % 65536 * 2
    · rw [List.getElem?_append_left (by simpa using hlast)]
      simp [hlast]
    · have heq : j * stride + i = h * stride - 1 := by omega
      rw [List.getElem?_append_right (by simpa using hlast)]
      simp only [List.length_map, List.length_range]
      rw [heq, show h * stride - 1 - h * stride / 2 % 65536 * 2 = 0 by omega]
      rfl
  · rw [not_not] at hstride
    subst hstride
    rw [Nat.mul_comm stride h] at hodd ⊢
    rw [List.append_nil, List.getD_eq_getElem?_getD,
      List.getElem?_map, List.getElem?_range (by omega)]
    rfl

/-- Its bit for a pixel. -/
theorem Sendable.bit (hs : Sendable stride wb h) {i j : ℕ} (hi : i < 8 * wb) (hj : j < h) :
    pixelBit ((monoData bits stride wb h).getD · 0) (j * (8 * wb) + i) =
      pixelBit bits (j * (8 * stride) + i) := by
  have hdiv : ∀ n, (j * (8 * n) + i) / 8 = j * n + i / 8 ∧ (j * (8 * n) + i) % 8 = i % 8 := by
    intro n
    rw [Nat.mul_left_comm]
    omega
  unfold pixelBit
  dsimp only
  rw [(hdiv wb).1, (hdiv wb).2, (hdiv stride).1, (hdiv stride).2, hs.byte (by omega) hj]

end Sent

namespace MonoEngine

variable {E : MonoEngine} {x y : ℤ} {wb h stride : ℕ} {bits : ℕ → UInt8} {ink : MonoInk}
  {clip : Rect} {mask : UInt8}

/-- The columns and rows of `h` rows of `wb` bytes at a pixel. -/
structure Fits (x y : ℤ) (wb h : ℕ) : Prop where
  column : M8_EXPAND_X_MIN ≤ x ∧ x ≤ M8_EXPAND_X_MAX
  columns : 0 < wb ∧ x + 8 * wb ≤ M8_COORD_MAX
  row : M8_COORD_MIN ≤ y
  rows : 0 < h ∧ y + h ≤ M8_COORD_MAX

/-- What is seen of rows that the engine takes. -/
theorem m8Mono_apply (hf : Fits x y wb h) (hs : Sendable stride wb h) (c : Card) (p : Pixel) :
    E.m8Mono x y wb h bits stride ink clip mask c p =
      if p ∈ Rect.at x y (8 * wb) h ∧
        clip.left ≤ p.1 ∧ p.1 ≤ clip.right ∧ clip.top ≤ p.2 ∧ p.2 ≤ clip.bottom then
        (c p &&& ~~~mask) ||| (E.mixed (if pixelBit bits ((p.2 - y).toNat * (8 * stride) +
          (p.1 - x).toNat) = true then ink.fgMix else ink.bgMix) ink.fg ink.bg (c p) &&& mask)
      else c p := by
  have hcolumn := hf.column
  obtain ⟨hwb, hcolumns⟩ := hf.columns
  have hrow := hf.row
  obtain ⟨hh, hrows⟩ := hf.rows
  unfold M8_EXPAND_X_MIN M8_EXPAND_X_MAX at hcolumn
  unfold M8_COORD_MIN at hrow
  unfold M8_COORD_MAX at hcolumns hrows
  have hxEnd : int16 (x + wb * 8) = x + 8 * wb := by
    rw [int16_eq (by omega), Int.mul_comm]
  have hyEnd : int16 (y + h) = y + h := int16_eq (by omega)
  rw [m8Mono, if_neg (by omega), hxEnd, hyEnd, E.expand_eq]
  · unfold Expansion.drawn Expansion.Draws
    dsimp only
    refine if_ctx_congr Iff.rfl (fun hin => ?_) fun _ => rfl
    rw [Rect.mem_at] at hin
    have hbit : Expansion.bit ⟨x, x + 8 * wb, y, y + h, clip, monoData bits stride wb h, ink.fgMix,
        ink.fg, ink.bgMix, ink.bg, mask⟩ p =
          pixelBit bits ((p.2 - y).toNat * (8 * stride) + (p.1 - x).toNat) := by
      rw [← hs.bit (by omega) (by omega), Expansion.bit]
      dsimp only
      congr 1
      obtain ⟨i, hi⟩ := Int.eq_ofNat_of_zero_le (show 0 ≤ p.1 - x by omega)
      obtain ⟨j, hj⟩ := Int.eq_ofNat_of_zero_le (show 0 ≤ p.2 - y by omega)
      rw [hi, hj, show x + 8 * (wb : ℤ) - x = ((8 * wb : ℕ) : ℤ) by omega, ← Int.natCast_mul,
        ← Int.natCast_add, Int.toNat_natCast, Int.toNat_natCast, Int.toNat_natCast]
    rw [hbit]
  · refine ⟨hf.column, ⟨?_, ?_⟩, ⟨hf.row, ?_, hf.rows.2⟩, ?_⟩
    · dsimp only
      omega
    · exact hf.columns.2
    · dsimp only
      omega
    · dsimp only
      rw [hs.length, show x + 8 * (wb : ℤ) - x = 8 * wb by omega, show y + (h : ℤ) - y = h by omega,
        Int.natCast_mul, Int.mul_comm (h : ℤ), Int.mul_assoc]

end MonoEngine

/-! ## The planes written -/

/-- All of them. -/
theorem full_mask (old new : UInt8) : (old &&& ~~~0xFF) ||| (new &&& 0xFF) = new := by
  have hnone : ~~~(0xFF : UInt8) = 0 := by decide
  have hall : (0xFF : UInt8) = -1 := by decide
  rw [hnone, UInt8.and_zero, UInt8.zero_or, hall, UInt8.and_neg_one]

/-- One of them, with a bit for all of a pixel's. -/
theorem plane_stored (old : UInt8) {k j : ℕ} (hk : k < 8) (hj : j < 8) (b : Bool) :
    ((old &&& ~~~(UInt8.ofNat (2 ^ k))) |||
      ((if b = true then 0xFF else 0x00) &&& UInt8.ofNat (2 ^ k))).toNat.testBit j =
      if j = k then b else old.toNat.testBit j := by
  have hmask : (UInt8.ofNat (2 ^ k)).toNat.testBit j = decide (k = j) := by
    rw [UInt8.toNat_ofNat_of_lt' (Nat.pow_lt_pow_right (by decide) hk), Nat.testBit_two_pow]
  have hnot : (~~~(UInt8.ofNat (2 ^ k))).toNat.testBit j = !decide (k = j) := by
    have hsub := @Nat.testBit_two_pow_sub_succ _ 8 (UInt8.toNat_lt (UInt8.ofNat (2 ^ k))) j
    rw [decide_eq_true hj, Bool.true_and, hmask] at hsub
    rw [UInt8.toNat_not, ← hsub]
    congr 1
    unfold UInt8.size
    omega
  have hfill : (if b = true then (0xFF : UInt8) else 0x00).toNat.testBit j = b := by
    cases b
    · exact Nat.zero_testBit j
    · exact (Nat.testBit_two_pow_sub_one 8 j).trans (decide_eq_true hj)
  rw [UInt8.toNat_or, UInt8.toNat_and, UInt8.toNat_and, Nat.testBit_or, Nat.testBit_and,
    Nat.testBit_and, hmask, hnot, hfill]
  by_cases hjk : j = k
  · rw [if_pos hjk, decide_eq_true hjk.symm, Bool.not_true, Bool.and_false, Bool.false_or,
      Bool.and_true]
  · rw [if_neg hjk, decide_eq_false fun h => hjk h.symm, Bool.not_false, Bool.and_true,
      Bool.and_false, Bool.or_false]

namespace MonoEngine

variable {E : MonoEngine} {x y : ℤ} {wb h : ℕ} {bits : ℕ → UInt8}

/-- What is in the planes once bits are stored in one : they are, and nothing else. -/
theorem m8HwMonoPlane_testBit (hf : wb = 0 ∨ h = 0 ∨ Fits x y wb h) (hs : Sendable wb wb h)
    {k j : ℕ} (hk : k < 8) (hj : j < 8) (c : Card) (p : Pixel) :
    (E.m8HwMonoPlane false x y wb h bits k c p).toNat.testBit j =
      if p ∈ Rect.at x y (8 * wb) h ∧ j = k then
        pixelBit bits ((p.2 - y).toNat * (8 * wb) + (p.1 - x).toNat)
      else (c p).toNat.testBit j := by
  rw [m8HwMonoPlane, if_neg Bool.false_ne_true]
  by_cases hnone : wb = 0 ∨ h = 0
  · rw [m8Mono, if_pos hnone, if_neg]
    rintro ⟨hin, -⟩
    rw [Rect.mem_at] at hin
    omega
  · have hf : Fits x y wb h := by tauto
    have hcolumn := hf.column
    obtain ⟨hwb, hcolumns⟩ := hf.columns
    have hrow := hf.row
    obtain ⟨hh, hrows⟩ := hf.rows
    unfold M8_EXPAND_X_MIN M8_EXPAND_X_MAX at hcolumn
    unfold M8_COORD_MIN at hrow
    unfold M8_COORD_MAX at hcolumns hrows
    rw [m8Mono_apply hf hs, int16_eq (by omega), int16_eq (by omega)]
    dsimp only
    by_cases hin : p ∈ Rect.at x y (8 * wb) h
    · have hclip : x ≤ p.1 ∧ p.1 ≤ x + wb * 8 - 1 ∧ y ≤ p.2 ∧ p.2 ≤ y + h - 1 := by
        rw [Rect.mem_at] at hin
        omega
      have hmixed : ∀ b : Bool, E.mixed (if b = true then M8_MIX_SRC_FRGD ||| M8_MIX_REPLACE
          else M8_MIX_SRC_BKGD ||| M8_MIX_REPLACE) 0xFF 0x00 (c p) =
            if b = true then 0xFF else 0x00 := fun b => by
        cases b
        · exact E.mixed_bg _ _ _
        · exact E.mixed_fg _ _ _
      rw [if_pos ⟨hin, hclip⟩, hmixed, plane_stored _ hk hj]
      exact if_congr (and_iff_right hin).symm rfl rfl
    · rw [if_neg fun h => hin h.1, if_neg fun h => hin h.1]

/-- Outside of the rows nothing is stored. -/
theorem m8HwMonoPlane_outside (hf : wb = 0 ∨ h = 0 ∨ Fits x y wb h) (hs : Sendable wb wb h)
    {k : ℕ} (c : Card) {p : Pixel} (hp : p ∉ Rect.at x y (8 * wb) h) :
    E.m8HwMonoPlane false x y wb h bits k c p = c p := by
  rw [m8HwMonoPlane, if_neg Bool.false_ne_true]
  by_cases hnone : wb = 0 ∨ h = 0
  · rw [m8Mono, if_pos hnone]
  · rw [m8Mono_apply (by tauto) hs, if_neg fun h => hp h.1]

end MonoEngine

end Inboard
