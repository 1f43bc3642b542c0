import Inboard.Fallback
import Inboard.Spread
import Inboard.XlatWrite

/-!
# Enlarging in place

`m8_enlarge` sends an image to the corner of its box, at its own size, and the engine spreads it
over the box, the columns from the right and then the rows from the bottom (`spreadLoop`). The box
is compared with the clip by its edges, and these are sums : a box whose right or bottom edge wraps
is taken for one inside the clip (`m8_enlarge_exact_iff`).
-/

set_option linter.unusedSectionVars false

namespace Inboard

/-! ## The calls -/

/-- What `m8_enlarge` is given : values of `int`, the source's bytes from `row0` on and the clip. -/
structure EnlargeArgs where
  dx : ℤ
  dy : ℤ
  dw : ℤ
  dh : ℤ
  sw : ℤ
  sh : ℤ
  clip : Option Rect
  ints : ∀ z ∈ [dx, dy, dw, dh, sw, sh], -32768 ≤ z ∧ z < 32768

/-- What the pixels are : the source's bytes, how far its rows are apart, and the table. -/
structure EnlargeSource where
  mem : ℤ → UInt8
  step : ℤ
  tbl : UInt8 → UInt8

namespace EnlargeArgs

variable (m : M8Mode) (a : EnlargeArgs) (src : EnlargeSource)

/-- The factors. -/
def kx : ℤ := a.dw / a.sw

def ky : ℤ := a.dh / a.sh

/-- The edges of the box. -/
def box : Rect := ⟨a.dx, a.dy, int16 (a.dx + a.dw), int16 (a.dy + a.dh)⟩

/-- The image's columns, with the even ones around them. -/
def left : ℤ := a.dx / 2 * 2

def right : ℤ := min (int16 (int16 (a.dx + a.sw) + 1) / 2 * 2) m.x

/-- The checks : whole factors of up to 16, and a box inside the clip and the screen. -/
def Accepts (hwOff : Bool) : Prop :=
  hwOff = false ∧ ∃ clip, a.clip = some clip ∧
    (0 < a.sw ∧ 0 < a.sh ∧ 0 < a.dw ∧ 0 < a.dh ∧ a.dw % a.sw = 0 ∧ a.dh % a.sh = 0) ∧
    (a.kx ≤ 16 ∧ a.ky ≤ 16) ∧ a.box.inter (clip.inter m.screen) = a.box

instance (hwOff : Bool) : Decidable (a.Accepts m hwOff) := by
  unfold Accepts
  cases a.clip with
  | none => exact isFalse (by rintro ⟨-, clip, h, -⟩; cases h)
  | some clip =>
    exact decidable_of_iff (hwOff = false ∧
      (0 < a.sw ∧ 0 < a.sh ∧ 0 < a.dw ∧ 0 < a.dh ∧ a.dw % a.sw = 0 ∧ a.dh % a.sh = 0) ∧
      (a.kx ≤ 16 ∧ a.ky ≤ 16) ∧ a.box.inter (clip.inter m.screen) = a.box) (by simp)

/-- The upload. -/
def upload : XlatWrite where
  x := a.left
  y := a.dy
  w := int16 (a.right m - a.left)
  h := a.sh
  clipL := a.dx
  clipR := int16 (a.dx + a.sw)
  mem := src.mem
  step := src.step
  col0 := int16 (a.left - a.dx)
  cols := a.sw
  tbl := src.tbl

/-- A copy of the spread. -/
def spreadCopy (sx sy dx dy w h : ℤ) (c : Card) : Card :=
  if w ≤ 0 ∨ h ≤ 0 then c
  else (CardOp.copy (int16 sx) (int16 sy) (int16 dx) (int16 dy) w h).apply c

/-- `m8_hw_spread` : the columns, then the rows. -/
def spread (x y sw sh kx ky : ℤ) (c : Card) : Card :=
  let c := spreadLoop kx.toNat (fun j t => spreadCopy (x + j) y (x + j * kx + t) y 1 sh) sw.toNat c
  spreadLoop ky.toNat (fun j t => spreadCopy x (y + j) x (y + j * ky + t) (int16 (sw * kx)) 1)
    sh.toNat c

/-- `m8_enlarge`. -/
def m8Enlarge (hwOff : Bool) (c : Card) : Bool × Card :=
  if a.Accepts m hwOff then
    (true, spread a.dx a.dy a.sw a.sh a.kx a.ky ((a.upload m src).m8HwWriteXlat c))
  else (false, c)

end EnlargeArgs

/-! ## The spread -/

section Spread

variable {x y : ℤ} {s k n : ℕ}

open EnlargeArgs

/-- The columns of a band of `n` rows are spread, and nothing else changes. -/
theorem spread_columns (hk : 0 < k) (hs : 0 < s) (hn : 0 < n) (hx : 0 ≤ x ∧ x + (s * k : ℕ) ≤ 32767)
    (hy : 0 ≤ y ∧ y + n ≤ 32767) (c : Card) :
    (∀ i < s * k, ∀ r : ℤ, 0 ≤ r ∧ r < n →
      spreadLoop k (fun j t => spreadCopy (x + j) y (x + j * k + t) y 1 n) s c (x + i, y + r) =
        c (x + (i / k : ℕ), y + r)) ∧
      ∀ p ∉ Rect.at x y (s * k : ℕ) n,
        spreadLoop k (fun j t => spreadCopy (x + j) y (x + j * k + t) y 1 n) s c p = c p := by
  have hcell : ∀ (q r : ℕ) (i j : ℤ), ((x + q, y + i) : Pixel) = (x + r, y + j) → q = r :=
    fun q r i j h => by
      have hfst := congrArg Prod.fst h
      dsimp only at hfst
      omega
  have hcopy : ∀ (j t : ℕ) (c : Card), t < k → j * k + t < s * k →
      LineCopy (fun q (i : ℤ) => ((x + q, y + i) : Pixel)) (fun i => 0 ≤ i ∧ i < n) k (j * k + t) c
        (spreadCopy (x + j) y (x + j * k + t) y 1 n c) := by
    intro j t c ht hq
    have hj : j ≤ j * k := Nat.le_mul_of_pos_right j hk
    have hline : (j * k + t) / k = j := line_source ht
    have hsum : x + j * k + t = x + ((j * k + t : ℕ) : ℤ) := by
      rw [Int.natCast_add, Int.natCast_mul, Int.add_assoc]
    rw [spreadCopy, if_neg (by omega), hsum, int16_eq (by omega), int16_eq (by omega),
      int16_eq (by omega)]
    generalize hq' : j * k + t = q at *
    constructor
    · intro i hi
      rw [CardOp.apply, Rect.paint_mem (by rw [Rect.mem_at]; dsimp only; omega), hline]
      dsimp only
      congr 1
      ext <;> dsimp only <;> omega
    · intro p hp
      rw [CardOp.apply, Rect.paint_not_mem]
      rw [Rect.mem_at]
      intro hin
      exact hp (p.2 - y) (by omega) (by ext <;> dsimp only <;> omega)
  obtain ⟨hlines, hrest⟩ := spreadLoop_all hcell hk hs hcopy c
  refine ⟨hlines, fun p hp => hrest p fun r hr i hi heq => hp ?_⟩
  rw [heq, Rect.mem_at]
  dsimp only
  omega

/-- So are the rows of a band of `n` columns. -/
theorem spread_rows (hk : 0 < k) (hs : 0 < s) (hn : 0 < n) (hx : 0 ≤ x ∧ x + n ≤ 32767)
    (hy : 0 ≤ y ∧ y + (s * k : ℕ) ≤ 32767) (c : Card) :
    (∀ i < s * k, ∀ r : ℤ, 0 ≤ r ∧ r < n →
      spreadLoop k (fun j t => spreadCopy x (y + j) x (y + j * k + t) n 1) s c (x + r, y + i) =
        c (x + r, y + (i / k : ℕ))) ∧
      ∀ p ∉ Rect.at x y n (s * k : ℕ),
        spreadLoop k (fun j t => spreadCopy x (y + j) x (y + j * k + t) n 1) s c p = c p := by
  have hcell : ∀ (q r : ℕ) (i j : ℤ), ((x + i, y + q) : Pixel) = (x + j, y + r) → q = r :=
    fun q r i j h => by
      have hsnd := congrArg Prod.snd h
      dsimp only at hsnd
      omega
  have hcopy : ∀ (j t : ℕ) (c : Card), t < k → j * k + t < s * k →
      LineCopy (fun q (i : ℤ) => ((x + i, y + q) : Pixel)) (fun i => 0 ≤ i ∧ i < n) k (j * k + t) c
        (spreadCopy x (y + j) x (y + j * k + t) n 1 c) := by
    intro j t c ht hq
    have hj : j ≤ j * k := Nat.le_mul_of_pos_right j hk
    have hline : (j * k + t) / k = j := line_source ht
    have hsum : y + j * k + t = y + ((j * k + t : ℕ) : ℤ) := by
      rw [Int.natCast_add, Int.natCast_mul, Int.add_assoc]
    rw [spreadCopy, if_neg (by omega), hsum, int16_eq (by omega), int16_eq (by omega),
      int16_eq (by omega)]
    generalize hq' : j * k + t = q at *
    constructor
    · intro i hi
      rw [CardOp.apply, Rect.paint_mem (by rw [Rect.mem_at]; dsimp only; omega), hline]
      dsimp only
      congr 1
      ext <;> dsimp only <;> omega
    · intro p hp
      rw [CardOp.apply, Rect.paint_not_mem]
      rw [Rect.mem_at]
      intro hin
      exact hp (p.1 - x) (by omega) (by ext <;> dsimp only <;> omega)
  obtain ⟨hlines, hrest⟩ := spreadLoop_all hcell hk hs hcopy c
  refine ⟨hlines, fun p hp => hrest p fun r hr i hi heq => hp ?_⟩
  rw [heq, Rect.mem_at]
  dsimp only
  omega

end Spread

/-! ## The image -/

namespace EnlargeArgs

variable {m : M8Mode} {a : EnlargeArgs} {src : EnlargeSource} {hwOff : Bool}

/-- What holds of an accepted box whose edges do not wrap. -/
structure Plain (m : M8Mode) (a : EnlargeArgs) : Prop where
  image : 0 < a.sw ∧ 0 < a.sh
  factors : 0 < a.kx ∧ 0 < a.ky
  size : a.sw * a.kx = a.dw ∧ a.sh * a.ky = a.dh
  corner : 0 ≤ a.dx ∧ 0 ≤ a.dy
  columns : a.dx + a.dw ≤ m.x
  rows : a.dy + a.dh ≤ m.y

theorem Accepts.plain (h : a.Accepts m hwOff) (hx : a.dx + a.dw ≤ 0x7FFF)
    (hy : a.dy + a.dh ≤ 0x7FFF) : a.Plain m := by
  obtain ⟨-, clip, -, ⟨hsw, hsh, hdw, hdh, hxmod, hymod⟩, -, hinside⟩ := h
  have hleft := congrArg Rect.left hinside
  have htop := congrArg Rect.top hinside
  have hright := congrArg Rect.right hinside
  have hbottom := congrArg Rect.bottom hinside
  have hdx := a.ints a.dx (by simp)
  have hdy := a.ints a.dy (by simp)
  unfold box Rect.inter M8Mode.screen at hleft htop hright hbottom
  dsimp only at hleft htop hright hbottom
  rw [int16_eq (x := a.dx + a.dw) (by omega)] at hright
  rw [int16_eq (x := a.dy + a.dh) (by omega)] at hbottom
  have hxsize : a.sw * a.kx = a.dw := Int.mul_ediv_cancel' (Int.dvd_of_emod_eq_zero hxmod)
  have hysize : a.sh * a.ky = a.dh := Int.mul_ediv_cancel' (Int.dvd_of_emod_eq_zero hymod)
  refine ⟨⟨hsw, hsh⟩, ⟨?_, ?_⟩, ⟨hxsize, hysize⟩, by omega, by omega, by omega⟩
  · exact Int.pos_of_mul_pos_right (by omega) hsw
  · exact Int.pos_of_mul_pos_right (by omega) hsh

/-- The image is in its box. -/
theorem Plain.image_le (h : a.Plain m) : a.sw ≤ a.dw ∧ a.sh ≤ a.dh := by
  have himage := h.image
  have hfactors := h.factors
  rw [← h.size.1, ← h.size.2]
  have hx := Int.mul_le_mul_of_nonneg_left hfactors.1 (Int.le_of_lt himage.1)
  have hy := Int.mul_le_mul_of_nonneg_left hfactors.2 (Int.le_of_lt himage.2)
  omega

/-- The upload puts the image in the corner, and nothing elsewhere. -/
theorem upload_apply (h : a.Plain m) (c : Card) :
    (∀ i j, 0 ≤ i ∧ i < a.sw → 0 ≤ j ∧ j < a.sh →
      (a.upload m src).m8HwWriteXlat c (a.dx + i, a.dy + j) =
        src.tbl (src.mem (j * src.step + i))) ∧
      ∀ p ∉ Rect.at a.dx a.dy a.sw a.sh, (a.upload m src).m8HwWriteXlat c p = c p := by
  have himage := h.image
  have hle := h.image_le
  have hcorner := h.corner
  have hcolumns := h.columns
  have hmx : m.x % 2 = 0 ∧ m.x ≤ 1024 := by
    have hmode := m.ok
    simp only [Prod.mk.injEq] at hmode
    omega
  have hright : a.right m = (a.dx + a.sw + 1) / 2 * 2 := by
    unfold right
    rw [int16_eq (x := a.dx + a.sw) (by omega), int16_eq (by omega)]
    omega
  have hw : (a.upload m src).w = (a.dx + a.sw + 1) / 2 * 2 - a.dx / 2 * 2 := by
    unfold upload left
    dsimp only
    rw [hright, int16_eq (by omega)]
  have hcol : (a.upload m src).col0 = a.dx / 2 * 2 - a.dx := by
    unfold upload left
    dsimp only
    exact int16_eq (by omega)
  have hclip : int16 ((a.upload m src).clipR - 1) = a.dx + a.sw - 1 := by
    unfold upload
    dsimp only
    rw [int16_eq (x := a.dx + a.sw) (by omega), int16_eq (by omega)]
  have hlo : (a.upload m src).lo = a.dx - a.dx / 2 * 2 := by
    unfold XlatWrite.lo
    rw [hcol]
    split_ifs
    · rw [int16_eq (by omega)]
      omega
    · omega
  have hhi : (a.upload m src).hi = a.sw + (a.dx - a.dx / 2 * 2) := by
    unfold XlatWrite.hi
    have hcols : int16 ((a.upload m src).cols - (a.upload m src).col0) =
        a.sw + (a.dx - a.dx / 2 * 2) := by
      rw [hcol]
      unfold upload
      dsimp only
      rw [int16_eq (by omega)]
      omega
    rw [hcols, hw]
    split_ifs <;> omega
  have happly := XlatWrite.m8HwWriteXlat_apply (a := a.upload m src)
    (by unfold XlatWrite.Empty M8_XROW_MAX; rw [hw]; unfold upload; dsimp only; omega)
    (by rw [hw]; omega) c
  constructor
  · intro i j hi hj
    rw [happly, hclip, hw, if_pos, XlatWrite.rowByte, hlo, hhi, if_pos, hcol]
    · unfold upload left
      dsimp only
      congr 2
      rw [show a.dy + j - a.dy = j by omega]
      omega
    · unfold upload left
      dsimp only
      omega
    · rw [Rect.mem_at]
      unfold upload left
      dsimp only
      omega
  · intro p hp
    rw [happly, hclip, hw, if_neg]
    rw [Rect.mem_at] at hp ⊢
    unfold upload left
    dsimp only
    omega

/-- The image spread over its box. -/
theorem enlarge_apply (h : a.Plain m) (c : Card) :
    (∀ i j, 0 ≤ i ∧ i < a.dw → 0 ≤ j ∧ j < a.dh →
      spread a.dx a.dy a.sw a.sh a.kx a.ky ((a.upload m src).m8HwWriteXlat c)
        (a.dx + i, a.dy + j) = src.tbl (src.mem (j / a.ky * src.step + i / a.kx))) ∧
      ∀ p ∉ Rect.at a.dx a.dy a.dw a.dh,
        spread a.dx a.dy a.sw a.sh a.kx a.ky ((a.upload m src).m8HwWriteXlat c) p = c p := by
  obtain ⟨himage, hrest⟩ := @upload_apply _ _ src h c
  obtain ⟨hsw, hsh⟩ := h.image
  obtain ⟨hkx, hky⟩ := h.factors
  obtain ⟨hdw, hdh⟩ := h.size
  have hle := h.image_le
  have hcorner := h.corner
  have hcolumns := h.columns
  have hrows := h.rows
  have hmode : m.x ≤ 1024 ∧ m.y ≤ 1024 := by
    have hok := m.ok
    simp only [Prod.mk.injEq] at hok
    omega
  generalize (a.upload m src).m8HwWriteXlat c = up at *
  obtain ⟨sw, hsw'⟩ := Int.eq_ofNat_of_zero_le (Int.le_of_lt hsw)
  obtain ⟨sh, hsh'⟩ := Int.eq_ofNat_of_zero_le (Int.le_of_lt hsh)
  obtain ⟨kx, hkx'⟩ := Int.eq_ofNat_of_zero_le (Int.le_of_lt hkx)
  obtain ⟨ky, hky'⟩ := Int.eq_ofNat_of_zero_le (Int.le_of_lt hky)
  rw [hsw', hkx', ← Int.natCast_mul] at hdw
  rw [hsh', hky', ← Int.natCast_mul] at hdh
  have hx : 0 ≤ a.dx ∧ a.dx + ((sw * kx : ℕ) : ℤ) ≤ 32767 := by omega
  have hy : 0 ≤ a.dy ∧ a.dy + ((sh * ky : ℕ) : ℤ) ≤ 32767 := by omega
  have hwide : int16 ((sw : ℤ) * kx) = (sw * kx : ℕ) := by
    rw [← Int.natCast_mul]
    exact int16_eq (by omega)
  have hpos : (0 < sw ∧ 0 < kx) ∧ 0 < sh ∧ 0 < ky := by omega
  have hshort : sh ≤ sh * ky := Nat.le_mul_of_pos_right sh hpos.2.2
  have hcols := spread_columns hpos.1.2 hpos.1.1 hpos.2.1 hx
    ⟨hy.1, Int.le_trans (Int.add_le_add_left (Int.ofNat_le.mpr hshort) _) hy.2⟩ up
  have hlines := spread_rows hpos.2.2 hpos.2.1 (Nat.mul_pos hpos.1.1 hpos.1.2) hx hy
    (spreadLoop kx (fun j t => spreadCopy (a.dx + j) a.dy (a.dx + j * kx + t) a.dy 1 sh) sw up)
  unfold spread
  rw [hsw', hsh', hkx', hky', hwide]
  simp only [Int.toNat_natCast]
  rw [hsw', ← hdw, hsh', ← hdh] at hle
  rw [← hdw, ← hdh]
  clear hcolumns hrows hmode hdw hdh hwide hx hy hpos hshort
  constructor
  · intro i j hi hj
    obtain ⟨i, rfl⟩ := Int.eq_ofNat_of_zero_le hi.1
    obtain ⟨j, rfl⟩ := Int.eq_ofNat_of_zero_le hj.1
    have hcol : i / kx < sw := Nat.div_lt_of_lt_mul (by
      rw [Nat.mul_comm]
      exact Int.ofNat_lt.mp hi.2)
    have hrow : j / ky < sh := Nat.div_lt_of_lt_mul (by
      rw [Nat.mul_comm]
      exact Int.ofNat_lt.mp hj.2)
    rw [hlines.1 j (Int.ofNat_lt.mp hj.2) i hi,
      hcols.1 i (Int.ofNat_lt.mp hi.2) _ ⟨Int.natCast_nonneg _, Int.ofNat_lt.mpr hrow⟩,
      himage _ _ ⟨Int.natCast_nonneg _, by rw [hsw']; exact Int.ofNat_lt.mpr hcol⟩
        ⟨Int.natCast_nonneg _, by rw [hsh']; exact Int.ofNat_lt.mpr hrow⟩]
    rfl
  · intro p hp
    have hout : p ∉ Rect.at a.dx a.dy (sw * kx : ℕ) sh ∧ p ∉ Rect.at a.dx a.dy a.sw a.sh := by
      rw [hsw', hsh', Rect.mem_at, Rect.mem_at]
      rw [Rect.mem_at] at hp
      omega
    rw [hlines.2 p hp, hcols.2 p hout.1, hrest p hout.2]

/-- Returning 1 it put the enlarged image on the screen, over its box and nowhere else ; returning 0
it drew nothing. -/
def Exact (m : M8Mode) (a : EnlargeArgs) (src : EnlargeSource) (hwOff : Bool) (c : Card) : Prop :=
  ((a.m8Enlarge m src hwOff c).1 = true →
    (∀ i j, 0 ≤ i ∧ i < a.dw → 0 ≤ j ∧ j < a.dh → (a.dx + i, a.dy + j) ∈ m.screen ∧
      (a.m8Enlarge m src hwOff c).2 (a.dx + i, a.dy + j) =
        src.tbl (src.mem (j / a.ky * src.step + i / a.kx))) ∧
      ∀ p ∉ Rect.at a.dx a.dy a.dw a.dh, (a.m8Enlarge m src hwOff c).2 p = c p) ∧
    ((a.m8Enlarge m src hwOff c).1 = false → (a.m8Enlarge m src hwOff c).2 = c)

/-- An enlargement is exact if the right and bottom edges of a box it accepts do not wrap, and only
then. -/
theorem m8_enlarge_exact_iff (m : M8Mode) (a : EnlargeArgs) (src : EnlargeSource) (hwOff : Bool)
    (c : Card) : a.Exact m src hwOff c ↔
      (a.Accepts m hwOff → a.dx + a.dw ≤ 0x7FFF ∧ a.dy + a.dh ≤ 0x7FFF) := by
  by_cases hok : a.Accepts m hwOff
  · have hcall : a.m8Enlarge m src hwOff c =
        (true, spread a.dx a.dy a.sw a.sh a.kx a.ky ((a.upload m src).m8HwWriteXlat c)) :=
      if_pos hok
    have hmode : m.x ≤ 1024 ∧ m.y ≤ 1024 := by
      have hmode := m.ok
      simp only [Prod.mk.injEq] at hmode
      omega
    unfold Exact
    rw [hcall]
    constructor
    · rintro ⟨hexact, -⟩ -
      obtain ⟨-, clip, -, hsizes, -⟩ := hok
      have hlast := ((hexact rfl).1 (a.dw - 1) (a.dh - 1) (by omega) (by omega)).1
      rw [Rect.mem_iff] at hlast
      unfold M8Mode.screen at hlast
      dsimp only at hlast
      omega
    · intro hedges
      have hplain := hok.plain (hedges hok).1 (hedges hok).2
      obtain ⟨hbox, hrest⟩ := @enlarge_apply _ _ src hplain c
      have hcorner := hplain.corner
      have hcolumns := hplain.columns
      have hrows := hplain.rows
      refine ⟨fun _ => ⟨fun i j hi hj => ⟨?_, hbox i j hi hj⟩, hrest⟩, fun h => by cases h⟩
      rw [Rect.mem_iff]
      unfold M8Mode.screen
      dsimp only
      omega
  · have hcall : a.m8Enlarge m src hwOff c = (false, c) := if_neg hok
    unfold Exact
    rw [hcall]
    exact ⟨fun _ h => absurd h hok, fun _ => ⟨fun h => absurd h Bool.false_ne_true, fun _ => rfl⟩⟩

/-- A box at column 100 that is 32700 columns wide, of an image of 3270. -/
def wideBox : EnlargeArgs where
  dx := 100
  dy := 0
  dw := 32700
  dh := 1
  sw := 3270
  sh := 1
  clip := some ⟨0, 0, 640, 480⟩
  ints := by decide

/-- Its right edge is negative, and so left of the clip's. -/
theorem m8_enlarge_too_wide : ¬wideBox.Exact ⟨640, 480, Or.inl rfl⟩ ⟨fun _ => 0, 3272, id⟩ false
    (fun _ => 0) := by
  intro hexact
  have hok : wideBox.Accepts ⟨640, 480, Or.inl rfl⟩ false := by decide
  have hcall : wideBox.m8Enlarge ⟨640, 480, Or.inl rfl⟩ ⟨fun _ => 0, 3272, id⟩ false (fun _ => 0) =
      (true, _) := if_pos hok
  have hlast := ((hexact.1 (by rw [hcall])).1 32699 0 (by decide) (by decide)).1
  exact absurd hlast (by decide)

end EnlargeArgs

end Inboard
