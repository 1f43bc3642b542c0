import Inboard.Pixels
import Mathlib.Tactic.SplitIfs

/-!
# Composing glyphs

`m8_gc_glyph` reads a glyph out of a font segment that anyone may have written, and ORs its rows
into the string's bitmap. Offsets are double words and are compared with the segment's limit after
they wrapped ; the box is compared in an `int`. So a table entry can end past the segment, and a
glyph of 8000h rows is taken for one of a negative height (`m8_gc_glyph_in_bounds_iff` says when).
A double word is read as its two words, at offsets of 16 bits.
-/

set_option linter.unusedSectionVars false

namespace Inboard

/-! ## The segment -/

def M8_GC_MAX_WB : ℕ := 64
def M8_GC_MAX_H : ℕ := 32
def M8_GC_HEAD : ℕ := 14

/-- `M8_GCFONT` : the segment's bytes, and its last one, as `m8_gc_font` admits them. -/
structure GcFont where
  byte : ℕ → BitVec 8
  limit : ℕ
  head : M8_GC_HEAD ≤ limit
  segment : limit ≤ 0xFFFF

namespace GcFont

variable (e : GcFont)

/-- The word at an offset. -/
def word (off : ℕ) : ℕ := (e.byte off).toNat + 256 * (e.byte (off + 1)).toNat

/-- The double word at an offset. -/
def dword (off : ℕ) : ℕ := e.word off + 65536 * e.word ((off + 2) % 65536)

/-- Reading a byte : a fault past the limit. -/
def read8 (off : ℕ) : Option (BitVec 8) := if off ≤ e.limit then some (e.byte off) else none

/-- Reading a word. -/
def read16 (off : ℕ) : Option ℕ := if off + 1 ≤ e.limit then some (e.word off) else none

/-- Reading a double word. -/
def read32 (off : ℕ) : Option ℕ :=
  (e.read16 off).bind fun lo => (e.read16 ((off + 2) % 65536)).map fun hi => lo + 65536 * hi

variable {e}

theorem word_lt (off : ℕ) : e.word off < 65536 := by
  have hlo := (e.byte off).isLt
  have hhi := (e.byte (off + 1)).isLt
  unfold word
  omega

theorem dword_lt (off : ℕ) : e.dword off < 4294967296 := by
  have hlo := e.word_lt off
  have hhi := e.word_lt ((off + 2) % 65536)
  unfold dword
  omega

theorem read8_eq {off : ℕ} (h : off ≤ e.limit) : e.read8 off = some (e.byte off) := if_pos h

theorem read16_eq {off : ℕ} (h : off + 1 ≤ e.limit) : e.read16 off = some (e.word off) := if_pos h

theorem read16_none {off : ℕ} (h : e.limit < off + 1) : e.read16 off = none := if_neg (by omega)

theorem read32_eq {off : ℕ} (hlo : off + 1 ≤ e.limit) (hhi : (off + 2) % 65536 + 1 ≤ e.limit) :
    e.read32 off = some (e.dword off) := by
  rw [read32, read16_eq hlo, read16_eq hhi]
  rfl

theorem read32_none {off : ℕ} (h : e.limit < off + 1 ∨ e.limit < (off + 2) % 65536 + 1) :
    e.read32 off = none := by
  rw [read32]
  rcases h with h | h
  · rw [read16_none h]
    rfl
  · rw [read16_none h]
    cases e.read16 off <;> rfl

/-- What is read from `off` on to `off + n` lies in the segment, if the sum does not wrap. Where it
does, whole words still do, in a segment of 64 KB. -/
def Whole (e : GcFont) (off n : ℕ) : Prop :=
  off + n < 4294967296 ∨ e.limit = 0xFFFF ∧ off % 2 = 0

/-- What the code checks of them. -/
def Passes (e : GcFont) (off n : ℕ) : Prop := (off + n) % 4294967296 ≤ e.limit

instance (off n : ℕ) : Decidable (e.Whole off n) := by unfold Whole; infer_instance

instance (off n : ℕ) : Decidable (e.Passes off n) := by unfold Passes; infer_instance

/-- The words that passed are all there. -/
theorem Whole.word {off n k : ℕ} (h : e.Whole off n) (hoff : off < 4294967296)
    (hpass : e.Passes off n) (hk : k + 1 ≤ n) (heven : k % 2 = 0) :
    (off + k) % 65536 + 1 ≤ e.limit := by
  have hseg := e.segment
  unfold Whole at h
  unfold Passes at hpass
  rcases h with h | ⟨hlimit, hword⟩
  · omega
  · omega

/-- Where they are not whole, one of them is not. -/
theorem exists_of_not_whole {off n : ℕ} (h : ¬e.Whole off n) (hoff : off < 4294967296)
    (hn : n % 2 = 1) :
    ∃ k, k + 1 ≤ n ∧ k % 2 = 0 ∧ e.limit < (off + k) % 65536 + 1 := by
  have hseg := e.segment
  unfold Whole at h
  push Not at h
  obtain ⟨hwrap, hodd⟩ := h
  rcases Nat.mod_two_eq_zero_or_one off with heven | hone
  · have hlimit : e.limit ≠ 0xFFFF := fun hl => hodd hl heven
    exact ⟨4294967294 - off, by omega, by omega, by omega⟩
  · exact ⟨4294967295 - off, by omega, by omega, by omega⟩

end GcFont

/-! ## The header -/

/-- Where a glyph goes in the bitmap and where its bits are. -/
structure GcGlyph where
  x : ℤ
  y : ℤ
  w : ℕ
  gh : ℕ
  p : ℕ
  x_int : -32768 ≤ x ∧ x < 32768
  y_int : -32768 ≤ y ∧ y < 32768
  w_word : w < 65536
  gh_word : gh < 65536
  p_le : 1 ≤ p ∧ p ≤ 65536
  deriving DecidableEq

theorem int16_bounds (z : ℤ) : -32768 ≤ int16 z ∧ int16 z < 32768 := by
  unfold int16
  omega

namespace GcFont

variable (e : GcFont)

theorem Passes.bits {e : GcFont} {off n : ℕ} (h : e.Passes off n) :
    1 ≤ (off + n) % 4294967296 + 1 ∧ (off + n) % 4294967296 + 1 ≤ 65536 := by
  have hseg := e.segment
  unfold Passes at h
  omega

/-- The header of 8 bytes at `p`, of a large font. -/
def largeHeader (gx gy : ℤ) (p : ℕ) : Option (Option GcGlyph) :=
  if h : e.Passes p 7 then
    (e.read16 (p % 65536)).bind fun dx => (e.read16 ((p % 65536 + 2) % 65536)).bind fun dy =>
      (e.read16 ((p % 65536 + 4) % 65536)).bind fun w =>
        (e.read16 ((p % 65536 + 6) % 65536)).map fun gh =>
          some ⟨int16 (gx + int16 dx), int16 (gy - int16 dy), w % 65536, gh % 65536,
            (p + 7) % 4294967296 + 1, int16_bounds _, int16_bounds _, Nat.mod_lt _ (by decide),
            Nat.mod_lt _ (by decide), h.bits⟩
  else some none

/-- The header of 4 bytes at `p`, of a small one. -/
def smallHeader (gx gy : ℤ) (p : ℕ) : Option (Option GcGlyph) :=
  if h : e.Passes p 3 then
    (e.read8 (p % 65536)).bind fun dx => (e.read8 ((p % 65536 + 1) % 65536)).bind fun dy =>
      (e.read8 ((p % 65536 + 2) % 65536)).bind fun w =>
        (e.read8 ((p % 65536 + 3) % 65536)).map fun gh =>
          some ⟨int16 (gx + dx.toInt), int16 (gy - dy.toInt), w.toNat, gh.toNat,
            (p + 3) % 4294967296 + 1, int16_bounds _, int16_bounds _, by omega, by omega, h.bits⟩
  else some none

/-- The glyph's header through the table : `none` where a read faults, and `some none` where the
code returns 0. -/
def m8GcHeader (idx : BitVec 8) (gx gy : ℤ) : Option (Option GcGlyph) :=
  (e.read8 2).bind fun flags => (e.read32 6).bind fun tab =>
    if flags &&& 0x80 ≠ 0 then
      if e.Passes (tab + idx.toNat * 4) 3 then
        (e.read32 ((tab % 65536 + idx.toNat * 4) % 65536)).bind (e.largeHeader gx gy)
      else some none
    else if e.Passes (tab + idx.toNat * 2) 1 then
      (e.read16 ((tab % 65536 + idx.toNat * 2) % 65536)).bind (e.smallHeader gx gy)
    else some none

end GcFont

/-! ## The box -/

/-- The bitmap's bytes a row, and its rows. -/
structure GcBox where
  wb : ℕ
  h : ℕ
  wide : 1 ≤ wb ∧ wb ≤ M8_GC_MAX_WB
  high : 1 ≤ h ∧ h ≤ M8_GC_MAX_H

/-- `lpBox`, its edges of 16 bits. -/
structure GcFrame where
  l : BitVec 16
  t : BitVec 16
  r : BitVec 16
  b : BitVec 16

/-- What `m8_gc_text` admits of a box. -/
structure GcFrame.Admitted (f : GcFrame) : Prop where
  left : 0 ≤ f.l.toInt
  top : 0 ≤ f.t.toInt
  some_columns : f.l.toInt < f.r.toInt
  some_rows : 0 < int16 (f.b.toInt - f.t.toInt)
  rows : int16 (f.b.toInt - f.t.toInt) ≤ M8_GC_MAX_H
  columns : int16 (f.r.toInt - f.l.toInt) ≤ M8_GC_MAX_WB * 8
  right : f.r.toInt ≤ M8_COORD_MAX
  bottom : f.b.toInt ≤ M8_COORD_MAX

/-- The bitmap of an admitted box. -/
def GcFrame.box (f : GcFrame) (h : f.Admitted) : GcBox where
  wb := ((f.r.toInt - f.l.toInt + 7) / 8).toNat
  h := (int16 (f.b.toInt - f.t.toInt)).toNat
  wide := by
    have hl := h.left
    have hlr := h.some_columns
    have hr := h.right
    have hcolumns := h.columns
    simp only [M8_COORD_MAX, M8_GC_MAX_WB] at hr hcolumns ⊢
    rw [int16_eq (by omega)] at hcolumns
    omega
  high := by
    have h0 := h.some_rows
    have h1 := h.rows
    simp only [M8_GC_MAX_H] at h1 ⊢
    omega

/-! ## M8_GLYPH_OR -/

/-- A byte OR-ed into the bitmap. -/
abbrev GcOr := ℕ × BitVec 8

/-- The byte in AH, shifted right into AL. -/
def shrAx (g : BitVec 8) (shift : ℕ) : BitVec 16 := (g ++ 0#8) >>> shift

/-- The two bytes that a glyph's byte goes to. -/
def glyphByteOrs (g : BitVec 8) (shift di : ℕ) : List GcOr :=
  [(di % 65536, (shrAx g shift).extractLsb' 8 8),
    ((di + 1) % 65536, (shrAx g shift).extractLsb' 0 8)]

namespace GcFont

variable (e : GcFont)

/-- `byte_` : a row's bytes. The registers count on, and are taken in 16 bits where used. -/
def byteLoop (shift : ℕ) : ℕ → ℕ → ℕ → Option (List GcOr)
  | 0, _, _ => some []
  | n + 1, si, di => (e.read8 (si % 65536)).bind fun g =>
      (byteLoop shift n (si + 1) (di + 1)).map (glyphByteOrs g shift di ++ ·)

/-- `row` : the rows. A count of 0 is one of 256 bytes. -/
def rowLoop (shift gwb : ℕ) (dx : ℕ) : ℕ → ℕ → ℕ → Option (List GcOr)
  | 0, _, _ => some []
  | n + 1, si, di =>
    let count := if gwb = 0 then 256 else gwb
    (e.byteLoop shift count si di).bind fun row =>
      (rowLoop shift gwb dx n (si + count) (di + count + dx)).map (row ++ ·)

/-- `M8_GLYPH_OR` : no rows are 65536 of them. -/
def m8GlyphOr (dst src strideShift rowsGwb : ℕ) : Option (List GcOr) :=
  let rows := rowsGwb % 256
  let gwb := rowsGwb / 256
  e.rowLoop (strideShift / 256) gwb ((strideShift % 256 + 65536 - gwb) % 65536)
    (if rows = 0 then 65536 else rows) src dst

/-- What of a glyph's header goes on to the bitmap : the value returned, and what is OR-ed. -/
def m8GcPlace (g : GcGlyph) (box : GcBox) : Option (Bool × List GcOr) :=
  if g.w = 0 ∨ g.gh = 0 then some (true, [])
  else
    let gwb := (g.w + 7) % 65536 / 8
    if g.x < 0 ∨ g.y < 0 ∨ int16 (g.x + int16 g.w) > box.wb * 8 ∨
        int16 (g.y + int16 g.gh) > box.h ∨
        (g.p + gwb * g.gh + 4294967295) % 4294967296 > e.limit then some (false, [])
    else (e.m8GlyphOr ((g.y.toNat * box.wb + g.x.toNat / 8) % 65536) (g.p % 65536)
      (box.wb ||| g.x.toNat % 8 * 256) (g.gh ||| gwb * 256 % 65536)).map (true, ·)

/-- `m8_gc_glyph`. -/
def m8GcGlyph (idx : BitVec 8) (gx gy : ℤ) (box : GcBox) : Option (Bool × List GcOr) :=
  (e.m8GcHeader idx gx gy).bind fun header => match header with
    | none => some (false, [])
    | some g => e.m8GcPlace g box

end GcFont

/-! ## A glyph's rows -/

section Rows

variable (e : GcFont) (g : GcGlyph) (box : GcBox)

/-- A row's bytes, in bytes. -/
def GcGlyph.wide : ℕ := (g.w + 7) / 8

/-- The bitmap byte where byte `c` of row `j` starts. -/
def GcGlyph.at (wb j c : ℕ) : ℕ := (g.y.toNat + j) * wb + g.x.toNat / 8 + c

/-- The glyph's rows shifted to its pen : byte `c` of row `j` goes to two bytes of the bitmap. -/
def glyphOrs : List GcOr :=
  (List.range g.gh).flatMap fun j => (List.range g.wide).flatMap fun c =>
    [(g.at box.wb j c, (shrAx (e.byte (g.p + j * g.wide + c)) (g.x.toNat % 8)).extractLsb' 8 8),
      (g.at box.wb j c + 1,
        (shrAx (e.byte (g.p + j * g.wide + c)) (g.x.toNat % 8)).extractLsb' 0 8)]

variable {e g box}

/-- A row's bytes are read and OR-ed in turn. -/
theorem byteLoop_eq (shift : ℕ) : ∀ (n si di : ℕ), si + n ≤ e.limit + 1 → di + n < 65536 →
    e.byteLoop shift n si di = some ((List.range n).flatMap fun c =>
      [(di + c, (shrAx (e.byte (si + c)) shift).extractLsb' 8 8),
        (di + c + 1, (shrAx (e.byte (si + c)) shift).extractLsb' 0 8)])
  | 0, _, _, _, _ => rfl
  | n + 1, si, di, hsi, hdi => by
    have hseg := e.segment
    have ih := byteLoop_eq shift n (si + 1) (di + 1) (by omega) (by omega)
    have hread : e.read8 (si % 65536) = some (e.byte si) := by
      rw [Nat.mod_eq_of_lt (by omega)]
      exact GcFont.read8_eq (by omega)
    rw [GcFont.byteLoop, hread, ih, List.range_succ_eq_map, List.flatMap_cons, List.flatMap_map]
    simp only [Option.bind_some, Option.map_some, glyphByteOrs, Nat.add_zero, Option.some.injEq,
      Nat.mod_eq_of_lt (show di < 65536 by omega), Nat.mod_eq_of_lt (show di + 1 < 65536 by omega)]
    congr 2
    funext c
    rw [Nat.add_right_comm si, Nat.add_right_comm di]
    rfl

/-- So are the rows, each further by the bitmap's stride. -/
theorem rowLoop_eq {shift gwb wb : ℕ} (hgwb : 0 < gwb ∧ gwb ≤ wb) : ∀ (n si di : ℕ),
    si + n * gwb ≤ e.limit + 1 → di + n * wb < 65536 →
    e.rowLoop shift gwb (wb - gwb) n si di = some ((List.range n).flatMap fun j =>
      (List.range gwb).flatMap fun c =>
        [(di + j * wb + c, (shrAx (e.byte (si + j * gwb + c)) shift).extractLsb' 8 8),
          (di + j * wb + c + 1, (shrAx (e.byte (si + j * gwb + c)) shift).extractLsb' 0 8)])
  | 0, _, _, _, _ => rfl
  | n + 1, si, di, hsi, hdi => by
    rw [Nat.succ_mul] at hsi hdi
    have ih := @rowLoop_eq shift _ _ hgwb n (si + gwb) (di + gwb + (wb - gwb)) (by omega)
      (by omega)
    rw [GcFont.rowLoop, if_neg (Nat.ne_of_gt hgwb.1),
      byteLoop_eq shift gwb si di (by omega) (by omega)]
    simp only [Option.bind_some]
    rw [ih, List.range_succ_eq_map, List.flatMap_cons, List.flatMap_map]
    simp only [Option.map_some, Nat.zero_mul, Nat.add_zero, Option.some.injEq]
    congr 2
    funext j
    have hdi' : di + gwb + (wb - gwb) + j * wb = di + (j + 1) * wb := by
      rw [Nat.succ_mul]
      omega
    have hsi' : si + gwb + j * gwb = si + (j + 1) * gwb := by
      rw [Nat.succ_mul]
      omega
    rw [hdi', hsi']

/-- What ORs does. -/
theorem or_bytes {a b : ℕ} (ha : a < 256) : a ||| b * 256 = a + b * 256 := by
  rw [Nat.or_comm, Nat.add_comm a, show b * 256 = b <<< 8 by rw [Nat.shiftLeft_eq]]
  exact (Nat.shiftLeft_add_eq_or_of_lt ha b).symm

/-- A glyph that lies in the box. -/
structure GcGlyph.InBox (g : GcGlyph) (box : GcBox) : Prop where
  left : 0 ≤ g.x
  top : 0 ≤ g.y
  right : g.x + g.w ≤ box.wb * 8
  bottom : g.y + g.gh ≤ box.h

section InBox

variable (h : g.InBox box)
include h

theorem GcGlyph.InBox.row_fits : g.x.toNat / 8 + g.wide ≤ box.wb := by
  have hl := h.left
  have hr := h.right
  unfold GcGlyph.wide
  omega

/-- The bitmap's bytes, and the spare one. -/
theorem GcGlyph.InBox.at_le {j c : ℕ} (hj : j < g.gh) (hc : c < g.wide) :
    g.at box.wb j c + 1 ≤ box.wb * box.h := by
  have hrow := h.row_fits
  have ht := h.top
  have hb := h.bottom
  have hup : (g.y.toNat + j + 1) * box.wb ≤ box.h * box.wb :=
    Nat.mul_le_mul_right _ (by omega)
  rw [Nat.succ_mul, Nat.mul_comm box.h] at hup
  unfold GcGlyph.at
  omega

theorem glyphOrs_le : ∀ op ∈ glyphOrs e g box, op.1 ≤ box.wb * box.h := by
  intro op hop
  simp only [glyphOrs, List.mem_flatMap, List.mem_range, List.mem_cons, List.not_mem_nil,
    or_false] at hop
  obtain ⟨j, hj, c, hc, rfl | rfl⟩ := hop
  · exact Nat.le_of_succ_le (h.at_le hj hc)
  · exact h.at_le hj hc

/-- They are what `M8_GLYPH_OR` does with it. -/
theorem m8GlyphOr_eq (hw : g.w ≠ 0) (hgh : g.gh ≠ 0)
    (hbits : g.p + g.wide * g.gh ≤ e.limit + 1) :
    e.m8GlyphOr ((g.y.toNat * box.wb + g.x.toNat / 8) % 65536) (g.p % 65536)
      (box.wb ||| g.x.toNat % 8 * 256) (g.gh ||| (g.w + 7) % 65536 / 8 * 256 % 65536) =
      some (glyphOrs e g box) := by
  have hseg := e.segment
  have hwide := box.wide
  have hhigh := box.high
  have hl := h.left
  have ht := h.top
  have hr := h.right
  have hb := h.bottom
  have hrow := h.row_fits
  have hpos : 0 < g.wide ∧ 0 < g.wide * g.gh := by
    have h0 : 0 < g.wide := by
      unfold GcGlyph.wide
      omega
    exact ⟨h0, Nat.mul_pos h0 (by omega)⟩
  simp only [M8_GC_MAX_WB, M8_GC_MAX_H] at hwide hhigh
  have hrows : (g.y.toNat + g.gh) * box.wb ≤ 32 * 64 := Nat.mul_le_mul (by omega) hwide.2
  rw [Nat.add_mul] at hrows
  have hgwb : (g.w + 7) % 65536 / 8 = g.wide := by
    unfold GcGlyph.wide
    omega
  rw [hgwb, Nat.mod_eq_of_lt (show g.wide * 256 < 65536 by omega), or_bytes (by omega),
    or_bytes (by omega), Nat.mod_eq_of_lt (show g.p < 65536 by omega),
    Nat.mod_eq_of_lt (show g.y.toNat * box.wb + g.x.toNat / 8 < 65536 by omega)]
  have hlow : (g.gh + g.wide * 256) % 256 = g.gh := by omega
  have hup : (g.gh + g.wide * 256) / 256 = g.wide := by omega
  have hshift : (box.wb + g.x.toNat % 8 * 256) / 256 = g.x.toNat % 8 := by omega
  have hstride : ((box.wb + g.x.toNat % 8 * 256) % 256 + 65536 - g.wide) % 65536 =
      box.wb - g.wide := by omega
  simp only [GcFont.m8GlyphOr, hlow, hup, hshift, hstride, if_neg hgh]
  rw [rowLoop_eq ⟨hpos.1, by omega⟩ _ _ _ (by rw [Nat.mul_comm]; omega) (by omega)]
  unfold glyphOrs GcGlyph.at
  congr 2
  funext j
  have hat : g.y.toNat * box.wb + g.x.toNat / 8 + j * box.wb =
      (g.y.toNat + j) * box.wb + g.x.toNat / 8 := by
    rw [Nat.add_mul]
    omega
  rw [hat]

end InBox

end Rows

/-! ## In the bitmap -/

namespace GcGlyph

variable (e : GcFont) (g : GcGlyph) (box : GcBox)

/-- Returned 0 with nothing drawn, or drawn as it is, in the bitmap and its spare byte. -/
def Kept : Prop :=
  e.m8GcPlace g box = some (false, []) ∨
    e.m8GcPlace g box = some (true, glyphOrs e g box) ∧
      ∀ op ∈ glyphOrs e g box, op.1 ≤ box.wb * box.h

/-- The checks turn it away, apart from those of the right and the bottom edge. -/
def Rejected : Prop :=
  g.x < 0 ∨ g.y < 0 ∨ int16 (g.x + int16 g.w) > box.wb * 8 ∨ int16 (g.y + int16 g.gh) > box.h ∨
    (g.p + (g.w + 7) % 65536 / 8 * g.gh + 4294967295) % 4294967296 > e.limit

/-- The sums of the edges do not wrap. -/
def Sums : Prop := g.x + g.w ≤ 0x7FFF ∧ g.y + g.gh ≤ 0x7FFF

/-- Nothing to draw, or turned away, or no wrap. -/
def Plain : Prop := g.w = 0 ∨ g.gh = 0 ∨ g.Rejected e box ∨ g.Sums

instance : Decidable (g.Rejected e box) := by unfold Rejected; infer_instance

instance : Decidable g.Sums := by unfold Sums; infer_instance

variable {e g box}

theorem place_empty (h : g.w = 0 ∨ g.gh = 0) :
    e.m8GcPlace g box = some (true, glyphOrs e g box) ∧
      ∀ op ∈ glyphOrs e g box, op.1 ≤ box.wb * box.h := by
  have hnil : glyphOrs e g box = [] := by
    unfold glyphOrs
    rcases h with h | h
    · have hwide : g.wide = 0 := by
        unfold wide
        omega
      simp [hwide]
    · simp [h]
  rw [hnil, GcFont.m8GcPlace, if_pos h]
  exact ⟨rfl, by simp⟩

theorem place_rejected (hw : g.w ≠ 0) (hgh : g.gh ≠ 0) (h : g.Rejected e box) :
    e.m8GcPlace g box = some (false, []) := by
  rw [GcFont.m8GcPlace, if_neg (by omega)]
  exact if_pos h

/-- Without a wrap the checks are those of the box and of the segment. -/
theorem inBox (h : ¬g.Rejected e box) (hsums : g.Sums) :
    g.InBox box ∧ g.p + g.wide * g.gh ≤ e.limit + 1 := by
  have hseg := e.segment
  have hwide := box.wide
  have hhigh := box.high
  have hw := g.w_word
  have hgh := g.gh_word
  have hp := g.p_le
  simp only [M8_GC_MAX_WB, M8_GC_MAX_H] at hwide hhigh
  unfold Rejected at h
  unfold Sums at hsums
  push Not at h
  obtain ⟨hx, hy, hr, hb, hbits⟩ := h
  rw [int16_eq (x := (g.w : ℤ)) (by omega), int16_eq (by omega)] at hr
  rw [int16_eq (x := (g.gh : ℤ)) (by omega), int16_eq (by omega)] at hb
  have hgwb : (g.w + 7) % 65536 / 8 = g.wide := by
    unfold GcGlyph.wide
    omega
  have hle : g.wide * g.gh ≤ 64 * 32 := by
    refine Nat.mul_le_mul ?_ (by omega)
    unfold wide
    omega
  rw [hgwb] at hbits
  exact ⟨⟨by omega, by omega, by omega, by omega⟩, by omega⟩

/-- A glyph with a wrapped edge has a byte outside. -/
theorem outside_of_wrap (hw : g.w ≠ 0) (hgh : g.gh ≠ 0) (h : ¬g.Sums) :
    ∃ op ∈ glyphOrs e g box, box.wb * box.h < op.1 := by
  have hwide := box.wide
  have hhigh := box.high
  have hx := g.x_int
  have hy := g.y_int
  simp only [M8_GC_MAX_WB, M8_GC_MAX_H] at hwide hhigh
  have hbox : box.wb * box.h ≤ 64 * 32 := Nat.mul_le_mul hwide.2 hhigh.2
  have hpos : 0 < g.wide := by
    unfold wide
    omega
  have hmem : ((g.at box.wb (g.gh - 1) (g.wide - 1) + 1, (shrAx (e.byte (g.p + (g.gh - 1) * g.wide +
      (g.wide - 1))) (g.x.toNat % 8)).extractLsb' 0 8) : GcOr) ∈ glyphOrs e g box := by
    unfold glyphOrs
    refine List.mem_flatMap.mpr ⟨g.gh - 1, List.mem_range.mpr (by omega),
      List.mem_flatMap.mpr ⟨g.wide - 1, List.mem_range.mpr (by omega), ?_⟩⟩
    simp
  refine ⟨_, hmem, ?_⟩
  dsimp only
  have hrow : g.y.toNat + (g.gh - 1) ≤ (g.y.toNat + (g.gh - 1)) * box.wb :=
    Nat.le_mul_of_pos_right _ (by omega)
  unfold Sums at h
  unfold GcGlyph.at
  unfold wide at hpos ⊢
  generalize (g.y.toNat + (g.gh - 1)) * box.wb = start at *
  omega

/-- A glyph is drawn as it is or not at all if no wrap hides an edge, and only then. -/
theorem kept_iff : g.Kept e box ↔ g.Plain e box := by
  by_cases hempty : g.w = 0 ∨ g.gh = 0
  · refine ⟨fun _ => by
      unfold Plain
      omega, fun _ => Or.inr (place_empty hempty)⟩
  push Not at hempty
  by_cases hrej : g.Rejected e box
  · exact ⟨fun _ => Or.inr (Or.inr (Or.inl hrej)),
      fun _ => Or.inl (place_rejected hempty.1 hempty.2 hrej)⟩
  have hplace : e.m8GcPlace g box = (e.m8GlyphOr ((g.y.toNat * box.wb + g.x.toNat / 8) % 65536)
      (g.p % 65536) (box.wb ||| g.x.toNat % 8 * 256)
      (g.gh ||| (g.w + 7) % 65536 / 8 * 256 % 65536)).map (true, ·) := by
    rw [GcFont.m8GcPlace, if_neg (by omega)]
    exact if_neg hrej
  constructor
  · intro h
    by_contra hplain
    have hsums : ¬g.Sums := fun hs => hplain (Or.inr (Or.inr (Or.inr hs)))
    obtain ⟨op, hop, hlt⟩ := @outside_of_wrap e _ box hempty.1 hempty.2 hsums
    rcases h with h | ⟨-, hle⟩
    · rw [hplace] at h
      obtain ⟨ops, -, hops⟩ := Option.map_eq_some_iff.mp h
      cases hops
    · exact absurd (hle op hop) (by omega)
  · rintro (h | h | h | h)
    · exact absurd h hempty.1
    · exact absurd h hempty.2
    · exact absurd h hrej
    · obtain ⟨hbox, hbits⟩ := inBox hrej h
      exact Or.inr ⟨by rw [hplace, m8GlyphOr_eq hbox hempty.1 hempty.2 hbits]; rfl,
        glyphOrs_le hbox⟩

end GcGlyph

/-! ## The table -/

namespace GcFont

variable (e : GcFont) (idx : BitVec 8) (gx gy : ℤ)

/-- Entries of 4 bytes, and headers of 8. -/
def Large : Prop := e.byte 2 &&& 0x80 ≠ 0

instance : Decidable e.Large := by unfold Large; infer_instance

/-- Where the glyph's table entry starts, as the code adds it. -/
def entryAt : ℕ := (e.dword 6 + idx.toNat * if e.Large then 4 else 2) % 4294967296

/-- The entry of a large font : where the glyph's header starts. -/
def largeEntry : ℕ := e.dword (e.entryAt idx % 65536)

/-- The entry, and the header of a large font, end in the segment. -/
structure HeaderWhole : Prop where
  entry : e.Whole (e.entryAt idx) (if e.Large then 3 else 1)
  header : e.Large → e.Passes (e.entryAt idx) 3 → e.Whole (e.largeEntry idx) 7

variable {e idx gx gy}

theorem entryAt_lt : e.entryAt idx < 4294967296 := Nat.mod_lt _ (by decide)

/-- What is not whole passes the check all the same : the sum wraps to less than the head. -/
theorem Passes.of_not_whole {off n : ℕ} (h : ¬e.Whole off n) (hoff : off < 4294967296)
    (hn : n ≤ 7) : e.Passes off n := by
  have hhead := e.head
  unfold Whole at h
  unfold Passes
  unfold M8_GC_HEAD at hhead
  omega

theorem header_large (h : e.Large) : e.m8GcHeader idx gx gy =
    if e.Passes (e.entryAt idx) 3 then
      (e.read32 (e.entryAt idx % 65536)).bind (e.largeHeader gx gy) else some none := by
  have hhead := e.head
  unfold M8_GC_HEAD at hhead
  have hat : (e.dword 6 % 65536 + idx.toNat * 4) % 65536 = e.entryAt idx % 65536 := by
    rw [entryAt, if_pos h]
    omega
  have hflag : e.byte 2 &&& 0x80 ≠ 0 := h
  have hpass : e.Passes (e.dword 6 + idx.toNat * 4) 3 ↔ e.Passes (e.entryAt idx) 3 := by
    rw [entryAt, if_pos h]
    unfold Passes
    omega
  rw [m8GcHeader, read8_eq (by omega), Option.bind_some, read32_eq (by omega) (by omega),
    Option.bind_some, if_pos hflag, hat]
  simp only [hpass]

theorem header_small (h : ¬e.Large) : e.m8GcHeader idx gx gy =
    if e.Passes (e.entryAt idx) 1 then
      (e.read16 (e.entryAt idx % 65536)).bind (e.smallHeader gx gy) else some none := by
  have hhead := e.head
  unfold M8_GC_HEAD at hhead
  have hat : (e.dword 6 % 65536 + idx.toNat * 2) % 65536 = e.entryAt idx % 65536 := by
    rw [entryAt, if_neg h]
    omega
  have hflag : ¬e.byte 2 &&& 0x80 ≠ 0 := h
  have hpass : e.Passes (e.dword 6 + idx.toNat * 2) 1 ↔ e.Passes (e.entryAt idx) 1 := by
    rw [entryAt, if_neg h]
    unfold Passes
    omega
  rw [m8GcHeader, read8_eq (by omega), Option.bind_some, read32_eq (by omega) (by omega),
    Option.bind_some, if_neg hflag, hat]
  simp only [hpass]

/-- The entry of a large font is read, if it is whole. -/
theorem read_entry (hpass : e.Passes (e.entryAt idx) 3) (hwhole : e.Whole (e.entryAt idx) 3) :
    e.read32 (e.entryAt idx % 65536) = some (e.largeEntry idx) := by
  have hlo := hwhole.word (k := 0) entryAt_lt hpass (by decide) (by decide)
  have hhi := hwhole.word (k := 2) entryAt_lt hpass (by decide) (by decide)
  exact read32_eq (by omega) (by omega)

/-- And its header. -/
theorem largeHeader_some {p : ℕ} (hp : p < 4294967296) (h : e.Whole p 7) :
    ∃ r, e.largeHeader gx gy p = some r := by
  by_cases hpass : e.Passes p 7
  · have h0 := h.word (k := 0) hp hpass (by decide) (by decide)
    have h2 := h.word (k := 2) hp hpass (by decide) (by decide)
    have h4 := h.word (k := 4) hp hpass (by decide) (by decide)
    have h6 := h.word (k := 6) hp hpass (by decide) (by decide)
    rw [largeHeader, dif_pos hpass, read16_eq (by omega), read16_eq (by omega),
      read16_eq (by omega), read16_eq (by omega)]
    exact ⟨_, rfl⟩
  · exact ⟨none, dif_neg hpass⟩

/-- Else one of its words faults. -/
theorem largeHeader_none {p : ℕ} (hp : p < 4294967296) (h : ¬e.Whole p 7) :
    e.largeHeader gx gy p = none := by
  have hpass := Passes.of_not_whole h hp (by decide)
  obtain ⟨k, hk, heven, hlt⟩ := exists_of_not_whole h hp (by decide)
  have hk' : k = 0 ∨ k = 2 ∨ k = 4 ∨ k = 6 := by omega
  rw [largeHeader, dif_pos hpass]
  rcases hk' with rfl | rfl | rfl | rfl
  · rw [@read16_none _ (p % 65536) (by omega)]
    rfl
  · rw [@read16_none _ ((p % 65536 + 2) % 65536) (by omega)]
    simp
  · rw [@read16_none _ ((p % 65536 + 4) % 65536) (by omega)]
    simp
  · rw [@read16_none _ ((p % 65536 + 6) % 65536) (by omega)]
    simp

/-- A small font's header starts in the segment, so its four bytes do not wrap. -/
theorem smallHeader_some {p : ℕ} (hp : p < 65536) : ∃ r, e.smallHeader gx gy p = some r := by
  by_cases hpass : e.Passes p 3
  · have hle : p + 3 ≤ e.limit := by
      unfold Passes at hpass
      omega
    have hseg := e.segment
    rw [smallHeader, dif_pos hpass, read8_eq (by omega), read8_eq (by omega), read8_eq (by omega),
      read8_eq (by omega)]
    exact ⟨_, rfl⟩
  · exact ⟨none, dif_neg hpass⟩

/-- The header is read without a fault if it is whole. -/
theorem header_some (h : e.HeaderWhole idx) : ∃ r, e.m8GcHeader idx gx gy = some r := by
  by_cases hlarge : e.Large
  · have hentry := h.entry
    rw [if_pos hlarge] at hentry
    rw [header_large hlarge]
    by_cases hpass : e.Passes (e.entryAt idx) 3
    · rw [if_pos hpass, read_entry hpass hentry]
      exact largeHeader_some (dword_lt _) (h.header hlarge hpass)
    · exact ⟨none, if_neg hpass⟩
  · have hentry := h.entry
    rw [if_neg hlarge] at hentry
    rw [header_small hlarge]
    by_cases hpass : e.Passes (e.entryAt idx) 1
    · have hword := hentry.word (k := 0) entryAt_lt hpass (by decide) (by decide)
      rw [if_pos hpass, read16_eq (by omega)]
      exact smallHeader_some (word_lt _)
    · exact ⟨none, if_neg hpass⟩

/-- And only then. -/
theorem header_none (h : ¬e.HeaderWhole idx) : e.m8GcHeader idx gx gy = none := by
  by_cases hlarge : e.Large
  · rw [header_large hlarge]
    by_cases hentry : e.Whole (e.entryAt idx) 3
    · have hheader : ¬(e.Passes (e.entryAt idx) 3 → e.Whole (e.largeEntry idx) 7) :=
        fun hw => h ⟨by rwa [if_pos hlarge], fun _ => hw⟩
      push Not at hheader
      rw [if_pos hheader.1, read_entry hheader.1 hentry]
      exact largeHeader_none (dword_lt _) hheader.2
    · have hpass := Passes.of_not_whole hentry entryAt_lt (by decide)
      obtain ⟨k, hk, heven, hlt⟩ := exists_of_not_whole hentry entryAt_lt (by decide)
      rw [if_pos hpass, read32_none (by omega)]
      rfl
  · have hentry : ¬e.Whole (e.entryAt idx) 1 := fun hw =>
      h ⟨by rwa [if_neg hlarge], fun hl => absurd hl hlarge⟩
    have hpass := Passes.of_not_whole hentry entryAt_lt (by decide)
    obtain ⟨k, hk, heven, hlt⟩ := exists_of_not_whole hentry entryAt_lt (by decide)
    rw [header_small hlarge, if_pos hpass, read16_none (by omega)]
    rfl

end GcFont

/-! ## Pixels -/

/-- A bitmap's pixel, the leftmost in the top bit. -/
def bitAt (bits : ℕ → BitVec 8) (n : ℕ) : Prop := (bits (n / 8)).getMsbD (n % 8) = true

/-- What ORs leave in a bitmap. -/
def orAll (bits : ℕ → BitVec 8) (ops : List GcOr) : ℕ → BitVec 8 :=
  ops.foldl (fun bits op => Function.update bits op.1 (bits op.1 ||| op.2)) bits

/-- A pixel is set if it was, or if a byte OR-ed in has it. -/
theorem bitAt_orAll {n : ℕ} : ∀ (ops : List GcOr) (bits : ℕ → BitVec 8), bitAt (orAll bits ops) n ↔
    bitAt bits n ∨ ∃ op ∈ ops, op.1 = n / 8 ∧ op.2.getMsbD (n % 8) = true
  | [], bits => by simp [orAll]
  | op :: ops, bits => by
    have ih := bitAt_orAll ops (Function.update bits op.1 (bits op.1 ||| op.2)) (n := n)
    have hone : bitAt (Function.update bits op.1 (bits op.1 ||| op.2)) n ↔
        bitAt bits n ∨ op.1 = n / 8 ∧ op.2.getMsbD (n % 8) = true := by
      unfold bitAt
      by_cases hat : n / 8 = op.1
      · rw [hat, Function.update_self, BitVec.getMsbD_or, Bool.or_eq_true]
        simp
      · rw [Function.update_of_ne hat]
        simp [Ne.symm hat]
    rw [orAll, List.foldl_cons]
    refine ih.trans ?_
    rw [hone, or_assoc]
    simp only [List.mem_cons, exists_eq_or_imp]

/-- AX holds the byte's pixels from `shift` on. -/
theorem shrAx_getMsbD {g : BitVec 8} {shift m : ℕ} (hm : m < 16) :
    (shrAx g shift).getMsbD m = (decide (shift ≤ m) && g.getMsbD (m - shift)) := by
  rw [shrAx, BitVec.getMsbD_ushiftRight, BitVec.getMsbD_append]
  by_cases hshift : m < shift
  · simp [hshift, show ¬shift ≤ m by omega]
  · by_cases hlow : 8 ≤ m - shift
    · simp [hlow, BitVec.getMsbD_of_ge]
    · simp [hlow, hm, hshift, show shift ≤ m by omega]

/-- The two bytes hold the glyph's byte, moved right. -/
theorem exists_byteOr {g : BitVec 8} {shift d n : ℕ} (hshift : shift < 8) :
    (∃ op ∈ ([(d, (shrAx g shift).extractLsb' 8 8), (d + 1, (shrAx g shift).extractLsb' 0 8)] :
      List GcOr), op.1 = n / 8 ∧ op.2.getMsbD (n % 8) = true) ↔
      ∃ i < 8, n = d * 8 + shift + i ∧ g.getMsbD i = true := by
  have hk : n % 8 < 8 := Nat.mod_lt _ (by decide)
  have hhi : ((shrAx g shift).extractLsb' 8 8).getMsbD (n % 8) =
      (shrAx g shift).getMsbD (n % 8) := by
    rw [BitVec.getMsbD_extractLsb']
    simp [hk, show 16 - (16 - n % 8) = n % 8 by omega]
  have hlo : ((shrAx g shift).extractLsb' 0 8).getMsbD (n % 8) =
      (shrAx g shift).getMsbD (n % 8 + 8) := by
    rw [BitVec.getMsbD_extractLsb']
    simp [hk, show 8 - n % 8 ≤ 16 by omega, show 16 - (8 - n % 8) = n % 8 + 8 by omega]
  simp only [List.mem_cons, List.not_mem_nil, or_false, exists_eq_or_imp, exists_eq_left]
  rw [hhi, hlo, shrAx_getMsbD (by omega), shrAx_getMsbD (by omega), Bool.and_eq_true,
    Bool.and_eq_true, decide_eq_true_iff, decide_eq_true_iff]
  constructor
  · rintro (⟨hd, hle, hbit⟩ | ⟨hd, hle, hbit⟩)
    · exact ⟨n % 8 - shift, by omega, by omega, hbit⟩
    · refine ⟨n % 8 + 8 - shift, ?_, by omega, hbit⟩
      by_contra hge
      rw [BitVec.getMsbD_of_ge _ _ (by omega)] at hbit
      cases hbit
  · rintro ⟨i, hi, hn, hbit⟩
    by_cases hrow : shift + i < 8
    · refine Or.inl ⟨by omega, by omega, ?_⟩
      rwa [show n % 8 - shift = i by omega]
    · refine Or.inr ⟨by omega, by omega, ?_⟩
      rwa [show n % 8 + 8 - shift = i by omega]

/-- What the glyph's rows leave in a bitmap : each row's pixels, from its pen on. -/
theorem bitAt_glyphOrs {e : GcFont} {g : GcGlyph} {box : GcBox} {bits : ℕ → BitVec 8} {n : ℕ} :
    bitAt (orAll bits (glyphOrs e g box)) n ↔ bitAt bits n ∨ ∃ j < g.gh, ∃ i < 8 * g.wide,
      n = (g.y.toNat + j) * (8 * box.wb) + g.x.toNat + i ∧
        bitAt (fun c => e.byte (g.p + j * g.wide + c)) i := by
  rw [bitAt_orAll]
  refine or_congr_right ?_
  have hcell : ∀ j c, (g.at box.wb j c) * 8 + g.x.toNat % 8 =
      (g.y.toNat + j) * (8 * box.wb) + g.x.toNat + 8 * c := fun j c => by
    have hmul : (g.y.toNat + j) * (8 * box.wb) = (g.y.toNat + j) * box.wb * 8 := by
      rw [Nat.mul_comm 8, ← Nat.mul_assoc]
    unfold GcGlyph.at
    rw [hmul]
    generalize (g.y.toNat + j) * box.wb = start
    omega
  constructor
  · rintro ⟨op, hop, hat⟩
    obtain ⟨j, hj, hop⟩ := List.mem_flatMap.mp hop
    obtain ⟨c, hc, hop⟩ := List.mem_flatMap.mp hop
    rw [List.mem_range] at hj hc
    obtain ⟨i, hi, hn, hbit⟩ := (exists_byteOr (Nat.mod_lt _ (by decide))).mp ⟨op, hop, hat⟩
    rw [hcell] at hn
    refine ⟨j, hj, 8 * c + i, by omega, by omega, ?_⟩
    unfold bitAt
    rwa [show (8 * c + i) / 8 = c by omega, show (8 * c + i) % 8 = i by omega]
  · rintro ⟨j, hj, i, hi, hn, hbit⟩
    obtain ⟨op, hop, hat⟩ := (exists_byteOr (g := e.byte (g.p + j * g.wide + i / 8))
      (d := g.at box.wb j (i / 8)) (n := n) (Nat.mod_lt g.x.toNat (by decide : 8 > 0))).mpr
      ⟨i % 8, Nat.mod_lt _ (by decide), by rw [hcell]; omega, hbit⟩
    exact ⟨op, List.mem_flatMap.mpr ⟨j, List.mem_range.mpr hj, List.mem_flatMap.mpr
      ⟨i / 8, List.mem_range.mpr (by omega), hop⟩⟩, hat⟩

/-! ## Any glyph -/

/-- `m8_gc_glyph` returned 0 and nothing changed, or it read in the segment and drew the glyph's
rows, all in the bitmap and its spare byte. -/
def GcFont.GlyphKept (e : GcFont) (idx : BitVec 8) (gx gy : ℤ) (box : GcBox) : Prop :=
  e.m8GcGlyph idx gx gy box = some (false, []) ∨
    ∃ g, e.m8GcHeader idx gx gy = some (some g) ∧
      e.m8GcGlyph idx gx gy box = some (true, glyphOrs e g box) ∧
        ∀ op ∈ glyphOrs e g box, op.1 ≤ box.wb * box.h

/-- No offset of the table and no edge of the glyph wraps past its check. -/
structure GcFont.GlyphPlain (e : GcFont) (idx : BitVec 8) (gx gy : ℤ) (box : GcBox) : Prop where
  whole : e.HeaderWhole idx
  sums : ∀ g, e.m8GcHeader idx gx gy = some (some g) → g.Plain e box

/-- Without a header in the segment the call faults. -/
theorem not_kept_of_torn {e : GcFont} {idx : BitVec 8} {gx gy : ℤ} {box : GcBox}
    (h : ¬e.HeaderWhole idx) : ¬e.GlyphKept idx gx gy box := by
  have hnone : e.m8GcGlyph idx gx gy box = none := by
    rw [GcFont.m8GcGlyph, GcFont.header_none h]
    rfl
  rintro (hkept | ⟨g, -, hkept, -⟩)
  · rw [hnone] at hkept
    cases hkept
  · rw [hnone] at hkept
    cases hkept

/-- A glyph is turned away or drawn in the bitmap, and nothing outside the segment read, if no
offset and no edge wraps past its check, and only then. -/
theorem m8_gc_glyph_in_bounds_iff (e : GcFont) (idx : BitVec 8) (gx gy : ℤ) (box : GcBox) :
    (e.GlyphKept idx gx gy box ↔ e.GlyphPlain idx gx gy box) ∧
      ∀ g bits n, bitAt (orAll bits (glyphOrs e g box)) n ↔ bitAt bits n ∨
        ∃ j < g.gh, ∃ i < 8 * g.wide, n = (g.y.toNat + j) * (8 * box.wb) + g.x.toNat + i ∧
          bitAt (fun c => e.byte (g.p + j * g.wide + c)) i := by
  refine ⟨?_, fun g bits n => bitAt_glyphOrs⟩
  by_cases hwhole : e.HeaderWhole idx
  · obtain ⟨header, hheader⟩ := @GcFont.header_some _ _ gx gy hwhole
    cases header with
    | none =>
      refine ⟨fun _ => ⟨hwhole, fun g hg => ?_⟩, fun _ => Or.inl ?_⟩
      · rw [hheader] at hg
        cases hg
      · rw [GcFont.m8GcGlyph, hheader]
        rfl
    | some g =>
      have hplace : e.m8GcGlyph idx gx gy box = e.m8GcPlace g box := by
        rw [GcFont.m8GcGlyph, hheader]
        rfl
      have hkept : e.GlyphKept idx gx gy box ↔ g.Kept e box := by
        unfold GcFont.GlyphKept GcGlyph.Kept
        rw [hplace, hheader]
        simp
      rw [hkept, GcGlyph.kept_iff]
      refine ⟨fun h => ⟨hwhole, fun g' hg => ?_⟩, fun h => h.sums g hheader⟩
      rw [hheader] at hg
      cases hg
      exact h
  · exact ⟨fun h => absurd h (not_kept_of_torn hwhole), fun h => absurd h.whole hwhole⟩

/-- A large font whose glyph 0 is 8 pixels wide and 8000h rows high. -/
def tallFont : GcFont where
  byte off :=
    if off = 2 then 0x80 else if off = 6 then 0x20 else if off = 0x20 then 0x40
    else if off = 0x44 then 8 else if off = 0x47 then 0x80 else 0
  limit := 0xFFFF
  head := by decide
  segment := by decide

/-- A box of 8 pixels by 8. -/
def byteBox : GcBox := ⟨1, 8, by decide, by decide⟩

/-- The height is negative in the check, and all of its rows are drawn. -/
theorem m8_gc_glyph_too_tall : ¬tallFont.GlyphKept 0 0 0 byteBox := by
  have hheader : tallFont.m8GcHeader 0 0 0 = some (some ⟨0, 0, 8, 0x8000, 0x48, by decide,
      by decide, by decide, by decide, by decide⟩) := by decide +kernel
  have hplace : ∀ g, tallFont.m8GcHeader 0 0 0 = some (some g) →
      tallFont.m8GcGlyph 0 0 0 byteBox = tallFont.m8GcPlace g byteBox := fun g hg => by
    rw [GcFont.m8GcGlyph, hg]
    rfl
  rw [GcFont.GlyphKept, hplace _ hheader]
  have hkept := @GcGlyph.kept_iff tallFont ⟨0, 0, 8, 0x8000, 0x48, by decide, by decide, by decide,
    by decide, by decide⟩ byteBox
  have hnot : ¬GcGlyph.Plain tallFont ⟨0, 0, 8, 0x8000, 0x48, by decide, by decide, by decide,
      by decide, by decide⟩ byteBox := by
    unfold GcGlyph.Plain
    decide
  rintro (h | ⟨g, hg, h, hle⟩)
  · exact hnot (hkept.mp (Or.inl h))
  · rw [hheader] at hg
    cases hg
    exact hnot (hkept.mp (Or.inr ⟨h, hle⟩))

end Inboard
