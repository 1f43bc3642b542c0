import Inboard.Fallback
import Inboard.XlatWrite

/-!
# DIBs to the screen

`m8_d2d_fast` draws the bottom rows of an 8 bpp DIB straight to the card. The height is a `long` and
the screen's rows are `int`s : where the band is far below the screen its first row wraps, and a
band that wraps onto the screen is drawn there (`m8_d2d_fast_exact_iff`). A right or a bottom edge
that wraps is left of the clip or above it, and nothing is drawn, as nothing should be.
-/

set_option linter.unusedSectionVars false

namespace Inboard

/-- The size of a `BITMAPINFOHEADER`. -/
def BITMAPINFOHEADER_SIZE : ℕ := 40

/-- What `m8_d2d_fast` is given, with the fields of the header that it reads. -/
structure D2dArgs where
  X : BitVec 16
  Y : BitVec 16
  iScan : BitVec 16
  cScans : BitVec 16
  clip : Option Rect
  bitsOff : BitVec 16
  biSize : ℕ
  biWidth : BitVec 32
  biHeight : BitVec 32
  biBitCount : ℕ
  biCompression : ℕ

namespace D2dArgs

variable (m : M8Mode) (a : D2dArgs)

/-- `(int)X` and `(int)Y`. -/
def x : ℤ := a.X.toInt

def y : ℤ := a.Y.toInt

/-- `cols` and `rows`. -/
def cols : ℤ := a.biWidth.toInt

def rows : ℤ := a.biHeight.toInt

/-- `cScans`. -/
def scans : ℤ := a.cScans.toNat

def stride : ℤ := (a.cols + 3) / 4 * 4

/-- The checks : a whole uncompressed 8 bpp bottom-up DIB in one segment. -/
structure Accepts (hwOff : Bool) : Prop where
  on : hwOff = false
  scan : a.iScan = 0
  some_scans : a.cScans ≠ 0
  header : a.biSize = BITMAPINFOHEADER_SIZE ∧ a.biBitCount = 8 ∧ a.biCompression = 0
  wide : 0 < a.cols ∧ a.cols ≤ 2048
  high : 0 < a.rows ∧ a.scans ≤ a.rows
  segment : a.bitsOff.toNat + a.stride * a.scans ≤ 0x10000

instance (hwOff : Bool) : Decidable (a.Accepts hwOff) :=
  decidable_of_iff (hwOff = false ∧ a.iScan = 0 ∧ a.cScans ≠ 0 ∧
    (a.biSize = BITMAPINFOHEADER_SIZE ∧ a.biBitCount = 8 ∧ a.biCompression = 0) ∧
    (0 < a.cols ∧ a.cols ≤ 2048) ∧ (0 < a.rows ∧ a.scans ≤ a.rows) ∧
    a.bitsOff.toNat + a.stride * a.scans ≤ 0x10000)
    ⟨fun ⟨h1, h2, h3, h4, h5, h6, h7⟩ => ⟨h1, h2, h3, h4, h5, h6, h7⟩,
      fun ⟨h1, h2, h3, h4, h5, h6, h7⟩ => ⟨h1, h2, h3, h4, h5, h6, h7⟩⟩

/-- `top` : the band's first row, as the code adds it. -/
def top : ℤ := int16 (a.y + int16 (a.rows - a.scans))

/-- The band on the screen, within the clip. -/
def area (clip : Rect) : Rect :=
  (clip.inter ⟨a.x, a.top, int16 (a.x + int16 a.cols), int16 (a.top + int16 a.scans)⟩).inter
    m.screen

/-- `m8_rect_empty`. -/
def EmptyRect (r : Rect) : Prop := r.left ≥ r.right ∨ r.top ≥ r.bottom

instance (r : Rect) : Decidable (EmptyRect r) := by unfold EmptyRect; infer_instance

/-- The row of `bits` that goes to an area's first row. -/
def row0 (r : Rect) : ℤ := a.stride * ((a.top + a.scans - 1 - r.top) % 65536)

/-- The call for an area. -/
def call (r : Rect) (mem : ℤ → UInt8) (tbl : UInt8 → UInt8) : XlatWrite where
  x := (m8RectAlign m r).left
  y := r.top
  w := int16 ((m8RectAlign m r).right - (m8RectAlign m r).left)
  h := int16 (r.bottom - r.top)
  clipL := r.left
  clipR := r.right
  mem := fun off => mem (a.row0 r + off)
  step := -a.stride
  col0 := int16 ((m8RectAlign m r).left - a.x)
  cols := int16 a.cols
  tbl := tbl

/-- `m8_d2d_fast`, with what `m8_d2d_table` makes of the header : 0 and 1, and the card. -/
def m8D2dFast (hwOff : Bool) (table : Option (UInt8 → UInt8)) (mem : ℤ → UInt8) (c : Card) :
    Bool × Card :=
  match a.clip with
  | none => (false, c)
  | some clip =>
    if a.Accepts hwOff then
      if EmptyRect (a.area m clip) then (true, c)
      else
        match table with
        | none => (false, c)
        | some tbl => (true, (a.call m (a.area m clip) mem tbl).m8HwWriteXlat c)
    else (false, c)

/-! ## The band -/

/-- The DIB's columns, and the bottom `cScans` of its rows. -/
def band : Rect :=
  ⟨a.x, a.y + a.rows - a.scans, a.x + a.cols, a.y + a.rows⟩

/-- The byte of `bits` for a pixel of the band : the rows go up. -/
def source (p : Pixel) : ℤ := a.stride * (a.y + a.rows - 1 - p.2) + (p.1 - a.x)

section Accepted

variable {m a} {hwOff : Bool} {clip : Rect}

theorem bounds (a : D2dArgs) : (-32768 ≤ a.x ∧ a.x < 32768) ∧ (-32768 ≤ a.y ∧ a.y < 32768) ∧
    a.rows < 2147483648 :=
  ⟨⟨BitVec.le_toInt _, BitVec.toInt_lt⟩, ⟨BitVec.le_toInt _, BitVec.toInt_lt⟩, BitVec.toInt_lt⟩

/-- A segment's rows are few. -/
theorem Accepts.scans (h : a.Accepts hwOff) : 0 < a.scans ∧ a.scans ≤ 16384 := by
  have hwide := h.wide
  have hsegment := h.segment
  have hne := h.some_scans
  have hpos : 0 < a.scans := by
    unfold D2dArgs.scans
    have hnat : a.cScans.toNat ≠ 0 := fun h0 => hne (by
      apply BitVec.eq_of_toNat_eq
      simpa using h0)
    omega
  have hstride : 4 ≤ a.stride := by
    unfold stride
    omega
  have hmul := Int.mul_le_mul_of_nonneg_right hstride (Int.le_of_lt hpos)
  omega

/-- What the rows of a nonempty area are. -/
theorem Accepts.area_edges (h : a.Accepts hwOff) (hsome : ¬EmptyRect (a.area m clip)) :
    ((a.area m clip).left = max (max clip.left a.x) 0 ∧
        (a.area m clip).right = min (min clip.right (a.x + a.cols)) m.x) ∧
      (a.area m clip).top = max (max clip.top a.top) 0 ∧
        (a.area m clip).bottom = min (min clip.bottom (a.top + a.scans)) m.y := by
  have hscans := h.scans
  have hwide := h.wide
  have hbounds := a.bounds
  have hmode : m.x ≤ 1024 ∧ m.y ≤ 1024 := by
    have hok := m.ok
    simp only [Prod.mk.injEq] at hok
    omega
  have htop : -32768 ≤ a.top ∧ a.top < 32768 := by
    unfold top int16
    omega
  unfold EmptyRect area Rect.inter M8Mode.screen at hsome
  unfold area Rect.inter M8Mode.screen
  dsimp only at hsome ⊢
  rw [int16_eq (x := a.cols) (by omega), int16_eq (x := a.scans) (by omega)] at hsome ⊢
  have hright : a.x + a.cols < 32768 := by
    by_contra hwrap
    unfold int16 at hsome
    omega
  have hbottom : a.top + a.scans < 32768 := by
    by_contra hwrap
    unfold int16 at hsome
    omega
  rw [int16_eq (x := a.x + a.cols) (by omega), int16_eq (x := a.top + a.scans) (by omega)]
  exact ⟨⟨rfl, rfl⟩, rfl, rfl⟩

/-- A part of the band on the screen, with pixels. -/
structure Part (m : M8Mode) (a : D2dArgs) (r : Rect) : Prop where
  some_columns : r.left < r.right
  some_rows : r.top < r.bottom
  columns : a.x ≤ r.left ∧ r.right ≤ a.x + a.cols
  rows : a.top ≤ r.top ∧ r.bottom ≤ a.top + a.scans
  screen : 0 ≤ r.left ∧ r.right ≤ m.x
  screen_rows : 0 ≤ r.top ∧ r.bottom ≤ m.y
  wide : a.cols ≤ 2048
  high : a.scans ≤ 16384

theorem Accepts.part (h : a.Accepts hwOff) (hsome : ¬EmptyRect (a.area m clip)) :
    a.Part m (a.area m clip) := by
  obtain ⟨⟨hl, hr⟩, ht, hb⟩ := h.area_edges hsome
  unfold EmptyRect at hsome
  rw [hl, hr, ht, hb] at hsome
  refine ⟨?_, ?_, ?_, ?_, ?_, ?_, h.wide.2, h.scans.2⟩
  all_goals
    simp only [hl, hr, ht, hb]
    omega

section Call

variable {r : Rect} {mem : ℤ → UInt8} {tbl : UInt8 → UInt8} (h : a.Part m r)
include h

theorem Part.sizes : (m.x % 2 = 0 ∧ m.x ≤ 1024) ∧ m.y ≤ 1024 ∧ 0 ≤ r.left ∧ r.right ≤ 1024 ∧
    0 ≤ r.top ∧ r.bottom ≤ 1024 := by
  have hok := m.ok
  have hscreen := h.screen
  have hrows := h.screen_rows
  simp only [Prod.mk.injEq] at hok
  omega

/-- The blit's columns. -/
theorem call_w : (a.call m r mem tbl).w = (r.right + 1) / 2 * 2 - r.left / 2 * 2 := by
  have hsizes := h.sizes
  have hscreen := h.screen
  have hsome := h.some_columns
  have hmin : min ((r.right + 1) / 2 * 2) (m.x : ℤ) = (r.right + 1) / 2 * 2 :=
    Int.min_eq_left (by omega)
  rw [call, m8RectAlign]
  dsimp only
  rw [hmin]
  exact int16_eq (x := (r.right + 1) / 2 * 2 - r.left / 2 * 2) (by omega)

theorem call_h : (a.call m r mem tbl).h = r.bottom - r.top := by
  have hsizes := h.sizes
  have hsome := h.some_rows
  exact int16_eq (by omega)

theorem call_col0 : (a.call m r mem tbl).col0 = r.left / 2 * 2 - a.x := by
  have hsizes := h.sizes
  have hcolumns := h.columns
  have hwide := h.wide
  have hsome := h.some_columns
  exact int16_eq (by
    unfold m8RectAlign
    dsimp only
    omega)

theorem call_clipR : int16 ((a.call m r mem tbl).clipR - 1) = r.right - 1 := by
  have hsizes := h.sizes
  have hsome := h.some_columns
  exact int16_eq (by
    unfold call
    dsimp only
    omega)

/-- The DIB's columns among them. -/
theorem call_lo : (a.call m r mem tbl).lo = max (a.x - r.left / 2 * 2) 0 := by
  have hsizes := h.sizes
  have hcolumns := h.columns
  unfold XlatWrite.lo
  rw [call_col0 h]
  split_ifs
  · rw [int16_eq (by omega)]
    omega
  · omega

theorem call_hi : (a.call m r mem tbl).hi =
    min (a.x + a.cols - r.left / 2 * 2) ((r.right + 1) / 2 * 2 - r.left / 2 * 2) := by
  have hsizes := h.sizes
  have hcolumns := h.columns
  have hwide := h.wide
  have hsome := h.some_columns
  have hcols : int16 ((a.call m r mem tbl).cols - (a.call m r mem tbl).col0) =
      a.x + a.cols - r.left / 2 * 2 := by
    rw [call_col0 h, call]
    dsimp only
    rw [int16_eq (x := a.cols) (by omega), int16_eq (by omega)]
    omega
  unfold XlatWrite.hi
  rw [hcols, call_w h]
  split_ifs <;> omega

theorem row0_eq : a.row0 r = a.stride * (a.top + a.scans - 1 - r.top) := by
  have hrows := h.rows
  have hsome := h.some_rows
  have hhigh := h.high
  rw [row0, Int.emod_eq_of_lt (by omega) (by omega)]

/-- The bytes of a row of the blit are those of as many rows up as it is above the band's last. -/
theorem row_offset {row k : ℤ} : a.row0 r + (row * (a.call m r mem tbl).step +
    (a.call m r mem tbl).col0 + k) =
      a.stride * (a.top + a.scans - 1 - (r.top + row)) + (r.left / 2 * 2 + k - a.x) := by
  have hstep : (a.call m r mem tbl).step = -a.stride := rfl
  rw [call_col0 h, row0_eq h, hstep, Int.mul_neg, Int.mul_comm row,
    show a.top + a.scans - 1 - (r.top + row) = a.top + a.scans - 1 - r.top - row by omega,
    Int.mul_sub a.stride (a.top + a.scans - 1 - r.top)]
  omega

/-- Every pixel of the area gets the byte that belongs to it, and no other pixel changes. -/
theorem call_apply (c : Card) (p : Pixel) : (a.call m r mem tbl).m8HwWriteXlat c p =
    if p ∈ r then tbl (mem (a.stride * (a.top + a.scans - 1 - p.2) + (p.1 - a.x))) else c p := by
  have hsizes := h.sizes
  have hcolumns := h.columns
  have hsome := h.some_columns
  have hrows := h.some_rows
  have hempty : ¬(a.call m r mem tbl).Empty := by
    unfold XlatWrite.Empty M8_XROW_MAX
    rw [call_w h, call_h h]
    omega
  have hin : (p ∈ Rect.at (r.left / 2 * 2) r.top ((r.right + 1) / 2 * 2 - r.left / 2 * 2)
      (r.bottom - r.top) ∧ r.left ≤ p.1 ∧ p.1 ≤ r.right - 1) ↔ p ∈ r := by
    rw [Rect.mem_at, Rect.mem_iff]
    omega
  rw [XlatWrite.m8HwWriteXlat_apply hempty (by rw [call_w h]; omega) c p, call_clipR h, call_w h,
    call_h h]
  by_cases hp : p ∈ r
  · refine (if_pos (hin.mpr hp)).trans ?_
    rw [if_pos hp]
    rw [Rect.mem_iff] at hp
    have hbyte : (a.call m r mem tbl).lo ≤ p.1 - r.left / 2 * 2 ∧
        p.1 - r.left / 2 * 2 < (a.call m r mem tbl).hi := by
      rw [call_lo h, call_hi h]
      omega
    have hoff := @row_offset _ _ _ mem tbl h (p.2 - r.top) (p.1 - r.left / 2 * 2)
    have hrow : r.top + (p.2 - r.top) = p.2 := by omega
    have hcol : r.left / 2 * 2 + (p.1 - r.left / 2 * 2) = p.1 := by omega
    rw [hrow, hcol] at hoff
    rw [← hoff]
    exact if_pos hbyte
  · rw [if_neg hp]
    exact if_neg fun hr => hp (hin.mp hr)

/-- No byte is read outside the rows. -/
theorem call_reads {off : ℤ} (hread : (a.call m r mem tbl).Reads off) :
    0 ≤ a.row0 r + off ∧ a.row0 r + off < a.stride * a.scans := by
  obtain ⟨row, k, hrow0, hrowh, hk0, hkh, rfl⟩ := hread
  have hrows := h.rows
  have hcols : a.cols ≤ a.stride := by
    unfold stride
    omega
  rw [call_h h] at hrowh
  rw [call_lo h] at hk0
  rw [call_hi h] at hkh
  rw [row_offset h]
  have hlow : 0 ≤ a.stride * (a.top + a.scans - 1 - (r.top + row)) :=
    Int.mul_nonneg (by omega) (by omega)
  have hup : a.stride * (a.top + a.scans - 1 - (r.top + row) + 1) ≤ a.stride * a.scans :=
    Int.mul_le_mul_of_nonneg_left (by omega) (by omega)
  rw [Int.mul_add a.stride _ 1, Int.mul_one] at hup
  omega

end Call

/-! ## Exactness -/

/-- What is accepted is drawn : the band's pixels on the screen and in the clip are the DIB's, all
others are as before, and no byte of `bits` outside the rows is read. -/
def Exact (m : M8Mode) (a : D2dArgs) (hwOff : Bool) (table : Option (UInt8 → UInt8)) : Prop :=
  ∀ clip tbl, a.clip = some clip → table = some tbl → a.Accepts hwOff →
    (∀ mem c p, (a.m8D2dFast m hwOff table mem c).2 p =
      if p ∈ clip ∧ p ∈ a.band ∧ p ∈ m.screen then tbl (mem (a.source p)) else c p) ∧
    (¬EmptyRect (a.area m clip) → ∀ mem off, (a.call m (a.area m clip) mem tbl).Reads off →
      0 ≤ a.row0 (a.area m clip) + off ∧
        a.row0 (a.area m clip) + off < a.stride * a.scans)

/-- The band's first row, a `long`, is past the last `int`, and modulo 65536 a part of the band is
on the screen and in the clip. -/
def WrapsOnScreen (m : M8Mode) (a : D2dArgs) : Prop :=
  32768 ≤ a.y + a.rows - a.scans ∧ ∃ clip, a.clip = some clip ∧
    (max (max clip.left a.x) 0 < min (min clip.right (a.x + a.cols)) m.x ∧
      max (max clip.top (int16 (a.y + a.rows - a.scans))) 0 <
        min (min clip.bottom (int16 (a.y + a.rows - a.scans) + a.scans)) m.y)

/-- `top` is the true first row, modulo 65536. -/
theorem top_eq (a : D2dArgs) : a.top = int16 (a.y + a.rows - a.scans) := by
  unfold top int16
  omega

/-- The area is empty unless it has columns and rows, of the sums as they are. -/
theorem Accepts.empty_iff (h : a.Accepts hwOff) : ¬EmptyRect (a.area m clip) ↔
    max (max clip.left a.x) 0 < min (min clip.right (a.x + a.cols)) m.x ∧
      max (max clip.top (int16 (a.y + a.rows - a.scans))) 0 <
        min (min clip.bottom (int16 (a.y + a.rows - a.scans) + a.scans)) m.y := by
  have hscans := h.scans
  have hwide := h.wide
  have hbounds := a.bounds
  have hmode : m.x ≤ 1024 ∧ m.y ≤ 1024 := by
    have hok := m.ok
    simp only [Prod.mk.injEq] at hok
    omega
  rw [← top_eq a]
  constructor
  · intro hsome
    obtain ⟨⟨hl, hr⟩, ht, hb⟩ := h.area_edges hsome
    unfold EmptyRect at hsome
    rw [hl, hr, ht, hb] at hsome
    omega
  · rintro ⟨hx, hy⟩
    have hright : int16 (a.x + int16 a.cols) = a.x + a.cols := by
      rw [int16_eq (x := a.cols) (by omega), int16_eq (by omega)]
    have hbottom : int16 (a.top + int16 a.scans) = a.top + a.scans := by
      rw [int16_eq (x := a.scans) (by omega), int16_eq (by omega)]
    unfold EmptyRect area Rect.inter M8Mode.screen
    rw [hright, hbottom]
    dsimp only
    omega

/-- Without a wrap the area is the band's part in the clip and on the screen. -/
theorem Accepts.mem_area (h : a.Accepts hwOff) (hplain : a.y + a.rows - a.scans < 32768)
    (hsome : ¬EmptyRect (a.area m clip)) (p : Pixel) :
    p ∈ a.area m clip ↔ p ∈ clip ∧ p ∈ a.band ∧ p ∈ m.screen := by
  obtain ⟨⟨hl, hr⟩, ht, hb⟩ := h.area_edges hsome
  have hhigh := h.high
  have hbounds := a.bounds
  have htop : a.top = a.y + a.rows - a.scans := by
    rw [top_eq a, int16_eq (by omega)]
  rw [Rect.mem_iff, hl, hr, ht, hb, htop, Rect.mem_iff, Rect.mem_iff, Rect.mem_iff]
  unfold band M8Mode.screen
  dsimp only
  simp only [Int.max_le, Int.lt_min, Int.sub_add_cancel]
  tauto

/-- Where the code's area is empty, so is what should be drawn. -/
theorem Accepts.none_drawn (h : a.Accepts hwOff) (hempty : EmptyRect (a.area m clip)) (p : Pixel) :
    ¬(p ∈ clip ∧ p ∈ a.band ∧ p ∈ m.screen) := by
  have hscans := h.scans
  have hhigh := h.high
  have hbounds := a.bounds
  have hmode : m.x ≤ 1024 ∧ m.y ≤ 1024 := by
    have hok := m.ok
    simp only [Prod.mk.injEq] at hok
    omega
  have hsome := mt h.empty_iff.mpr (not_not_intro hempty)
  rw [Rect.mem_iff, Rect.mem_iff, Rect.mem_iff]
  unfold band M8Mode.screen
  dsimp only
  rintro ⟨hclip, hband, hscreen⟩
  have hplain : int16 (a.y + a.rows - a.scans) = a.y + a.rows - a.scans := int16_eq (by omega)
  rw [hplain] at hsome
  omega

/-- A band that wraps onto the screen is drawn where none of it belongs. -/
theorem Accepts.not_exact (hok : a.Accepts hwOff) {tbl : UInt8 → UInt8} (h : a.WrapsOnScreen m) :
    ¬a.Exact m hwOff (some tbl) := by
  intro hexact
  obtain ⟨hwraps, clip, hclip, hsome⟩ := h
  have hempty := hok.empty_iff.mpr hsome
  have hpart := hok.part hempty
  have hcall : a.m8D2dFast m hwOff (some tbl) (fun _ => 0) (fun _ => tbl 0 + 1) =
      (true, (a.call m (a.area m clip) (fun _ => 0) tbl).m8HwWriteXlat (fun _ => tbl 0 + 1)) := by
    rw [m8D2dFast, hclip]
    dsimp only
    rw [if_pos hok, if_neg hempty]
  have hpixel := (hexact clip tbl hclip rfl hok).1 (fun _ => 0) (fun _ => tbl 0 + 1)
    ((a.area m clip).left, (a.area m clip).top)
  rw [hcall] at hpixel
  have hdrawn := (@call_apply _ _ _ (fun _ => 0) tbl hpart (fun _ => tbl 0 + 1)
    ((a.area m clip).left, (a.area m clip).top)).symm.trans hpixel
  have hin : ((a.area m clip).left, (a.area m clip).top) ∈ a.area m clip :=
    Rect.mem_iff.mpr ⟨Int.le_refl _, hpart.some_columns, Int.le_refl _, hpart.some_rows⟩
  have hout : ((a.area m clip).left, (a.area m clip).top) ∉ a.band := by
    have hsizes := hpart.sizes
    have hrows := hpart.some_rows
    rw [Rect.mem_iff]
    unfold band
    dsimp only
    omega
  rw [if_pos hin, if_neg fun h => hout h.2.1] at hdrawn
  exact absurd hdrawn (by simp)

/-- The right band is drawn if it does not wrap onto the screen, and only then. -/
theorem m8_d2d_fast_exact_iff (m : M8Mode) (a : D2dArgs) (hwOff : Bool)
    (table : Option (UInt8 → UInt8)) : a.Exact m hwOff table ↔
      (table.isSome = true → a.Accepts hwOff → ¬a.WrapsOnScreen m) := by
  constructor
  · intro hexact htable hok hwraps
    obtain ⟨tbl, rfl⟩ := Option.isSome_iff_exists.mp htable
    exact hok.not_exact hwraps hexact
  · intro hplain clip tbl hclip htable hok
    subst htable
    by_cases hempty : EmptyRect (a.area m clip)
    · refine ⟨fun mem c p => ?_, fun hsome => absurd hempty hsome⟩
      have hcall : a.m8D2dFast m hwOff (some tbl) mem c = (true, c) := by
        rw [m8D2dFast, hclip]
        dsimp only
        rw [if_pos hok, if_pos hempty]
      rw [hcall, if_neg (hok.none_drawn hempty p)]
    · have hpart := hok.part hempty
      refine ⟨fun mem c p => ?_, fun _ mem off hread => call_reads hpart hread⟩
      have hcall : a.m8D2dFast m hwOff (some tbl) mem c =
          (true, (a.call m (a.area m clip) mem tbl).m8HwWriteXlat c) := by
        rw [m8D2dFast, hclip]
        dsimp only
        rw [if_pos hok, if_neg hempty]
      have hrow : a.y + a.rows - a.scans < 32768 := by
        by_contra hwraps
        exact hplain rfl hok ⟨by omega, clip, hclip, hok.empty_iff.mp hempty⟩
      have hbounds := a.bounds
      have hhigh := hok.high
      have htop : a.top = a.y + a.rows - a.scans := by
        rw [top_eq a, int16_eq (by omega)]
      rw [hcall]
      refine (call_apply hpart c p).trans ?_
      rw [if_congr (hok.mem_area hrow hempty p) rfl rfl, source, htop,
        show a.y + a.rows - a.scans + a.scans - 1 - p.2 = a.y + a.rows - 1 - p.2 by omega]

/-- The bottom row of a DIB of 65537 rows, at the top of the screen. -/
def tallDib : D2dArgs where
  X := 0
  Y := 0
  iScan := 0
  cScans := 1
  clip := some ⟨0, 0, 640, 480⟩
  bitsOff := 0
  biSize := 40
  biWidth := 8
  biHeight := 65537
  biBitCount := 8
  biCompression := 0

/-- It is drawn on row 0, and its row is 65536. -/
theorem m8_d2d_fast_wraps : ¬tallDib.Exact ⟨640, 480, Or.inl rfl⟩ false (some id) := by
  refine Accepts.not_exact (by decide) ⟨by decide, ⟨0, 0, 640, 480⟩, rfl, ?_⟩
  decide

end Accepted

end D2dArgs

end Inboard
