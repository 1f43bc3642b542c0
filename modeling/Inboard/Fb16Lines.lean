import Inboard.Fb16Solid
import Mathlib.Algebra.Order.Ring.Abs
import Mathlib.Tactic.Linarith
import Mathlib.Tactic.Ring

/-!
# Lines sent as strips

`m8_fb16_polyline_sent` sends what a polyline may have drawn : a segment as strips of 32 along
its major axis, as high as the line moves across each, and short segments in a row as one box.
GDI hands points over unclipped, and an `int` has 16 bits and a `long` 32, so the numbers are
whole ones cut to these (`int16`, `long32`), and the loop over the strips is run with fuel.

Where nothing is cut off, the floor of the line at a strip's ends bounds it within one pixel
(`minor_between`). Far off, a difference of coordinates, the product in a strip's end, an edge
one past 32767, or the strips' counter itself can be cut : then pixels are missed, or the
counter never gets past the end (`segLoop_endless`).
-/

set_option linter.unusedSectionVars false

namespace Inboard

/-! ## Numbers -/

/-- A `long` of 32 bits. -/
def long32 (x : ℤ) : ℤ := (x + 2147483648) % 4294967296 - 2147483648

theorem long32_eq {x : ℤ} (h : -2147483648 ≤ x ∧ x < 2147483648) : long32 x = x := by
  unfold long32
  omega

/-- A `POINT`. -/
structure LinePoint where
  x : ℤ
  y : ℤ
  x_int : -32768 ≤ x ∧ x < 32768
  y_int : -32768 ≤ y ∧ y < 32768

/-- `M8_FB16_SEG`. -/
def M8_FB16_SEG : ℤ := 32

/-- `M8_FB16_GATHER`. -/
def M8_FB16_GATHER : ℤ := 144

/-- `M8_FB16_SHORT`. -/
def M8_FB16_SHORT : ℤ := 4

/-! ## Segments -/

/-- `m8_fb16_strip` : what it passes to `m8_fb16_flush`. -/
def m8Fb16Strip (clip : Option Rect) (l t r b : ℤ) : Rect :=
  match clip with
  | none => ⟨l, t, r, b⟩
  | some c =>
    ⟨if l < c.left then c.left else l, if t < c.top then c.top else t,
      if r > c.right then c.right else r, if b > c.bottom then c.bottom else b⟩

/-- A segment by its axes : `xmajor`, the major coordinates of its ends, the minor one of its
start, and the differences, which a `long` holds. -/
structure Axes where
  xmajor : Bool
  s0 : ℤ
  s1 : ℤ
  t0 : ℤ
  ds : ℤ
  dt : ℤ

/-- The axes of the segment from `p` to `q`. -/
def axes (p q : LinePoint) : Axes :=
  let dx := q.x - p.x
  let dy := q.y - p.y
  if (if dx < 0 then -dx else dx) ≥ (if dy < 0 then -dy else dy) then ⟨true, p.x, q.x, p.y, dx, dy⟩
  else ⟨false, p.y, q.y, p.x, dy, dx⟩

namespace Axes

variable (A : Axes) (clip : Option Rect)

/-- `lo`. -/
def lo : ℤ := if A.s0 < A.s1 then A.s0 else A.s1

/-- `hi`. -/
def hi : ℤ := if A.s0 < A.s1 then A.s1 else A.s0

/-- A strip by its major and its minor edges. -/
def strip (a m0 b m1 : ℤ) : Rect :=
  if A.xmajor then m8Fb16Strip clip a m0 b m1 else m8Fb16Strip clip m0 a m1 b

/-- The minor coordinate at `a`, rounded. -/
def minor (a : ℤ) : ℤ :=
  if A.ds = 0 then A.t0
  else long32 (A.t0 + (long32 ((a - A.s0) * A.dt)).tdiv A.ds)

/-- The last column or row of the strip from `m`. -/
def stripEnd (m : ℤ) : ℤ :=
  if int16 (m + M8_FB16_SEG - 1) < A.hi then int16 (m + M8_FB16_SEG - 1) else A.hi

/-- The strip from `m`. -/
def stripAt (m : ℤ) : Rect :=
  let b := A.stripEnd m
  let m0 := A.minor m
  let m1 := A.minor b
  let (m0, m1) := if m0 > m1 then (m1, m0) else (m0, m1)
  let (m0, m1) := if A.dt ≠ 0 then (long32 (m0 - 1), long32 (m1 + 1)) else (m0, m1)
  A.strip clip (int16 m) (int16 m0) (int16 (int16 b + 1)) (int16 (int16 m1 + 1))

/-- The loop over the strips. -/
def segLoop : (fuel : ℕ) → (m : ℤ) → Option (List Rect)
  | 0, _ => none
  | fuel + 1, m =>
    if m ≤ A.hi then
      (segLoop fuel (int16 (m + M8_FB16_SEG))).map (A.stripAt clip m :: ·)
    else some []

/-- The strip of a level or upright segment. -/
def levelStrip : Rect :=
  A.strip clip (if A.s1 > A.s0 then A.s0 else int16 (A.s1 + 1)) A.t0
    (if A.s1 > A.s0 then A.s1 else int16 (A.s0 + 1)) (int16 (A.t0 + 1))

end Axes

/-- `m8_fb16_segment` : the strips it passes on. -/
def m8Fb16Segment (clip : Option Rect) (fuel : ℕ) (p q : LinePoint) : Option (List Rect) :=
  let A := axes p q
  if A.dt = 0 then some [A.levelStrip clip] else A.segLoop clip fuel A.lo

/-! ## The polyline -/

/-- `m8_fb16_union`. -/
def m8Fb16Union (a n : Rect) : Rect :=
  ⟨if n.left < a.left then n.left else a.left, if n.top < a.top then n.top else a.top,
    if n.right > a.right then n.right else a.right,
    if n.bottom > a.bottom then n.bottom else a.bottom⟩

/-- `m8_fb16_area`. -/
def m8Fb16Area (a : Rect) : ℤ := long32 (int16 (a.right - a.left) * int16 (a.bottom - a.top))

/-- A segment by the test of `m8_fb16_polyline_sent`. -/
def ShortSegment (p q : LinePoint) : Prop :=
  let dx := int16 (q.x - p.x)
  let dy := int16 (q.y - p.y)
  ¬ (dx < -M8_FB16_SHORT ∨ dx > M8_FB16_SHORT ∨ dy < -M8_FB16_SHORT ∨ dy > M8_FB16_SHORT)

instance (p q : LinePoint) : Decidable (ShortSegment p q) := by
  unfold ShortSegment; infer_instance

/-- The box of a short segment. -/
def shortBox (p q : LinePoint) : Rect :=
  let dx := int16 (q.x - p.x)
  let dy := int16 (q.y - p.y)
  ⟨if dx < 0 then q.x else p.x, if dy < 0 then q.y else p.y,
    int16 ((if dx < 0 then p.x else q.x) + 1), int16 ((if dy < 0 then p.y else q.y) + 1)⟩

/-- A box as a strip. -/
def boxStrip (clip : Option Rect) (box : Rect) : Rect :=
  m8Fb16Strip clip box.left box.top box.right box.bottom

/-- The loop of `m8_fb16_polyline_sent` from point `p` on, with the box that is open. -/
def polyLoop (clip : Option Rect) (fuel : ℕ) :
    LinePoint → List LinePoint → Option Rect → Option (List Rect)
  | _, [], box => some (box.map (boxStrip clip)).toList
  | p, q :: rest, box =>
    if ShortSegment p q then
      let n := shortBox p q
      match box with
      | none => polyLoop clip fuel q rest (some n)
      | some box =>
        let u := m8Fb16Union box n
        if m8Fb16Area u > M8_FB16_GATHER then
          (polyLoop clip fuel q rest (some n)).map (boxStrip clip box :: ·)
        else polyLoop clip fuel q rest (some u)
    else
      match m8Fb16Segment clip fuel p q, polyLoop clip fuel q rest none with
      | some strips, some after => some ((box.map (boxStrip clip)).toList ++ strips ++ after)
      | _, _ => none

/-- `m8_fb16_polyline_sent` : the rectangles it passes to `m8_fb16_flush`. -/
def m8Fb16PolylineSent (clip : Option Rect) (fuel : ℕ) : List LinePoint → Option (List Rect)
  | [] => some []
  | p :: rest => polyLoop clip fuel p rest none

/-! ## The line -/

namespace Axes

variable (A : Axes)

/-- A pixel's major coordinate. -/
def major (px : Pixel) : ℤ := if A.xmajor then px.1 else px.2

/-- A pixel's minor coordinate. -/
def cross (px : Pixel) : ℤ := if A.xmajor then px.2 else px.1

/-- The counter gets past the end. -/
def Counts : Prop := A.lo + 32 * ((A.hi - A.lo) / 32 + 1) < 32768

/-- Where the strip with coordinate `s` starts. -/
def stripStart (s : ℤ) : ℤ := A.lo + (s - A.lo) / 32 * 32

/-- The product for a strip's end at `a` fits a `long`. -/
def Fits (a : ℤ) : Prop :=
  -2147483648 ≤ (a - A.s0) * A.dt ∧ (a - A.s0) * A.dt < 2147483648

end Axes

/-- A pixel of the segment's line, its end excluded : within half a pixel of it across. -/
def OnLine (p q : LinePoint) (px : Pixel) : Prop :=
  let A := axes p q
  let s := A.major px
  (A.s0 ≤ s ∧ s < A.s1 ∨ A.s1 < s ∧ s ≤ A.s0) ∧
    2 * |(A.cross px - A.t0) * A.ds - (s - A.s0) * A.dt| ≤ |A.ds|

instance (p q : LinePoint) (px : Pixel) : Decidable (OnLine p q px) := by
  unfold OnLine; infer_instance

/-- A pixel of the screen, in the clip if there is one. -/
def InView (m : Fb16Mode) (clip : Option Rect) (px : Pixel) : Prop :=
  px ∈ Rect.mk 0 0 m.scrX m.scrY ∧ ∀ c, clip = some c → px ∈ c

/-- A quotient that is cut off, by its bounds. -/
theorem tdiv_bounds (n : ℤ) {d : ℤ} (hd : 0 < d) : n - d < d * n.tdiv d ∧ d * n.tdiv d < n + d := by
  have hdiv := Int.mul_tdiv_add_tmod n d
  have hlt := Int.tmod_lt_of_pos n hd
  have hgt := Int.lt_tmod_of_pos n hd
  omega

/-- The line at a place between two others is within a pixel and a half of the cut-off
quotients there, of which one is below and one above. -/
theorem minor_between {d w a b dt u qa qb : ℤ} (hd : 0 < d) (hw : a ≤ w ∧ w ≤ b ∨ b ≤ w ∧ w ≤ a)
    (hqa : a * dt - d < d * qa ∧ d * qa < a * dt + d)
    (hqb : b * dt - d < d * qb ∧ d * qb < b * dt + d)
    (hu : 2 * |u * d - w * dt| ≤ d) : min qa qb - 1 ≤ u ∧ u ≤ max qa qb + 1 := by
  have hline : a * dt ≤ w * dt ∧ w * dt ≤ b * dt ∨ b * dt ≤ w * dt ∧ w * dt ≤ a * dt := by
    rcases Int.le_total 0 dt with h0 | h0
    · exact hw.imp (fun h => ⟨Int.mul_le_mul_of_nonneg_right h.1 h0,
        Int.mul_le_mul_of_nonneg_right h.2 h0⟩) fun h =>
        ⟨Int.mul_le_mul_of_nonneg_right h.1 h0, Int.mul_le_mul_of_nonneg_right h.2 h0⟩
    · exact (hw.imp (fun h => ⟨Int.mul_le_mul_of_nonpos_right h.2 h0,
        Int.mul_le_mul_of_nonpos_right h.1 h0⟩) fun h =>
        ⟨Int.mul_le_mul_of_nonpos_right h.2 h0, Int.mul_le_mul_of_nonpos_right h.1 h0⟩).symm
  have habs := abs_le.1 (show |u * d - w * dt| ≤ |u * d - w * dt| from le_refl _)
  have hbelow : ∀ q, d * q < w * dt + d → q - 1 ≤ u := fun q hq => by
    by_contra hlt
    have hmul : d * (u + 2) ≤ d * q := Int.mul_le_mul_of_nonneg_left (by omega) hd.le
    rw [Int.mul_add, Int.mul_comm d u] at hmul
    omega
  have habove : ∀ q, w * dt - d < d * q → u ≤ q + 1 := fun q hq => by
    by_contra hlt
    have hmul : d * (q + 2) ≤ d * u := Int.mul_le_mul_of_nonneg_left (by omega) hd.le
    rw [Int.mul_add, Int.mul_comm d u] at hmul
    omega
  rcases hline with ⟨hlow, hhigh⟩ | ⟨hlow, hhigh⟩
  · have h1 := hbelow qa (by omega)
    have h2 := habove qb (by omega)
    omega
  · have h1 := hbelow qb (by omega)
    have h2 := habove qa (by omega)
    omega

/-- Between its ends, the line stays between their minor coordinates. -/
theorem cross_within {d w dt u : ℤ} (hd : 0 < d) (hw : 0 ≤ w ∧ w ≤ d)
    (hu : 2 * |u * d - w * dt| ≤ d) : min 0 dt ≤ u ∧ u ≤ max 0 dt := by
  have habs := abs_le.1 (show |u * d - w * dt| ≤ |u * d - w * dt| from le_refl _)
  rcases Int.le_total 0 dt with h0 | h0
  · have hlow : 0 ≤ w * dt := Int.mul_nonneg hw.1 h0
    have hhigh : w * dt ≤ d * dt := Int.mul_le_mul_of_nonneg_right hw.2 h0
    refine ⟨?_, ?_⟩ <;> by_contra hlt
    · have hmul : d * u ≤ d * (-1) := Int.mul_le_mul_of_nonneg_left (by omega) hd.le
      rw [Int.mul_comm d u] at hmul
      omega
    · have hmul : d * (dt + 1) ≤ d * u := Int.mul_le_mul_of_nonneg_left (by omega) hd.le
      rw [Int.mul_add, Int.mul_comm d u] at hmul
      omega
  · have hlow : w * dt ≤ 0 := Int.mul_nonpos_of_nonneg_of_nonpos hw.1 h0
    have hhigh : d * dt ≤ w * dt := Int.mul_le_mul_of_nonpos_right hw.2 h0
    refine ⟨?_, ?_⟩ <;> by_contra hlt
    · have hmul : d * u ≤ d * (dt - 1) := Int.mul_le_mul_of_nonneg_left (by omega) hd.le
      rw [Int.mul_sub, Int.mul_comm d u] at hmul
      omega
    · have hmul : d * 1 ≤ d * u := Int.mul_le_mul_of_nonneg_left (by omega) hd.le
      rw [Int.mul_comm d u] at hmul
      omega

/-! ## Strips of a segment -/

section Segment

variable {m : Fb16Mode} {clip : Option Rect} {p q : LinePoint} {px : Pixel}

/-- What the axes of two points are. -/
structure Axes.Ok (A : Axes) : Prop where
  s1 : A.s1 = A.s0 + A.ds
  steep : |A.dt| ≤ |A.ds|
  s0_int : -32768 ≤ A.s0 ∧ A.s0 < 32768
  s1_int : -32768 ≤ A.s1 ∧ A.s1 < 32768
  t0_int : -32768 ≤ A.t0 ∧ A.t0 < 32768

theorem axes_ok (p q : LinePoint) : (axes p q).Ok := by
  have hpx := p.x_int
  have hpy := p.y_int
  have hqx := q.x_int
  have hqy := q.y_int
  have habs : ∀ z : ℤ, (if z < 0 then -z else z) = |z| := fun z => by
    split_ifs with h
    · exact (abs_of_neg h).symm
    · exact (abs_of_nonneg (by omega)).symm
  unfold axes
  dsimp only
  rw [habs, habs]
  split_ifs with h
  · refine ⟨?_, h, hpx, hqx, hpy⟩
    dsimp only
    omega
  · refine ⟨?_, Int.le_of_lt (Int.not_le.1 h), hpy, hqy, hpx⟩
    dsimp only
    omega

/-- The line's pixels, with the major axis the way it goes. -/
theorem OnLine.forward (h : OnLine p q px) {A : Axes} (hA : axes p q = A) :
    ∃ d w : ℤ, 0 < d ∧ 0 ≤ w ∧ w < d ∧ |A.ds| = d ∧
      2 * |(A.cross px - A.t0) * d - w * A.dt| ≤ d ∧
      (A.ds = d ∧ w = A.major px - A.s0 ∨ A.ds = -d ∧ w = A.s0 - A.major px) := by
  have hs1 := (axes_ok p q).s1
  unfold OnLine at h
  dsimp only at h
  rw [hA] at h hs1
  obtain ⟨hs, hu⟩ := h
  rcases hs with hs | hs
  · have hd : |A.ds| = A.ds := abs_of_pos (by omega)
    rw [hd] at hu
    exact ⟨A.ds, A.major px - A.s0, by omega, by omega, by omega, hd, hu, .inl ⟨rfl, rfl⟩⟩
  · have hd : |A.ds| = -A.ds := abs_of_neg (by omega)
    rw [hd, ← abs_neg] at hu
    refine ⟨-A.ds, A.s0 - A.major px, by omega, by omega, by omega, hd, ?_,
      .inr ⟨by omega, rfl⟩⟩
    have hneg : (A.cross px - A.t0) * -A.ds - (A.s0 - A.major px) * A.dt =
        -((A.cross px - A.t0) * A.ds - (A.major px - A.s0) * A.dt) := by ring
    rw [hneg]
    exact hu

namespace Axes

variable {A : Axes}

/-- The quotient at `a`. -/
def quot (A : Axes) (a : ℤ) : ℤ := ((a - A.s0) * A.dt).tdiv A.ds

theorem minor_eq (h0 : A.ds ≠ 0) {a : ℤ} (hfits : A.Fits a) :
    A.minor a = long32 (A.t0 + A.quot a) := by
  unfold minor quot
  rw [if_neg h0, long32_eq hfits]

/-- Of an axis that goes either way, the quotient by the length. -/
theorem quot_bounds {d : ℤ} (hd : 0 < d) (hds : A.ds = d ∨ A.ds = -d) (a : ℤ) :
    ∃ w, (A.ds = d → w = a - A.s0) ∧ (A.ds = -d → w = A.s0 - a) ∧
      w * A.dt - d < d * A.quot a ∧ d * A.quot a < w * A.dt + d := by
  unfold quot
  rcases hds with hds | hds
  · exact ⟨a - A.s0, fun _ => rfl, fun h => by omega, hds ▸ tdiv_bounds _ (hds ▸ hd)⟩
  · refine ⟨A.s0 - a, fun h => by omega, fun _ => rfl, ?_⟩
    have hneg : (a - A.s0) * A.dt = -((A.s0 - a) * A.dt) := by ring
    rw [hneg, hds, Int.neg_tdiv_neg]
    exact tdiv_bounds _ hd

/-- Over 32 columns or rows the quotient moves little. -/
theorem quot_spread (hok : A.Ok) (h0 : A.ds ≠ 0) {a b : ℤ} (hab : a ≤ b) (hlt : b < a + 32) :
    A.quot a - A.quot b ≤ 33 ∧ A.quot b - A.quot a ≤ 33 := by
  have hd : 0 < |A.ds| := abs_pos.2 h0
  have hds : A.ds = |A.ds| ∨ A.ds = -|A.ds| := by
    rcases Int.lt_or_lt_of_ne h0 with h | h
    · exact .inr (by rw [abs_of_neg h]; omega)
    · exact .inl (abs_of_pos h).symm
  obtain ⟨wa, ha, ha', hqa⟩ := A.quot_bounds hd hds a
  obtain ⟨wb, hb, hb', hqb⟩ := A.quot_bounds hd hds b
  have hw : |wa - wb| ≤ 31 := by
    rw [abs_le]
    rcases hds with h | h
    · have h1 := ha h
      have h2 := hb h
      omega
    · have h1 := ha' h
      have h2 := hb' h
      omega
  have hmove : |(wa - wb) * A.dt| ≤ 31 * |A.ds| := by
    rw [abs_mul]
    exact Int.mul_le_mul hw hok.steep (abs_nonneg _) (by omega)
  rw [abs_le, Int.sub_mul] at hmove
  refine ⟨?_, ?_⟩ <;> by_contra hlt
  · have hmul : |A.ds| * (A.quot b + 34) ≤ |A.ds| * A.quot a :=
      Int.mul_le_mul_of_nonneg_left (by omega) hd.le
    rw [Int.mul_add] at hmul
    omega
  · have hmul : |A.ds| * (A.quot a + 34) ≤ |A.ds| * A.quot b :=
      Int.mul_le_mul_of_nonneg_left (by omega) hd.le
    rw [Int.mul_add] at hmul
    omega

theorem mem_strip {a m0 b m1 : ℤ} (hs : a ≤ A.major px ∧ A.major px < b)
    (ht : m0 ≤ A.cross px ∧ A.cross px < m1) (hclip : ∀ c, clip = some c → px ∈ c) :
    px ∈ A.strip clip a m0 b m1 := by
  unfold major at hs
  unfold cross at ht
  unfold strip m8Fb16Strip
  cases clip with
  | none =>
    split_ifs at * <;> rw [Rect.mem_iff] <;> dsimp only <;> omega
  | some c =>
    have hc := hclip c rfl
    rw [Rect.mem_iff] at hc
    by_cases hx : A.xmajor
    · rw [if_pos hx] at hs ht
      rw [if_pos hx, Rect.mem_iff]
      dsimp only
      omega
    · rw [if_neg hx] at hs ht
      rw [if_neg hx, Rect.mem_iff]
      dsimp only
      omega

/-- Between a strip's ends, the line is within a pixel of the quotients there. -/
theorem quot_near (h : OnLine p q px) (hA : axes p q = A) {a b : ℤ}
    (hs : a ≤ A.major px ∧ A.major px ≤ b) :
    min (A.quot a) (A.quot b) - 1 ≤ A.cross px - A.t0 ∧
      A.cross px - A.t0 ≤ max (A.quot a) (A.quot b) + 1 := by
  obtain ⟨d, w, hd, -, -, -, hu, hw⟩ := h.forward hA
  obtain ⟨wa, ha, ha', hqa⟩ := A.quot_bounds hd (hw.imp And.left And.left) a
  obtain ⟨wb, hb, hb', hqb⟩ := A.quot_bounds hd (hw.imp And.left And.left) b
  refine minor_between hd ?_ hqa hqb hu
  rcases hw with ⟨hds, hw⟩ | ⟨hds, hw⟩
  · have h1 := ha hds
    have h2 := hb hds
    omega
  · have h1 := ha' hds
    have h2 := hb' hds
    omega

theorem ds_ne_zero (h : OnLine p q px) (hA : axes p q = A) : A.ds ≠ 0 := by
  obtain ⟨d, w, hd, -, -, habs, -⟩ := h.forward hA
  rw [← abs_pos, habs]
  exact hd

/-- The line's pixels, from end to end. -/
theorem major_between (h : OnLine p q px) (hA : axes p q = A) :
    A.lo ≤ A.major px ∧ A.major px ≤ A.hi := by
  unfold OnLine at h
  dsimp only at h
  rw [hA] at h
  obtain ⟨hs, -⟩ := h
  unfold lo hi
  split_ifs <;> omega

/-- What is in view has small coordinates. -/
theorem view_bounds (hview : InView m clip px) :
    (0 ≤ A.major px ∧ A.major px < 800) ∧ 0 ≤ A.cross px ∧ A.cross px < 800 := by
  have hscr := hview.1
  have hok := m.ok
  rw [Rect.mem_iff] at hscr
  dsimp only at hscr
  unfold major cross
  split_ifs <;> omega

/-- Where nothing is cut off at a strip's ends, its pixels in view are sent. -/
theorem stripAt_mem (h : OnLine p q px) (hA : axes p q = A) (hdt : A.dt ≠ 0)
    (hview : InView m clip px)
    (hfits : A.Fits (A.stripStart (A.major px)))
    (hfits' : A.Fits (A.stripEnd (A.stripStart (A.major px)))) :
    px ∈ A.stripAt clip (A.stripStart (A.major px)) := by
  have hok : A.Ok := hA ▸ axes_ok p q
  have h0 := ds_ne_zero h hA
  have hline := major_between h hA
  obtain ⟨hmajor, hcross⟩ := view_bounds (A := A) hview
  have hstart : A.stripStart (A.major px) ≤ A.major px ∧
      A.major px < A.stripStart (A.major px) + 32 ∧ A.lo ≤ A.stripStart (A.major px) := by
    unfold stripStart
    omega
  generalize A.stripStart (A.major px) = a at hstart hfits hfits' ⊢
  have hlo : -32768 ≤ A.lo := by
    have h1 := hok.s0_int
    have h2 := hok.s1_int
    unfold lo
    split_ifs <;> omega
  have hend : A.major px ≤ A.stripEnd a ∧ A.stripEnd a < a + 32 := by
    unfold stripEnd M8_FB16_SEG
    rw [int16_eq (by omega)]
    split_ifs <;> omega
  unfold stripAt
  dsimp only
  generalize A.stripEnd a = b at hend hfits' ⊢
  have hnear := quot_near h hA (a := a) (b := b) ⟨hstart.1, hend.1⟩
  have hspread := quot_spread hok h0 (a := a) (b := b) (by omega) (by omega)
  have hma : A.minor a = A.t0 + A.quot a := (A.minor_eq h0 hfits).trans (long32_eq (by omega))
  have hmb : A.minor b = A.t0 + A.quot b := (A.minor_eq h0 hfits').trans (long32_eq (by omega))
  rw [hma, hmb, if_pos hdt, int16_eq (x := a) (by omega), int16_eq (x := b) (by omega),
    int16_eq (x := b + 1) (by omega)]
  refine mem_strip ⟨by omega, by omega⟩ ?_ hview.2
  have hedges : ∀ x y, x ≤ y → x - 1 ≤ A.cross px → A.cross px ≤ y + 1 → y - x ≤ 33 →
      int16 (long32 (x - 1)) ≤ A.cross px ∧
        A.cross px < int16 (int16 (long32 (y + 1)) + 1) := fun x y hxy hx hy hlt => by
    rw [long32_eq (by omega), long32_eq (by omega), int16_eq (by omega),
      int16_eq (x := y + 1) (by omega), int16_eq (by omega)]
    omega
  by_cases hsort : A.t0 + A.quot a > A.t0 + A.quot b
  · rw [if_pos hsort]
    exact hedges _ _ (by omega) (by omega) (by omega) (by omega)
  · rw [if_neg hsort]
    exact hedges _ _ (by omega) (by omega) (by omega) (by omega)

/-- A level or upright segment's pixels in view are sent, if its end is not the last number. -/
theorem levelStrip_mem (h : OnLine p q px) (hA : axes p q = A) (hdt : A.dt = 0)
    (hview : InView m clip px) (hlast : ¬ (A.s0 = 32767 ∧ A.s1 < A.s0)) :
    px ∈ A.levelStrip clip := by
  have hok : A.Ok := hA ▸ axes_ok p q
  obtain ⟨hmajor, hcross⟩ := view_bounds (A := A) hview
  obtain ⟨d, w, hd, hw0, hwd, -, hu, -⟩ := h.forward hA
  have hlevel := cross_within hd ⟨hw0, hwd.le⟩ hu
  rw [hdt] at hlevel
  have hs := h.1
  have hs0 := hok.s0_int
  have hs1 := hok.s1_int
  rw [hA] at hs
  unfold levelStrip
  rw [int16_eq (x := A.t0 + 1) (by omega)]
  refine mem_strip ?_ ⟨by omega, by omega⟩ hview.2
  by_cases hdir : A.s1 > A.s0
  · rw [if_pos hdir, if_pos hdir]
    omega
  · rw [if_neg hdir, if_neg hdir, int16_eq (by omega), int16_eq (by omega)]
    omega

/-! ## The strips' counter -/

/-- The counter gets past the end, and each strip is sent. -/
theorem segLoop_some (hcount : A.Counts) : ∀ (n : ℕ) (i : ℤ), -32768 ≤ i → (i - A.lo) % 32 = 0 →
    A.hi < i + 32 * n → ∃ rects, A.segLoop clip (n + 1) i = some rects ∧
      ∀ k : ℕ, i + 32 * k ≤ A.hi → A.stripAt clip (i + 32 * k) ∈ rects
  | 0, i, hlow, hmod, hlt => by
    rw [segLoop, if_neg (by omega)]
    exact ⟨[], rfl, fun k hk => by omega⟩
  | n + 1, i, hlow, hmod, hlt => by
    rw [segLoop]
    by_cases hi : i ≤ A.hi
    · have hnext : int16 (i + M8_FB16_SEG) = i + 32 := by
        unfold Counts at hcount
        unfold M8_FB16_SEG
        exact int16_eq (by omega)
      obtain ⟨rects, hrects, hmem⟩ := segLoop_some hcount n (i + 32) (by omega) (by omega)
        (by omega)
      rw [if_pos hi, hnext, hrects]
      refine ⟨A.stripAt clip i :: rects, rfl, fun k hk => ?_⟩
      cases k with
      | zero => simp
      | succ k =>
        have heq : i + 32 * ((k + 1 : ℕ) : ℤ) = i + 32 + 32 * k := by omega
        rw [heq]
        exact List.mem_cons_of_mem _ (hmem k (by omega))
    · rw [if_neg hi]
      exact ⟨[], rfl, fun k hk => by omega⟩

/-- A counter that wraps round comes to the same places again. -/
theorem segLoop_endless (hcount : ¬ A.Counts) : ∀ (fuel : ℕ) (i : ℤ), (i - A.lo) % 32 = 0 →
    -32768 ≤ i → i < 32768 → A.segLoop clip fuel i = none
  | 0, _, _, _, _ => rfl
  | fuel + 1, i, hmod, hlow, hhigh => by
    have hle : i ≤ A.hi := by
      unfold Counts at hcount
      omega
    have hmod' : (int16 (i + M8_FB16_SEG) - A.lo) % 32 = 0 := by
      unfold int16 M8_FB16_SEG
      omega
    have hint : -32768 ≤ int16 (i + M8_FB16_SEG) ∧ int16 (i + M8_FB16_SEG) < 32768 := by
      unfold int16
      omega
    rw [segLoop, if_pos hle, segLoop_endless hcount fuel _ hmod' hint.1 hint.2]
    rfl

end Axes

/-! ## Segments and boxes that cover -/

/-- The strips of the segment come to an end. -/
def SegmentEnds (p q : LinePoint) : Prop := ShortSegment p q ∨ (axes p q).dt = 0 ∨ (axes p q).Counts

/-- No number that the segment's line in view depends on is cut off. -/
def Uncut (m : Fb16Mode) (clip : Option Rect) (p q : LinePoint) : Prop :=
  let A := axes p q
  ∀ px, OnLine p q px → InView m clip px →
    if ShortSegment p q then |q.x - p.x| ≤ 4 ∧ |q.y - p.y| ≤ 4
    else if A.dt = 0 then ¬ (A.s0 = 32767 ∧ A.s1 < A.s0)
    else A.Fits (A.stripStart (A.major px)) ∧ A.Fits (A.stripEnd (A.stripStart (A.major px)))

/-- A segment whose strips come to an end sends its line, where no number is cut off. -/
theorem m8Fb16Segment_some (clip : Option Rect) (hends : SegmentEnds p q)
    (hshort : ¬ ShortSegment p q) :
    ∃ rects, m8Fb16Segment clip 2049 p q = some rects ∧ (Uncut m clip p q →
      ∀ px, OnLine p q px → InView m clip px → ∃ r ∈ rects, px ∈ r) := by
  unfold m8Fb16Segment Uncut
  dsimp only
  generalize hA : axes p q = A
  have hok : A.Ok := hA ▸ axes_ok p q
  by_cases hdt : A.dt = 0
  · rw [if_pos hdt]
    refine ⟨_, rfl, fun hcut px hline hview => ?_⟩
    have hlast := hcut px hline hview
    rw [if_neg hshort, if_pos hdt] at hlast
    exact ⟨_, List.mem_singleton_self _, A.levelStrip_mem hline hA hdt hview hlast⟩
  · have hcount : A.Counts := by
      have h := hends.resolve_left hshort
      rw [hA] at h
      exact h.resolve_left hdt
    have hs0 := hok.s0_int
    have hs1 := hok.s1_int
    have hwidth : -32768 ≤ A.lo ∧ A.hi < A.lo + 32 * (2048 : ℕ) := by
      unfold Axes.lo Axes.hi
      split_ifs <;> omega
    obtain ⟨rects, hrects, hmem⟩ := A.segLoop_some hcount 2048 A.lo hwidth.1 (by simp) hwidth.2
    rw [if_neg hdt]
    refine ⟨rects, hrects, fun hcut px hline hview => ?_⟩
    have hfits := hcut px hline hview
    rw [if_neg hshort, if_neg hdt] at hfits
    have hpx := A.stripAt_mem hline hA hdt hview hfits.1 hfits.2
    have hbetween := A.major_between hline hA
    have hstart : A.stripStart (A.major px) =
        A.lo + 32 * (((A.major px - A.lo) / 32).toNat : ℤ) := by
      unfold Axes.stripStart
      omega
    rw [hstart] at hpx
    exact ⟨_, hmem _ (by omega), hpx⟩

theorem m8Fb16Segment_none (hends : ¬ SegmentEnds p q) (fuel : ℕ) :
    m8Fb16Segment clip fuel p q = none := by
  have hok := axes_ok p q
  have hs0 := hok.s0_int
  have hs1 := hok.s1_int
  rw [SegmentEnds, not_or, not_or] at hends
  have hlo : -32768 ≤ (axes p q).lo ∧ (axes p q).lo < 32768 := by
    unfold Axes.lo
    split_ifs <;> omega
  unfold m8Fb16Segment
  dsimp only
  rw [if_neg hends.2.1]
  exact Axes.segLoop_endless hends.2.2 fuel _ (by simp) hlo.1 hlo.2

/-- The line stays in the box of its points. -/
theorem OnLine.within (h : OnLine p q px) :
    (min p.x q.x ≤ px.1 ∧ px.1 ≤ max p.x q.x) ∧ min p.y q.y ≤ px.2 ∧ px.2 ≤ max p.y q.y := by
  obtain ⟨d, w, hd, hw0, hwd, -, hu, -⟩ := h.forward rfl
  have hcross := cross_within hd ⟨hw0, hwd.le⟩ hu
  have hs := h.1
  unfold Axes.major at hs
  unfold Axes.cross at hcross
  have hcases : axes p q = ⟨true, p.x, q.x, p.y, q.x - p.x, q.y - p.y⟩ ∨
      axes p q = ⟨false, p.y, q.y, p.x, q.y - p.y, q.x - p.x⟩ := ite_eq_or_eq _ _ _
  rcases hcases with heq | heq <;> rw [heq] at hs hcross
  · rw [if_pos rfl] at hs hcross
    dsimp only at hs hcross
    omega
  · rw [if_neg Bool.false_ne_true] at hs hcross
    dsimp only at hs hcross
    omega

theorem shortBox_mem (h : OnLine p q px) (hview : InView m clip px)
    (hsmall : |q.x - p.x| ≤ 4 ∧ |q.y - p.y| ≤ 4) : px ∈ shortBox p q := by
  have hwithin := h.within
  have hscr := hview.1
  have hmode := m.ok
  rw [Rect.mem_iff] at hscr
  dsimp only at hscr
  rw [abs_le, abs_le] at hsmall
  unfold shortBox
  rw [int16_eq (x := q.x - p.x) (by omega), int16_eq (x := q.y - p.y) (by omega), Rect.mem_iff]
  dsimp only
  have hedge : ∀ c : Prop, [Decidable c] → ∀ x y z : ℤ, z ≤ max x y → 0 ≤ z → z < 800 →
      (c → max x y = x ∧ x ≤ z + 4) → (¬ c → max x y = y ∧ y ≤ z + 4) →
      z < int16 ((if c then x else y) + 1) := by
    intro c _ x y z hz h0 hlt hx hy
    by_cases hc : c
    · have h1 := hx hc
      rw [if_pos hc, int16_eq (by omega)]
      omega
    · have h1 := hy hc
      rw [if_neg hc, int16_eq (by omega)]
      omega
  refine ⟨by split_ifs <;> omega, hedge _ _ _ _ (by omega) (by omega) (by omega) ?_ ?_,
    by split_ifs <;> omega, hedge _ _ _ _ (by omega) (by omega) (by omega) ?_ ?_⟩ <;>
    intro hc <;> omega

theorem boxStrip_mem {box : Rect} (h : px ∈ box) (hview : InView m clip px) :
    px ∈ boxStrip clip box := by
  have hclip := hview.2
  unfold boxStrip m8Fb16Strip
  rw [Rect.mem_iff] at h
  cases clip with
  | none => exact h
  | some c =>
    have hc := hclip c rfl
    rw [Rect.mem_iff] at hc ⊢
    dsimp only
    omega

theorem m8Fb16Union_mem {a n : Rect} (h : px ∈ a ∨ px ∈ n) : px ∈ m8Fb16Union a n := by
  unfold m8Fb16Union
  rw [Rect.mem_iff, Rect.mem_iff] at h
  rw [Rect.mem_iff]
  dsimp only
  omega

/-! ## The whole polyline -/

/-- The segments of a polyline. -/
def segments (points : List LinePoint) : List (LinePoint × LinePoint) := points.zip points.tail

/-- A polyline comes to its end just if each of its segments does. -/
theorem polyLoop_none (fuel : ℕ) : ∀ (rest : List LinePoint) (p : LinePoint) (box : Option Rect),
    (∃ s ∈ segments (p :: rest), ¬ SegmentEnds s.1 s.2) → polyLoop clip fuel p rest box = none
  | [], p, box, ⟨s, hs, hends⟩ => by simp [segments] at hs
  | q :: rest, p, box, ⟨s, hs, hends⟩ => by
    have hcons : segments (p :: q :: rest) = (p, q) :: segments (q :: rest) := rfl
    rw [hcons, List.mem_cons] at hs
    rw [polyLoop]
    rcases hs with rfl | hs
    · have hshort : ¬ ShortSegment p q := fun h => hends (.inl h)
      rw [if_neg hshort, m8Fb16Segment_none hends]
    · have hrest : ∀ box, polyLoop clip fuel q rest box = none := fun box =>
        polyLoop_none fuel rest q box ⟨s, hs, hends⟩
      by_cases hshort : ShortSegment p q
      · rw [if_pos hshort]
        cases box with
        | none => exact hrest _
        | some box =>
          dsimp only
          split_ifs
          · rw [hrest]
            rfl
          · exact hrest _
      · rw [if_neg hshort, hrest]
        cases m8Fb16Segment clip fuel p q <;> rfl

/-- A pixel to be sent : one in the open box, or of a segment's line that is not cut off. -/
def Due (m : Fb16Mode) (clip : Option Rect) (box : Option Rect) (points : List LinePoint)
    (px : Pixel) : Prop :=
  (∃ b, box = some b ∧ px ∈ b) ∨
    ∃ s ∈ segments points, OnLine s.1 s.2 px ∧ Uncut m clip s.1 s.2

/-- A short segment is due in the box that takes its place. -/
theorem Due.short {rest : List LinePoint} {box : Option Rect} {b : Rect}
    (h : Due m clip box (p :: q :: rest) px) (hview : InView m clip px)
    (hshort : ShortSegment p q) (hbox : px ∈ shortBox p q → px ∈ b) :
    (∃ b, box = some b ∧ px ∈ b) ∨ Due m clip (some b) (q :: rest) px := by
  refine h.imp_right ?_
  rintro ⟨s, hs, hline, hcut⟩
  rcases List.mem_cons.1 hs with rfl | hs
  · have hsmall := hcut px hline hview
    rw [if_pos hshort] at hsmall
    exact .inl ⟨b, rfl, hbox (shortBox_mem hline hview hsmall)⟩
  · exact .inr ⟨s, hs, hline, hcut⟩

/-- What is due is sent. -/
theorem polyLoop_some (clip : Option Rect) : ∀ (rest : List LinePoint) (p : LinePoint)
    (box : Option Rect),
    (∀ s ∈ segments (p :: rest), SegmentEnds s.1 s.2) →
    ∃ rects, polyLoop clip 2049 p rest box = some rects ∧ ∀ px, InView m clip px →
      Due m clip box (p :: rest) px → ∃ r ∈ rects, px ∈ r
  | [], p, box, _ => by
    refine ⟨_, rfl, fun px hview h => ?_⟩
    rcases h with ⟨b, rfl, hb⟩ | ⟨s, hs, -⟩
    · exact ⟨_, List.mem_singleton_self _, boxStrip_mem hb hview⟩
    · simp [segments] at hs
  | q :: rest, p, box, hends => by
    have hcons : segments (p :: q :: rest) = (p, q) :: segments (q :: rest) := rfl
    rw [hcons] at hends
    have hrest := fun box => polyLoop_some clip rest q box fun s hs =>
      hends s (List.mem_cons_of_mem _ hs)
    rw [polyLoop]
    by_cases hshort : ShortSegment p q
    · rw [if_pos hshort]
      cases box with
      | none =>
        obtain ⟨rects, hrects, hmem⟩ := hrest (some (shortBox p q))
        refine ⟨rects, hrects, fun px hview hdue => hmem px hview ?_⟩
        exact (hdue.short hview hshort id).resolve_left (by simp)
      | some box =>
        dsimp only
        by_cases harea : m8Fb16Area (m8Fb16Union box (shortBox p q)) > M8_FB16_GATHER
        · obtain ⟨rects, hrects, hmem⟩ := hrest (some (shortBox p q))
          rw [if_pos harea, hrects]
          refine ⟨_, rfl, fun px hview hdue => ?_⟩
          rcases hdue.short hview hshort id with ⟨b, hb, hpx⟩ | hdue
          · obtain rfl := Option.some.inj hb
            exact ⟨_, List.mem_cons_self, boxStrip_mem hpx hview⟩
          · obtain ⟨r, hr, hpx⟩ := hmem px hview hdue
            exact ⟨r, List.mem_cons_of_mem _ hr, hpx⟩
        · obtain ⟨rects, hrects, hmem⟩ := hrest (some (m8Fb16Union box (shortBox p q)))
          rw [if_neg harea]
          refine ⟨rects, hrects, fun px hview hdue => hmem px hview ?_⟩
          rcases hdue.short hview hshort fun h => m8Fb16Union_mem (a := box) (.inr h) with
            ⟨b, hb, hpx⟩ | hdue
          · obtain rfl := Option.some.inj hb
            exact .inl ⟨_, rfl, m8Fb16Union_mem (.inl hpx)⟩
          · exact hdue
    · obtain ⟨strips, hstrips, hseg⟩ :=
        m8Fb16Segment_some (m := m) clip (hends (p, q) List.mem_cons_self) hshort
      obtain ⟨after, hafter, hmem⟩ := hrest none
      rw [if_neg hshort, hstrips, hafter]
      refine ⟨_, rfl, fun px hview hdue => ?_⟩
      rcases hdue with ⟨b, rfl, hb⟩ | ⟨s, hs, hline, hcut⟩
      · exact ⟨_, by simp, boxStrip_mem hb hview⟩
      · rcases List.mem_cons.1 hs with rfl | hs
        · obtain ⟨r, hr, hpx⟩ := hseg hcut px hline hview
          exact ⟨r, by simp [hr], hpx⟩
        · obtain ⟨r, hr, hpx⟩ := hmem px hview (.inr ⟨s, hs, hline, hcut⟩)
          exact ⟨r, by simp [hr], hpx⟩

/-- The points half as far off as an `int` goes. -/
def LinePoint.Near (p : LinePoint) : Prop := |p.x| ≤ 16383 ∧ |p.y| ≤ 16383

instance (p : LinePoint) : Decidable p.Near := by unfold LinePoint.Near; infer_instance

/-- Between points that are near, every number fits. -/
theorem uncut_of_near (hp : p.Near) (hq : q.Near) : SegmentEnds p q ∧ Uncut m clip p q := by
  rw [LinePoint.Near, abs_le, abs_le] at hp hq
  have hok := axes_ok p q
  have hnear : (|(axes p q).s0| ≤ 16383 ∧ |(axes p q).s1| ≤ 16383) := by
    rw [abs_le, abs_le]
    have hcases : axes p q = ⟨true, p.x, q.x, p.y, q.x - p.x, q.y - p.y⟩ ∨
        axes p q = ⟨false, p.y, q.y, p.x, q.y - p.y, q.x - p.x⟩ := ite_eq_or_eq _ _ _
    rcases hcases with heq | heq <;> rw [heq] <;> dsimp only <;> omega
  rw [abs_le, abs_le] at hnear
  refine ⟨.inr (.inr ?_), fun px hline hview => ?_⟩
  · unfold Axes.Counts Axes.lo Axes.hi
    split_ifs <;> omega
  have hbetween := Axes.major_between hline rfl
  by_cases hshort : ShortSegment p q
  · rw [if_pos hshort, abs_le, abs_le]
    unfold ShortSegment M8_FB16_SHORT at hshort
    rw [int16_eq (by omega), int16_eq (by omega)] at hshort
    omega
  · rw [if_neg hshort]
    by_cases hdt : (axes p q).dt = 0
    · rw [if_pos hdt]
      omega
    · rw [if_neg hdt]
      have hfits : ∀ a, (axes p q).lo ≤ a → a ≤ (axes p q).hi → (axes p q).Fits a := by
        intro a hlo hhi
        have hs1 := hok.s1
        have hlen : |a - (axes p q).s0| ≤ 32766 := by
          rw [abs_le]
          unfold Axes.lo at hlo
          unfold Axes.hi at hhi
          split_ifs at hlo hhi <;> omega
        have hsteep : |(axes p q).dt| ≤ 32766 := hok.steep.trans (abs_le.2 (by omega))
        have hmul : |(a - (axes p q).s0) * (axes p q).dt| ≤ 32766 * 32766 := by
          rw [abs_mul]
          exact Int.mul_le_mul hlen hsteep (abs_nonneg _) (by omega)
        rw [abs_le] at hmul
        unfold Axes.Fits
        omega
      have hstart : (axes p q).lo ≤ (axes p q).stripStart ((axes p q).major px) ∧
          (axes p q).stripStart ((axes p q).major px) ≤ (axes p q).hi := by
        unfold Axes.stripStart
        omega
      refine ⟨hfits _ hstart.1 hstart.2, ?_⟩
      have hlo : -16383 ≤ (axes p q).lo ∧ (axes p q).hi ≤ 16383 := by
        unfold Axes.lo Axes.hi
        split_ifs <;> omega
      unfold Axes.stripEnd M8_FB16_SEG
      rw [int16_eq (by omega)]
      split_ifs
      · exact hfits _ (by omega) (by omega)
      · exact hfits _ (by omega) (by omega)

end Segment

/-- The strips come to an end just if each segment is short, level or upright, or its counter
gets past its end, and where no number is cut off they cover every segment's line in view. -/
theorem m8_fb16_polyline_sent_covers (m : Fb16Mode) (clip : Option Rect)
    (points : List LinePoint) :
    ((∃ fuel rects, m8Fb16PolylineSent clip fuel points = some rects) ↔
      ∀ s ∈ segments points, SegmentEnds s.1 s.2) ∧
    ((∀ s ∈ segments points, SegmentEnds s.1 s.2 ∧ Uncut m clip s.1 s.2) →
      ∃ fuel rects, m8Fb16PolylineSent clip fuel points = some rects ∧
        ∀ s ∈ segments points, ∀ px, OnLine s.1 s.2 px → InView m clip px →
          ∃ r ∈ rects, px ∈ r) := by
  cases points with
  | nil => simp [segments, m8Fb16PolylineSent]
  | cons p rest =>
    have hsome := polyLoop_some (m := m) clip rest p none
    simp only [m8Fb16PolylineSent]
    refine ⟨⟨fun ⟨fuel, rects, hrects⟩ s hs => ?_, fun hends => ?_⟩, fun hcut => ?_⟩
    · by_contra hends
      rw [polyLoop_none fuel rest p none ⟨s, hs, hends⟩] at hrects
      exact Option.some_ne_none _ hrects.symm
    · obtain ⟨rects, hrects, -⟩ := hsome hends
      exact ⟨2049, rects, hrects⟩
    · obtain ⟨rects, hrects, hmem⟩ := hsome fun s hs => (hcut s hs).1
      exact ⟨2049, rects, hrects, fun s hs px hline hview =>
        hmem px hview (.inr ⟨s, hs, hline, (hcut s hs).2⟩)⟩

/-- A long segment and a short one. -/
theorem m8_fb16_polyline_sent_covers_two :
    ∃ fuel rects, m8Fb16PolylineSent none fuel
      [⟨0, 0, by decide, by decide⟩, ⟨100, 50, by decide, by decide⟩,
        ⟨101, 52, by decide, by decide⟩] = some rects ∧
      ∃ r ∈ rects, ((60, 30) : Pixel) ∈ r := by
  obtain ⟨fuel, rects, hrects, hmem⟩ := (m8_fb16_polyline_sent_covers ⟨640, 480, by decide⟩ none
    [⟨0, 0, by decide, by decide⟩, ⟨100, 50, by decide, by decide⟩,
      ⟨101, 52, by decide, by decide⟩]).2 fun s hs => uncut_of_near
        (by simp [segments] at hs; rcases hs with rfl | rfl <;> decide)
        (by simp [segments] at hs; rcases hs with rfl | rfl <;> decide)
  exact ⟨fuel, rects, hrects, hmem _ List.mem_cons_self _ (by decide)
    ⟨by decide, fun c hc => by simp at hc⟩⟩

/-- A line to the left from the last column passes an empty rectangle. -/
theorem not_m8_fb16_polyline_sent_covers :
    let p : LinePoint := ⟨32767, 5, by decide, by decide⟩
    let q : LinePoint := ⟨0, 5, by decide, by decide⟩
    let m : Fb16Mode := ⟨640, 480, by decide⟩
    OnLine p q (100, 5) ∧ InView m none (100, 5) ∧
      ∀ fuel, ∃ rects, m8Fb16PolylineSent none fuel [p, q] = some rects ∧
        ¬ ∃ r ∈ rects, ((100, 5) : Pixel) ∈ r := by
  refine ⟨by decide, ⟨by decide, fun c hc => by simp at hc⟩, fun fuel => ?_⟩
  exact ⟨[⟨1, 5, -32768, 6⟩], rfl, by decide⟩

end Inboard
