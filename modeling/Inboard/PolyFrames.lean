import Inboard.Poly3d

/-!
# Polygon frames

A frame's sums are compared after they wrapped. Along an axis the copy to the window goes wrong in
one of four ways (`Axis.Wrong`), each with something copied ; a direct frame goes wrong if its
window ends past the largest `int`, and then all that it draws does. Else every pixel is the rows'
or the window's (`m8p_stays_in_rows_iff`).
-/

set_option linter.unusedSectionVars false

namespace Inboard

namespace M8p

/-! ## One axis of the copy -/

/-- What one axis of the rectangle to copy is given : the window, the edges, the buffer's width, and
the screen's. -/
structure Axis where
  wx : ℤ
  l : ℤ
  r : ℤ
  w : ℤ
  size : ℤ

namespace Axis

variable (a : Axis)

/-- The edges in the buffer. -/
def low : ℤ := max a.l 0

def high : ℤ := min a.r (int16 a.w)

/-- The window's position does not negate. -/
def AtMin : Prop := a.wx = -32768 ∧ -32768 < a.high ∧ a.high < 0

/-- The left edge wraps, to the left of the screen. -/
def LowWraps : Prop := 32768 ≤ a.wx + a.low ∧ 0 < a.wx + a.high ∧ a.wx + a.high ≤ 32767

/-- A right edge to the left of the screen wraps, to the right of it. -/
def HighWraps : Prop := -32768 < a.wx ∧ a.wx + a.high < -32768 ∧
  a.size < a.wx + a.high + 65536 ∧ a.low < a.size - a.wx ∧ a.size - a.wx ≤ 32767

/-- The window is to the right of all columns. -/
def Beyond : Prop := a.wx + a.low ≤ 32767 ∧ 32768 ≤ a.wx + a.high ∧ a.low < a.high

/-- Without a wrap, a part of the window is on the screen. -/
def Visible : Prop := -32768 < a.wx ∧ a.wx + a.low ≤ 32767 ∧ -32768 ≤ a.wx + a.high ∧
  a.wx + a.high ≤ 32767 ∧ max (a.wx + a.low) 0 < min (a.wx + a.high) a.size

/-- Something is copied. -/
def Shown : Prop := a.Visible ∨ a.AtMin ∨ a.LowWraps ∨ a.HighWraps ∨ a.Beyond

/-- And not to the window. -/
def Wrong : Prop := a.LowWraps ∨ a.Beyond ∨ a.w < 32768 ∧ (a.AtMin ∨ a.HighWraps)

instance : Decidable a.Shown := by
  unfold Shown Visible AtMin LowWraps HighWraps Beyond
  infer_instance

instance : Decidable a.Wrong := by
  unfold Wrong AtMin LowWraps HighWraps Beyond
  infer_instance

/-- The values of `int` and of the screen's sizes. -/
structure Ok : Prop where
  wx : -32768 ≤ a.wx ∧ a.wx < 32768
  l : -32768 ≤ a.l ∧ a.l < 32768
  r : -32768 ≤ a.r ∧ a.r < 32768
  w : 16 ≤ a.w ∧ a.w < 65536 ∧ 2 * a.w % 65536 ≤ 1024
  size : 0 < a.size ∧ a.size ≤ 1024 ∧ (a.w < 32768 → a.w ≤ a.size)

variable {a}

theorem cutLow_eq (a : Axis) : cutLow a.l = a.low := by
  unfold cutLow low
  split_ifs <;> omega

theorem cutHigh_eq (a : Axis) : cutHigh a.r (int16 a.w) = a.high := by
  unfold cutHigh high
  split_ifs <;> omega

/-- The values of both edges. -/
theorem Ok.edges (h : a.Ok) : 0 ≤ a.low ∧ a.low < 32768 ∧ -32768 ≤ a.high ∧ a.high ≤ 512 ∧
    (a.w < 32768 → a.high ≤ a.w) ∧ (32768 ≤ a.w → a.high + 65536 ≤ a.w ∧ a.high < -32000) := by
  have hl := h.l
  have hr := h.r
  have hw := h.w
  unfold low high int16
  omega

theorem present_shown (h : a.Ok) :
    (presentLow a.wx a.l < presentHigh a.wx a.r (int16 a.w) a.size ∧
      0 < int16 (presentHigh a.wx a.r (int16 a.w) a.size - presentLow a.wx a.l)) ↔ a.Shown := by
  have hwx := h.wx
  have hsize := h.size
  have hedges := h.edges
  unfold presentLow presentHigh Shown Visible AtMin LowWraps HighWraps Beyond
  rw [cutLow_eq, cutHigh_eq]
  generalize a.low = L at *
  generalize a.high = R at *
  generalize a.wx = wx at *
  generalize a.size = size at *
  unfold int16
  split_ifs <;> omega

/-- The edges where nothing wraps. -/
theorem Visible.edges (h : a.Ok) (hv : a.Visible) :
    presentLow a.wx a.l = max a.low (-a.wx) ∧
      presentHigh a.wx a.r (int16 a.w) a.size = min a.high (a.size - a.wx) := by
  have hsize := h.size
  have hedges := h.edges
  unfold Visible at hv
  unfold presentLow presentHigh
  rw [cutLow_eq, cutHigh_eq, int16_eq (x := a.wx + a.low) (by omega),
    int16_eq (x := a.wx + a.high) (by omega), int16_eq (x := -a.wx) (by omega)]
  unfold int16
  constructor <;> split_ifs <;> omega

theorem AtMin.edges (h : a.Ok) (hmin : a.AtMin) :
    presentLow a.wx a.l = -32768 ∧
      presentHigh a.wx a.r (int16 a.w) a.size = min a.high (a.size - 32768) := by
  have hsize := h.size
  have hedges := h.edges
  unfold AtMin at hmin
  unfold presentLow presentHigh
  rw [cutLow_eq, cutHigh_eq]
  unfold int16
  constructor <;> split_ifs <;> omega

theorem LowWraps.edges (h : a.Ok) (hlow : a.LowWraps) :
    presentLow a.wx a.l = -a.wx ∧
      presentHigh a.wx a.r (int16 a.w) a.size = min a.high (a.size - a.wx) := by
  have hwx := h.wx
  have hsize := h.size
  have hedges := h.edges
  unfold LowWraps at hlow
  unfold presentLow presentHigh
  rw [cutLow_eq, cutHigh_eq, int16_eq (x := a.wx + a.high) (by omega)]
  unfold int16
  constructor <;> split_ifs <;> omega

theorem HighWraps.edges (h : a.Ok) (hhigh : a.HighWraps) :
    presentLow a.wx a.l = max a.low (-a.wx) ∧
      presentHigh a.wx a.r (int16 a.w) a.size = a.size - a.wx := by
  have hwx := h.wx
  have hsize := h.size
  have hedges := h.edges
  unfold HighWraps at hhigh
  unfold presentLow presentHigh
  rw [cutLow_eq, cutHigh_eq, int16_eq (x := a.size - a.wx) (by omega)]
  unfold int16
  constructor <;> split_ifs <;> omega

theorem Beyond.edges (h : a.Ok) (hbeyond : a.Beyond) :
    presentLow a.wx a.l = a.low ∧ presentHigh a.wx a.r (int16 a.w) a.size = a.high := by
  have hwx := h.wx
  have hsize := h.size
  have hedges := h.edges
  unfold Beyond at hbeyond
  unfold presentLow presentHigh
  rw [cutLow_eq, cutHigh_eq, int16_eq (x := a.wx + a.low) (by omega)]
  unfold int16
  constructor <;> split_ifs <;> omega

/-- What is shown is the window's, if it is not wrong. -/
theorem present_inside (h : a.Ok) (hshown : a.Shown) (hright : ¬a.Wrong) :
    let d := int16 (a.wx + presentLow a.wx a.l)
    let c := int16 (presentHigh a.wx a.r (int16 a.w) a.size - presentLow a.wx a.l)
    0 ≤ d ∧ d + c ≤ a.size ∧ a.wx ≤ d ∧ d + c ≤ a.wx + a.w := by
  have hwx := h.wx
  have hsize := h.size
  have hedges := h.edges
  unfold Wrong at hright
  push Not at hright
  obtain ⟨hlow, hbeyond, hfar⟩ := hright
  rcases hshown with hv | hmin | hl | hh | hb
  · obtain ⟨h0, h1⟩ := hv.edges h
    rw [h0, h1]
    unfold Visible at hv
    clear hfar hlow hbeyond h0 h1
    unfold int16
    omega
  · obtain ⟨h0, h1⟩ := hmin.edges h
    rw [h0, h1]
    have hw : 32768 ≤ a.w := by
      by_contra hw
      exact (hfar (by omega)).1 hmin
    unfold AtMin at hmin
    clear hfar hlow hbeyond h0 h1
    unfold int16
    omega
  · exact absurd hl hlow
  · obtain ⟨h0, h1⟩ := hh.edges h
    rw [h0, h1]
    have hw : 32768 ≤ a.w := by
      by_contra hw
      exact (hfar (by omega)).2 hh
    unfold HighWraps at hh
    clear hfar hlow hbeyond h0 h1
    unfold int16
    omega
  · exact absurd hb hbeyond

/-- What is wrong has a column outside it. -/
theorem present_outside (h : a.Ok) (hwrong : a.Wrong) :
    let d := int16 (a.wx + presentLow a.wx a.l)
    let c := int16 (presentHigh a.wx a.r (int16 a.w) a.size - presentLow a.wx a.l)
    ∃ x, d ≤ x ∧ x < d + c ∧ ¬(0 ≤ x ∧ x < a.size ∧ a.wx ≤ x ∧ x < a.wx + a.w) := by
  have hwx := h.wx
  have hsize := h.size
  have hedges := h.edges
  have hends : ∀ d c : ℤ, 0 < c → ¬(0 ≤ d ∧ d + c ≤ a.size ∧ a.wx ≤ d ∧ d + c ≤ a.wx + a.w) →
      ∃ x, d ≤ x ∧ x < d + c ∧ ¬(0 ≤ x ∧ x < a.size ∧ a.wx ≤ x ∧ x < a.wx + a.w) := by
    intro d c hc hout
    by_cases hd : 0 ≤ d ∧ a.wx ≤ d
    · exact ⟨d + c - 1, by omega, by omega, by omega⟩
    · exact ⟨d, by omega, by omega, by omega⟩
  have hshown : a.Shown := by
    unfold Wrong at hwrong
    unfold Shown
    tauto
  have hc := ((present_shown h).mpr hshown).2
  refine hends _ _ hc ?_
  clear hends hshown hc
  rcases hwrong with hl | hb | ⟨hw, hmin | hh⟩
  · obtain ⟨h0, h1⟩ := hl.edges h
    rw [h0, h1]
    unfold LowWraps at hl
    unfold int16
    omega
  · obtain ⟨h0, h1⟩ := hb.edges h
    rw [h0, h1]
    unfold Beyond at hb
    unfold int16
    omega
  · obtain ⟨h0, h1⟩ := hmin.edges h
    rw [h0, h1]
    unfold AtMin at hmin
    unfold int16
    omega
  · obtain ⟨h0, h1⟩ := hh.edges h
    rw [h0, h1]
    unfold HighWraps at hh
    unfold int16
    omega

end Axis

/-! ## Frames -/

section Frames

variable {m : M8Mode} {W H : ℤ} {s : M8p} {c : PolyCard} {f : PolyFrame} {sends : PolySends}

theorem short_bounds (blk : PolyBlock) (i : ℕ) : -32768 ≤ blk.short i ∧ blk.short i < 32768 :=
  ⟨BitVec.le_toInt _, BitVec.toInt_lt⟩

/-- The window's part on the screen. -/
def Window (m : M8Mode) (W H : ℤ) (f : PolyFrame) (z : Pixel) : Prop :=
  (0 ≤ z.1 ∧ z.1 < m.x ∧ f.wx ≤ z.1 ∧ z.1 < f.wx + W) ∧
    0 ≤ z.2 ∧ z.2 < m.y ∧ f.wy ≤ z.2 ∧ z.2 < f.wy + H

/-- Every pixel a frame writes lies in the rows, in a direct frame's window, or, copied, in the
window. -/
def FrameKept (c : PolyCard) (m : M8Mode) (W H : ℤ) (s : M8p) (f : PolyFrame) : Prop :=
  ∀ sends, StayIn c (m8pFrame m s f sends).ops
      (fun z => Rows m W H z ∨ f.Direct ∧ Window m W H f z) ∧
    StayIn c (m8pFrame m s f sends).window (Window m W H f)

/-- The clear's rectangle has pixels, or a polygon of the frame has. -/
def Draws (W H : ℤ) (f : PolyFrame) : Prop :=
  (max (f.blk.short 5) 0 < min (f.blk.short 7) (int16 W) ∧
      max (f.blk.short 6) 0 < min (f.blk.short 8) H) ∨
    DrawsPoly f.blk (int16 W) H (f.blk.short 13).toNat 14

/-- A direct frame's window ends on the screen only after a wrap, and something is drawn. -/
def DirectWrong (m : M8Mode) (W H : ℤ) (f : PolyFrame) : Prop :=
  (0 ≤ f.wx ∧ 0 ≤ f.wy) ∧ (f.wx + W ≤ m.x ∨ 32768 ≤ f.wx + W) ∧
    (f.wy + H ≤ m.y ∨ 32768 ≤ f.wy + H) ∧ (32768 ≤ f.wx + W ∨ 32768 ≤ f.wy + H) ∧ Draws W H f

/-- The columns and the rows of the copy. -/
def columns (m : M8Mode) (W : ℤ) (f : PolyFrame) : Axis :=
  ⟨f.wx, f.blk.short 9, f.blk.short 11, W, m.x⟩

def rows (m : M8Mode) (H : ℤ) (f : PolyFrame) : Axis :=
  ⟨f.wy, f.blk.short 10, f.blk.short 12, H, m.y⟩

/-- Something is copied, and along one axis not to the window. -/
def PresentWrong (m : M8Mode) (W H : ℤ) (f : PolyFrame) : Prop :=
  (columns m W f).Shown ∧ (rows m H f).Shown ∧ ((columns m W f).Wrong ∨ (rows m H f).Wrong)

/-- No sum of the frame wraps to where it draws. -/
def FramePlain (m : M8Mode) (W H : ℤ) (f : PolyFrame) : Prop :=
  f.usable = true → f.blk.short 13 ≤ M8P_MAX_COUNT →
    (f.Direct → ¬DirectWrong m W H f) ∧ (¬f.Direct → ¬PresentWrong m W H f)

theorem mode_sizes (m : M8Mode) : (640 ≤ m.x ∧ m.x ≤ 1024) ∧ 480 ≤ m.y ∧ m.y ≤ 768 := by
  obtain ⟨x, y, hxy⟩ := m
  rcases hxy with h | h | h
  all_goals
    cases h
    decide

theorem columns_ok (hs : Ready m W H s) : (columns m W f).Ok := by
  have hwide := hs.wide
  have hsizes := mode_sizes m
  refine ⟨short_bounds _ _, short_bounds _ _, short_bounds _ _, ?_, ?_⟩
  · unfold columns
    dsimp only
    omega
  · unfold columns
    dsimp only
    omega

theorem rows_ok (hs : Ready m W H s) : (rows m H f).Ok := by
  have hhigh := hs.high
  have hheap := heap_rows m
  have hsizes := mode_sizes m
  refine ⟨short_bounds _ _, short_bounds _ _, short_bounds _ _, ?_, ?_⟩
  · unfold rows
    dsimp only
    omega
  · unfold rows
    dsimp only
    omega

theorem cutLow_max (l : ℤ) : cutLow l = max l 0 := by
  unfold cutLow
  split_ifs <;> omega

theorem cutHigh_min (r w : ℤ) : cutHigh r w = min r w := by
  unfold cutHigh
  split_ifs <;> omega

/-- The clear of a frame is at its place, if that does not wrap or it clears nothing. -/
theorem clear_stay {ox oy : ℤ} (hs : Ready m W H s) (h : Placed ox oy W H ∨ ¬Draws W H f) :
    StayIn c (s.clearOps f ox oy) (Drawable m ox oy W H) := by
  have hw := hs.w
  have hh := hs.h
  have hl := short_bounds f.blk 5
  have ht := short_bounds f.blk 6
  unfold clearOps
  dsimp only
  rw [cutLow_max, cutLow_max, cutHigh_min, cutHigh_min, hw, hh]
  by_cases hsome : min (f.blk.short 7) (int16 W) > max (f.blk.short 5) 0 ∧
      min (f.blk.short 8) H > max (f.blk.short 6) 0
  · have hplaced := h.resolve_right (not_not_intro (Or.inl hsome))
    rw [if_pos hsome]
    refine stayIn_fill fun _ _ z h1 h2 h3 h4 => Or.inr ⟨hplaced, ?_⟩
    unfold Placed at hplaced
    rw [int16_eq (x := ox + max (f.blk.short 5) 0) (by omega)] at h1 h2
    rw [int16_eq (x := oy + max (f.blk.short 6) 0) (by omega)] at h3 h4
    rw [int16_eq (by omega)] at h2 h4
    rw [Rect.mem_iff]
    dsimp only
    omega
  · rw [if_neg hsome]
    exact stayIn_nil

/-- Where something is drawn and the card takes all, a pixel is drawn at the origin. -/
theorem draws_point {ox oy : ℤ} (hs : Ready m W H s) (hsent : ∀ k i, sends.sent k i = true)
    (h : Draws W H f) : ∃ op ∈ s.clearOps f ox oy ++
      ((s.polys f.blk sends ox oy (f.blk.short 13).toNat 0 0 14).1 ++
        (s.polys f.blk sends ox oy (f.blk.short 13).toNat 0 0 14).2.m8pScratchClear.1),
      ∃ z, op.Writes c z ∧ ∃ q, InBuffer (int16 W) H q ∧ z = polyAt ox oy q := by
  rcases h with ⟨hx, hy⟩ | hpoly
  · have hhigh := hs.high
    have hheap := heap_rows m
    have hwide : int16 W ≤ 512 := by
      have hwide := hs.wide
      unfold int16
      omega
    have hcolumns : int16 (min (f.blk.short 7) (int16 W) - max (f.blk.short 5) 0) =
        min (f.blk.short 7) (int16 W) - max (f.blk.short 5) 0 := int16_eq (by omega)
    have hrows : int16 (min (f.blk.short 8) H - max (f.blk.short 6) 0) =
        min (f.blk.short 8) H - max (f.blk.short 6) 0 := int16_eq (by omega)
    refine ⟨.fill (int16 (ox + max (f.blk.short 5) 0)) (int16 (oy + max (f.blk.short 6) 0))
      (int16 (min (f.blk.short 7) (int16 W) - max (f.blk.short 5) 0))
      (int16 (min (f.blk.short 8) H - max (f.blk.short 6) 0)) ((f.blk.word 4).setWidth 8),
      List.mem_append_left _ ?_, polyAt ox oy (max (f.blk.short 5) 0, max (f.blk.short 6) 0), ?_,
      _, ?_, rfl⟩
    · unfold clearOps
      dsimp only
      rw [cutLow_max, cutLow_max, cutHigh_min, cutHigh_min, hs.w, hs.h, if_pos ⟨hx, hy⟩, polyFill,
        if_neg (by rw [hcolumns, hrows]; omega)]
      exact List.mem_singleton_self _
    · rw [hcolumns, hrows]
      refine Rect.mem_iff.mpr ?_
      unfold polyAt
      dsimp only
      omega
    · unfold InBuffer
      dsimp only
      omega
  · obtain ⟨op, hop, hz⟩ := polys_point (c := c) hsent _ 0 0 14 s hs hpoly
    exact ⟨op, List.mem_append_right _ (List.mem_append_left _ hop), hz⟩

/-- What a direct frame of a wrapped window draws is on no row of it and in no window. -/
theorem direct_outside (hs : Ready m W H s) (h : DirectWrong m W H f) {q : Pixel}
    (hq : InBuffer (int16 W) H q) : ¬(Rows m W H (polyAt f.wx f.wy q) ∨
      f.Direct ∧ Window m W H f (polyAt f.wx f.wy q)) := by
  have hwide := hs.wide
  have hhigh := hs.high
  have hheap := heap_rows m
  have hsizes := mode_sizes m
  have hwx : -32768 ≤ f.wx ∧ f.wx < 32768 := short_bounds _ _
  have hwy : -32768 ≤ f.wy ∧ f.wy < 32768 := short_bounds _ _
  obtain ⟨hpos, hx, hy, hwraps, -⟩ := h
  have hnarrow : W ≤ 512 := by
    unfold InBuffer int16 at hq
    omega
  unfold InBuffer at hq
  rw [int16_eq (x := W) (by omega)] at hq
  unfold Rows Window polyAt
  dsimp only
  rintro (hrows | ⟨-, hwindow⟩)
  · rcases hwraps with hwraps | hwraps
    · have hcolumn := hrows.2.1
      have hcolumn' := hrows.1
      clear hrows
      unfold int16 at hcolumn hcolumn'
      omega
    · obtain ⟨-, -, htop, hbottom⟩ := hrows
      unfold int16 at htop hbottom
      omega
  · rcases hwraps with hwraps | hwraps
    · obtain ⟨h0, h1, -⟩ := hwindow.1
      unfold int16 at h0 h1
      omega
    · obtain ⟨h0, h1, -⟩ := hwindow.2
      unfold int16 at h0 h1
      omega

/-- A direct frame draws in its window if no sum wraps, and only then. -/
theorem direct_kept_iff (hs : Ready m W H s) (hgoes : ¬((s.on && f.usable) = false ∨
    f.blk.short 13 > M8P_MAX_COUNT)) (hdirect : f.Direct) :
    FrameKept c m W H s f ↔ ¬DirectWrong m W H f := by
  have hwide := hs.wide
  have hhigh := hs.high
  have hheap := heap_rows m
  have hsizes := mode_sizes m
  have hwx : -32768 ≤ f.wx ∧ f.wx < 32768 := short_bounds _ _
  have hwy : -32768 ≤ f.wy ∧ f.wy < 32768 := short_bounds _ _
  have hoff : OffScreen m s f ↔ f.wx < 0 ∨ f.wy < 0 ∨ int16 (f.wx + int16 W) > m.x ∨
      int16 (f.wy + H) > m.y := by
    unfold OffScreen
    rw [hs.w, hs.h]
  constructor
  · intro hkept hwrong
    have hon : ¬(f.Direct ∧ OffScreen m s f) := by
      rintro ⟨-, h⟩
      obtain ⟨hpos, hx, hy, -, hdraws⟩ := hwrong
      rw [hoff] at h
      unfold int16 at h
      omega
    have hframe := (hkept ⟨true, fun _ _ => true⟩).1
    rw [m8pFrame] at hframe
    dsimp only at hframe
    rw [if_neg hgoes, if_neg hon, if_neg (by decide), if_pos hdirect, if_pos hdirect] at hframe
    obtain ⟨op, hop, z, hwrites, q, hq, rfl⟩ := @draws_point _ _ _ _ c _
      ⟨true, fun _ _ => true⟩ f.wx f.wy hs (fun _ _ => rfl) hwrong.2.2.2.2
    exact direct_outside hs hwrong hq (hframe op hop _ hwrites)
  · intro hplain sends
    rw [m8pFrame]
    dsimp only
    rw [if_neg hgoes]
    by_cases hon : f.Direct ∧ OffScreen m s f
    · rw [if_pos hon]
      exact ⟨stayIn_nil, stayIn_nil⟩
    rw [if_neg hon, if_pos hdirect, if_pos hdirect, if_pos hdirect]
    have hoff' := mt (And.intro hdirect) hon
    rw [hoff] at hoff'
    have hplaced : Placed f.wx f.wy W H ∨ ¬Draws W H f := by
      by_contra hboth
      push Not at hboth
      refine hplain ⟨by omega, ?_, ?_, ?_, hboth.2⟩
      all_goals
        obtain ⟨hout, -⟩ := hboth
        unfold Placed int16 at hout
        unfold int16 at hoff'
        omega
    have hin : ∀ z, Drawable m f.wx f.wy W H z →
        Rows m W H z ∨ f.Direct ∧ Window m W H f z := by
      rintro z (hz | ⟨hp, hz⟩)
      · exact Or.inl hz
      · refine Or.inr ⟨hdirect, ?_⟩
        rw [Rect.mem_iff] at hz
        unfold Placed at hp
        unfold Window
        dsimp only at hz
        rw [int16_eq (x := f.wx + int16 W) (by omega), int16_eq (x := f.wy + H) (by omega)] at hoff'
        have hnarrow : int16 W ≤ W := by
          unfold int16
          omega
        omega
    have hclear := (clear_stay (c := c) hs hplaced).mono hin
    by_cases hfirst : sends.first = false
    · rw [if_pos hfirst]
      exact ⟨hclear, stayIn_nil⟩
    · rw [if_neg hfirst]
      refine ⟨stayIn_append.mpr ⟨hclear, stayIn_append.mpr ⟨?_, ?_⟩⟩, stayIn_nil⟩
      · exact (polys_stay _ 0 0 14 s hs (hplaced.imp id fun h hd => h (Or.inr hd))).mono hin
      · exact (scratchClear_stay (polys_ready _ 0 0 14 s hs)).mono fun _ hz => Or.inl hz

/-- The copy to the window. -/
theorem presentOps_eq (hs : Ready m W H s) {ox oy : ℤ} :
    presentOps m s f ox oy =
      if (columns m W f).Shown ∧ (rows m H f).Shown then
        [PolyOp.copy (int16 (ox + presentLow f.wx (f.blk.short 9)))
          (int16 (oy + presentLow f.wy (f.blk.short 10)))
          (int16 (f.wx + presentLow f.wx (f.blk.short 9)))
          (int16 (f.wy + presentLow f.wy (f.blk.short 10)))
          (int16 (presentHigh f.wx (f.blk.short 11) (int16 W) m.x -
            presentLow f.wx (f.blk.short 9)))
          (int16 (presentHigh f.wy (f.blk.short 12) (int16 H) m.y -
            presentLow f.wy (f.blk.short 10)))]
      else [] := by
  have hhigh := hs.high
  have hheap := heap_rows m
  have hH : int16 H = H := int16_eq (by omega)
  have hx := Axis.present_shown (columns_ok (f := f) hs)
  have hy := Axis.present_shown (rows_ok (f := f) hs)
  rw [hH]
  rw [rows, hH] at hy
  rw [columns] at hx
  dsimp only at hx hy
  unfold presentOps
  dsimp only
  rw [hs.w, hs.h]
  by_cases hshown : (columns m W f).Shown ∧ (rows m H f).Shown
  · have hwide := hx.mpr hshown.1
    have hlong := hy.mpr hshown.2
    rw [if_pos hshown, if_pos ⟨hwide.1, hlong.1⟩, polyCopy, if_neg (by omega)]
  · rw [if_neg hshown]
    split_ifs with hsome
    · refine if_pos ?_
      by_contra hpos
      exact hshown ⟨hx.mp ⟨hsome.1, by omega⟩, hy.mp ⟨hsome.2, by omega⟩⟩
    · rfl

/-- Other frames copy to the window if no sum wraps to where something is copied, and only then. -/
theorem present_kept_iff (hs : Ready m W H s) (hgoes : ¬((s.on && f.usable) = false ∨
    f.blk.short 13 > M8P_MAX_COUNT)) (hdirect : ¬f.Direct) :
    FrameKept c m W H s f ↔ ¬PresentWrong m W H f := by
  have hhigh := hs.high
  have hheap := heap_rows m
  have hnot : ¬(f.Direct ∧ OffScreen m s f) := fun h => hdirect h.1
  have hH : int16 H = H := int16_eq (by omega)
  constructor
  · rintro hkept ⟨hx, hy, hwrong⟩
    have hframe := (hkept ⟨true, fun _ _ => true⟩).2
    rw [m8pFrame] at hframe
    dsimp only at hframe
    rw [if_neg hgoes, if_neg hnot, if_neg (by decide), if_neg hdirect, if_neg hdirect,
      if_neg hdirect, presentOps_eq hs, if_pos ⟨hx, hy⟩] at hframe
    have hcopy := hframe _ (List.mem_singleton_self _)
    have hwide := (Axis.present_shown (columns_ok (f := f) hs)).mpr hx
    have hlong := (Axis.present_shown (rows_ok (f := f) hs)).mpr hy
    rcases hwrong with hwrong | hwrong
    · obtain ⟨x, hlow, hup, hout⟩ := Axis.present_outside (columns_ok (f := f) hs) hwrong
      have hin := hcopy (x, int16 (f.wy + presentLow f.wy (f.blk.short 10)))
        (Rect.mem_iff.mpr ⟨hlow, hup, le_refl _, Int.lt_add_of_pos_right _ hlong.2⟩)
      exact hout hin.1
    · obtain ⟨y, hlow, hup, hout⟩ := Axis.present_outside (rows_ok (f := f) hs) hwrong
      have hin := hcopy (int16 (f.wx + presentLow f.wx (f.blk.short 9)), y)
        (Rect.mem_iff.mpr ⟨le_refl _, Int.lt_add_of_pos_right _ hwide.2, hlow, hup⟩)
      exact hout hin.2
  · intro hplain sends
    rw [m8pFrame]
    dsimp only
    rw [if_neg hgoes, if_neg hnot, if_neg hdirect, if_neg hdirect, if_neg hdirect]
    have hplaced : Placed 0 s.top W H := by
      have hwide := hs.wide
      have htop := hs.top
      unfold Placed int16
      omega
    have hin : ∀ z, Drawable m 0 s.top W H z → Rows m W H z ∨ f.Direct ∧ Window m W H f z := by
      rintro z (hz | ⟨-, hz⟩)
      · exact Or.inl hz
      · have hwide := hs.wide
        have htop := hs.top
        have hle : int16 W ≤ W := by
          unfold int16
          omega
        rw [Rect.mem_iff] at hz
        dsimp only at hz
        unfold Rows
        omega
    have hclear := (clear_stay (c := c) (f := f) hs (Or.inl hplaced)).mono hin
    by_cases hfirst : sends.first = false
    · rw [if_pos hfirst]
      exact ⟨hclear, stayIn_nil⟩
    · rw [if_neg hfirst]
      refine ⟨stayIn_append.mpr ⟨hclear, stayIn_append.mpr ⟨?_, ?_⟩⟩, ?_⟩
      · exact (polys_stay _ 0 0 14 s hs (Or.inl hplaced)).mono hin
      · exact (scratchClear_stay (polys_ready _ 0 0 14 s hs)).mono fun _ hz => Or.inl hz
      · rw [presentOps_eq hs]
        by_cases hshown : (columns m W f).Shown ∧ (rows m H f).Shown
        · rw [if_pos hshown]
          have hx := Axis.present_inside (columns_ok (f := f) hs) hshown.1
            fun hw => hplain ⟨hshown.1, hshown.2, Or.inl hw⟩
          have hy := Axis.present_inside (rows_ok (f := f) hs) hshown.2
            fun hw => hplain ⟨hshown.1, hshown.2, Or.inr hw⟩
          intro op hop z hz
          rw [List.mem_singleton] at hop
          subst hop
          obtain ⟨h1, h2, h3, h4⟩ := Rect.mem_iff.mp hz
          unfold columns at hx
          unfold rows at hy
          dsimp only at h1 h2 h3 h4 hx hy
          unfold Window
          omega
        · rw [if_neg hshown]
          exact stayIn_nil

/-- A frame keeps to the rows and the window if no sum wraps to where it draws, and only then. -/
theorem frame_kept_iff (hs : Ready m W H s) : FrameKept c m W H s f ↔ FramePlain m W H f := by
  by_cases hgoes : (s.on && f.usable) = false ∨ f.blk.short 13 > M8P_MAX_COUNT
  · refine ⟨fun _ husable hcount => ?_, fun _ sends => ?_⟩
    · rcases hgoes with h | h
      · rw [hs.on, husable] at h
        cases h
      · omega
    · rw [m8pFrame]
      dsimp only
      rw [if_pos hgoes]
      exact ⟨stayIn_nil, stayIn_nil⟩
  · have husable : f.usable = true ∧ f.blk.short 13 ≤ M8P_MAX_COUNT := by
      push Not at hgoes
      exact ⟨by simpa [hs.on] using hgoes.1, hgoes.2⟩
    by_cases hdirect : f.Direct
    · rw [direct_kept_iff hs hgoes hdirect]
      exact ⟨fun h _ _ => ⟨fun _ => h, fun hn => absurd hdirect hn⟩,
        fun h => (h husable.1 husable.2).1 hdirect⟩
    · rw [present_kept_iff hs hgoes hdirect]
      exact ⟨fun h _ _ => ⟨fun hd => absurd hd hdirect, fun _ => h⟩,
        fun h => (h husable.1 husable.2).2 hdirect⟩

/-- The state after a frame is that between frames. -/
theorem frame_ready (hs : Ready m W H s) : Ready m W H (m8pFrame m s f sends).s := by
  unfold m8pFrame
  dsimp only
  split_ifs
  all_goals first
    | exact hs
    | exact scratchClear_ready (polys_ready _ 0 0 14 s hs)

end Frames

/-- All frames of a program keep to its rows and its window, however the card takes each. -/
def FramesKept (c : PolyCard) (m : M8Mode) (W H : ℤ) : M8p → List PolyFrame → Prop
  | _, [] => True
  | s, f :: fs => FrameKept c m W H s f ∧ ∀ sends, FramesKept c m W H (m8pFrame m s f sends).s fs

theorem framesKept_iff {c : PolyCard} {m : M8Mode} {W H : ℤ} : ∀ (fs : List PolyFrame) (s : M8p),
    Ready m W H s → (FramesKept c m W H s fs ↔ ∀ f ∈ fs, FramePlain m W H f)
  | [], _, _ => by simp [FramesKept]
  | f :: fs, s, hs => by
    have hrest : (∀ sends, FramesKept c m W H (m8pFrame m s f sends).s fs) ↔
        ∀ f ∈ fs, FramePlain m W H f :=
      ⟨fun h => (framesKept_iff fs _ (frame_ready hs)).mp (h ⟨true, fun _ _ => true⟩),
        fun h _ => (framesKept_iff fs _ (frame_ready hs)).mpr h⟩
    rw [FramesKept, frame_kept_iff hs, hrest, List.forall_mem_cons]

/-- What `m8p_begin` draws is in the rows it takes. -/
theorem begin_ready {c : PolyCard} {m : M8Mode} {s : M8p} {usable : Bool} {blk : PolyBlock}
    (h : (s.m8pBegin (heap m) usable blk).1 = true) :
    StayIn c (s.m8pBegin (heap m) usable blk).2.1 (Rows m (blk.word 1).toNat (blk.word 2).toNat) ∧
      Ready m (blk.word 1).toNat (blk.word 2).toNat (s.m8pBegin (heap m) usable blk).2.2 := by
  have hw := (blk.word 1).isLt
  have hheap := heap_rows m
  unfold m8pBegin M8_PITCH at h ⊢
  dsimp only at h ⊢
  split_ifs at h ⊢ with hrefused
  push Not at hrefused
  obtain ⟨-, -, hwide, htall, hpitch, hrows⟩ := hrefused
  have hh : int16 ((blk.word 2).toNat : ℤ) = (blk.word 2).toNat := int16_eq (by omega)
  refine ⟨?_, ⟨rfl, rfl, hh, rfl, by omega, by omega, Or.inl ⟨rfl, rfl, rfl, rfl⟩⟩⟩
  dsimp only
  refine stayIn_fill fun _ _ z h1 h2 h3 h4 => ?_
  have hcolumns : int16 (2 * int16 (blk.word 1).toNat) ≤ 2 * (blk.word 1).toNat := by
    unfold int16
    omega
  rw [hh] at h4
  unfold Rows
  omega

/-- What a program's polygons draw after a begin stays in the rows it took and, direct or copied, in
the window on the screen, if no sum of a frame wraps to where it draws, and only then. -/
theorem m8p_stays_in_rows_iff (c : PolyCard) (m : M8Mode) (s : M8p) (usable : Bool)
    (blk : PolyBlock) (frames : List PolyFrame) :
    ((({ s with on := false } : M8p).m8pBegin (heap m) usable blk).1 = true →
      StayIn c (({ s with on := false } : M8p).m8pBegin (heap m) usable blk).2.1
          (Rows m (blk.word 1).toNat (blk.word 2).toNat) ∧
        FramesKept c m (blk.word 1).toNat (blk.word 2).toNat
          (({ s with on := false } : M8p).m8pBegin (heap m) usable blk).2.2 frames) ↔
      ((({ s with on := false } : M8p).m8pBegin (heap m) usable blk).1 = true →
        ∀ f ∈ frames, FramePlain m (blk.word 1).toNat (blk.word 2).toNat f) := by
  refine imp_congr_right fun hbegin => ?_
  obtain ⟨hfill, hready⟩ := begin_ready (c := c) hbegin
  rw [framesKept_iff frames _ hready]
  exact and_iff_right hfill

/-- A card that draws all that it may. -/
def boxCard : PolyCard where
  outline p q z := (min p.1 q.1 ≤ z.1 ∧ z.1 ≤ max p.1 q.1) ∧ min p.2 q.2 ≤ z.2 ∧ z.2 ≤ max p.2 q.2
  line p q z := (min p.1 q.1 ≤ z.1 ∧ z.1 ≤ max p.1 q.1) ∧ min p.2 q.2 ≤ z.2 ∧ z.2 ≤ max p.2 q.2
  between r z := z ∈ r
  outline_box h := h
  line_box h := h
  line_first {p q} _ := by omega
  between_box h := h

def vga : M8Mode := ⟨640, 480, Or.inl rfl⟩

/-- A buffer of 64 by 64. -/
def smallBegin : PolyBlock := ⟨fun i => ([1, 64, 64] : List (BitVec 16)).getD i 0⟩

/-- A frame that presents columns 7FF8h to 16 of a window at column 10. -/
def emptyPresent : PolyFrame :=
  ⟨true, ⟨fun i =>
    ([2, 0, 10, 0, 0, 0, 0, 0, 0, 0x7FF8, 0, 16, 16, 0] : List (BitVec 16)).getD i 0⟩⟩

def noProgram : M8p := ⟨false, 0, 0, 0, 0, 0, 0, 0⟩

/-- An empty rectangle is copied, from the screen's first column on. -/
theorem m8p_leaves_window : ¬((({ noProgram with on := false } : M8p).m8pBegin (heap vga) true
      smallBegin).1 = true →
    StayIn boxCard (({ noProgram with on := false } : M8p).m8pBegin (heap vga) true smallBegin).2.1
        (Rows vga (smallBegin.word 1).toNat (smallBegin.word 2).toNat) ∧
      FramesKept boxCard vga (smallBegin.word 1).toNat (smallBegin.word 2).toNat
        (({ noProgram with on := false } : M8p).m8pBegin (heap vga) true smallBegin).2.2
        [emptyPresent]) := by
  have hbegin :
      (({ noProgram with on := false } : M8p).m8pBegin (heap vga) true smallBegin).1 = true := by
    decide
  intro h
  have hready := (begin_ready (c := boxCard) hbegin).2
  have hplain := (framesKept_iff [emptyPresent] _ hready).mp (h hbegin).2 emptyPresent
    (List.mem_singleton_self _)
  refine (hplain rfl (by decide)).2 (by decide) ?_
  unfold PresentWrong
  decide

end M8p

end Inboard
