import Inboard.D3dStamps

/-!
# Direct3D replay : the rows of a triangle

What a triangle reaches on a row, as m8d3d.c works it out from the edges without drawing them : a
span sure to hold every pixel or one sure to hold only pixels (`m8d3dRowSpan`), the core of a mask
and the parts around it that are chosen by it (`m8d3dCoreChoose`), and what a band or a part of a
stamp reaches (`m8d3dRowsReach`). A shape's corners are relative to its box, and a target has at
most 2048 columns and rows, so that no product leaves 32 bits.
-/

set_option linter.unusedSectionVars false

namespace Inboard

/-! ## Data -/

def M8D3D_NS_MASK : ℤ := 69
def M8D3D_NS_PLAIN : ℤ := 21
def M8D3D_NS_COMMAND : ℤ := 60000
def M8D3D_CORE_SAMPLES : ℤ := 6
def M8D3D_STAMP_PARTS : ℤ := 3
def M8D3D_STAMP_CUT : ℤ := 3000

/-- `M8D3D_BOX`. -/
structure M8d3dBox where
  x : ℤ
  y : ℤ
  w : ℤ
  h : ℤ
  deriving DecidableEq, Repr

/-- The core of a mask, none if its `w` is 0, and the parts around it, in an array of four. -/
structure MaskCut where
  core : M8d3dBox
  part : List M8d3dBox
  fits : part.length ≤ 4

/-- The parts of a stamp, none if it is copied whole, in an array of three. -/
structure StampCut where
  part : List M8d3dBox
  fits : part.length ≤ 3

/-- A mask without a core. -/
def MaskCut.whole : MaskCut := ⟨⟨0, 0, 0, 0⟩, [], by decide⟩

/-- A stamp that is copied whole. -/
def StampCut.whole : StampCut := ⟨[], by decide⟩

namespace Corners

/-- Corner `k`. -/
def corner (v : Corners) : Fin 3 → Pixel
  | 0 => v.v0
  | 1 => v.v1
  | 2 => v.v2

/-- The edges, from each corner to the next. -/
def edges (v : Corners) : List (Pixel × Pixel) := [(v.v0, v.v1), (v.v1, v.v2), (v.v2, v.v0)]

end Corners

/-- An edge from its upper end. -/
def topDown (e : Pixel × Pixel) : Pixel × Pixel := if e.2.2 < e.1.2 then (e.2, e.1) else e

/-! ## Spans -/

/-- A span with nothing in it. -/
def noSpan : ℤ × ℤ := (0x7FFF, -0x7FFF)

/-- Where the row `y` crosses a sloped edge, cut to a whole number. -/
def edgeX (a b : Pixel) (y : ℤ) : ℤ := a.1 + Int.tdiv ((b.1 - a.1) * (y - a.2)) (b.2 - a.2)

/-- How far the pixels of an edge may be from where it crosses a row. -/
def edgeRun (a b : Pixel) : ℤ :=
  if b.1 = a.1 then 0 else Int.tdiv (Int.tdiv (b.1 - a.1).natAbs (b.2 - a.2)) 2 + 1

/-- What an edge adds to the span of row `y`. -/
def edgeSpan (y : ℤ) (inner : Bool) (s : ℤ × ℤ) (e : Pixel × Pixel) : ℤ × ℤ :=
  let a := (topDown e).1
  let b := (topDown e).2
  if y < a.2 ∨ b.2 < y then s
  else if a.2 = b.2 then (min (min s.1 a.1) b.1, max (max s.2 a.1) b.1)
  else
    let x := edgeX a b y
    let run := if inner = true then -edgeRun a b else edgeRun a b
    (min s.1 (x - run), max s.2 (x + run))

/-- `m8d3d_row_span`. -/
def m8d3dRowSpan (n : Corners) (y : ℤ) (inner : Bool) : ℤ × ℤ :=
  n.edges.foldl (edgeSpan y inner) noSpan

/-! ## Cores -/

/-- The rows that `m8d3d_part` looks at. -/
def partRows (n : Corners) (top bottom : ℤ) : List ℤ := [top, bottom, n.v0.2, n.v1.2, n.v2.2]

/-- What the rows from `top` to `bottom` reach between `x0` and `x1`. -/
def partReach (n : Corners) (top bottom x0 x1 : ℤ) : ℤ × ℤ :=
  (partRows n top bottom).foldl (fun s y =>
    if y < top ∨ bottom < y then s
    else
      let r := m8d3dRowSpan n y false
      let a := max r.1 x0
      let b := min r.2 x1
      if a ≤ b then (min s.1 a, max s.2 b) else s) noSpan

/-- `m8d3d_part`, with a pixel's margin. -/
def m8d3dPart (n : Corners) (top bottom x0 x1 : ℤ) : Option M8d3dBox :=
  let r := partReach n top bottom x0 x1
  let lo := max (r.1 - 1) x0
  let hi := min (r.2 + 1) x1
  if lo ≤ hi then some ⟨lo, top, hi - lo + 1, bottom - top + 1⟩ else none

/-- `m8d3d_parts` : above, left of, right of and below the core. -/
def m8d3dParts (n : Corners) (w h l t r b : ℤ) : List M8d3dBox :=
  (if 0 < t then (m8d3dPart n 0 (t - 1) 0 (w - 1)).toList else []) ++
  (if 0 < l then (m8d3dPart n t b 0 (l - 1)).toList else []) ++
  (if r < w - 1 then (m8d3dPart n t b (r + 1) (w - 1)).toList else []) ++
  (if b < h - 1 then (m8d3dPart n (b + 1) (h - 1) 0 (w - 1)).toList else [])

theorem length_ite_toList_le (p : Prop) [Decidable p] (o : Option M8d3dBox) :
    (if p then o.toList else []).length ≤ 1 := by
  split_ifs
  · cases o <;> simp
  · simp

theorem length_m8d3dParts_le (n : Corners) (w h l t r b : ℤ) :
    (m8d3dParts n w h l t r b).length ≤ 4 := by
  unfold m8d3dParts
  have h0 := length_ite_toList_le (0 < t) (m8d3dPart n 0 (t - 1) 0 (w - 1))
  have h1 := length_ite_toList_le (0 < l) (m8d3dPart n t b 0 (l - 1))
  have h2 := length_ite_toList_le (r < w - 1) (m8d3dPart n t b (r + 1) (w - 1))
  have h3 := length_ite_toList_le (b < h - 1) (m8d3dPart n (b + 1) (h - 1) 0 (w - 1))
  rw [List.length_append, List.length_append, List.length_append]
  omega

/-- A core's rows, from `t` to `b`, and its columns, from `l` to `r`. -/
structure CoreBox where
  l : ℤ
  t : ℤ
  r : ℤ
  b : ℤ
  deriving DecidableEq, Repr

/-- What a core saves the card, as the time of all its copies. -/
def coreCost (n : Corners) (w h : ℤ) (c : CoreBox) : ℤ :=
  let parts := m8d3dParts n w h c.l c.t c.r c.b
  (c.r - c.l + 1) * (c.b - c.t + 1) * M8D3D_NS_PLAIN + (parts.length + 1) * M8D3D_NS_COMMAND +
    (parts.map fun p => p.w * p.h * M8D3D_NS_MASK).sum

/-- The columns that the rows `a` and `b` both hold. -/
def coreOf (n : Corners) (a b : ℤ) : CoreBox :=
  let sa := m8d3dRowSpan n a true
  let sb := m8d3dRowSpan n b true
  ⟨max sa.1 sb.1, a, min sa.2 sb.2, b⟩

/-- The cheapest core so far, and its cost. -/
abbrev BestCore := ℤ × Option CoreBox

/-- One pair of rows of the search. -/
def coreTry (n : Corners) (w h a b : ℤ) (best : BestCore) : BestCore :=
  let c := coreOf n a b
  if c.l < c.r then
    if coreCost n w h c < best.1 then (coreCost n w h c, some c) else best
  else best

/-- The loop over the lower rows, from `b` on. -/
def coreBottoms (n : Corners) (w h step a : ℤ) : ℕ → ℤ → BestCore → BestCore
  | 0, _, best => best
  | fuel + 1, b, best =>
    let b := if h - 1 < b then h - 1 else b
    if b ≤ a then best
    else
      let best := coreTry n w h a b best
      if b = h - 1 then best else coreBottoms n w h step a fuel (b + step) best

/-- The loop over the upper rows, from `a` on. -/
def coreTops (n : Corners) (w h step : ℤ) : ℕ → ℤ → BestCore → BestCore
  | 0, _, best => best
  | fuel + 1, a, best =>
    if a < h then
      coreTops n w h step fuel (if a + step < h ∨ a = h - 1 then a + step else h - 1)
        (coreBottoms n w h step a h.toNat (a + step) best)
    else best

/-- `m8d3d_core_choose`'s search. Each round moves a row down, so `h` rounds are all. -/
def coreSearch (n : Corners) (w h : ℤ) : Option CoreBox :=
  if h < 48 ∨ w < 48 then none
  else
    let step := max (Int.tdiv h M8D3D_CORE_SAMPLES) 1
    (coreTops n w h step h.toNat 0 (w * h * M8D3D_NS_MASK + M8D3D_NS_COMMAND, none)).2

/-- `m8d3d_core_choose`. -/
def m8d3dCoreChoose (n : Corners) (w h : ℤ) : MaskCut :=
  match coreSearch n w h with
  | none => .whole
  | some c => ⟨⟨c.l, c.t, c.r - c.l + 1, c.b - c.t + 1⟩, m8d3dParts n w h c.l c.t c.r c.b,
      length_m8d3dParts_le n w h c.l c.t c.r c.b⟩

/-! ## Edges top down -/

/-- `M8D3D_EDGE` ; `ax` and `step` are in 1/65536. -/
structure M8d3dEdge where
  ay : ℤ
  by_ : ℤ
  ax : ℤ
  step : ℤ
  run : ℤ

/-- An edge of `m8d3d_edges_make`. -/
def m8d3dEdgeMake (e : Pixel × Pixel) : M8d3dEdge :=
  let a := (topDown e).1
  let b := (topDown e).2
  let step := if b.2 = a.2 then 0 else Int.tdiv ((b.1 - a.1) * 65536) (b.2 - a.2)
  ⟨a.2, b.2, a.1 * 65536, step, if b.1 = a.1 then 0 else (step.natAbs : ℤ) / 131072 + 1⟩

/-- What an edge adds in `m8d3d_edges_at`. -/
def m8d3dEdgeAt (y : ℤ) (s : ℤ × ℤ) (p : Pixel × Pixel) : ℤ × ℤ :=
  let e := m8d3dEdgeMake p
  if y < e.ay ∨ e.by_ < y then s
  else if e.ay = e.by_ then (min (min s.1 p.1.1) p.2.1, max (max s.2 p.1.1) p.2.1)
  else
    let x := (e.ax + e.step * (y - e.ay)) / 65536
    (min s.1 (x - e.run), max s.2 (x + e.run))

/-- `m8d3d_edges_at`. -/
def m8d3dEdgesAt (v : Corners) (y : ℤ) (s : ℤ × ℤ) : ℤ × ℤ := v.edges.foldl (m8d3dEdgeAt y) s

/-- `m8d3d_rows_reach`. -/
def m8d3dRowsReach (v : Corners) (top bottom : ℤ) : ℤ × ℤ :=
  let s := m8d3dEdgesAt v top noSpan
  let s := if bottom ≠ top then m8d3dEdgesAt v bottom s else s
  [v.v0.2, v.v1.2, v.v2.2].foldl
    (fun s y => if top < y ∧ y < bottom then m8d3dEdgesAt v y s else s) s

/-- Part `i` of `m8d3d_stamp_cut`. -/
def m8d3dStampPart (n : Corners) (w h i : ℤ) : M8d3dBox :=
  let a := Int.tdiv (h * i) M8D3D_STAMP_PARTS
  let b := Int.tdiv (h * (i + 1)) M8D3D_STAMP_PARTS
  let r := m8d3dRowsReach n a (b - 1)
  let lo := max r.1 0
  let hi := min r.2 (w - 1)
  ⟨lo, a, hi - lo + 1, b - a⟩

/-- `m8d3d_stamp_cut`. -/
def m8d3dStampCut (n : Corners) (w h : ℤ) : StampCut :=
  if w * h < M8D3D_STAMP_CUT then .whole
  else ⟨[m8d3dStampPart n w h 0, m8d3dStampPart n w h 1, m8d3dStampPart n w h 2], by simp⟩

/-! ## Colours -/

/-- `M8D3D_PLANE`, of one channel : its colour at the first corner and its slopes, in 1/65536. -/
structure M8d3dPlane where
  c0 : ℤ
  gx : ℤ
  gy : ℤ

/-- The channel at bit `s`. -/
def rgbChannel (rgb s : UInt32) : ℤ := ((rgb >>> s) &&& 0xFF).toNat

/-- A channel of `m8d3d_plane_make`. -/
def m8d3dPlaneMake (v : Corners) (rgb : CornerRgb) (s : UInt32) : M8d3dPlane :=
  let a := rgbChannel rgb.c0 s
  let b := rgbChannel rgb.c1 s - a
  let c := rgbChannel rgb.c2 s - a
  ⟨a * 65536,
    Int.tdiv ((b * (v.v2.2 - v.v0.2) - c * (v.v1.2 - v.v0.2)) * 256) v.area * 256,
    Int.tdiv ((c * (v.v1.1 - v.v0.1) - b * (v.v2.1 - v.v0.1)) * 256) v.area * 256⟩

/-- A channel of `m8d3d_plane_index` at `(x, y)`. -/
def M8d3dPlane.at (p : M8d3dPlane) (v : Corners) (x y : ℤ) : ℤ :=
  min (max ((p.c0 + p.gx * (x - v.v0.1) + p.gy * (y - v.v0.2) + 0x8000) / 65536) 0) 255

/-- `m8d3d_index16`, of three channels : an entry of the colour cube. -/
def m8d3dIndex16 (r g b : ℤ) : ℤ :=
  let c := Int.tdiv (r + 32) 64 * 45 + Int.tdiv (g + 16) 32 * 5 + Int.tdiv (b + 32) 64
  (if c < 112 then c + 15 else if c = 112 then 127 else c + 16) % 256

/-- `m8d3d_plane_index`. -/
def m8d3dPlaneIndex (v : Corners) (rgb : CornerRgb) (x y : ℤ) : ℤ :=
  m8d3dIndex16 ((m8d3dPlaneMake v rgb 16).at v x y) ((m8d3dPlaneMake v rgb 8).at v x y)
    ((m8d3dPlaneMake v rgb 0).at v x y)

end Inboard
