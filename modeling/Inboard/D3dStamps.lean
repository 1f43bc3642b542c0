import Inboard.Pixels

/-!
# Direct3D replay : stamps and masks

At 640 x 480 and 16 bpp the card has a column beside its two pages. A strip of it holds masks, one
in each bit plane, the rows below the strip and its stamp rows are the scratch, and the rest holds
stamps, on shelves that `m8d3d_stamp_place` walks down. What is drawn on the pages is left out :
the column is the card here, with what was built in each of its pixels.
-/

set_option linter.unusedSectionVars false

namespace Inboard

/-! ## Data -/

def M8D3D_STAMP_ROWS : ℤ := 128
def M8D3D_MASK_ROWS : ℤ := 128
def M8D3D_BAND_ROWS : ℤ := 3
def M8D3D_BAND_STEP : ℤ := 24
def M8D3D_BANDS_MAX : ℤ := 8
def M8D3D_BUILD_COST : ℤ := 3
def M8D3D_CREDIT_MAX : ℤ := 16

/-- Three corners. -/
structure Corners where
  v0 : Pixel
  v1 : Pixel
  v2 : Pixel
  deriving DecidableEq

/-- Three corner colours. -/
structure CornerRgb where
  c0 : UInt32
  c1 : UInt32
  c2 : UInt32
  deriving DecidableEq

/-- `M8D3D_SHADED`. -/
structure M8d3dShaded where
  v : Corners
  rgb : CornerRgb
  deriving DecidableEq

/-- `M8D3D_STAMP` ; its `part` are boxes in `w` x `h`. -/
structure M8d3dStamp where
  key : M8d3dShaded
  x : ℤ
  y : ℤ
  w : ℤ
  h : ℤ
  used : UInt32

/-- `M8D3D_MASK` ; its `core` and `part` are boxes in `w` x `h`. -/
structure M8d3dMask where
  v : Corners
  w : ℤ
  h : ℤ
  used : UInt32

/-- `M8D3D_CONTEXT`, as far as stamps and masks go. -/
structure M8d3dContext where
  stamp : Fin 32 → M8d3dStamp
  stampSeen : Fin 32 → M8d3dShaded
  stampSeenNext : Fin 32
  stampOn : Bool
  stampX : ℤ
  stampY : ℤ
  stampShelf : ℤ
  mx : ℤ
  my : ℤ
  mh : ℤ
  mask : Fin 8 → M8d3dMask
  seen : Fin 16 → Corners
  seenNext : Fin 16
  clock : UInt32
  credit : ℤ
  sx : ℤ
  sy : ℤ
  tw : ℤ
  sh : ℤ
  fresh : Bool

/-- What a pixel of the column was last given in a plane : pixel `p` of a stamp, pixel `p` of a
mask, a clearing's 0, or anything else. -/
inductive Built
  | stamp (key : M8d3dShaded) (p : Pixel)
  | mask (v : Corners) (p : Pixel)
  | clear
  | other

/-- A copy from a stamp or through a mask, with what was read for each pixel of its box. -/
inductive Hit
  | stamp (key : M8d3dShaded) (w h : ℤ) (read : Pixel → Fin 8 → Built)
  | mask (v : Corners) (w h : ℤ) (read : Pixel → Built)

/-- The context, the column and the copies made. -/
structure M8d3dCard where
  c : M8d3dContext
  col : Pixel → Fin 8 → Built
  hits : List Hit

/-- Which of the engine's parts of a triangle go through ; the others run out of a wait. -/
structure EngineIo where
  clear : Bool
  bands : Bool
  copy : Bool
  build : Bool
  draw : Bool
  fit : Bool

/-! ## Shapes -/

namespace Corners

variable (v : Corners)

def l : ℤ := min v.v0.1 (min v.v1.1 v.v2.1)
def r : ℤ := max v.v0.1 (max v.v1.1 v.v2.1)
def t : ℤ := min v.v0.2 (min v.v1.2 v.v2.2)
def b : ℤ := max v.v0.2 (max v.v1.2 v.v2.2)

/-- The corners relative to their box. -/
def rel : Corners where
  v0 := (v.v0.1 - v.l, v.v0.2 - v.t)
  v1 := (v.v1.1 - v.l, v.v1.2 - v.t)
  v2 := (v.v2.1 - v.l, v.v2.2 - v.t)

/-- `area` of `m8d3d_tri_bands`. -/
def area : ℤ :=
  (v.v1.1 - v.v0.1) * (v.v2.2 - v.v0.2) - (v.v1.2 - v.v0.2) * (v.v2.1 - v.v0.1)

theorem l_le_r : v.l ≤ v.r := by
  unfold l r
  omega

theorem t_le_b : v.t ≤ v.b := by
  unfold t b
  omega

end Corners

/-- The pixels that the engine draws for three corners : in bands, and as a mask. A line lies
between its ends, one of a band's right side a pixel further, and a fill between its lines. -/
structure ReplayShapes where
  bands : Corners → Pixel → Bool
  mask : Corners → Pixel → Bool
  bands_box : ∀ {v : Corners} {p : Pixel}, bands v p = true →
    (v.l ≤ p.1 ∧ p.1 ≤ v.r + 1) ∧ v.t ≤ p.2 ∧ p.2 ≤ v.b
  mask_box : ∀ {v : Corners} {p : Pixel}, mask v p = true →
    (v.l ≤ p.1 ∧ p.1 ≤ v.r) ∧ v.t ≤ p.2 ∧ p.2 ≤ v.b

namespace ReplayShapes

variable (g : ReplayShapes)

/-- Pixel `p` of a stamp : its bands, on what was cleared. -/
def stampPixel (key : M8d3dShaded) (p : Pixel) : Built :=
  if g.bands key.v p then .stamp key p else .clear

/-- Pixel `p` of a mask : its shape, on what was cleared. -/
def maskPixel (v : Corners) (p : Pixel) : Built := if g.mask v p then .mask v p else .clear

end ReplayShapes

/-- How far the corners differ in the channel at bit `s`. -/
def channelSpread (rgb : CornerRgb) (s : UInt32) : ℤ :=
  let a := ((rgb.c0 >>> s) &&& 0xFF).toNat
  let e := ((rgb.c1 >>> s) &&& 0xFF).toNat
  let f := ((rgb.c2 >>> s) &&& 0xFF).toNat
  (max a (max e f) : ℤ) - min a (min e f)

/-- How many bands a triangle is drawn in. -/
def bandCount (v : Corners) (rgb : CornerRgb) : ℤ :=
  let spread := max (channelSpread rgb 16) (max (channelSpread rgb 8) (channelSpread rgb 0))
  min (min (spread / M8D3D_BAND_STEP + 1) M8D3D_BANDS_MAX)
    (Int.tdiv (v.b - v.t - 1) M8D3D_BAND_ROWS)

/-- `m8d3d_tri_bands` does the triangle. -/
def M8d3dContext.bandable (c : M8d3dContext) (v : Corners) (rgb : CornerRgb) : Bool :=
  !(v.area == 0 || decide (bandCount v rgb < 2) || decide (c.sh ≤ v.b - v.t + 2) ||
    decide (c.tw ≤ v.r - v.l + 3))

/-! ## Places -/

namespace M8d3dContext

variable (c : M8d3dContext)

/-- A stamp that does not fit beside the last goes below its shelf. -/
def wrap (w : ℤ) : M8d3dContext :=
  if c.mx + c.tw < c.stampX + w then
    { c with stampX := c.mx, stampY := c.stampY + c.stampShelf, stampShelf := 0 }
  else c

/-- A stamp that does not fit above the strip goes below it. -/
def pastStrip (h : ℤ) : M8d3dContext :=
  if c.stampY < c.my ∧ c.my < c.stampY + h then
    { c with stampY := c.my + c.mh, stampX := c.mx, stampShelf := 0 }
  else c

/-- The stamp rows below the strip are full. -/
def full (h : ℤ) : Bool :=
  decide (c.my ≤ c.stampY) && decide (c.my + c.mh + M8D3D_STAMP_ROWS < c.stampY + h)

/-- All stamps go. -/
def dropStamps : M8d3dContext :=
  { c with
    stamp := fun k => { c.stamp k with used := 0 }
    stampX := c.mx
    stampY := 0
    stampShelf := 0 }

/-- The place at the cursor. -/
def take (w h : ℤ) : Option Pixel × M8d3dContext :=
  (some (c.stampX, c.stampY),
    { c with
      stampX := c.stampX + w
      stampShelf := if c.stampShelf < h then h else c.stampShelf })

end M8d3dContext

/-- `m8d3d_stamp_place`. -/
def m8d3dStampPlace (w h : ℤ) (c : M8d3dContext) : Option Pixel × M8d3dContext :=
  if c.tw < w then (none, c)
  else
    let c := (c.wrap w).pastStrip h
    if c.full h then
      let c := c.dropStamps
      if c.my < h then (none, c) else c.take w h
    else c.take w h

/-- The entry used longest ago. -/
def oldestUsed {n : ℕ} (used : Fin (n + 1) → UInt32) : Fin (n + 1) :=
  (List.finRange (n + 1)).foldl (fun o k => if used k < used o then k else o) 0

/-- The box that a place in the column is taken for. -/
def M8d3dStamp.box (s : M8d3dStamp) : Rect := ⟨s.x, s.y, s.x + s.w + 1, s.y + s.h + 1⟩

namespace M8d3dContext

variable (c : M8d3dContext)

/-- The mask strip. -/
def strip : Rect := ⟨c.mx, c.my, c.mx + c.tw, c.my + c.mh⟩

/-- The scratch. -/
def scratch : Rect := ⟨c.sx, c.sy, c.sx + c.tw, c.sy + c.sh⟩

end M8d3dContext

/-! ## The column -/

/-- A part of the column is drawn on. -/
def M8d3dCard.spoil (r : Rect) (s : M8d3dCard) : M8d3dCard :=
  { s with col := r.paint (fun _ _ => .other) s.col }

/-- A part of one plane is drawn on. -/
def M8d3dCard.spoilPlane (r : Rect) (k : Fin 8) (s : M8d3dCard) : M8d3dCard :=
  { s with col := r.paint (fun p => Function.update (s.col p) k .other) s.col }

/-- `m8d3d_q_clear`. -/
def M8d3dCard.qClear (r : Rect) (s : M8d3dCard) : M8d3dCard :=
  { s with col := r.paint (fun _ _ => .clear) s.col }

/-- One plane of a part of the column is cleared. -/
def M8d3dCard.clearPlane (r : Rect) (k : Fin 8) (s : M8d3dCard) : M8d3dCard :=
  { s with col := r.paint (fun p => Function.update (s.col p) k .clear) s.col }

/-- The bands of a stamp are drawn at `(x, y)` : what they leave stays. -/
def M8d3dCard.drawStamp (g : ReplayShapes) (key : M8d3dShaded) (x y : ℤ) (s : M8d3dCard) :
    M8d3dCard :=
  { s with col := fun p =>
    if g.bands key.v (p.1 - x, p.2 - y) then fun _ => .stamp key (p.1 - x, p.2 - y) else s.col p }

/-- The shape of a mask is drawn in plane `k` of the strip : what it leaves stays. -/
def M8d3dCard.drawMask (g : ReplayShapes) (v : Corners) (k : Fin 8) (s : M8d3dCard) : M8d3dCard :=
  { s with col := fun p =>
    if g.mask v (p.1 - s.c.mx, p.2 - s.c.my) then
      Function.update (s.col p) k (.mask v (p.1 - s.c.mx, p.2 - s.c.my))
    else s.col p }

/-- `m8d3d_stamp_copy` of stamp `k`. -/
def M8d3dCard.stampCopy (k : Fin 32) (s : M8d3dCard) : M8d3dCard :=
  let st := s.c.stamp k
  { s with hits := s.hits ++ [.stamp st.key st.w st.h fun p => s.col (st.x + p.1, st.y + p.2)] }

/-- `m8d3d_mask_draw` of mask `k`. -/
def M8d3dCard.maskDraw (k : Fin 8) (s : M8d3dCard) : M8d3dCard :=
  let m := s.c.mask k
  { s with hits := s.hits ++ [.mask m.v m.w m.h fun p => s.col (s.c.mx + p.1, s.c.my + p.2) k] }

/-! ## Triangles -/

/-- A replay between its triangles : whether the engine still answers, and what the frame may
still build. -/
structure M8d3dReplay where
  ok : Bool
  build : ℤ
  s : M8d3dCard

/-- The stamp of a key. -/
def M8d3dContext.findStamp (c : M8d3dContext) (key : M8d3dShaded) : Option (Fin 32) :=
  (List.finRange 32).find? fun k => decide ((c.stamp k).used ≠ 0 ∧ (c.stamp k).key = key)

def M8d3dContext.stampWasSeen (c : M8d3dContext) (key : M8d3dShaded) : Bool :=
  (List.finRange 32).any fun i => decide (c.stampSeen i = key)

/-- A stamp built in entry `o` at `(x, y)`. -/
def m8d3dStampBuild (g : ReplayShapes) (io : EngineIo) (v : Corners) (rgb : CornerRgb)
    (o : Fin 32) (x y : ℤ) (q : M8d3dReplay) : Bool × M8d3dReplay :=
  let c := q.s.c
  let c := { c with stamp := Function.update c.stamp o { c.stamp o with used := 0 } }
  let box : Rect := ⟨x, y, x + v.r - v.l + 2, y + v.b - v.t + 2⟩
  if !io.clear then (false, { q with ok := false, s := M8d3dCard.spoil box { q.s with c := c } })
  else
    let s := M8d3dCard.qClear box { q.s with c := c }
    if !c.bandable v.rel rgb then (false, { q with s := s })
    else if !io.bands then (false, { q with ok := false, s := (s.spoil c.scratch).spoil box })
    else
      let clock := c.clock + 1
      let key : M8d3dShaded := ⟨v.rel, rgb⟩
      let st : M8d3dStamp := ⟨key, x, y, v.r - v.l + 1, v.b - v.t + 1, clock⟩
      let s := (s.spoil c.scratch).drawStamp g key x y
      let s := { s with c := { c with stamp := Function.update c.stamp o st, clock := clock } }
      (true, { ok := io.copy, build := q.build - 1, s := s.stampCopy o })

/-- `m8d3d_tri_stamped` : whether the triangle is done. -/
def m8d3dTriStamped (g : ReplayShapes) (io : EngineIo) (v : Corners) (rgb : CornerRgb)
    (q : M8d3dReplay) : Bool × M8d3dReplay :=
  let c := q.s.c
  let key : M8d3dShaded := ⟨v.rel, rgb⟩
  if !c.stampOn then (false, q)
  else if v.b - v.t - 1 < 2 * M8D3D_BAND_ROWS then (false, q)
  else
    match c.findStamp key with
    | some k =>
      let st := { c.stamp k with used := c.clock + 1 }
      let s := { q.s with c :=
          { c with stamp := Function.update c.stamp k st, clock := c.clock + 1 } }
      (true, { q with ok := io.copy, s := s.stampCopy k })
    | none =>
      if !c.stampWasSeen key then
        let c := { c with
          stampSeen := Function.update c.stampSeen c.stampSeenNext key
          stampSeenNext := c.stampSeenNext + 1 }
        (false, { q with s := { q.s with c := c } })
      else if q.build ≤ 0 then (false, q)
      else
        let o := oldestUsed fun k => (c.stamp k).used
        match m8d3dStampPlace (v.r - v.l + 2) (v.b - v.t + 2) c with
        | (none, c) => (false, { q with s := { q.s with c := c } })
        | (some (x, y), c) => m8d3dStampBuild g io v rgb o x y { q with s := { q.s with c := c } }

/-- The mask of a shape. -/
def M8d3dContext.findMask (c : M8d3dContext) (n : Corners) : Option (Fin 8) :=
  (List.finRange 8).find? fun k => decide ((c.mask k).used ≠ 0 ∧ (c.mask k).v = n)

def M8d3dContext.wasSeen (c : M8d3dContext) (n : Corners) : Bool :=
  (List.finRange 16).any fun i => decide (c.seen i = n)

/-- What plane `k` held before is cleared, if its entry was in use. -/
def M8d3dCard.eraseMask (k : Fin 8) (s : M8d3dCard) : M8d3dCard :=
  let m := s.c.mask k
  if m.used ≠ 0 then s.clearPlane ⟨s.c.mx, s.c.my, s.c.mx + m.w, s.c.my + m.h⟩ k else s

/-- `m8d3d_mask_build` of entry `k`. -/
def m8d3dMaskBuild (g : ReplayShapes) (k : Fin 8) (n : Corners) (w h : ℤ) (s : M8d3dCard) :
    M8d3dCard :=
  let s := ((s.eraseMask k).spoil s.c.scratch).drawMask g n k
  { s with c := { s.c with
    mask := Function.update s.c.mask k { s.c.mask k with v := n, w := w, h := h } } }

/-- `m8d3d_tri_fit`, which draws on the page by way of the scratch. -/
def m8d3dTriFit (io : EngineIo) (q : M8d3dReplay) : M8d3dReplay :=
  { q with ok := io.fit, s := q.s.spoil q.s.c.scratch }

/-- `m8d3d_tri_cached`. -/
def m8d3dTriCached (g : ReplayShapes) (io : EngineIo) (v : Corners) (q : M8d3dReplay) :
    M8d3dReplay :=
  let c := q.s.c
  let n := v.rel
  if c.mh ≠ 0 ∧ v.b - v.t + 1 < c.mh ∧ v.r - v.l + 1 ≤ c.tw then
    match c.findMask n with
    | some k =>
      let m := { c.mask k with used := c.clock + 1 }
      let credit := if c.credit < M8D3D_CREDIT_MAX then c.credit + 1 else c.credit
      let c := { c with mask := Function.update c.mask k m, clock := c.clock + 1, credit := credit }
      { q with ok := io.draw, s := M8d3dCard.maskDraw k { q.s with c := c } }
    | none =>
      if !c.wasSeen n then
        let c := { c with
          seen := Function.update c.seen c.seenNext n
          seenNext := c.seenNext + 1 }
        m8d3dTriFit io { q with s := { q.s with c := c } }
      else if 0 < q.build ∧ M8D3D_BUILD_COST ≤ c.credit then
        let o := oldestUsed fun k => (c.mask k).used
        let c := { c with credit := c.credit - M8D3D_BUILD_COST }
        if !io.build then
          { q with
            ok := false
            build := q.build - 1
            s := M8d3dCard.spoil c.scratch (M8d3dCard.spoilPlane c.strip o { q.s with c := c }) }
        else
          let s := m8d3dMaskBuild g o n (v.r - v.l + 1) (v.b - v.t + 1) { q.s with c := c }
          let m := { s.c.mask o with used := s.c.clock + 1 }
          let s := { s with
            c := { s.c with mask := Function.update s.c.mask o m, clock := s.c.clock + 1 } }
          { ok := io.draw, build := q.build - 1, s := s.maskDraw o }
      else m8d3dTriFit io q
  else m8d3dTriFit io q

/-- A triangle that is not stamped, drawn in bands on the page : whether it is done. -/
def m8d3dPageBands (io : EngineIo) (v : Corners) (rgb : CornerRgb) (q : M8d3dReplay) :
    Bool × M8d3dReplay :=
  if q.s.c.bandable v rgb then
    (true, { q with ok := io.bands, s := q.s.spoil q.s.c.scratch })
  else (false, q)

/-- A shaded triangle, by stamp or in bands. -/
def m8d3dTriShaded (g : ReplayShapes) (io : EngineIo) (v : Corners) (rgb : CornerRgb)
    (q : M8d3dReplay) : Bool × M8d3dReplay :=
  let r := m8d3dTriStamped g io v rgb q
  if r.2.ok && !r.1 then m8d3dPageBands io v rgb r.2 else r

/-- One round of `m8d3d_replay`'s loop. -/
def m8d3dReplayTri (g : ReplayShapes) (io : EngineIo) (v : Corners) (rgb : CornerRgb)
    (q : M8d3dReplay) : M8d3dReplay :=
  if !q.ok then q
  else
    let r := if rgb.c0 ≠ rgb.c1 ∨ rgb.c1 ≠ rgb.c2 then m8d3dTriShaded g io v rgb q else (false, q)
    if r.2.ok && !r.1 then m8d3dTriCached g io v r.2 else r.2

/-! ## Frames -/

/-- A frame : whether the engine begins, and goes on through the first clears and through the
erasing, and its triangles. -/
structure ReplayFrame where
  starts : Bool
  clears : Bool
  erases : Bool
  tris : List (EngineIo × Corners × CornerRgb)

/-- `m8d3d_replay`, step by step. -/
inductive ReplayStep
  | start (starts clears erases : Bool)
  | tri (io : EngineIo) (v : Corners) (rgb : CornerRgb)
  | finish

def ReplayFrame.steps (f : ReplayFrame) : List ReplayStep :=
  .start f.starts f.clears f.erases :: f.tris.map (fun t => .tri t.1 t.2.1 t.2.2) ++ [.finish]

/-- A scratch that is not cleared yet is cleared, and the strip with it. -/
def M8d3dCard.freshen (clears : Bool) (s : M8d3dCard) : M8d3dCard :=
  let t := s.spoil s.c.scratch
  let t := if s.c.mh = 0 then t else if clears then t.qClear s.c.strip else t.spoil s.c.strip
  { t with c := { t.c with fresh := false } }

def replayStep (g : ReplayShapes) (q : M8d3dReplay) : ReplayStep → M8d3dReplay
  | .start starts clears erases =>
    if !starts then { q with ok := false }
    else if q.s.c.fresh then ⟨clears && erases, 1, q.s.freshen clears⟩
    else ⟨erases, 1, q.s⟩
  | .tri io v rgb => m8d3dReplayTri g io v rgb q
  | .finish => if q.ok then { q with s := q.s.spoil q.s.c.scratch } else q

def replayRun (g : ReplayShapes) (q : M8d3dReplay) (steps : List ReplayStep) : M8d3dReplay :=
  steps.foldl (replayStep g) q

/-- `m8d3d_context_create`, given a scratch of `tw` columns and `sh` rows at `(sx, sy)` : of a tall
one the strip takes the top rows, and the stamps, where there are rows above it, the next ones. -/
def m8d3dContextCreate (fb16 : Bool) (sx sy tw sh : ℤ) (old : M8d3dContext) : M8d3dContext :=
  let none : M8d3dShaded := ⟨⟨(0, 0), (0, 0), (0, 0)⟩, ⟨0, 0, 0⟩⟩
  let c := { old with
    stamp := fun _ => ⟨none, 0, 0, 0, 0, 0⟩
    stampSeen := fun _ => none
    stampSeenNext := 0
    stampOn := false
    mask := fun _ => ⟨none.v, 0, 0, 0⟩
    seen := fun _ => none.v
    seenNext := 0
    clock := 0
    credit := M8D3D_CREDIT_MAX
    mh := 0
    sx := sx
    sy := sy
    tw := tw
    sh := sh
    fresh := true }
  if fb16 = true ∧ 2 * M8D3D_MASK_ROWS < sh ∧ 128 < tw then
    let c := { c with
      mx := sx
      my := sy
      mh := M8D3D_MASK_ROWS
      sy := sy + M8D3D_MASK_ROWS
      sh := sh - M8D3D_MASK_ROWS }
    if c.mx = 640 ∧ c.my = 512 ∧ 2 * M8D3D_STAMP_ROWS < c.sh then
      { c with
        sy := c.sy + M8D3D_STAMP_ROWS
        sh := c.sh - M8D3D_STAMP_ROWS
        stampOn := true
        stampX := c.mx
        stampY := 0
        stampShelf := 0 }
    else c
  else c

end Inboard
