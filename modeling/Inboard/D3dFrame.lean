import Inboard.D3dQueue

/-!
# Direct3D replay : a frame's writes

Masks, bands and stamps, and the frames and calls that draw by them, as the entries that they put
in the queue. Whether a triangle is copied, banded or drawn is decided as in D3dStamps ; here it
is the writes that count, and every state of the masks, the stamps and the engine is allowed.
-/

set_option linter.unusedSectionVars false

namespace Inboard

open Routine

namespace D3d

variable (room : ℕ → Bool)

/-! ## Masks -/

/-- `m8d3d_mono_off`, of the stamps' compare. -/
def stampOff : D3dOp := fun s =>
  if s.stampMode = true then
    needQs room [(M8_SRC_CMP_FN, 0), (M8_DP_CONFIG, M8_DP_8514)] { s with stampMode := false }
  else ok s

/-- `m8d3d_mono_off`, of the masks' copy. -/
def maskOff : D3dOp := fun s =>
  if s.monoOn = true then
    needQs room [(M8_RD_MASK, 0x00FF), (M8_DP_CONFIG, M8_DP_8514)] { s with monoOn := false }
  else ok s

/-- `m8d3d_mono_off`. -/
def m8d3dMonoOff : D3dOp := (stampOff room).seq (maskOff room)

/-- `m8d3d_mask_box`. -/
def m8d3dMaskBox (b : M8d3dBox) (x y : ℤ) (s : D3d) : D3d :=
  let s := if s.monoX ≠ b.x ∨ s.monoW ≠ b.w then
    { s.m8d3dQs [(M8_SRC_X_START, s.c.mx + b.x), (M8_SRC_X_END, s.c.mx + b.x + b.w)] with
      monoX := b.x
      monoW := b.w }
    else s
  s.m8d3dQs [(M8_DESTX_DIASTP, s.c.mx + b.x), (M8_DESTY_AXSTP, s.c.my + b.y), (M8_CUR_X, x + b.x),
    (M8_DEST_X_START, x + b.x), (M8_DEST_X_END, x + b.x + b.w), (M8_CUR_Y, y + b.y),
    (M8_DEST_Y_END, y + b.y + b.h)]

/-- The registers of the masks' copy. -/
def monoSetup (s : D3d) : D3d :=
  if s.monoOn = true then s
  else
    { s.m8d3dQs [(M8_WRT_MASK, 0x00FF), (M8_DP_CONFIG, M8_DP_MONO_VRAM),
        (M8_ALU_FG_FN, M8_MIX_REPLACE), (M8_ALU_BG_FN, M8_MIX_LEAVE), (M8_SRC_Y_DIR, 1)] with
      monoOn := true
      monoPlane := -1
      monoX := -1
      monoW := -1 }

/-- The core of a mask, as a plain fill at `(x, y)`. -/
def coreFill (b : M8d3dBox) (x y : ℤ) (s : D3d) : D3d :=
  { s.m8d3dQs [(M8_RD_MASK, 0x00FF), (M8_DP_CONFIG, M8_DP_8514), (M8_CUR_X, x + b.x),
      (M8_CUR_Y, y + b.y), (M8_MAJ_AXIS_PCNT, b.w - 1), (M8_MIN_AXIS, b.h - 1),
      (M8_CMD, M8_CMD_FILL), (M8_DP_CONFIG, M8_DP_MONO_VRAM)] with monoPlane := -1 }

/-- The plane of mask `k`. -/
def monoTo (k : Fin 8) (s : D3d) : D3d :=
  if s.monoPlane ≠ (k : ℕ) then
    { s.m8d3dQ M8_RD_MASK (1 <<< (k : ℕ) : ℕ) with monoPlane := (k : ℕ) }
  else s

/-- The boxes of a mask's copy. -/
def maskBoxes (m : M8d3dMask) (cut : MaskCut) : List M8d3dBox :=
  if cut.core.w = 0 then [⟨0, 0, m.w, m.h⟩] else cut.part

/-- What `m8d3d_mask_draw` puts in the queue once it has asked for room. -/
def maskWrites (k : Fin 8) (x y colour : ℤ) (s : D3d) : D3d :=
  let m := s.c.mask k
  let cut := s.c.cut k
  let s := s.monoSetup.m8d3dQ M8_FRGD_COLOR colour
  let s := if cut.core.w ≠ 0 then s.coreFill cut.core x y else s
  (maskBoxes m cut).foldl (fun s b => s.m8d3dMaskBox b x y) (s.monoTo k)

/-- The room that a mask or a stamp asks for. -/
def askTwo : D3dOp := fun s =>
  if M8D3D_Q_MAX < s.q.length + M8D3D_Q_ONE * 2 then m8d3dQFlush room s else ok s

/-- `m8d3d_mask_draw`. -/
def m8d3dMaskDraw (k : Fin 8) (dx dy l t colour : ℤ) : D3dOp :=
  Routine.seq (fun s => if s.stampMode = true then m8d3dMonoOff room s else ok s)
    ((askTwo room).seq (note (maskWrites k (dx + l) (dy + t) colour)))

/-- What a plane of the strip held before goes. -/
def maskErase (k : Fin 8) : D3dOp := fun s =>
  if (s.c.mask k).used ≠ 0 then
    ((needQs room [(M8_WRT_MASK, (1 <<< (k : ℕ) : ℕ)), (M8_RD_MASK, 0x00FF),
      (M8_DP_CONFIG, M8_DP_8514), (M8_ALU_FG_FN, M8_MIX_REPLACE), (M8_FRGD_COLOR, 0)]).seq
      (m8d3dQRect room
        ⟨s.c.mx, s.c.my, s.c.mx + (s.c.mask k).w, s.c.my + (s.c.mask k).h⟩)) s
  else ok s

/-- The inside of a mask's shape, by way of the scratch. -/
def maskFill (k : Fin 8) (n : Corners) (w h : ℤ) : D3dOp := fun s =>
  if 3 ≤ h then
    ((m8d3dEdges room s.c.sx s.c.sy n s.plane).seq
      ((needQs room
        (polyFill s.plane 0x00FF (1 <<< (k : ℕ) : ℕ) s.c.sx s.c.sy s.c.mx s.c.my w h)).seq
        ((note (drew s.c.sx s.c.sy (s.c.sx + w) (s.c.sy + h))).seq
          (needQs room [(M8_RD_MASK, 0x00FF)])))) s
  else ok s

/-- Mask `k` holds the shape `n`, whole. -/
def maskIs (k : Fin 8) (n : Corners) (w h : ℤ) (s : D3d) : D3d :=
  { s with c := { s.c with
    mask := Function.update s.c.mask k { s.c.mask k with v := n, w := w, h := h }
    cut := Function.update s.c.cut k .whole
    hits := Function.update s.c.hits k 0 } }

/-- `m8d3d_mask_build`. -/
def m8d3dMaskBuild (k : Fin 8) (n : Corners) (w h : ℤ) : D3dOp :=
  (maskErase room k).seq ((maskFill room k n w h).seq
    (Routine.seq
      (fun s => m8d3dOutline room s.c.mx s.c.my n M8_MIX_REPLACE M8_LINEDRAW_LAST_OFF 0x00FF
        (1 <<< (k : ℕ) : ℕ) s)
      ((needQs room [(M8_WRT_MASK, 0x00FF)]).seq
        ((note (maskIs k n w h)).seq (clearEight room)))))

/-- Mask `k` is used : credit for a build, and a core once its shape keeps coming back. -/
def maskHit (k : Fin 8) (n : Corners) (s : D3d) : D3d :=
  let c := s.c
  let m := { c.mask k with used := c.clock + 1 }
  { s with c := { c with
    mask := Function.update c.mask k m
    clock := c.clock + 1
    credit := if c.credit < M8D3D_CREDIT_MAX then c.credit + 1 else c.credit
    hits := Function.update c.hits k (c.hits k + 1)
    cut := if c.hits k + 1 = M8D3D_CORE_AFTER then
      Function.update c.cut k (m8d3dCoreChoose n m.w m.h) else c.cut } }

/-- A shape is remembered. -/
def maskSeen (n : Corners) (s : D3d) : D3d :=
  { s with c := { s.c with
    seen := Function.update s.c.seen s.c.seenNext n
    seenNext := s.c.seenNext + 1 } }

/-- A mask is paid for. -/
def maskPay (s : D3d) : D3d :=
  { s with c := { s.c with credit := s.c.credit - M8D3D_BUILD_COST }, build := s.build - 1 }

/-- Mask `k` is in use. -/
def maskUsed (k : Fin 8) (s : D3d) : D3d :=
  { s with c := { s.c with
    mask := Function.update s.c.mask k { s.c.mask k with used := s.c.clock + 1 }
    clock := s.c.clock + 1 } }

/-- A triangle drawn on the plain path. -/
def triPlain (fuel : ℕ) (dx dy : ℤ) (v : Corners) (colour : ℤ) : D3dOp :=
  (m8d3dMonoOff room).seq (m8d3dTriFit room dx dy colour fuel v)

/-- `m8d3d_tri_cached`. -/
def m8d3dTriCached (fuel : ℕ) (dx dy : ℤ) (v : Corners) (colour : ℤ) : D3dOp := fun s =>
  let c := s.c
  let n := v.rel
  if c.mh ≠ 0 ∧ v.b - v.t + 1 < c.mh ∧ v.r - v.l + 1 ≤ c.tw then
    match c.findMask n with
    | some k => m8d3dMaskDraw room k dx dy v.l v.t colour (s.maskHit k n)
    | none =>
      if !c.wasSeen n then triPlain room fuel dx dy v colour (s.maskSeen n)
      else if 0 < s.build ∧ M8D3D_BUILD_COST ≤ c.credit then
        let o := oldestUsed fun k => (c.mask k).used
        ((m8d3dMonoOff room).seq
          ((m8d3dMaskBuild room o n (v.r - v.l + 1) (v.b - v.t + 1)).seq
            ((note (maskUsed o)).seq (m8d3dMaskDraw room o dx dy v.l v.t colour)))) s.maskPay
      else triPlain room fuel dx dy v colour s
  else triPlain room fuel dx dy v colour s

/-! ## Bands -/

end D3d

namespace Corners

/-- The first of the uppermost corners. -/
def topCorner (v : Corners) : Fin 3 :=
  [1, 2].foldl (fun t k => if (v.corner k).2 < (v.corner t).2 then k else t) 0

/-- The last of the lowest corners. -/
def botCorner (v : Corners) : Fin 3 :=
  [1, 2].foldl (fun b k => if (v.corner b).2 ≤ (v.corner k).2 then k else b) 0

/-- On which side of the long edge the third corner is. -/
def side (v : Corners) : ℤ :=
  let top := v.corner v.topCorner
  let bot := v.corner v.botCorner
  let mid := v.corner (-(v.topCorner + v.botCorner))
  (bot.1 - top.1) * (mid.2 - top.2) - (bot.2 - top.2) * (mid.1 - top.1)

end Corners

namespace D3d

variable (room : ℕ → Bool)

/-- An edge of `m8d3d_edges_grad` : those that bound the fill on the right go a pixel further. -/
def gradLine (ox oy : ℤ) (v : Corners) (k : Fin 3) : D3dOp :=
  let a := if (v.corner (k + 1)).2 < (v.corner k).2 then k + 1 else k
  let b := if (v.corner (k + 1)).2 < (v.corner k).2 then k else k + 1
  let long := a = v.topCorner ∧ b = v.botCorner
  let shift : ℤ := if (if long then 0 ≤ v.side else v.side < 0) then 1 else 0
  if (v.corner k).2 = (v.corner (k + 1)).2 then ok
  else
    needQs room [(M8_LINEDRAW_INDEX, 0), (M8_LINEDRAW, ox + (v.corner a).1 + shift),
      (M8_LINEDRAW, oy + (v.corner a).2), (M8_LINEDRAW, ox + (v.corner b).1 + shift),
      (M8_LINEDRAW, oy + (v.corner b).2)]

/-- `m8d3d_edges_grad`. -/
def m8d3dEdgesGrad (ox oy : ℤ) (v : Corners) (plane : ℤ) : D3dOp :=
  (needQs room (edgesHead plane)).seq (all ((List.finRange 3).map (gradLine room ox oy v)))

/-- `m8d3d_end_row`. -/
def m8d3dEndRow (v : Corners) (rgb : CornerRgb) (dx dy y : ℤ) : D3dOp :=
  let s := [v.v0, v.v1, v.v2].foldl
    (fun s p => if p.2 = y then (min s.1 p.1, max s.2 p.1) else s) noSpan
  needQs room [(M8_FRGD_COLOR, m8d3dPlaneIndex v rgb (Int.tdiv (s.1 + s.2) 2) y),
    (M8_CUR_Y, dy + y), (M8_CUR_X, dx + s.1), (M8_SCAN_TO_X, dx + s.2 + 1)]

/-- The colour of band `i` of `n`. -/
def bandColour (v : Corners) (rgb : CornerRgb) (n i : ℤ) : ℤ :=
  let rows := v.b - v.t - 1
  m8d3dPlaneIndex v rgb (Int.tdiv (v.l + v.r) 2)
    (v.t + 1 + Int.tdiv (rows * i + Int.tdiv rows 2) n)

/-- The band after those from `j` on that have the colour `colour`. -/
def bandEnd (v : Corners) (rgb : CornerRgb) (n colour : ℤ) : ℕ → ℤ → ℤ
  | 0, j => j
  | fuel + 1, j =>
    if j < n ∧ bandColour v rgb n j = colour then bandEnd v rgb n colour fuel (j + 1) else j

/-- The bands of `m8d3d_tri_bands` from `i` on, those of one colour as one. -/
def bandRows (sx sy dx dy : ℤ) (v : Corners) (rgb : CornerRgb) (n : ℤ) : ℕ → ℤ → D3dOp
  | 0, _ => ok
  | fuel + 1, i =>
    if i < n then
      let rows := v.b - v.t - 1
      let a := v.t + 1 + Int.tdiv (rows * i) n
      let colour := bandColour v rgb n i
      let j := bandEnd v rgb n colour 8 (i + 1)
      let e := v.t + 1 + Int.tdiv (rows * j) n
      let r := m8d3dRowsReach v a (e - 1)
      let lo := max r.1 v.l
      let hi := min r.2 v.r
      (needQs room [(M8_FRGD_COLOR, colour), (M8_DESTX_DIASTP, sx + lo), (M8_DESTY_AXSTP, sy + a),
        (M8_SRC_X_START, sx + lo), (M8_SRC_X_END, sx + hi + 1), (M8_CUR_X, dx + lo),
        (M8_DEST_X_START, dx + lo), (M8_DEST_X_END, dx + hi + 1), (M8_CUR_Y, dy + a),
        (M8_DEST_Y_END, dy + e)]).seq (bandRows sx sy dx dy v rgb n fuel j)
    else ok

/-- `m8d3d_tri_bands`, of a triangle that is banded. -/
def triBanded (dx dy : ℤ) (v : Corners) (rgb : CornerRgb) : D3dOp := fun s =>
  let sx := s.c.sx - v.l
  let sy := s.c.sy - v.t
  all [m8d3dMonoOff room, m8d3dEdgesGrad room sx sy v s.plane,
    needQs room [(M8_WRT_MASK, 0x00FF), (M8_RD_MASK, s.plane), (M8_DP_CONFIG, M8_DP_POLY_FILL),
      (M8_ALU_FG_FN, M8_MIX_REPLACE), (M8_SRC_Y_DIR, 1)],
    bandRows room sx sy dx dy v rgb (bandCount v rgb) 8 0,
    needQs room [(M8_RD_MASK, 0x00FF), (M8_DP_CONFIG, M8_DP_8514)],
    m8d3dEndRow room v rgb dx dy v.t, m8d3dEndRow room v rgb dx dy v.b,
    note (drew s.c.sx s.c.sy (sx + v.r + 2) (sy + v.b + 1)), clearEight room] s

/-- `m8d3d_tri_bands`. -/
def m8d3dTriBands (dx dy : ℤ) (v : Corners) (rgb : CornerRgb) : D3dOp := fun s =>
  if s.c.bandable v rgb = true then triBanded room dx dy v rgb { s with done := true }
  else ok { s with done := false }

/-! ## Stamps -/

/-- The registers of the stamps' copy. -/
def stampSetup : D3dOp := fun s =>
  if s.stampMode = true then ok s
  else
    ((m8d3dMonoOff room).seq (note fun s =>
      { s.m8d3dQs [(M8_WRT_MASK, 0x00FF), (M8_RD_MASK, 0x00FF), (M8_DP_CONFIG, M8D3D_DP_VRAM_BLIT),
          (M8_ALU_FG_FN, M8_MIX_REPLACE), (M8_ALU_BG_FN, M8_MIX_LEAVE), (M8_SRC_CMP_COLOR, 0),
          (M8_SRC_CMP_FN, M8_CMP_UNEQUAL), (M8_SRC_Y_DIR, 1)] with stampMode := true })) s

/-- A box of a stamp at `(sx, sy)`, copied to `(x, y)`. -/
def stampBox (sx sy x y : ℤ) (b : M8d3dBox) : List (ℕ × ℤ) :=
  [(M8_SRC_X_START, sx + b.x), (M8_SRC_X_END, sx + b.x + b.w), (M8_DESTX_DIASTP, sx + b.x),
    (M8_DESTY_AXSTP, sy + b.y), (M8_CUR_X, x + b.x), (M8_DEST_X_START, x + b.x),
    (M8_DEST_X_END, x + b.x + b.w), (M8_CUR_Y, y + b.y), (M8_DEST_Y_END, y + b.y + b.h)]

/-- The boxes that a stamp is copied in. -/
def stampBoxes (st : M8d3dStamp) (cut : StampCut) : List M8d3dBox :=
  if cut.part = [] then [⟨0, 0, st.w, st.h⟩] else cut.part

/-- `m8d3d_stamp_copy` of stamp `k`. -/
def m8d3dStampCopy (k : Fin 32) (x y : ℤ) : D3dOp :=
  (stampSetup room).seq ((askTwo room).seq (note fun s =>
    let st := s.c.stamp k
    s.m8d3dQs ((stampBoxes st (s.c.stampCut k)).flatMap (stampBox st.x st.y x y))))

/-- Stamp `k` is used. -/
def stampHit (k : Fin 32) (s : D3d) : D3d :=
  { s with
    c := { s.c with
      stamp := Function.update s.c.stamp k { s.c.stamp k with used := s.c.clock + 1 }
      clock := s.c.clock + 1 }
    done := true }

/-- A shaded shape is remembered. -/
def stampSeen (key : M8d3dShaded) (s : D3d) : D3d :=
  { s with c := { s.c with
    stampSeen := Function.update s.c.stampSeen s.c.stampSeenNext key
    stampSeenNext := s.c.stampSeenNext + 1 } }

/-- Stamp `k` is not in use. -/
def stampFree (k : Fin 32) (s : D3d) : D3d :=
  { s with c := { s.c with
    stamp := Function.update s.c.stamp k { s.c.stamp k with used := 0 } } }

/-- Stamp `k` is what was built at `(x, y)`. -/
def stampIs (k : Fin 32) (v : Corners) (rgb : CornerRgb) (x y : ℤ) (s : D3d) : D3d :=
  let w := v.r - v.l + 1
  let h := v.b - v.t + 1
  { s with
    c := { s.c with
      stamp := Function.update s.c.stamp k ⟨⟨v.rel, rgb⟩, x, y, w, h, s.c.clock + 1⟩
      stampCut := Function.update s.c.stampCut k (m8d3dStampCut v.rel w h)
      clock := s.c.clock + 1 }
    build := s.build - 1 }

/-- A stamp is built in entry `o` at `(x, y)`, and copied, if its bands were drawn. -/
def stampBuild (o : Fin 32) (dx dy : ℤ) (v : Corners) (rgb : CornerRgb) (x y : ℤ) : D3dOp :=
  all [note (stampFree o), m8d3dMonoOff room,
    m8d3dQClear room ⟨x, y, x + v.r - v.l + 2, y + v.b - v.t + 2⟩,
    m8d3dTriBands room x y v.rel rgb,
    fun s => if s.done = true then
      ((note (stampIs o v rgb x y)).seq (m8d3dStampCopy room o (dx + v.l) (dy + v.t))) s else ok s]

/-- `m8d3d_tri_stamped`. -/
def m8d3dTriStamped (dx dy : ℤ) (v : Corners) (rgb : CornerRgb) : D3dOp := fun s =>
  let c := s.c
  let key : M8d3dShaded := ⟨v.rel, rgb⟩
  let s := { s with done := false }
  if !c.stampOn then ok s
  else if v.b - v.t - 1 < 2 * M8D3D_BAND_ROWS then ok s
  else
    match c.findStamp key with
    | some k => m8d3dStampCopy room k (dx + v.l) (dy + v.t) (s.stampHit k)
    | none =>
      if !c.stampWasSeen key then ok (s.stampSeen key)
      else if s.build ≤ 0 then ok s
      else
        let o := oldestUsed fun k => (c.stamp k).used
        match m8d3dStampPlace (v.r - v.l + 2) (v.b - v.t + 2) c.toM8d3dContext with
        | (none, c') => ok { s with c := { c with toM8d3dContext := c' } }
        | (some (x, y), c') =>
          stampBuild room o dx dy v rgb x y { s with c := { c with toM8d3dContext := c' } }

/-! ## Frames -/

/-- A box that keeps the engine busy is sent at once. -/
def sendLarge (area : ℤ) : D3dOp := if M8D3D_Q_SEND_PX ≤ area then m8d3dQFlush room else ok

/-- The last frame's boxes, `dy` rows down. -/
def eraseRects (dy : ℤ) (erase : List Rect) : D3dOp :=
  all (erase.map fun r =>
    (m8d3dQRect room ⟨r.left, r.top + dy, r.right, r.bottom + dy⟩).seq (sendLarge room r.area))

/-- The erasing of a frame. Its colour is stored whether there was room or not. -/
def eraseFrame (black dy : ℤ) (erase : List Rect) : D3dOp := fun s =>
  if erase = [] then ok s
  else
    let r := m8d3dQNeed room 1 s
    let s := r.2.m8d3dQ M8_FRGD_COLOR black
    if r.1 = true then eraseRects room dy erase s else (false, s)

/-- How far two corners of a triangle are from its first, at most. -/
def reachArea (v : Corners) : ℤ :=
  max (v.v0.1 - v.v1.1).natAbs (v.v0.1 - v.v2.1).natAbs *
    max (v.v0.2 - v.v1.2).natAbs (v.v0.2 - v.v2.2).natAbs

/-- A triangle whose corners differ in colour, by stamp or in bands, whether this does it. -/
def triShaded (dy : ℤ) (v : Corners) (rgb : CornerRgb) : D3dOp := fun s =>
  if rgb.c0 ≠ rgb.c1 ∨ rgb.c1 ≠ rgb.c2 then
    ((m8d3dTriStamped room 0 dy v rgb).seq fun s =>
      if s.done = true then ok s else m8d3dTriBands room 0 dy v rgb s) s
  else ok { s with done := false }

/-- One round of `m8d3d_replay`'s loop. -/
def replayTri (fuel : ℕ) (dy : ℤ) (t : Corners × CornerRgb × ℤ) : D3dOp :=
  all [triShaded room dy t.1 t.2.1,
    fun s => if s.done = true then ok s else m8d3dTriCached room fuel 0 dy t.1 t.2.2 s,
    sendLarge room (reachArea t.1)]

/-- A new context's scratch and strip are cleared. -/
def freshen : D3dOp := fun s =>
  if s.c.fresh = true then
    let r := ((m8d3dScratchClear room).seq fun s =>
      if s.c.mh ≠ 0 then
        m8d3dQClear room ⟨s.c.mx, s.c.my, s.c.mx + s.c.tw, s.c.my + s.c.mh⟩ s else ok s) s
    (r.1, { r.2 with c := { r.2.c with fresh := false } })
  else ok s

/-- The compare does not outlive the frame, whatever failed. -/
def compareOff (s : D3d) : D3d :=
  if s.stampMode = true then { s.m8d3dQ M8_SRC_CMP_FN 0 with stampMode := false } else s

/-- `m8d3d_replay` once the engine has begun. -/
def m8d3dReplay (fuel : ℕ) (erase : List Rect) (black dy : ℤ)
    (tris : List (Corners × CornerRgb × ℤ)) : D3dOp := fun s =>
  let s := { s with monoOn := false, stampMode := false, q := [], build := 1 }
  let r := all [freshen room, eraseFrame room black dy erase,
    all (tris.map (replayTri room fuel dy)), m8d3dMonoOff room, m8d3dScratchClear room] s
  let f := m8d3dQFlush room r.2.compareOff
  (r.1 && f.1, f.2)

/-- `M8D3D_CULL_CW` and `M8D3D_CULL_CCW`, over `m8d3d_render_primitive`'s sense of a triangle. -/
def culled (cull : ℕ) (v : Corners) : Bool :=
  v.area == 0 || (cull == 3 && decide (v.area < 0)) || (cull == 2 && decide (0 < v.area))

/-- `m8d3d_render_primitive` draws the triangle. -/
def drawn8 (cull : ℕ) (w h : ℤ) (v : Corners) : Bool :=
  !culled cull v && decide (∀ k, 0 ≤ (v.corner k).1 ∧ (v.corner k).1 < w ∧ 0 ≤ (v.corner k).2 ∧
    (v.corner k).2 < h)

/-- `m8d3d_render_primitive` at 8 bpp once the engine has begun, on a target of `w` x `h` at
`(x, y)`. At 16 bpp it writes nothing : the triangles are described. -/
def m8d3dRenderPrimitive (fuel cull : ℕ) (x y w h : ℤ) (tris : List (Corners × ℤ)) : D3dOp :=
  fun s =>
  let s := { s with q := [] }
  let r := all [
    fun s => if s.c.fresh = true then
      let r := m8d3dScratchClear room s
      (r.1, { r.2 with c := { r.2.c with fresh := false } }) else ok s,
    all (tris.map fun t => if drawn8 cull w h t.1 = true then
      m8d3dTriFit room x y t.2 fuel t.1 else ok),
    m8d3dScratchClear room] s
  let f := m8d3dQFlush room r.2
  (r.1 && f.1, f.2)

end D3d

end Inboard
