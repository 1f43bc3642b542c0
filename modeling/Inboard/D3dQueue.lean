import Inboard.D3dRows
import Inboard.M8Draw
import Inboard.Routine

/-!
# Direct3D replay : the write queue

Of a frame m8d3d.c decides the engine's writes first and sends them in chunks (`m8d3dQFlush`), so
that the FIFO is asked for room and not waited on between two of them. `M8D3D_Q` does not look where
it stores : `overrun` says that an entry was stored past the queue's end. Which of the calls of
`m8d3d_room` find room is `room`, any of them ; a routine that returns 0 leaves the rest undone
(`Routine.seq`). Nothing bounds how deep `m8d3d_tri_fit` goes into itself, so it is run with fuel,
and `deep` says that the fuel was used up.
-/

set_option linter.unusedSectionVars false

namespace Inboard

/-! ## Data -/

def M8D3D_Q_MAX : ℕ := 1024
def M8D3D_Q_CHUNK : ℕ := 8
def M8D3D_Q_ONE : ℕ := 32
def M8D3D_Q_SEND_PX : ℤ := 1500
def M8D3D_SPAN_ROWS : ℤ := 13
def M8D3D_CORE_AFTER : ℕ := 4

def M8_MIN_AXIS : ℕ := 0xBEE8
def M8_DP_MONO_VRAM : ℤ := 0x2271
def M8D3D_DP_VRAM_BLIT : ℤ := 0x6211
def M8_MIX_FRGD_REPLACE : ℤ := 0x0027
def M8_CMP_UNEQUAL : ℤ := 0x0028

/-- `M8D3D_CONTEXT`, with the triangles in the scratch since it was cleared and their box, and the
parts that masks and stamps are copied in. -/
structure D3dContext extends M8d3dContext where
  cut : Fin 8 → MaskCut
  hits : Fin 8 → ℕ
  stampCut : Fin 32 → StampCut
  drawn : ℕ
  dl : ℤ
  dt : ℤ
  dr : ℤ
  db : ℤ

/-- The context, the queue, what has been sent of it and how often room was asked for, and what the
engine holds the registers of. `build` is what the frame may still build and `done` is whether a
shaded triangle is done. Kept of the run : the triangles handed to `m8d3d_tri`, and the most that
were in the scratch at once. -/
structure D3d where
  c : D3dContext
  q : List (ℕ × ℤ)
  overrun : Bool
  sent : List (ℕ × ℤ)
  rooms : ℕ
  stampMode : Bool
  monoOn : Bool
  monoPlane : ℤ
  monoX : ℤ
  monoW : ℤ
  build : ℤ
  done : Bool
  tris : List Corners
  most : ℕ
  deep : Bool

/-- A routine of m8d3d.c. -/
abbrev D3dOp := Routine D3d

open Routine

/-! ## The queue -/

namespace D3d

/-- `M8D3D_Q`. -/
def m8d3dQ (p : ℕ) (v : ℤ) (s : D3d) : D3d :=
  { s with q := s.q ++ [(p, v)], overrun := s.overrun || decide (M8D3D_Q_MAX ≤ s.q.length) }

/-- `M8D3D_Q` for each of a list. -/
def m8d3dQs (ws : List (ℕ × ℤ)) (s : D3d) : D3d := ws.foldl (fun s w => s.m8d3dQ w.1 w.2) s

/-- `M8D3D_Q` for each of a list, in a routine. -/
def qs (ws : List (ℕ × ℤ)) : D3dOp := note (m8d3dQs ws)

variable (room : ℕ → Bool)

/-- The chunks of `m8d3d_q_flush`. -/
def qSend : ℕ → List (ℕ × ℤ) → D3dOp
  | 0, _, s => (true, s)
  | _ + 1, [], s => (true, s)
  | fuel + 1, q, s =>
    if room s.rooms = true then
      qSend fuel (q.drop M8D3D_Q_CHUNK)
        { s with rooms := s.rooms + 1, sent := s.sent ++ q.take M8D3D_Q_CHUNK }
    else (false, { s with rooms := s.rooms + 1 })

/-- `m8d3d_q_flush` : what is held is gone, sent or not. -/
def m8d3dQFlush : D3dOp := fun s =>
  let r := qSend room s.q.length s.q s
  (r.1, { r.2 with q := [] })

/-- `m8d3d_q_need`. -/
def m8d3dQNeed (n : ℕ) : D3dOp := fun s =>
  if M8D3D_Q_MAX < s.q.length + n + M8D3D_Q_ONE * 2 then m8d3dQFlush room s else ok s

/-- Entries that are asked room for. -/
def needQs (ws : List (ℕ × ℤ)) : D3dOp := (m8d3dQNeed room ws.length).seq (qs ws)

/-- `m8d3d_q_rect`. -/
def m8d3dQRect (r : Rect) : D3dOp :=
  if r.right ≤ r.left ∨ r.bottom ≤ r.top then ok
  else
    needQs room [(M8_CUR_X, r.left), (M8_CUR_Y, r.top), (M8_MAJ_AXIS_PCNT, r.right - r.left - 1),
      (M8_MIN_AXIS, r.bottom - r.top - 1), (M8_CMD, M8_CMD_FILL)]

/-- `m8d3d_q_clear`. -/
def m8d3dQClear (r : Rect) : D3dOp :=
  (needQs room [(M8_WRT_MASK, 0x00FF), (M8_RD_MASK, 0x00FF), (M8_DP_CONFIG, M8_DP_8514),
    (M8_FRGD_MIX, M8_MIX_FRGD_REPLACE), (M8_FRGD_COLOR, 0)]).seq (m8d3dQRect room r)

/-! ## Outlines and rows -/

/-- `m8d3d_outline`. -/
def m8d3dOutline (ox oy : ℤ) (v : Corners) (alu opt colour mask : ℤ) : D3dOp :=
  needQs room ([(M8_WRT_MASK, mask), (M8_FRGD_COLOR, colour), (M8_DP_CONFIG, M8_DP_8514),
    (M8_ALU_FG_FN, alu), (M8_LINEDRAW_OPT, opt), (M8_LINEDRAW_INDEX, 0)] ++
    [v.v0, v.v1, v.v2, v.v0].flatMap fun p => [(M8_LINEDRAW, ox + p.1), (M8_LINEDRAW, oy + p.2)])

/-- The set-up of the edges in a plane of the scratch. -/
def edgesHead (plane : ℤ) : List (ℕ × ℤ) :=
  [(M8_WRT_MASK, plane), (M8_FRGD_COLOR, 0x00FF), (M8_DP_CONFIG, M8_DP_8514),
    (M8_ALU_FG_FN, M8_MIX_XOR), (M8_LINEDRAW_OPT, M8_LINEDRAW_POLY + M8_LINEDRAW_LAST_OFF)]

/-- An edge, top down, unless it has no rows. -/
def edgeLine (ox oy : ℤ) (e : Pixel × Pixel) : D3dOp :=
  let a := (topDown e).1
  let b := (topDown e).2
  if a.2 = b.2 then ok
  else
    needQs room [(M8_LINEDRAW_INDEX, 0), (M8_LINEDRAW, ox + a.1), (M8_LINEDRAW, oy + a.2),
      (M8_LINEDRAW, ox + b.1), (M8_LINEDRAW, oy + b.2)]

/-- `m8d3d_edges`. -/
def m8d3dEdges (ox oy : ℤ) (v : Corners) (plane : ℤ) : D3dOp :=
  ((m8d3dQNeed room 6).seq (qs (edgesHead plane))).seq
    (all (v.edges.map (edgeLine room ox oy)))

/-- What an edge adds to row `y` of `m8d3d_spans`. -/
def spanEdge (y : ℤ) (s : ℤ × ℤ) (e : Pixel × Pixel) : ℤ × ℤ :=
  let p := (topDown e).1
  let q := (topDown e).2
  if y < p.2 ∨ q.2 < y then s
  else
    let step := if q.2 = p.2 then 0 else Int.tdiv ((q.1 - p.1) * 65536) (q.2 - p.2)
    let x := (p.1 * 65536 + 0x8000 + step * (y - p.2)) / 65536
    let s := (min s.1 x, max s.2 x)
    if q.2 = p.2 then (min s.1 q.1, max s.2 q.1) else s

/-- The rows of `m8d3d_spans`, `n` of them from row `y` of the triangle on. -/
def spanRows (dx dy : ℤ) (v : Corners) : ℕ → ℕ → D3dOp
  | 0, _ => ok
  | n + 1, y =>
    let s := v.edges.foldl (spanEdge (v.t + y)) noSpan
    (if y % 5 = 0 then m8d3dQNeed room 15 else ok).seq
      ((qs [(M8_CUR_Y, dy + v.t + y), (M8_CUR_X, dx + s.1), (M8_SCAN_TO_X, dx + s.2 + 1)]).seq
        (spanRows dx dy v n (y + 1)))

/-- `m8d3d_spans`. -/
def m8d3dSpans (dx dy : ℤ) (v : Corners) (colour : ℤ) : D3dOp :=
  (needQs room [(M8_WRT_MASK, 0x00FF), (M8_FRGD_COLOR, colour), (M8_DP_CONFIG, M8_DP_8514),
    (M8_ALU_FG_FN, M8_MIX_REPLACE)]).seq (spanRows room dx dy v (v.b - v.t + 1).toNat 0)

/-! ## The scratch -/

/-- The plane of the next triangle in the scratch. -/
def plane (s : D3d) : ℤ := (1 <<< (s.c.drawn % 8) : ℕ)

/-- A triangle more in the scratch, in a box of it. -/
def drew (l t r b : ℤ) (s : D3d) : D3d :=
  { s with
    c := { s.c with
      dl := min s.c.dl l
      dt := min s.c.dt t
      dr := max s.c.dr r
      db := max s.c.db b
      drawn := s.c.drawn + 1 }
    most := max s.most (s.c.drawn + 1) }

/-- `m8d3d_scratch_clear`. -/
def m8d3dScratchClear : D3dOp := fun s =>
  let r := if s.c.dl < s.c.dr then m8d3dQClear room ⟨s.c.dl, s.c.dt, s.c.dr, s.c.db⟩ s else ok s
  (r.1, { r.2 with c := { r.2.c with drawn := 0, dl := 0x7FFF, dt := 0x7FFF, dr := 0, db := 0 } })

/-- The scratch once eight triangles are in it. -/
def clearEight : D3dOp := fun s => if s.c.drawn = 8 then m8d3dScratchClear room s else ok s

/-- A fill between the edges in `plane`, of a box at `(sx, sy)`, onto `(dx, dy)`. -/
def polyFill (plane colour wrt sx sy dx dy w h : ℤ) : List (ℕ × ℤ) :=
  [(M8_WRT_MASK, wrt), (M8_RD_MASK, plane), (M8_DP_CONFIG, M8_DP_POLY_FILL),
    (M8_ALU_FG_FN, M8_MIX_REPLACE), (M8_FRGD_COLOR, colour), (M8_DESTX_DIASTP, sx),
    (M8_DESTY_AXSTP, sy + 1), (M8_SRC_X_START, sx), (M8_SRC_X_END, sx + w), (M8_SRC_Y_DIR, 1),
    (M8_CUR_X, dx), (M8_DEST_X_START, dx), (M8_DEST_X_END, dx + w), (M8_CUR_Y, dy + 1),
    (M8_DEST_Y_END, dy + h - 1)]

/-- A tall triangle's fill by way of the scratch. -/
def triFill (dx dy : ℤ) (v : Corners) (colour : ℤ) : D3dOp := fun s =>
  let w := v.r - v.l + 1
  let h := v.b - v.t + 1
  ((m8d3dEdges room (s.c.sx - v.l) (s.c.sy - v.t) v s.plane).seq
    ((needQs room (polyFill s.plane colour 0x00FF s.c.sx s.c.sy (dx + v.l) (dy + v.t) w h)).seq
      (note (drew s.c.sx s.c.sy (s.c.sx + w) (s.c.sy + h))))) s

/-- `m8d3d_tri`. -/
def m8d3dTri (dx dy : ℤ) (v : Corners) (colour : ℤ) : D3dOp :=
  (note fun s => { s with tris := s.tris ++ [v] }).seq
    (if v.b - v.t ≤ M8D3D_SPAN_ROWS then m8d3dSpans room dx dy v colour
    else
      (if 2 ≤ v.b - v.t then triFill room dx dy v colour else ok).seq
        ((needQs room [(M8_RD_MASK, 0x00FF)]).seq
          (m8d3dOutline room dx dy v M8_MIX_REPLACE M8_LINEDRAW_LAST_OFF colour 0x00FF)))

end D3d

/-! ## Splitting -/

/-- The first longest edge, and its length, of the lengths `d` of the three. -/
def longestEdge (d : Fin 3 → ℤ) : Fin 3 × ℤ :=
  (List.finRange 3).foldl (fun e i => if e.2 < d i then (i, d i) else e) (0, 0)

namespace Corners

/-- The edge with the most rows, and its rows. -/
def tallest (v : Corners) : Fin 3 × ℤ :=
  longestEdge fun i => ((v.corner (i + 1)).2 - (v.corner i).2).natAbs

/-- The edge with the most columns, and its columns. -/
def widest (v : Corners) : Fin 3 × ℤ :=
  longestEdge fun i => ((v.corner (i + 1)).1 - (v.corner i).1).natAbs

/-- The middle of edge `e`. -/
def middle (v : Corners) (e : Fin 3) : Pixel :=
  (Int.tdiv ((v.corner e).1 + (v.corner (e + 1)).1) 2,
    Int.tdiv ((v.corner e).2 + (v.corner (e + 1)).2) 2)

/-- The part at the start of edge `e`. -/
def half0 (v : Corners) (e : Fin 3) : Corners := ⟨v.corner e, v.middle e, v.corner (e + 2)⟩

/-- The part at the end of edge `e`. -/
def half1 (v : Corners) (e : Fin 3) : Corners :=
  ⟨v.middle e, v.corner (e + 1), v.corner (e + 2)⟩

/-- A triangle that the scratch takes. -/
def Fits (v : Corners) (c : D3dContext) : Prop :=
  v.tallest.2 + 2 < c.sh ∧ v.widest.2 + 2 < c.tw

instance (v : Corners) (c : D3dContext) : Decidable (v.Fits c) := by unfold Fits; infer_instance

/-- The edge that `m8d3d_tri_fit` splits. -/
def splitEdge (v : Corners) (c : D3dContext) : Fin 3 :=
  if v.tallest.2 + 2 < c.sh then v.widest.1 else v.tallest.1

end Corners

namespace D3d

variable (room : ℕ → Bool)

/-- `m8d3d_tri_fit`, into itself no deeper than `fuel`. -/
def m8d3dTriFit (dx dy colour : ℤ) : ℕ → Corners → D3dOp
  | 0, _, s => (false, { s with deep := true })
  | fuel + 1, v, s =>
    if v.Fits s.c then ((m8d3dTri room dx dy v colour).seq (clearEight room)) s
    else
      ((m8d3dTriFit dx dy colour fuel (v.half0 (v.splitEdge s.c))).seq
        (m8d3dTriFit dx dy colour fuel (v.half1 (v.splitEdge s.c)))) s

end D3d

end Inboard
