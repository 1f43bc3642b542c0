import Inboard.M8Draw

/-!
# Lines, patterns and polygons

The line draws, the two-colour patterns a row at a time, the solid spans and the polygon fill. A
pattern's rows and a styled line's segments count the room they use as they go, and the room they
leave stays counted for the next call.
-/

set_option linter.unusedSectionVars false

namespace Inboard

def M8_Q_MAX : ℕ := 32

/-- A point, `POINT`. -/
abbrev Pt := ℤ × ℤ

/-- The distance a line pattern moves on from one point to the next. -/
def dashStep (a b : Pt) : ℕ := max (b.1 - a.1).natAbs (b.2 - a.2).natAbs

/-- `M8_DP_DASH`. -/
def M8_DP_DASH (style fn : ℕ) (opaq : Bool) : ℕ :=
  0x8000 ||| (style <<< 8) ||| (if opaq = true then 0x80 else 0) ||| fn

/-- `M8_DP_PATT`. -/
def M8_DP_PATT (fgFn bgFn : ℕ) : ℕ := 0x4000 ||| (bgFn <<< 7) ||| fgFn

/-- `m8_dash`. -/
def m8Dash : ℕ → ℕ × ℕ
  | 1 => (0xFCFC, 0xFCFC)
  | 2 => (0xCCCC, 0xCCCC)
  | 3 => (0x30FC, 0x30FC)
  | _ => (0xCCFC, 0xCCFC)

/-- The writes of a point. -/
def linePt (p : Pt) : List (ℕ × ℤ) := [(M8_LINEDRAW, p.1), (M8_LINEDRAW, p.2)]

/-- The writes before a line's first point. -/
def lineHead : List (ℕ × ℤ) := [(M8_LINEDRAW_OPT, M8_LINEDRAW_LAST_OFF), (M8_LINEDRAW_INDEX, 0)]

/-- The writes of the points after `p` of a styled line. -/
def dashWrites : ℕ → Pt → List Pt → List (ℕ × ℤ)
  | _, _, [] => []
  | phase, p, q :: pts =>
    (M8_PATT_INDEX, (phase : ℤ)) :: linePt q ++ dashWrites ((phase + dashStep p q) % 32) q pts

namespace Hw

variable (env : EngineEnv)

/-! ## Lines -/

/-- A colour of a short line, its room already spent. -/
def dashColor (r : ShReg) (color : ℕ) (s : Hw) : Hw :=
  if s.shVal r ≠ color then
    { s with shVal := Function.update s.shVal r (color : ℤ) }.outpw (m8ShPort r) color
  else s

/-- `m8_hw_line_fast`. -/
def m8HwLineFast (pts : List Pt) (color mix : ℕ) (s : Hw) : Bool × Hw :=
  if ¬ s.HoldsPath (mix ||| M8_MIX_SRC_FRGD) ∨ s.shOk .FRGD_COLOR = false ∨ 6 < pts.length then
    (false, s)
  else
    match s.roomOrNeed env (3 + 2 * pts.length) with
    | (false, s) => (false, s)
    | (true, s) =>
      let s := (s.spend (3 + 2 * pts.length)).dashColor .FRGD_COLOR color
      (true, (s.outs lineHead).outs (pts.flatMap linePt))

/-- `m8_hw_dash_fast`, of the point `p` and those after it. -/
def m8HwDashFast (p : Pt) (pts : List Pt) (color fn style : ℕ) (opaq : Bool) (bg : ℕ) (s : Hw) :
    Bool × Hw :=
  if ¬ s.HoldsPath (M8_DP_DASH style fn opaq) ∨ s.shOk .FRGD_COLOR = false ∨
      (opaq = true ∧ s.shOk .BKGD_COLOR = false) ∨ 4 < pts.length + 1 then (false, s)
  else
    let n := 4 + 3 * (pts.length + 1) - 1
    match s.roomOrNeed env n with
    | (false, s) => (false, s)
    | (true, s) =>
      let s := (s.spend n).dashColor .FRGD_COLOR color
      let s := if opaq = true then s.dashColor .BKGD_COLOR bg else s
      (true, (s.outs (lineHead ++ linePt p)).outs (dashWrites 0 p pts))

end Hw

/-- `m8_line_solid`'s points, `first` until a burst has been sent. -/
def Hw.linePts (env : EngineEnv) (mix : ℕ) (plain : Bool) : Bool → List Pt → Hw → Hw
  | first, [], s =>
    match s.m8QSend env with
    | (true, s) => if first = true then s.m8DpSent mix plain else s
    | (false, s) => s
  | first, p :: pts, s =>
    if M8_Q_MAX - 2 < s.q.length then
      match s.m8QSend env with
      | (true, s) =>
        Hw.linePts env mix plain false pts
          ((if first = true then s.m8DpSent mix plain else s).m8Qs (linePt p))
      | (false, s) => s
    else Hw.linePts env mix plain first pts (s.m8Qs (linePt p))

namespace Hw

variable (env : EngineEnv)

/-- `m8_line_solid`. -/
def m8LineSolid (pts : List Pt) (color mix : ℕ) (l t r b : ℤ) (plain : Bool) (s : Hw) : Hw :=
  let mix := mix ||| M8_MIX_SRC_FRGD
  (((s.m8DpQ mix l t r b).m8QSet .FRGD_COLOR color).m8Qs lineHead).linePts env mix plain true pts

/-- `m8_hw_polyline_plain`. -/
def m8HwPolylinePlain (pts : List Pt) (color mix : ℕ) (s : Hw) : Hw :=
  if s.hwOff = true ∨ pts.length < 2 then s
  else
    s.m8LineSolid env pts color mix M8_EXT_SCISSOR_MIN M8_EXT_SCISSOR_MIN M8_EXT_SCISSOR_MAX
      M8_EXT_SCISSOR_MAX true

/-- The set-up of a styled line. -/
def dashSetup (color mix style : ℕ) (opaq : Bool) (bg : ℕ) (l t r b : ℤ) (s : Hw) : Hw :=
  let s := ((s.m8WaitFifoEmpty env).m8Set env .WRT_MASK 0x00FF).m8Set env .RD_MASK 0x00FF
  let s := ((s.m8Put env .PIX_CNTL M8_MF_PIX_CNTL).m8Scissors env l t r b).m8Put env .DP_CONFIG
    M8_DP_MONO_PATT
  let s := s.m8Set env .FRGD_COLOR color
  let s := if opaq = true then s.m8Set env .BKGD_COLOR bg else s
  let s := (((s.shForget .FRGD_MIX).shForget .BKGD_MIX).m8RoomFor env 7).outs
    [(M8_ALU_FG_FN, mix), (M8_ALU_BG_FN, if opaq = true then mix else M8_MIX_LEAVE),
      (M8_PATT_LENGTH, 31), (M8_PATT_DATA_INDEX, 0x10), (M8_PATT_DATA, (m8Dash style).1),
      (M8_PATT_DATA, (m8Dash style).2), (M8_PATT_INDEX, 0)]
  (((s.spend 7).m8RoomFor env 2).outs lineHead).spend 2

end Hw

/-- A styled line's points, after the point `prev`. -/
def Hw.dashPts (env : EngineEnv) : Option Pt → ℕ → List Pt → Hw → Hw
  | _, _, [], s => s
  | prev, phase, p :: pts, s =>
    let s := if s.room < 3 then s.m8WaitFifoEmpty env else s
    match prev with
    | none => Hw.dashPts env (some p) phase pts ((s.outs (linePt p)).spend 2)
    | some q =>
      Hw.dashPts env (some p) ((phase + dashStep q p) % 32) pts
        ((s.outs ((M8_PATT_INDEX, (phase : ℤ)) :: linePt p)).spend 3)

namespace Hw

variable (env : EngineEnv)

/-- `m8_hw_polyline`. -/
def m8HwPolyline (pts : List Pt) (color mix style : ℕ) (opaq : Bool) (bg : ℕ) (l t r b : ℤ)
    (s : Hw) : Hw :=
  if s.hwOff = true ∨ pts.length < 2 ∨ 4 < style then s
  else if style = 0 then s.m8LineSolid env pts color mix l t r b false
  else
    { (s.dashSetup env color mix style opaq bg l t r b).dashPts env none 0 pts with
      roomOk := true }.m8DpSent (M8_DP_DASH style mix opaq)
        (l = M8_EXT_SCISSOR_MIN ∧ t = M8_EXT_SCISSOR_MIN ∧ r = M8_EXT_SCISSOR_MAX ∧
          b = M8_EXT_SCISSOR_MAX)

/-! ## Patterns -/

/-- `m8_hw_pattern_begin`. -/
def m8HwPatternBegin (fg bg fgFn bgFn : ℕ) (s : Hw) : Hw :=
  if s.hwOff = true then s
  else if s.dpOk = true ∧ s.dpPlain = true ∧ s.dpMix = M8_DP_PATT fgFn bgFn ∧ s.roomOk = true then
    { ((s.m8RoomCounted env 2).m8Set env .FRGD_COLOR fg).m8Set env .BKGD_COLOR bg with
      scanY := -1 }
  else
    let s := ((s.m8WaitFifoEmpty env).m8Set env .WRT_MASK 0x00FF).m8Set env .RD_MASK 0x00FF
    let s := ((s.m8Put env .PIX_CNTL M8_MF_PIX_CNTL).openScissors env).m8Put env .DP_CONFIG
      M8_DP_MONO_PATT
    let s := (s.m8Set env .FRGD_COLOR fg).m8Set env .BKGD_COLOR bg
    let s := (((s.shForget .FRGD_MIX).shForget .BKGD_MIX).m8RoomFor env 3).outs
      [(M8_ALU_FG_FN, fgFn), (M8_ALU_BG_FN, bgFn), (M8_PATT_LENGTH, 7)]
    let s := { s.spend 3 with scanY := -1, scanByte := 0xFFFF, roomOk := true }
    if fgFn ||| bgFn < 0x20 then s.m8DpSent (M8_DP_PATT fgFn bgFn) true else s

end Hw

/-- A pattern's bytes, one a row. -/
abbrev Pat := ℕ → BitVec 8

/-- The byte of the row `y`. -/
def Pat.row (pat : Pat) (y : ℤ) : ℤ := (pat (y % 8).toNat).toNat

/-- The column of a pattern, row `j` in bit `7 - j`. -/
def Pat.column (pat : Pat) (x : ℤ) : ℕ :=
  (List.range 8).foldl (fun col j =>
    if (pat j).getLsbD (7 - (x % 8).toNat) = true then col ||| (0x80 >>> j) else col) 0

/-- A pattern byte's writes. -/
def pattData (v : ℤ) : List (ℕ × ℤ) := [(M8_PATT_DATA_INDEX, 0x10), (M8_PATT_DATA, v)]

namespace Hw

variable (env : EngineEnv)

/-- The row of the engine's place, written when it changes. -/
def scanRow (y : ℤ) (s : Hw) : Hw :=
  if y ≠ s.scanY then { (s.outpw M8_CUR_Y y).spend 1 with scanY := y } else s

/-- The row's pattern byte, written when it changes. -/
def scanPatt (v : ℤ) (s : Hw) : Hw :=
  if v ≠ s.scanByte then { (s.outs (pattData v)).spend 2 with scanByte := v } else s

/-- The rows of a pattern's rectangle from `y` on. -/
def patternRows (pat : Pat) : ℤ → ℕ → Hw → Hw
  | _, 0, s => s
  | y, h + 1, s =>
    patternRows pat (y + 1) h
      ((((s.m8RoomCounted env 3).outs (pattData (pat.row y))).outMM M8_DEST_Y_END (y + 1)).spend 3)

/-- `m8_hw_pattern_span`. -/
def m8HwPatternSpan (x y w h : ℤ) (pat : Pat) (s : Hw) : Hw :=
  if s.hwOff = true ∨ w ≤ 0 ∨ h ≤ 0 then s
  else if w = 1 ∧ 1 < h then
    let s := (s.m8RoomCounted env 9).outs [(M8_PATT_DATA_INDEX, 0x10),
      (M8_PATT_DATA, pat.column x), (M8_LINEDRAW_OPT, M8_LINEDRAW_LAST_OFF), (M8_LINEDRAW_INDEX, 0),
      (M8_LINEDRAW, x), (M8_LINEDRAW, y), (M8_PATT_INDEX, y % 8), (M8_LINEDRAW, x),
      (M8_LINEDRAW, y + h)]
    { s.spend 9 with scanY := -1, scanByte := 0xFFFF }
  else if h = 1 then
    let s := ((s.m8RoomCounted env 6).scanRow y).scanPatt (pat.row y)
    ((s.outs [(M8_CUR_X, x), (M8_PATT_INDEX, x % 8)]).outMM M8_SCAN_TO_X (x + w)).spend 3
  else
    let s := { s with scanY := -1, scanByte := 0xFFFF }.m8RoomCounted env 5
    (s.outs [(M8_PATT_INDEX, x % 8), (M8_CUR_X, x), (M8_DEST_X_START, x), (M8_DEST_X_END, x + w),
      (M8_CUR_Y, y)]).spend 5 |>.patternRows env pat y h.toNat

/-! ## Solid spans -/

/-- `m8_hw_fill_begin_fast`. -/
def m8HwFillBeginFast (color mix : ℕ) (s : Hw) : Bool × Hw :=
  if ¬ s.HoldsPath mix ∨ s.shOk .FRGD_COLOR = false then (false, s)
  else if s.shVal .FRGD_COLOR ≠ color then
    match s.roomOrNeed env 1 with
    | (false, s) => (false, s)
    | (true, s) => (true, { s.fastColor .FRGD_COLOR color with scanY := -1 })
  else (true, { s with scanY := -1 })

/-- `m8_hw_fill_begin`. -/
def m8HwFillBegin (color mix : ℕ) (s : Hw) : Hw :=
  if s.hwOff = true then s
  else
    match s.sendTwice env fun s => (s.m8PlainQ mix).m8QSet .FRGD_COLOR color with
    | (true, s) => { s.m8DpSent mix true with scanY := -1 }
    | (false, s) => s

/-- `m8_hw_fill_span`. -/
def m8HwFillSpan (x y w h : ℤ) (s : Hw) : Hw :=
  if s.hwOff = true ∨ w ≤ 0 ∨ h ≤ 0 then s
  else if h = 1 then
    ((((s.m8RoomCounted env 3).scanRow y).outpw M8_CUR_X x).outMM M8_SCAN_TO_X (x + w)).spend 2
  else
    let s := ({ s with scanY := -1 }.m8RoomCounted env 5).outs [(M8_CUR_X, x), (M8_CUR_Y, y)]
    ((s.outSize w h).outpw M8_CMD M8_CMD_FILL).spend 5

/-! ## Polygons -/

/-- `m8_hw_poly_begin`. -/
def m8HwPolyBegin (s : Hw) : Bool × Hw :=
  if s.hwOff = true then (false, s)
  else
    { s with scanY := -1 }.m8Qs [(M8_EXT_SCISSOR_L, M8_EXT_SCISSOR_MIN),
      (M8_EXT_SCISSOR_T, M8_EXT_SCISSOR_MIN), (M8_EXT_SCISSOR_R, M8_EXT_SCISSOR_MAX),
      (M8_EXT_SCISSOR_B, M8_EXT_SCISSOR_MAX), (M8_MULTIFUNC_CNTL, M8_MF_PIX_CNTL)] |>.m8QSend env

end Hw

/-- A polygon's outline at `ox`, `oy`, closed at its first vertex `p`. -/
def polyLine (ox oy : ℤ) (p : Pt) (v : List Pt) : List (ℕ × ℤ) :=
  (p :: v ++ [p]).flatMap fun q => linePt (ox + q.1, oy + q.2)

namespace Hw

variable (env : EngineEnv)

/-- `m8_hw_poly`, of the vertex `p` and those after it. -/
def m8HwPoly (dx dy sx sy : ℤ) (p : Pt) (v : List Pt) (plane color : ℕ) (s : Hw) : Bool × Hw :=
  if s.hwOff = true ∨ v.length + 1 < 3 ∨ M8_POLY_MAX < v.length + 1 then (false, s)
  else
    let l := v.foldl (fun a q => min a q.1) p.1
    let r := v.foldl (fun a q => max a q.1) p.1
    let t := v.foldl (fun a q => min a q.2) p.2
    let b := v.foldl (fun a q => max a q.2) p.2
    if b - t < 2 then (true, s)
    else
      let outline := (s.m8Qs [(M8_WRT_MASK, plane), (M8_FRGD_COLOR, 0x00FF),
        (M8_DP_CONFIG, M8_DP_8514), (M8_ALU_FG_FN, M8_MIX_XOR),
        (M8_LINEDRAW_OPT, M8_LINEDRAW_POLY + M8_LINEDRAW_LAST_OFF), (M8_LINEDRAW_INDEX, 0)]).m8Qs
        (polyLine sx sy p v)
      match outline.m8QSend env with
      | (false, s) => (false, s)
      | (true, s) =>
        let fill := s.m8Qs [(M8_WRT_MASK, 0x00FF), (M8_RD_MASK, plane),
          (M8_DP_CONFIG, M8_DP_POLY_FILL), (M8_ALU_FG_FN, M8_MIX_REPLACE), (M8_FRGD_COLOR, color),
          (M8_DESTX_DIASTP, sx + l), (M8_DESTY_AXSTP, sy + t + 1), (M8_SRC_X_START, sx + l),
          (M8_SRC_X_END, sx + r + 1), (M8_SRC_Y_DIR, 1), (M8_CUR_X, dx + l),
          (M8_DEST_X_START, dx + l), (M8_DEST_X_END, dx + r + 1), (M8_CUR_Y, dy + t + 1),
          (M8_DEST_Y_END, dy + b)]
        match fill.m8QSend env with
        | (false, s) => (false, s)
        | (true, s) =>
          (s.m8Qs ([(M8_RD_MASK, 0x00FF), (M8_DP_CONFIG, M8_DP_8514),
            (M8_ALU_FG_FN, M8_MIX_REPLACE)] ++ lineHead ++ polyLine dx dy p v)).m8QSend env

/-- `m8_hw_poly_end`. -/
def m8HwPolyEnd (s : Hw) : Hw := { s.m8ShClear with scanY := -1 }

end Hw

end Inboard
