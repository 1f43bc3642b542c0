import Inboard.M8Engine
import Inboard.Pixels

/-!
# The drawing primitives

Fills, copies, lines, patterns, text and reads, as the driver writes them to the engine : those that
decide their writes into the queue, those that write what their shadows do not hold from an empty
FIFO, and the short ones for an engine that holds the data path already.
-/

set_option linter.unusedSectionVars false

namespace Inboard

def M8_CMD_FILL : ℕ := 0x40F3
def M8_CMD_HOST_WRITE : ℕ := 0x53B1
def M8_CMD_HOST_READ : ℕ := 0x53B0
def M8_CMD_BLIT : ℕ := 0xC053
def M8_CMD_INC_X : ℕ := 0x0020
def M8_CMD_INC_Y : ℕ := 0x0080
def M8_CMD_PLANE_BLIT : ℕ := 0xC0B3
def M8_POLY_MAX : ℕ := 12

namespace Hw

variable (env : EngineEnv)

/-- A queue that is sent, and filled and sent again if the engine was reset. -/
def sendTwice (queue : Hw → Hw) (s : Hw) : Bool × Hw :=
  match (queue s).m8QSend env with
  | (true, s) => (true, s)
  | (false, s) => (queue s).m8QSend env

/-! ## Fills -/

/-- `m8_fill_q`. -/
def m8FillQ (x y w h : ℤ) (color mix : ℕ) (s : Hw) : Hw :=
  ((((s.m8PlainQ mix).m8QSet .FRGD_COLOR color).m8Qs [(M8_CUR_X, x), (M8_CUR_Y, y)]).m8QSize
    w h).m8Q M8_CMD M8_CMD_FILL

/-- `m8_hw_fill_mix`. -/
def m8HwFillMix (x y w h : ℤ) (color mix : ℕ) (s : Hw) : Hw :=
  if s.hwOff = true ∨ w ≤ 0 ∨ h ≤ 0 then s
  else
    match s.sendTwice env (m8FillQ x y w h color mix) with
    | (true, s) => s.m8DpSent mix true
    | (false, s) => s

/-- A short path's colour. -/
def fastColor (r : ShReg) (color : ℕ) (s : Hw) : Hw :=
  if s.shVal r ≠ color then
    ({ s with shVal := Function.update s.shVal r color }.spend 1).outpw (m8ShPort r) color
  else s

/-- A short path's size. -/
def fastSize (w h : ℤ) (s : Hw) : Hw :=
  if s.mmW ≠ w ∨ s.mmH ≠ h then
    { (s.spend 2).outs [(M8_MAJ_AXIS_PCNT, w - 1), (M8_MULTIFUNC_CNTL, h - 1)] with
      mmW := w
      mmH := h }
  else s

/-- A short fill's writes. -/
def fillWrites (x y w h : ℤ) (color : ℕ) (s : Hw) : Hw :=
  ((((s.fastColor .FRGD_COLOR color).spend 3).outs [(M8_CUR_X, x), (M8_CUR_Y, y)]).fastSize
    w h).outpw M8_CMD M8_CMD_FILL

/-- `m8_hw_fill_fast`. -/
def m8HwFillFast (x y w h : ℤ) (color mix : ℕ) (s : Hw) : Bool × Hw :=
  if ¬ s.HoldsPath mix ∨ s.shOk .FRGD_COLOR = false then (false, s)
  else
    match s.roomOrNeed env 6 with
    | (false, s) => (false, s)
    | (true, s) => (true, s.fillWrites x y w h color)

/-! ## Copies -/

end Hw

/-- The command of a copy, and the corners that it starts from, so that overlapping areas copy
from the far end. -/
def copyFrom (sx sy dx dy w h : ℤ) : ℕ × ℤ × ℤ × ℤ × ℤ :=
  if sy < dy then (M8_CMD_BLIT ||| M8_CMD_INC_X, sx, sy + h - 1, dx, dy + h - 1)
  else if dy = sy ∧ sx < dx then (M8_CMD_BLIT ||| M8_CMD_INC_Y, sx + w - 1, sy, dx + w - 1, dy)
  else (M8_CMD_BLIT ||| M8_CMD_INC_X ||| M8_CMD_INC_Y, sx, sy, dx, dy)

/-- The corners of a copy, to the engine. -/
def copyCorners (c : ℕ × ℤ × ℤ × ℤ × ℤ) : List (ℕ × ℤ) :=
  [(M8_CUR_X, c.2.1), (M8_CUR_Y, c.2.2.1), (M8_DESTX_DIASTP, c.2.2.2.1),
    (M8_DESTY_AXSTP, c.2.2.2.2)]

namespace Hw

variable (env : EngineEnv)

/-- `m8_copy_q`. -/
def m8CopyQ (c : ℕ × ℤ × ℤ × ℤ × ℤ) (w h : ℤ) (mix : ℕ) (s : Hw) : Hw :=
  (((s.m8PlainQ mix).m8Qs (copyCorners c)).m8QSize w h).m8Q M8_CMD c.1

/-- `m8_hw_copy_mix`. -/
def m8HwCopyMix (sx sy dx dy w h : ℤ) (mix : ℕ) (s : Hw) : Hw :=
  if s.hwOff = true ∨ w ≤ 0 ∨ h ≤ 0 then s
  else
    match s.sendTwice env (m8CopyQ (copyFrom sx sy dx dy w h) w h mix) with
    | (true, s) => s.m8DpSent mix true
    | (false, s) => s

/-- `m8_hw_copy`. -/
def m8HwCopy (sx sy dx dy w h : ℤ) (s : Hw) : Hw :=
  s.m8HwCopyMix env sx sy dx dy w h (M8_MIX_SRC_VRAM ||| M8_MIX_REPLACE)

/-- A short copy's writes. -/
def copyWrites (c : ℕ × ℤ × ℤ × ℤ × ℤ) (w h : ℤ) (s : Hw) : Hw :=
  (((s.spend 5).outs (copyCorners c)).fastSize w h).outpw M8_CMD c.1

/-- `m8_hw_copy_fast`. -/
def m8HwCopyFast (sx sy dx dy w h : ℤ) (mix : ℕ) (s : Hw) : Bool × Hw :=
  if ¬ s.HoldsPath mix then (false, s)
  else
    match s.roomOrNeed env 7 with
    | (false, s) => (false, s)
    | (true, s) => (true, s.copyWrites (copyFrom sx sy dx dy w h) w h)

/-- `m8_spread_copy`. -/
def m8SpreadCopy (sx sy dx dy w h : ℤ) (s : Hw) : Hw :=
  match s.m8HwCopyFast env sx sy dx dy w h (M8_MIX_SRC_VRAM ||| M8_MIX_REPLACE) with
  | (true, s) => s
  | (false, s) => s.m8HwCopy env sx sy dx dy w h

/-- `m8_hw_spread`. -/
def m8HwSpread (x y : ℤ) (sw sh kx ky : ℕ) (s : Hw) : Hw :=
  let cols := (List.range sw).reverse.flatMap fun j =>
    ((List.range kx).filter fun t => decide (j ≠ 0 ∨ t ≠ 0)).reverse.map fun t => (j, t)
  let rows := (List.range sh).reverse.flatMap fun j =>
    ((List.range ky).filter fun t => decide (j ≠ 0 ∨ t ≠ 0)).reverse.map fun t => (j, t)
  let s := cols.foldl (fun s c => s.m8SpreadCopy env (x + c.1) y (x + c.1 * kx + c.2) y 1 sh) s
  rows.foldl (fun s c =>
    s.m8SpreadCopy env x (y + c.1) x (y + c.1 * ky + c.2) (sw * kx) 1) s

/-- `m8_hw_copy_keyed`. -/
def m8HwCopyKeyed (sx sy dx dy w h : ℤ) (key : ℕ) (s : Hw) : Hw :=
  if s.hwOff = true ∨ w ≤ 0 ∨ h ≤ 0 then s
  else
    let s := ((s.m8WaitFifoEmpty env).m8Set env .WRT_MASK 0x00FF).m8Set env .RD_MASK 0x00FF
    let s := (s.m8Put env .PIX_CNTL M8_MF_PIX_CNTL).openScissors env
    let s := ((s.m8Put env .DP_CONFIG M8_DP_VRAM_BLIT).shForget .FRGD_MIX).shForget .BKGD_MIX
    let s := (s.m8RoomFor env 15).outs [(M8_ALU_FG_FN, M8_MIX_REPLACE),
      (M8_ALU_BG_FN, M8_MIX_LEAVE), (M8_SRC_CMP_COLOR, key), (M8_SRC_CMP_FN, 0x0028),
      (M8_SRC_Y_DIR, 1), (M8_CUR_X, dx), (M8_CUR_Y, dy), (M8_DEST_X_START, dx),
      (M8_DEST_X_END, dx + w), (M8_DESTX_DIASTP, sx), (M8_DESTY_AXSTP, sy), (M8_SRC_X_START, sx),
      (M8_SRC_X_END, sx + w)]
    ((s.outMM M8_DEST_Y_END (dy + h)).outpw M8_SRC_CMP_FN 0).spend 15

/-- `m8_hw_cursor_move`. -/
def m8HwCursorMove (ox oy nx ny w h svx svy mx my : ℤ) (key : ℕ) (s : Hw) : Hw :=
  if s.hwOff = true ∨ w ≤ 0 ∨ h ≤ 0 then s
  else
    let cmd : ℤ := M8_CMD_BLIT ||| M8_CMD_INC_X ||| M8_CMD_INC_Y
    let s := (((s.m8WaitFifoEmpty env).m8RoomFor env 9).outs [(M8_WRT_MASK, 0x00FF),
      (M8_RD_MASK, 0x00FF), (M8_EXT_SCISSOR_L, M8_EXT_SCISSOR_MIN),
      (M8_EXT_SCISSOR_T, M8_EXT_SCISSOR_MIN), (M8_EXT_SCISSOR_R, M8_EXT_SCISSOR_MAX),
      (M8_EXT_SCISSOR_B, M8_EXT_SCISSOR_MAX), (M8_DP_CONFIG, M8_DP_8514),
      (M8_MULTIFUNC_CNTL, M8_MF_PIX_CNTL),
      (M8_FRGD_MIX, M8_MIX_SRC_VRAM ||| M8_MIX_REPLACE)]).spend 9
    let s := (s.m8RoomFor env 7).outs
      [(M8_CUR_X, svx), (M8_CUR_Y, svy), (M8_DESTX_DIASTP, ox), (M8_DESTY_AXSTP, oy)]
    let s := ((s.outSize w h).outpw M8_CMD cmd).spend 7
    let s := (s.m8RoomFor env 7).outs
      [(M8_CUR_X, nx), (M8_CUR_Y, ny), (M8_DESTX_DIASTP, svx), (M8_DESTY_AXSTP, svy)]
    let s := ((s.outSize w h).outpw M8_CMD cmd).spend 7
    let s := ((s.m8WaitFifoEmpty env).outpw M8_DP_CONFIG M8_DP_VRAM_BLIT).m8RoomFor env 15
    let s := s.outs [(M8_ALU_FG_FN, M8_MIX_REPLACE), (M8_ALU_BG_FN, M8_MIX_LEAVE),
      (M8_SRC_CMP_COLOR, key), (M8_SRC_CMP_FN, 0x0028), (M8_SRC_Y_DIR, 1), (M8_CUR_X, nx),
      (M8_CUR_Y, ny), (M8_DEST_X_START, nx), (M8_DEST_X_END, nx + w), (M8_DESTX_DIASTP, mx),
      (M8_DESTY_AXSTP, my), (M8_SRC_X_START, mx), (M8_SRC_X_END, mx + w)]
    (((s.outMM M8_DEST_Y_END (ny + h)).outpw M8_SRC_CMP_FN 0).spend 15).m8ShClear

/-! ## Host transfers -/

/-- The words that rows of a transfer send. -/
def hostRows (rows : ℕ) (words : ℕ) (src : ℕ → ℕ → ℤ) : List ℤ :=
  (List.range rows).flatMap fun row => (List.range words).map (src row)

/-- The set-up that the transfers to and from the host share. -/
def hostSetup (x y w h : ℤ) (cmd : ℕ) (s : Hw) : Hw :=
  let s := (s.m8Put env .FRGD_MIX (M8_MIX_SRC_HOST ||| M8_MIX_REPLACE)).m8RoomFor env 5
  ((s.outs [(M8_CUR_X, x), (M8_CUR_Y, y)]).outSize w h).outpw M8_CMD cmd

/-- `m8_hw_read_rect`. -/
def m8HwReadRect (x y w h : ℤ) (s : Hw) : Hw :=
  if s.hwOff = true ∨ w ≤ 0 ∨ h ≤ 0 then s
  else
    let s := (((s.m8WaitFifoEmpty env).m8HwWaitIdle env).m8Plain env).hostSetup env x y w h
      M8_CMD_HOST_READ
    (s.dataPoll env M8_WAIT_LIMIT).2

/-- `m8_hw_write_rect`. -/
def m8HwWriteRect (x y : ℤ) (w h : ℕ) (src : ℕ → ℕ → ℤ) (s : Hw) : Hw :=
  if s.hwOff = true ∨ w = 0 ∨ h = 0 then s
  else
    let s := (((s.m8HwWaitIdle env).m8WaitFifoEmpty env).m8Plain env).hostSetup env x y w h
      M8_CMD_HOST_WRITE
    ((s.outsw (hostRows h (w / 2) src)).m8HwWaitIdle env).shForget .BKGD_COLOR

/-- `m8_hw_write_xlat`, whose rows are the translated ones. -/
def m8HwWriteXlat (x y : ℤ) (w h : ℕ) (clipL clipR : ℤ) (src : ℕ → ℕ → ℤ) (s : Hw) : Hw :=
  if s.hwOff = true ∨ w = 0 ∨ h = 0 ∨ 1024 < w then s
  else
    let s := (((s.m8HwWaitIdle env).m8WaitFifoEmpty env).m8Plain env).m8Scissors env clipL
      M8_EXT_SCISSOR_MIN (clipR - 1) M8_EXT_SCISSOR_MAX
    let s := s.hostSetup env x y w h M8_CMD_HOST_WRITE
    ((s.outsw (hostRows h (w / 2) src)).m8HwWaitIdle env).shForget .BKGD_COLOR

/-- `m8_mono`, which sends the words `bits`. -/
def m8Mono (x y : ℤ) (widthBytes height : ℕ) (bits : List ℤ) (fgMix fg bgMix bg : ℕ) (clip : Rect)
    (wrtMask : ℕ) (s : Hw) : Hw :=
  if widthBytes = 0 ∨ height = 0 then s
  else
    let s := ((s.m8HwWaitIdle env).m8WaitFifoEmpty env).m8Scissors env clip.left clip.top clip.right
      clip.bottom
    let s := ((s.m8Set env .WRT_MASK wrtMask).m8Set env .RD_MASK 0x00FF).m8Put env .PIX_CNTL
      M8_MF_PIX_CNTL
    let s := (s.m8Put env .FRGD_MIX fgMix).m8Set env .FRGD_COLOR fg
    let s := ((s.m8Put env .BKGD_MIX bgMix).m8Set env .BKGD_COLOR bg).m8Put env .DP_CONFIG
      M8_DP_MONO_HOST
    let s := (s.m8RoomFor env 5).outs [(M8_CUR_X, x), (M8_DEST_X_START, x),
      (M8_DEST_X_END, x + widthBytes * 8), (M8_CUR_Y, y)]
    (((s.outMM M8_DEST_Y_END (y + height)).outsw bits).m8HwWaitIdle env).shForget .BKGD_COLOR

/-- `m8_hw_mono`, and `m8_hw_mono_rows` for an even width. -/
def m8HwMono (x y : ℤ) (widthBytes height : ℕ) (bits : List ℤ) (fgMix fg bgMix bg : ℕ)
    (clip : Rect) (s : Hw) : Hw :=
  if s.hwOff = true then s
  else s.m8Mono env x y widthBytes height bits fgMix fg bgMix bg clip 0x00FF

/-- `m8_hw_mono_plane`. -/
def m8HwMonoPlane (x y : ℤ) (widthBytes height : ℕ) (bits : List ℤ) (plane : ℕ) (s : Hw) : Hw :=
  if s.hwOff = true then s
  else
    s.m8Mono env x y widthBytes height bits (M8_MIX_SRC_FRGD ||| M8_MIX_REPLACE) 0xFF
      (M8_MIX_SRC_BKGD ||| M8_MIX_REPLACE) 0x00
      ⟨x, y, x + widthBytes * 8 - 1, y + height - 1⟩ (1 <<< plane)

/-! ## Bit-planes -/

/-- The set-up of a blit from a bit-plane, up to its mixes. -/
def planeSetup (plane : ℕ) (s : Hw) : Hw :=
  let s := ((s.m8WaitFifoEmpty env).m8Set env .WRT_MASK 0x00FF).m8Put env .DP_CONFIG M8_DP_8514
  let s := (s.openScissors env).m8Put env .PIX_CNTL (M8_MF_PIX_CNTL + 0x00C0)
  s.m8Set env .RD_MASK ((1 <<< ((plane + 1) % 8)) % 256 : ℕ)

/-- The writes of a blit from a bit-plane. -/
def planeWrites (sx sy dx dy w h : ℤ) (s : Hw) : Hw :=
  (((s.m8RoomFor env 7).outs [(M8_CUR_X, sx), (M8_CUR_Y, sy), (M8_DESTX_DIASTP, dx),
    (M8_DESTY_AXSTP, dy)]).outSize w h).outpw M8_CMD M8_CMD_PLANE_BLIT

/-- `m8_hw_plane_blit`. -/
def m8HwPlaneBlit (sx sy dx dy w h : ℤ) (plane fg bg : ℕ) (transparent : Bool) (s : Hw) : Hw :=
  if s.hwOff = true ∨ w ≤ 0 ∨ h ≤ 0 then s
  else
    let s := ((s.planeSetup env plane).m8Put env .FRGD_MIX
      (M8_MIX_SRC_FRGD ||| M8_MIX_REPLACE)).m8Set env .FRGD_COLOR fg
    let s := if transparent = true then s.m8Put env .BKGD_MIX M8_MIX_LEAVE
      else (s.m8Set env .BKGD_COLOR bg).m8Put env .BKGD_MIX (M8_MIX_SRC_BKGD ||| M8_MIX_REPLACE)
    s.planeWrites env sx sy dx dy w h

/-- `m8_hw_plane_mix`. -/
def m8HwPlaneMix (sx sy dx dy w h : ℤ) (plane fg fgMix : ℕ) (s : Hw) : Hw :=
  if s.hwOff = true ∨ w ≤ 0 ∨ h ≤ 0 then s
  else
    let s := ((s.planeSetup env plane).m8Put env .FRGD_MIX fgMix).m8Set env .FRGD_COLOR fg
    ((s.m8Put env .BKGD_MIX M8_MIX_LEAVE).planeWrites env sx sy dx dy w h).m8HwWaitIdle env

/-- `m8_hw_plane_mixes`. -/
def m8HwPlaneMixes (sx sy dx dy w h : ℤ) (plane fgMix fg bgMix bg : ℕ) (s : Hw) : Hw :=
  if s.hwOff = true ∨ w ≤ 0 ∨ h ≤ 0 then s
  else
    let s := ((s.planeSetup env plane).m8Put env .FRGD_MIX fgMix).m8Set env .FRGD_COLOR fg
    (((s.m8Put env .BKGD_MIX bgMix).m8Set env .BKGD_COLOR bg).planeWrites env sx sy dx dy w h).spend
      7

end Hw

end Inboard
