import Mathlib.Logic.Function.Basic
import Mathlib.Algebra.Order.Ring.Int
import Mathlib.Algebra.Order.Ring.Nat

/-!
# The drawing engine's ports

The driver's side of the Mach8 engine : the waits for free entries of the command FIFO, the register
shadows that skip writes the engine does not need, and the queue that a call decides its writes into
before it sends them. What passes through the ports is kept, newest first ; what the ports read
comes from `EngineEnv`, any of it.
-/

set_option linter.unusedSectionVars false

namespace Inboard

/-! ## Ports and values -/

def M8_WAIT_LIMIT : ℕ := 60000
def M8_FIFO_DEPTH : ℕ := 16

def M8_CUR_Y : ℕ := 0x82E8
def M8_CUR_X : ℕ := 0x86E8
def M8_DESTY_AXSTP : ℕ := 0x8AE8
def M8_DESTX_DIASTP : ℕ := 0x8EE8
def M8_MAJ_AXIS_PCNT : ℕ := 0x96E8
def M8_CMD : ℕ := 0x9AE8
def M8_BKGD_COLOR : ℕ := 0xA2E8
def M8_FRGD_COLOR : ℕ := 0xA6E8
def M8_WRT_MASK : ℕ := 0xAAE8
def M8_RD_MASK : ℕ := 0xAEE8
def M8_BKGD_MIX : ℕ := 0xB6E8
def M8_FRGD_MIX : ℕ := 0xBAE8
def M8_MULTIFUNC_CNTL : ℕ := 0xBEE8
def M8_PIX_TRANS : ℕ := 0xE2E8
def M8_DP_CONFIG : ℕ := 0xCEEE
def M8_DEST_X_START : ℕ := 0xA6EE
def M8_DEST_X_END : ℕ := 0xAAEE
def M8_DEST_Y_END : ℕ := 0xAEEE
def M8_SCAN_TO_X : ℕ := 0xCAEE
def M8_SRC_X_START : ℕ := 0xB2EE
def M8_SRC_X_END : ℕ := 0xBEEE
def M8_SRC_Y_DIR : ℕ := 0xC2EE
def M8_SRC_CMP_FN : ℕ := 0x92EE
def M8_SRC_CMP_COLOR : ℕ := 0xEAEE
def M8_EXT_SCISSOR_L : ℕ := 0xDAEE
def M8_EXT_SCISSOR_T : ℕ := 0xDEEE
def M8_EXT_SCISSOR_R : ℕ := 0xE2EE
def M8_EXT_SCISSOR_B : ℕ := 0xE6EE
def M8_LINEDRAW : ℕ := 0xFEEE
def M8_LINEDRAW_INDEX : ℕ := 0x9AEE
def M8_LINEDRAW_OPT : ℕ := 0xA2EE
def M8_ALU_FG_FN : ℕ := 0xBAEE
def M8_ALU_BG_FN : ℕ := 0xB6EE
def M8_PATT_LENGTH : ℕ := 0xD2EE
def M8_PATT_DATA_INDEX : ℕ := 0x82EE
def M8_PATT_DATA : ℕ := 0x8EEE
def M8_PATT_INDEX : ℕ := 0xD6EE

def M8_LINEDRAW_POLY : ℤ := 0x0002
def M8_LINEDRAW_LAST_OFF : ℤ := 0x0004
def M8_EXT_SCISSOR_MIN : ℤ := 0x0800
def M8_EXT_SCISSOR_MAX : ℤ := 0x07FF
def M8_DP_MONO_HOST : ℤ := 0x3251
def M8_DP_8514 : ℤ := 0x2211
def M8_DP_MONO_PATT : ℤ := 0x2231
def M8_DP_READ_SCAN : ℤ := 0x5210
def M8_DP_VRAM_BLIT : ℤ := 0x6011
def M8_DP_POLY_FILL : ℤ := 0x2213
def M8_MF_PIX_CNTL : ℤ := 0xA000
def M8_MIX_SRC_BKGD : ℕ := 0x0000
def M8_MIX_SRC_FRGD : ℕ := 0x0020
def M8_MIX_SRC_HOST : ℕ := 0x0040
def M8_MIX_SRC_VRAM : ℕ := 0x0060
def M8_MIX_REPLACE : ℕ := 0x0007
def M8_MIX_LEAVE : ℕ := 0x0003
def M8_MIX_XOR : ℕ := 0x0005

/-! ## Data -/

/-- What passes through the ports : a register's write, a read of the FIFO's status that shows `occ`
entries occupied, one of GP_STAT that shows a read's data ready, the resets of the engine, of a
wedged one and of a read left unfinished, and a wait that an assembly path gives up. -/
inductive EngineEv
  | write (port : ℕ) (v : ℤ)
  | fifo (occ : Fin 17)
  | ready
  | reset
  | abort
  | late
  deriving DecidableEq

/-- What each read of a port gives. -/
structure EngineEnv where
  fifo : ℕ → Fin 17
  busy : ℕ → Bool
  ready : ℕ → Bool
  data : ℕ → ℕ

/-- The registers with shadows, `M8_SH_*`. -/
inductive ShReg
  | FRGD_MIX | BKGD_MIX | FRGD_COLOR | BKGD_COLOR | WRT_MASK | RD_MASK | DP_CONFIG | PIX_CNTL
  | SC_L | SC_T | SC_R | SC_B
  deriving DecidableEq

/-- `m8_sh_port`. -/
def m8ShPort : ShReg → ℕ
  | .FRGD_MIX => M8_FRGD_MIX
  | .BKGD_MIX => M8_BKGD_MIX
  | .FRGD_COLOR => M8_FRGD_COLOR
  | .BKGD_COLOR => M8_BKGD_COLOR
  | .WRT_MASK => M8_WRT_MASK
  | .RD_MASK => M8_RD_MASK
  | .DP_CONFIG => M8_DP_CONFIG
  | .PIX_CNTL => M8_MULTIFUNC_CNTL
  | .SC_L => M8_EXT_SCISSOR_L
  | .SC_T => M8_EXT_SCISSOR_T
  | .SC_R => M8_EXT_SCISSOR_R
  | .SC_B => M8_EXT_SCISSOR_B

/-- `m8_hot`, the queue, and what has passed through the ports, with how many reads there were. -/
structure Hw where
  room : ℤ
  dpMix : ℕ
  roomOk : Bool
  dpOk : Bool
  dpPlain : Bool
  rdOk : Bool
  hwOff : Bool
  mmW : ℤ
  mmH : ℤ
  shOk : ShReg → Bool
  shVal : ShReg → ℤ
  scanY : ℤ
  scanByte : ℤ
  q : List (ℕ × ℤ)
  reads : ℕ
  trace : List EngineEv

/-! ## Ports -/

namespace Hw

/-- A register is written. -/
def outpw (p : ℕ) (v : ℤ) (s : Hw) : Hw := { s with trace := .write p v :: s.trace }

/-- Registers are written in order. -/
def outs (ws : List (ℕ × ℤ)) (s : Hw) : Hw := ws.foldl (fun s w => s.outpw w.1 w.2) s

/-- `m8_outsw`. -/
def outsw (ws : List ℤ) (s : Hw) : Hw := s.outs (ws.map fun v => (M8_PIX_TRANS, v))

/-- `M8_MM_FORGET`. -/
def mmForget (s : Hw) : Hw := { s with mmW := 0, mmH := 0 }

/-- `m8_sh_clear`. -/
def m8ShClear (s : Hw) : Hw :=
  { s with shOk := fun _ => false, roomOk := false, dpOk := false, rdOk := false }.mmForget

end Hw

/-- `m8_engine_init`. -/
def m8EngineInit : List (ℕ × ℤ) :=
  [(0x76EE, 0x0080), (0x6EEE, 0x0000), (0x72EE, 0x0000), (0xB2E8, 0x0000), (M8_WRT_MASK, 0x00FF),
    (M8_RD_MASK, 0x00FF), (0xB6EE, 0x0002), (M8_EXT_SCISSOR_L, 0x0800), (M8_EXT_SCISSOR_T, 0x0800),
    (M8_EXT_SCISSOR_R, 0x07FF), (M8_EXT_SCISSOR_B, 0x07FF), (M8_DP_CONFIG, 0x2211),
    (M8_MULTIFUNC_CNTL, M8_MF_PIX_CNTL)]

namespace Hw

/-- `m8_engine_reset`. -/
def m8EngineReset (s : Hw) : Hw :=
  { ({ s with trace := .reset :: s.trace }.outs m8EngineInit).m8ShClear with room := 0 }

/-- `m8_scan_abort`. -/
def m8ScanAbort (s : Hw) : Hw :=
  { s with trace := .abort :: s.trace, room := M8_FIFO_DEPTH - 1, roomOk := true }

end Hw

/-- EXT_FIFO_STATUS : entry 1 in bit 0, filled from entry 1. -/
def fifoWord (occ : Fin 17) : ℕ := 2 ^ (occ : ℕ) - 1

/-- The free entries of a status word, counted from `mask` down. -/
def freeEntries (st : ℕ) : ℕ → ℕ → ℕ
  | 0, _ => 0
  | n + 1, mask => if st &&& mask = 0 then freeEntries st n (mask >>> 1) + 1 else 0

section Waits

variable (env : EngineEnv)

/-- A read of EXT_FIFO_STATUS. -/
def Hw.inpFifo (s : Hw) : ℕ × Hw :=
  (fifoWord (env.fifo s.reads),
    { s with reads := s.reads + 1, trace := .fifo (env.fifo s.reads) :: s.trace })

/-- `m8_fifo_need`'s polls. -/
def Hw.fifoPoll (n : ℕ) : ℕ → Hw → Bool × Hw
  | 0, s => (false, s.m8EngineReset)
  | i + 1, s =>
    let r := s.inpFifo env
    if r.1 &&& (0x8000 >>> n) = 0 then
      (true, { r.2 with room := (freeEntries r.1 M8_FIFO_DEPTH 0x8000 : ℤ) - 1 })
    else Hw.fifoPoll n i r.2

namespace Hw

/-- `m8_fifo_need`. -/
def m8FifoNeed (n : ℕ) (s : Hw) : Bool × Hw := s.fifoPoll env n M8_WAIT_LIMIT

/-- `m8_fifo_drain`. -/
def m8FifoDrain (s : Hw) : Bool × Hw := s.m8FifoNeed env (M8_FIFO_DEPTH - 1)

/-- `m8_wait_fifo_empty`. -/
def m8WaitFifoEmpty (s : Hw) : Hw :=
  ({ s.mmForget with roomOk := false, dpOk := false, rdOk := false }.m8FifoDrain env).2

/-- `m8_room_for`. -/
def m8RoomFor (n : ℕ) (s : Hw) : Hw := if s.room < n then s.m8WaitFifoEmpty env else s

/-- `m8_room_counted`. -/
def m8RoomCounted (n : ℕ) (s : Hw) : Hw :=
  if s.roomOk = false ∨ s.room < n then
    match s.m8FifoNeed env n with
    | (true, s) => { s with roomOk := true }
    | (false, s) => s
  else s

/-- The room for `n` writes of a short path, or a wait for it. -/
def roomOrNeed (n : ℕ) (s : Hw) : Bool × Hw :=
  if s.room < n then s.m8FifoNeed env n else (true, s)

end Hw

/-- `m8_hw_wait_idle`'s polls. -/
def Hw.idlePoll : ℕ → Hw → Hw
  | 0, s => s.m8EngineReset
  | i + 1, s =>
    let r := s.inpFifo env
    if r.1 = 0 then
      let s := { r.2 with reads := r.2.reads + 1 }
      if env.busy r.2.reads = false then s else Hw.idlePoll i s
    else Hw.idlePoll i r.2

/-- The polls for a read's data. -/
def Hw.dataPoll : ℕ → Hw → Bool × Hw
  | 0, s => (false, s.m8EngineReset)
  | i + 1, s =>
    let t := { s with reads := s.reads + 1 }
    if env.ready s.reads = true then (true, { t with trace := .ready :: t.trace })
    else Hw.dataPoll i t

namespace Hw

/-- `m8_hw_wait_idle`. -/
def m8HwWaitIdle (s : Hw) : Hw := s.idlePoll env M8_WAIT_LIMIT

/-- A read of PIX_TRANS. -/
def inpPix (s : Hw) : ℕ × Hw := (env.data s.reads, { s with reads := s.reads + 1 })

/-- `m8_hw_forget`. -/
def m8HwForget (s : Hw) : Hw := (s.m8HwWaitIdle env).m8ShClear

/-! ## Shadows -/

/-- `m8_put`. -/
def m8Put (r : ShReg) (v : ℤ) (s : Hw) : Hw :=
  let s := (s.m8RoomFor env 1).outpw (m8ShPort r) v
  { s with
    room := s.room - 1
    shVal := Function.update s.shVal r v
    shOk := Function.update s.shOk r true }

/-- `M8_SET`. -/
def m8Set (r : ShReg) (v : ℤ) (s : Hw) : Hw :=
  if s.shOk r = false ∨ s.shVal r ≠ v then s.m8Put env r v else s

/-- `m8_scissors`. -/
def m8Scissors (l t r b : ℤ) (s : Hw) : Hw :=
  (((s.m8Set env .SC_L l).m8Set env .SC_T t).m8Set env .SC_R r).m8Set env .SC_B b

/-- The scissors that clip nothing. -/
def openScissors (s : Hw) : Hw :=
  s.m8Scissors env M8_EXT_SCISSOR_MIN M8_EXT_SCISSOR_MIN M8_EXT_SCISSOR_MAX M8_EXT_SCISSOR_MAX

/-- `m8_plain`. -/
def m8Plain (s : Hw) : Hw :=
  ((((s.m8Set env .WRT_MASK 0x00FF).m8Set env .RD_MASK 0x00FF).m8Put env .DP_CONFIG
    M8_DP_8514).m8Put env .PIX_CNTL M8_MF_PIX_CNTL).openScissors env

/-- A shadow that says nothing any more. -/
def shForget (r : ShReg) (s : Hw) : Hw := { s with shOk := Function.update s.shOk r false }

/-- `M8_OUT_MM`. -/
def outMM (p : ℕ) (v : ℤ) (s : Hw) : Hw := s.mmForget.outpw p v

/-- `M8_OUT_SIZE`. -/
def outSize (w h : ℤ) (s : Hw) : Hw :=
  if s.mmW ≠ w ∨ s.mmH ≠ h then
    { s.outs [(M8_MAJ_AXIS_PCNT, w - 1), (M8_MULTIFUNC_CNTL, h - 1)] with mmW := w, mmH := h }
  else s

/-- The writes made since the room was read leave less of it. -/
def spend (n : ℤ) (s : Hw) : Hw := { s with room := s.room - n }

/-! ## The queue -/

/-- `M8_Q`. -/
def m8Q (p : ℕ) (v : ℤ) (s : Hw) : Hw := { s with q := s.q ++ [(p, v)] }

/-- `M8_Q` for each of a list. -/
def m8Qs (ws : List (ℕ × ℤ)) (s : Hw) : Hw := { s with q := s.q ++ ws }

/-- `M8_QSET`. -/
def m8QSet (r : ShReg) (v : ℤ) (s : Hw) : Hw :=
  if s.shOk r = false ∨ s.shVal r ≠ v then
    { s.m8Q (m8ShPort r) v with
      shVal := Function.update s.shVal r v
      shOk := Function.update s.shOk r true }
  else s

/-- `M8_Q_SIZE`. -/
def m8QSize (w h : ℤ) (s : Hw) : Hw :=
  if s.mmW ≠ w ∨ s.mmH ≠ h then
    { s.m8Qs [(M8_MAJ_AXIS_PCNT, w - 1), (M8_MULTIFUNC_CNTL, h - 1)] with mmW := w, mmH := h }
  else s

end Hw

/-- `m8_q_send`, with at most `fuel` writes left. -/
def Hw.qSend : ℕ → List (ℕ × ℤ) → Hw → Bool × Hw
  | 0, _, s => (true, s)
  | _ + 1, [], s => (true, s)
  | fuel + 1, q, s =>
    let k := if q.length < M8_FIFO_DEPTH - 1 then q.length else M8_FIFO_DEPTH - 1
    let r := if s.roomOk = false ∨ s.room < k then s.m8FifoNeed env k else (true, s)
    if r.1 = true then
      Hw.qSend fuel (q.drop k) (({ r.2 with roomOk := true }.spend k).outs (q.take k))
    else r

namespace Hw

/-- `m8_q_send`. -/
def m8QSend (s : Hw) : Bool × Hw := { s with q := [] }.qSend env s.q.length s.q

/-! ## The data path -/

/-- `m8_dp_q`. -/
def m8DpQ (mix : ℕ) (l t r b : ℤ) (s : Hw) : Hw :=
  let dp := s.dpOk = false ∨ s.dpMix ≠ mix
  let s := (s.m8QSet .WRT_MASK 0x00FF).m8QSet .RD_MASK 0x00FF
  let s := if dp then s.m8Qs [(M8_DP_CONFIG, M8_DP_8514), (M8_MULTIFUNC_CNTL, M8_MF_PIX_CNTL)]
    else s
  let s := (((s.m8QSet .SC_L l).m8QSet .SC_T t).m8QSet .SC_R r).m8QSet .SC_B b
  if dp then s.m8Q M8_FRGD_MIX mix else s

/-- `m8_plain_q`. -/
def m8PlainQ (mix : ℕ) (s : Hw) : Hw :=
  s.m8DpQ mix M8_EXT_SCISSOR_MIN M8_EXT_SCISSOR_MIN M8_EXT_SCISSOR_MAX M8_EXT_SCISSOR_MAX

/-- `m8_dp_sent`. -/
def m8DpSent (mix : ℕ) (plain : Bool) (s : Hw) : Hw :=
  { s with dpOk := true, dpMix := mix, dpPlain := plain, rdOk := false }

/-- The engine holds the data path of `mix` with counted room. -/
def HoldsPath (mix : ℕ) (s : Hw) : Prop :=
  s.hwOff = false ∧ s.dpOk = true ∧ s.dpPlain = true ∧ s.dpMix = mix ∧ s.roomOk = true

instance (mix : ℕ) (s : Hw) : Decidable (s.HoldsPath mix) := by unfold HoldsPath; infer_instance

end Hw

end Waits

end Inboard
