import Inboard.M8Draw

/-!
# Reads and the assembly paths

The scan reads, ended by their data or by an abort, and what the assembly `Pixel` and `BitBlt` do
with the engine once GDI's call, the screen's bounds and the cursor let them in. Their waits poll
for one status and leave a FIFO that stays full to the C paths.
-/

set_option linter.unusedSectionVars false

namespace Inboard

def MIX_COPY : ℕ := 0x0067

/-! ## Reads -/

namespace Hw

variable (env : EngineEnv)

/-- The writes of a read that the engine is set up for. -/
def readWrites (x y last : ℤ) (s : Hw) : Hw :=
  (s.outs [(M8_CUR_Y, y), (M8_CUR_X, x)]).outMM M8_SCAN_TO_X last

/-- `m8_read_scan`'s wait. -/
def readWait (s : Hw) : Bool × Hw :=
  match s.dataPoll env M8_WAIT_LIMIT with
  | (true, s) => (true, { s with room := M8_FIFO_DEPTH - 1, roomOk := true })
  | (false, s) => (false, s)

/-- `m8_read_scan`'s full set-up. -/
def readSetup (x y last : ℤ) (s : Hw) : Hw :=
  let s := ({ s.mmForget with dpOk := false }.m8RoomCounted env 12).m8Set env .WRT_MASK 0x00FF
  let s := ((s.m8Set env .RD_MASK 0x00FF).m8Put env .PIX_CNTL M8_MF_PIX_CNTL).openScissors env
  let s := ((s.m8Put env .DP_CONFIG M8_DP_READ_SCAN).shForget .FRGD_MIX).shForget .BKGD_MIX
  { (((s.m8RoomFor env 4).outpw M8_ALU_FG_FN M8_MIX_REPLACE).readWrites x y last).spend 4 with
    rdOk := true }

/-- The room for a read's three writes, or a drain. -/
def readRoom (s : Hw) : Bool × Hw :=
  if s.rdOk = true ∧ s.roomOk = true then
    if 3 ≤ s.room then (true, s) else s.m8FifoDrain env
  else (false, s)

/-- `m8_read_scan`. -/
def m8ReadScan (x y last : ℤ) (s : Hw) : Bool × Hw :=
  match s.readRoom env with
  | (true, s) => (s.readWrites x y last).readWait env
  | (false, s) => (s.readSetup env x y last).readWait env

/-- `m8_hw_getpixel`. -/
def m8HwGetpixel (x y : ℤ) (s : Hw) : ℕ × Hw :=
  if s.hwOff = true then (0, s)
  else
    match s.m8ReadScan env x y (x + 1) with
    | (true, s) => ((s.inpPix env).1 % 256, (s.inpPix env).2)
    | (false, s) => (0, s)

/-- `m8_hw_getpixel_fast`. -/
def m8HwGetpixelFast (x y : ℤ) (s : Hw) : ℤ × Hw :=
  if s.hwOff = true ∨ s.rdOk = false ∨ s.roomOk = false then (-1, s)
  else
    match if s.room < 3 then s.m8FifoDrain env else (true, s) with
    | (false, s) => (-1, s)
    | (true, s) =>
      match (s.readWrites x y (x + 1)).dataPoll env M8_WAIT_LIMIT with
      | (true, s) =>
        let s := { s with room := (M8_FIFO_DEPTH : ℤ) - 1 }
        (((s.inpPix env).1 % 256 : ℕ), (s.inpPix env).2)
      | (false, s) => (-1, s)

end Hw

/-- `m8_insw` : `k` words, two pixels each, the first in the low byte. -/
def Hw.m8Insw (env : EngineEnv) : ℕ → Hw → List ℕ × Hw
  | 0, s => ([], s)
  | k + 1, s =>
    let r := s.inpPix env
    let t := Hw.m8Insw env k r.2
    (r.1 % 256 :: r.1 / 256 % 256 :: t.1, t.2)

/-- The pixels of a scan, `count` left at `pos` : the one that stops it, or where it goes on. -/
def scanPixels (colour : ℕ) (want : Bool) (step : ℤ) : List ℕ → ℤ → ℕ → Option ℤ × ℤ × ℕ
  | [], pos, count => (none, pos, count)
  | _ :: _, pos, 0 => (none, pos, 0)
  | p :: ps, pos, count + 1 =>
    if decide (p = colour) = want then (some pos, pos, count + 1)
    else scanPixels colour want step ps (pos + step) count

/-- `m8_hw_scanlr`'s words, four at a time. -/
def Hw.scanWords (env : EngineEnv) (colour : ℕ) (want : Bool) (step : ℤ) :
    ℕ → ℕ → ℤ → ℕ → Hw → ℤ × Hw
  | 0, _, _, _, s => (0xFFFF, s)
  | fuel + 1, words, pos, count, s =>
    if count = 0 then (0xFFFF, s)
    else
      let k := min words 4
      let r := Hw.m8Insw env k s
      match scanPixels colour want step r.1 pos count with
      | (some x, _, _) => (x, if 0 < words - k then r.2.m8ScanAbort else r.2)
      | (none, pos, count) => Hw.scanWords env colour want step fuel (words - k) pos count r.2

namespace Hw

variable (env : EngineEnv)

/-- `m8_hw_scanlr`, `left` and `want` the style's bits. -/
def m8HwScanlr (x y : ℤ) (colour : ℕ) (left want : Bool) (width : ℤ) (s : Hw) : ℤ × Hw :=
  let count := if left = true then x + 1 else width - x
  if s.hwOff = true ∨ count ≤ 0 then (0xFFFF, s)
  else
    match s.m8ReadScan env (if left = true then x + 1 else x) y
      (if left = true then 0 else width) with
    | (false, s) => (0xFFFF, s)
    | (true, s) =>
      let words := (count.toNat + 1) / 2
      s.scanWords env colour want (if left = true then -1 else 1) (words + 1) words x count.toNat

end Hw

/-! ## The assembly paths -/

/-- An assembly wait : polls until the status has `bit` clear. -/
def Hw.asmPoll (env : EngineEnv) (bit : ℕ) (room : ℤ) : ℕ → Hw → Bool × Hw
  | 0, s => (false, { s with trace := .late :: s.trace })
  | i + 1, s =>
    let r := s.inpFifo env
    if r.1 &&& bit = 0 then (true, { r.2 with room := room }) else Hw.asmPoll env bit room i r.2

/-- The polls for a read's data, and a wedged engine's reset. -/
def Hw.asmData (env : EngineEnv) : Hw → Bool × Hw := fun s => s.dataPoll env 65536

namespace Hw

variable (env : EngineEnv)

/-- An assembly path's room : what is counted, or a wait for `n`. -/
def asmRoom (n : ℤ) (bit : ℕ) (s : Hw) : Bool × Hw :=
  if s.room < n then s.asmPoll env bit n 65536 else (true, s)

/-- `Pixel`'s short set. -/
def pixelSet (x y : ℤ) (color mix : ℕ) (s : Hw) : Bool × Hw :=
  if ¬ s.HoldsPath mix ∨ s.shOk .FRGD_COLOR = false then (false, s)
  else
    match s.asmRoom env 6 0x0200 with
    | (false, s) => (false, s)
    | (true, s) => (true, s.fillWrites x y 1 1 color)

/-- `Pixel`'s short get. -/
def pixelGet (x y : ℤ) (s : Hw) : Option ℕ × Hw :=
  if s.hwOff = true ∨ s.rdOk = false ∨ s.roomOk = false then (none, s)
  else
    match s.asmRoom env 3 0x1000 with
    | (false, s) => (none, s)
    | (true, s) =>
      match (s.readWrites x y (x + 1)).asmData env with
      | (true, s) =>
        let s := { s with room := (M8_FIFO_DEPTH : ℤ) - 1 }
        (some ((s.inpPix env).1 % 256), (s.inpPix env).2)
      | (false, s) => (none, s)

/-- `BitBlt`'s short fill. -/
def bitbltFill (x y w h : ℤ) (color mix : ℕ) (s : Hw) : Bool × Hw :=
  if ¬ s.HoldsPath mix ∨ s.shOk .FRGD_COLOR = false then (false, s)
  else
    match s.asmRoom env 6 0x0200 with
    | (false, s) => (false, s)
    | (true, s) => (true, s.fillWrites x y w h color)

/-- `BitBlt`'s short copy. -/
def bitbltCopy (sx sy dx dy w h : ℤ) (s : Hw) : Bool × Hw :=
  if ¬ s.HoldsPath MIX_COPY then (false, s)
  else
    match s.asmRoom env 7 0x0100 with
    | (false, s) => (false, s)
    | (true, s) => (true, s.copyWrites (copyFrom sx sy dx dy w h) w h)

end Hw

end Inboard
