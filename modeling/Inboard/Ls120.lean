import Inboard.Routine
import Mathlib.Tactic.Common
import Mathlib.Logic.Function.Iterate

/-!
# The LS-120 transport

LS120TR.ASM, the nibble path, in its three layers : the parallel port (`LptPort`, whatever
is on the cable), the Shuttle EPAT protocol over it, and ATAPI over register and block
accesses (`LsBridge`), which the protocol gives. A routine that returns with CF set has
failed ; what it did by then stays.
-/

set_option linter.unusedSectionVars false

namespace Inboard

/-! ## Layer 1 : the parallel port -/

/-- What a device on the port does : `LS_WriteData`, `LS_WriteControl` and `LS_ReadStatus`. -/
structure LptPort (π : Type*) where
  writeData : UInt8 → π → π
  writeControl : UInt8 → π → π
  readStatus : π → UInt8 × π

/-! ## Layer 2 : the EPAT bridge -/

def cppConnect : UInt8 := 0xE0
def cppDisconnect : UInt8 := 0x30

/-- `NIB_WRITE_TAG`. -/
def nibWriteTag : UInt8 := 0x60

/-- The control values of `LS_OpenFrame`'s kick. -/
def cppKick : List UInt8 := [0x04, 0x0C, 0x0E, 0x0E, 0x0E, 0x04, 0x04]

/-- `CPP_PRE1` to `CPP_PRE4`, and the connect that follows them. -/
def cppPreamble : List UInt8 := [0x30, 0x40, 0x50, 0x00, cppConnect]

namespace LptPort

variable {π : Type*} (P : LptPort π)

/-- `LS_CppFrame`, each byte written `reps` times. -/
def cppFrame (reps : ℕ) (cmd : UInt8) (p : π) : π :=
  let p := P.writeControl 0x04 p
  let p := [0x22, 0xAA, 0x55, 0x00, 0xFF, 0x87, 0x78, cmd].foldl
    (fun p val => (P.writeData val)^[reps] p) p
  P.writeControl 0x04 (P.writeControl 0x05 (P.writeControl 0x04 p))

/-- `LS_OpenFrame`, less the mask of the ECP control register. -/
def openFrame (reps : ℕ) (p : π) : π :=
  let p := cppKick.foldl (fun p val => P.writeControl val p) p
  cppPreamble.foldl (fun p cmd => P.cppFrame reps cmd p) p

/-- `LS_RegReadCont` : the low nibble comes first, both in the top half. -/
def regReadCont (addr : UInt8) (p : π) : UInt8 × π :=
  let p := P.writeControl 0x01 (P.writeData addr p)
  let lo := P.readStatus (P.writeControl 0x03 (P.writeControl 0x03 p))
  let hi := P.readStatus (P.writeControl 0x04 (P.writeControl 0x04 lo.2))
  ((hi.1 &&& (0xF0 : UInt8)) ||| ((lo.1 &&& (0xF0 : UInt8)) >>> 4), hi.2)

/-- `LS_RegWriteCont`. -/
def regWriteCont (addr val : UInt8) (p : π) : π :=
  let p := P.writeData (addr ||| nibWriteTag) p
  let p := P.writeControl 0x01 (P.writeControl 0x01 p)
  P.writeControl 0x04 (P.writeData val p)

/-- `lbr_loop` : a byte a phase, two nibbles unless bit 3 says that both came at once. -/
def blockReadLoop : ℕ → UInt8 → π → List UInt8 × π
  | 0, _, p => ([], p)
  | ecx + 1, ph, p =>
    let p := if ecx = 0 then P.writeData 0xFD p else p
    let a := P.readStatus (P.writeControl (6 + ph) p)
    let b := if a.1 &&& 0x08 ≠ 0 then a else P.readStatus (P.writeControl (4 + ph) a.2)
    let r := blockReadLoop ecx (ph ^^^ 1) b.2
    (((b.1 &&& (0xF0 : UInt8)) ||| (a.1 >>> 4)) :: r.1, r.2)

/-- `LS_BlockReadSpp`. -/
def blockReadSpp (ecx : ℕ) (p : π) : List UInt8 × π :=
  if ecx = 0 then ([], p)
  else
    let p := P.writeControl 0x03 (P.writeControl 0x01 (P.writeData 0x07 p))
    let r := P.blockReadLoop ecx 0 (P.writeData 0xFF p)
    (r.1, P.writeControl 0x04 (P.writeData 0x00 r.2))

/-- `lbw_loop`. -/
def blockWriteLoop : List UInt8 → UInt8 → π → π
  | [], _, p => p
  | val :: vals, ph, p =>
    blockWriteLoop vals (ph ^^^ 1) (P.writeControl (4 + ph) (P.writeData val p))

/-- `LS_BlockWriteSpp`. -/
def blockWriteSpp (vals : List UInt8) (p : π) : π :=
  if vals = [] then p
  else
    let p := P.writeControl 0x05 (P.writeControl 0x01 (P.writeData 0x67 p))
    P.writeControl 0x04 (P.writeControl 0x07 (P.blockWriteLoop vals 0 p))

end LptPort

/-- Layer 2, as layer 3 uses it : registers by their number with its container. -/
structure LsBridge (β : Type*) where
  openFrame : β → β
  connect : β → β
  disconnect : β → β
  regRead : UInt8 → β → UInt8 × β
  regWrite : UInt8 → UInt8 → β → β
  blockRead : ℕ → β → List UInt8 × β
  blockWrite : List UInt8 → β → β

/-- The bridge on the port. `reps` is `LS_CppReps`. -/
def LptPort.bridge {π : Type*} (P : LptPort π) (reps : ℕ) : LsBridge π where
  openFrame := P.openFrame reps
  connect := P.cppFrame reps cppConnect
  disconnect := P.cppFrame reps cppDisconnect
  regRead := P.regReadCont
  regWrite := P.regWriteCont
  blockRead := P.blockReadSpp
  blockWrite := P.blockWriteSpp

/-! ## Layer 3 : ATAPI -/

def contIdectl : UInt8 := 0x10
def contTaskfile : UInt8 := 0x18

def ataRegFeatures : UInt8 := 1
def ataRegIcr : UInt8 := 2
def ataRegBclo : UInt8 := 4
def ataRegBchi : UInt8 := 5
def ataRegDrvhd : UInt8 := 6
def ataRegDevctl : UInt8 := 6
def ataRegStatus : UInt8 := 7
def ataRegCmd : UInt8 := 7

def ataStBsy : UInt8 := 0x80
def ataStDrdy : UInt8 := 0x40
def ataStDrq : UInt8 := 0x08
def ataStErr : UInt8 := 0x01

def ataCmdPacket : UInt8 := 0xA0
def ataDevctlSrst : UInt8 := 0x04
def atapiSigLo : UInt8 := 0x14
def atapiSigHi : UInt8 := 0xEB

def lsSpinBsy : ℕ := 22000
def lsSenseLen : ℕ := 18

/-- The transport's variables, and the buffer a transfer uses. -/
structure Ls (β : Type*) where
  bridge : β
  connected : Bool
  lastStatus : UInt8
  xferN : ℕ
  phase : UInt8
  senseBuf : ℕ → UInt8
  spunUp : Bool
  buf : ℕ → UInt8

section Atapi

variable {β : Type*} (B : LsBridge β)

/-- `LS_Connect`, which does not fail. -/
def lsConnect (s : Ls β) : Ls β := { s with bridge := B.connect s.bridge, connected := true }

/-- `LS_Disconnect`. -/
def lsDisconnect (s : Ls β) : Ls β :=
  { s with bridge := B.disconnect s.bridge, connected := false }

/-- The connect a command starts with, unless the bridge is held. -/
def lsHave (s : Ls β) : Ls β := if s.connected then s else lsConnect B s

/-- `LS_RegRead`. -/
def lsRegRead (al : UInt8) (s : Ls β) : UInt8 × Ls β :=
  ((B.regRead (al + contTaskfile) s.bridge).1,
    { s with bridge := (B.regRead (al + contTaskfile) s.bridge).2 })

/-- `LS_RegWrite`. -/
def lsRegWrite (al ah : UInt8) (s : Ls β) : Ls β :=
  { s with bridge := B.regWrite (al + contTaskfile) ah s.bridge }

/-- `LS_AtaPulseReset`. -/
def lsAtaPulseReset (s : Ls β) : Ls β :=
  let bridge := B.regWrite (ataRegDevctl + contIdectl) ataDevctlSrst s.bridge
  { s with bridge := B.regWrite (ataRegDevctl + contIdectl) 0 bridge }

/-- `LS_OpenReset`. -/
def lsOpenReset (s : Ls β) : Ls β :=
  lsAtaPulseReset B { s with bridge := B.openFrame s.bridge, connected := true }

/-- `LS_StatusRead` : AL, with CF set if it is FFh, and nothing drives the bus. -/
def lsStatusRead (s : Ls β) : UInt8 × Ls β := lsRegRead B ataRegStatus s

/-- `LS_PfWait`, with `ecx` polls left : until no bit of `go` is set, and one of `stop` is. -/
def lsPfWait (go stop : UInt8) : ℕ → Routine (Ls β)
  | 0, s => (false, s)
  | ecx + 1, s =>
    let al := (lsStatusRead B s).1
    let s := (lsStatusRead B s).2
    if al = 0xFF then (false, s)
    else
      let s := { s with lastStatus := al }
      if al &&& go ≠ 0 then lsPfWait go stop ecx s
      else if stop = 0 ∨ al &&& stop ≠ 0 then (al &&& stop &&& ataStErr == 0, s)
      else lsPfWait go stop ecx s

/-- `LS_BlockRead`, on the nibble path, of `ecx` bytes. -/
def lsBlockRead (ecx : ℕ) (s : Ls β) : Ls β :=
  let r := B.blockRead ecx s.bridge
  { s with bridge := r.2, buf := fun i => if i < ecx then r.1.getD i 0 else s.buf i }

/-- `LS_BlockWrite`, on the nibble path, of `ecx` bytes. -/
def lsBlockWrite (ecx : ℕ) (s : Ls β) : Ls β :=
  { s with bridge := B.blockWrite ((List.range ecx).map s.buf) s.bridge }

/-! ### One packet command -/

/-- Steps 1 to 4 of `LS_PacketCommand` : the command, up to its packet. -/
def lsIssue (cdb : List UInt8) (len : ℕ) : Routine (Ls β) :=
  (Routine.note (lsRegWrite B ataRegDrvhd 0xA0)).seq <|
  (lsPfWait B (ataStBsy ||| ataStDrq) 0 lsSpinBsy).seq <|
  (Routine.note (lsRegWrite B ataRegBclo (UInt8.ofNat len))).seq <|
  (Routine.note (lsRegWrite B ataRegBchi (UInt8.ofNat (len / 256)))).seq <|
  (Routine.note (lsRegWrite B ataRegFeatures 0)).seq <|
  (Routine.note (lsRegWrite B ataRegCmd ataCmdPacket)).seq <|
  (lsPfWait B ataStBsy ataStDrq lsSpinBsy).seq <|
  Routine.seq (fun s => ((lsRegRead B ataRegIcr s).1 &&& 0x03 == 1, (lsRegRead B ataRegIcr s).2)) <|
  Routine.note fun s => { s with bridge := B.blockWrite cdb s.bridge }

/-- The count that the device offers, rounded up to four and cut to 16 bits. -/
def lsOffered (xferN : ℕ) : ℕ := (xferN + 3) % 65536 / 4 * 4

/-- `LS_XferN` read from the device. -/
def lsReadCount (s : Ls β) : Ls β :=
  let lo := lsRegRead B ataRegBclo s
  let hi := lsRegRead B ataRegBchi { lo.2 with xferN := lo.1.toNat }
  { hi.2 with xferN := lo.1.toNat + 256 * hi.1.toNat }

/-- From `LS_XferN` on : no more than the buffer holds, and only in the direction the device
is in. -/
def lsTransfer (len : ℕ) (out : Bool) : Routine (Ls β) := fun s =>
  let ecx := min (lsOffered s.xferN) len
  if ecx = 0 then (true, s)
  else if out then if s.phase ≠ 0 then (false, s) else (true, lsBlockWrite B ecx s)
  else if s.phase ≠ 2 then (false, s) else (true, lsBlockRead B ecx s)

/-- `LS_Phase` read from the device. -/
def lsReadPhase (s : Ls β) : Ls β :=
  let icr := lsRegRead B ataRegIcr s
  { icr.2 with phase := icr.1 &&& 0x03 }

/-- The phase the device is in : 3 has no data, 1 wants a packet again. -/
def lsDataPhase (len : ℕ) (out : Bool) : Routine (Ls β) := fun s =>
  let s := lsReadPhase B s
  if s.phase = 3 then (true, s)
  else if s.phase = 1 then (false, s)
  else if s.lastStatus &&& ataStDrq = 0 then (true, s)
  else lsTransfer B len out (lsReadCount B s)

/-- `lpc_done` : no error, and nothing left to move. -/
def lsDone : Routine (Ls β) :=
  (lsPfWait B ataStBsy (ataStDrdy ||| ataStErr) lsSpinBsy).seq fun s =>
    (s.lastStatus &&& ataStErr == 0 && s.lastStatus &&& ataStDrq == 0, s)

/-- `LS_PacketCommand` between its connect and its disconnect. -/
def lsCommand (cdb : List UInt8) (len : ℕ) (out : Bool) : Routine (Ls β) :=
  (lsIssue B cdb len).seq <|
  (lsPfWait B ataStBsy (ataStDrq ||| ataStDrdy ||| ataStErr) lsSpinBsy).seq <|
  (lsDataPhase B len out).seq (lsDone B)

/-- `LS_PacketCommand` : the port is released whichever way it ends. -/
def lsPacketCommand (cdb : List UInt8) (len : ℕ) (out : Bool) : Routine (Ls β) := fun s =>
  let r := lsCommand B cdb len out (lsHave B s)
  (r.1, lsDisconnect B r.2)

/-! ### Sense and spin-up -/

/-- `LS_SenseCdb`, with the allocation length. -/
def lsSenseCdb (len : UInt8) : List UInt8 := [0x03, 0, 0, 0, len, 0, 0, 0, 0, 0, 0, 0]

def lsStartCdb : List UInt8 := [0x1B, 0, 0, 0, 1, 0, 0, 0, 0, 0, 0, 0]
def lsTurCdb : List UInt8 := [0x00, 0, 0, 0, 0, 0, 0, 0, 0, 0, 0, 0]

/-- `LS_RequestSense` into the buffer. -/
def lsRequestSense (ecx : ℕ) : Routine (Ls β) := fun s =>
  let ecx := min ecx lsSenseLen
  if ecx = 0 then (false, s) else lsPacketCommand B (lsSenseCdb (UInt8.ofNat ecx)) ecx false s

/-- `LS_RequestSense` into `LS_SenseBuf`. -/
def lsSense : Routine (Ls β) := fun s =>
  let r := lsRequestSense B lsSenseLen { s with buf := s.senseBuf }
  (r.1, { r.2 with senseBuf := r.2.buf, buf := s.buf })

/-- `LS_DrainSense`, with `ebx` requests left : until the sense key is 0. -/
def lsDrainSense : ℕ → Ls β → Ls β
  | 0, s => s
  | ebx + 1, s =>
    let r := lsSense B s
    if r.1 = false then r.2
    else if r.2.senseBuf 2 &&& 0x0F = 0 then r.2
    else lsDrainSense ebx r.2

/-- `LS_SpinUp` : once, and what the drive says to it is not looked at. -/
def lsSpinUp (s : Ls β) : Ls β :=
  if s.spunUp then s
  else
    let s := lsDrainSense B 5 { s with spunUp := true }
    let s := (lsPacketCommand B lsStartCdb 0 false s).2
    (lsPacketCommand B lsTurCdb 0 false s).2

/-! ### Polls -/

/-- What `LS_SettleStep` says. -/
inductive LsSettle
  | settling
  | ready
  | absent
  deriving DecidableEq

/-- `LS_SettleStep` : one poll after the reset. The signature alone says that a drive is
there. -/
def lsSettleStep (s : Ls β) : LsSettle × Ls β :=
  let st := lsStatusRead B s
  if st.1 = 0xFF then (.absent, st.2)
  else if st.1 &&& ataStBsy ≠ 0 then (.settling, st.2)
  else
    let lo := lsRegRead B ataRegBclo st.2
    if lo.1 ≠ atapiSigLo then (.absent, lo.2)
    else
      let hi := lsRegRead B ataRegBchi lo.2
      if hi.1 ≠ atapiSigHi then (.absent, hi.2) else (.ready, hi.2)

end Atapi

end Inboard
