import Inboard.Ata
import Mathlib.Logic.Function.Basic

/-!
# The XT-IDE transport

The routines of `XTIDETR.ASM`, over any drive (`XtDrive`) : what it answers on its ports
is all that the driver knows of it. The module variables are fields of `Xt`, dwords as
naturals below `2 ^ 32` and addresses as `UInt32` ; a routine that answers in the carry
returns `true` for a clear one. Every access to the drive is logged, so that the log can be
read from the drive's side. The assembly switches that choose between instructions are the
fields of `XtBuild` ; `XT_WAIT_FIRST` only spins.
-/

set_option linter.unusedSectionVars false

namespace Inboard

open Ata (Reg)

/-! ## State -/

/-- The `-D` switches a build is assembled with. -/
structure XtBuild where
  pollBackoff : Bool
  yieldCommit : Bool
  fastXfer : Bool
  deriving DecidableEq, Repr

/-- What answers on the ports. -/
structure XtDrive (δ : Type*) where
  inb : Reg → δ → UInt8 × δ
  outb : Reg → UInt8 → δ → δ

/-- `XT_TR_AUTO`, `XT_TR_PIO8` and `XT_TR_LATCH`. -/
inductive XtTransport
  | auto
  | pio8
  | latch
  deriving DecidableEq, Repr

/-- `XTIDE_Cyls`, `_Heads`, `_Spt`, `_TotalSec` and `_LbaOk`, and what the `XTIDE_Unit` arrays
keep of them for each unit. -/
structure XtGeometry where
  cyls : ℕ
  heads : ℕ
  spt : ℕ
  totalSec : ℕ
  lbaOk : Bool
  deriving DecidableEq, Repr

/-- `XTIDE_oSecNum`, `_oCylLo`, `_oCylHi` and `_oDrvHd`, which either addressing mode fills. -/
structure XtAddress where
  secNum : ℕ
  cylLo : ℕ
  cylHi : ℕ
  drvHd : ℕ
  deriving DecidableEq, Repr

/-- `SRB_FUNCTION` codes. -/
inductive SrbFunction
  | executeScsi
  | flush
  | shutdown
  | resetBus
  | resetDevice
  | releaseQueue
  | other (code : UInt8)
  deriving DecidableEq, Repr

/-- `SRB_STATUS` codes. -/
inductive SrbStatus
  | success
  | error
  | selectionTimeout
  | invalidRequest
  | badFunction
  | busReset
  | timeout
  deriving DecidableEq, Repr

/-- What the miniport reads of a `SCSI_REQUEST_BLOCK`. -/
structure Srb where
  function : SrbFunction
  targetId : UInt8
  lun : UInt8
  cdb : ℕ → UInt8
  dataBuffer : UInt32
  dataTransferLength : ℕ

/-- What is logged : the accesses to the drive, the calls from SCSIPORT and what the
miniport tells it. -/
inductive XtEvent
  | access (a : Ata.Access)
  | startIo (p : UInt32) (srb : Srb)
  | timer
  | resetBus
  | srbStatus (p : UInt32) (st : SrbStatus)
  | transferLength (p : UInt32) (n : ℕ)
  | requestComplete (p : UInt32)
  | nextRequest
  | requestTimerCall (us : ℕ)

/-- The access, if it is one. -/
def XtEvent.access? : XtEvent → Option Ata.Access
  | .access a => some a
  | _ => none

/-- The module variables of the driver, its device extension and the memory it moves data
in. -/
structure Xt (δ : Type*) where
  drive : δ
  mem : UInt32 → UInt8
  log : List XtEvent
  stride : ℕ
  activeTransport : XtTransport
  tryTransport : XtTransport
  tryUnit : ℕ
  slavePresent : Bool
  geom : XtGeometry
  /-- Master and slave, as `XTIDE_StashGeometry` left them. -/
  units : Bool → XtGeometry
  reqLba : ℕ
  reqCount : ℕ
  reqBuf : UInt32
  reqIsWrite : Bool
  cmd : UInt8
  o : XtAddress
  commitPending : Bool
  deferOk : Bool
  lastStatus : UInt8
  failCode : ℕ
  inquiry : List UInt8
  dxSrb : UInt32
  dxWakes : ℕ

variable {δ : Type*}

namespace Xt

def say (s : Xt δ) (e : XtEvent) : Xt δ := { s with log := s.log ++ [e] }

variable (D : XtDrive δ)

/-- `IN AL, DX`. -/
def inb (r : Reg) (s : Xt δ) : UInt8 × Xt δ :=
  ((D.inb r s.drive).1, { s with
    drive := (D.inb r s.drive).2
    log := s.log ++ [.access (.inb r (D.inb r s.drive).1)] })

/-- `OUT DX, AL`. -/
def outb (r : Reg) (v : UInt8) (s : Xt δ) : Xt δ :=
  { s with
    drive := D.outb r v s.drive
    log := s.log ++ [.access (.outb r v)] }

end Xt

/-! ## Polling -/

def XT_SPIN : ℕ := 400000
def XT_POLL_FAST : ℕ := 32
def XT_SPIN_SLOW : ℕ := 20000
def XT_COMMIT_POLLS : ℕ := 170

/-- What a poll makes of a status byte. -/
inductive XtLook
  | again
  | ready
  | failed
  deriving DecidableEq, Repr

section Poll

variable (D : XtDrive δ)

/-- A loop of at most `n` looks at the alternate status ; `al` is the last byte read. -/
def xtPoll (look : UInt8 → XtLook) : ℕ → UInt8 → Xt δ → (XtLook × UInt8) × Xt δ
  | 0, al, s => ((.again, al), s)
  | n + 1, _, s =>
    match look (s.inb D .altStatus).1 with
    | .again => xtPoll look n (s.inb D .altStatus).1 (s.inb D .altStatus).2
    | r => ((r, (s.inb D .altStatus).1), (s.inb D .altStatus).2)

/-- The loops of a wait : one, or a fast one and a paced one. -/
def xtWait (B : XtBuild) (look : UInt8 → XtLook) (s : Xt δ) : (XtLook × UInt8) × Xt δ :=
  if B.pollBackoff then
    match xtPoll D look XT_POLL_FAST 0 s with
    | ((.again, al), s) => xtPoll D look XT_SPIN_SLOW al s
    | r => r
  else xtPoll D look XT_SPIN 0 s

def lookNotBusy (v : UInt8) : XtLook := if Ata.busy v then .again else .ready

def lookDrq (v : UInt8) : XtLook :=
  if Ata.busy v then .again
  else if Ata.err v then .failed
  else if Ata.drq v then .ready
  else .again

/-- `XTIDE_WaitNotBusy` : the status, or the carry. -/
def xtideWaitNotBusy (B : XtBuild) (s : Xt δ) : Option UInt8 × Xt δ :=
  match xtWait D B lookNotBusy s with
  | ((.ready, al), s) => (some al, s)
  | (_, s) => (none, s)

/-- `XTIDE_WaitDrq` : whether data is ready. -/
def xtideWaitDrq (B : XtBuild) (s : Xt δ) : Bool × Xt δ :=
  match xtWait D B lookDrq s with
  | ((.ready, _), s) => (true, s)
  | ((_, al), s) => (false, { s with lastStatus := al })

/-- What `XTIDE_CommitPoll` answers in EAX. -/
inductive XtCommit
  | busy
  | committed
  | failed
  deriving DecidableEq, Repr

/-- `XTIDE_CommitPoll` : one look at a write left committing. -/
def xtideCommitPoll (s : Xt δ) : XtCommit × Xt δ :=
  match s.inb D .altStatus with
  | (al, s) =>
    if Ata.busy al then (.busy, s)
    else if Ata.err al then
      (.failed, { s with commitPending := false, lastStatus := al, failCode := 14 })
    else (.committed, { s with commitPending := false })

end Poll

/-! ## The data phase -/

section Data

variable (D : XtDrive δ)

/-- `in al, dx ; mov [edi], al`. -/
def xtGet (r : Reg) (edi : UInt32) (s : Xt δ) : Xt δ :=
  { (s.inb D r).2 with mem := Function.update s.mem edi (s.inb D r).1 }

/-- `n` bytes through the data port (`rep insb`, and the loop it replaces). -/
def xtInsb : ℕ → UInt32 → Xt δ → Xt δ
  | 0, _, s => s
  | n + 1, edi, s => xtInsb n (edi + 1) (xtGet D .data edi s)

/-- `rep insw` at stride 2, where both halves of a word are cycles on the data port. -/
def xtInsw : ℕ → UInt32 → Xt δ → Xt δ
  | 0, _, s => s
  | n + 1, edi, s => xtInsw n (edi + 2) (xtGet D .data (edi + 1) (xtGet D .data edi s))

/-- `xrd_latch_loop`. -/
def xtLatchIn : ℕ → UInt32 → Xt δ → Xt δ
  | 0, _, s => s
  | n + 1, edi, s => xtLatchIn n (edi + 2) (xtGet D .hiLatch (edi + 1) (xtGet D .data edi s))

/-- `XTIDE_ReadData` : 512 bytes to EDI. -/
def xtideReadData (B : XtBuild) (edi : UInt32) (s : Xt δ) : Xt δ :=
  if s.tryTransport = .latch then xtLatchIn D 256 edi s
  else if B.fastXfer then
    if s.stride = 2 then xtInsw D 256 edi s else xtInsb D 512 edi s
  else xtInsb D 512 edi s

/-- `n` bytes out of ESI (`rep outsb`, and the loop it replaces). -/
def xtOutsb : ℕ → UInt32 → Xt δ → Xt δ
  | 0, _, s => s
  | n + 1, esi, s => xtOutsb n (esi + 1) (s.outb D .data (s.mem esi))

/-- `rep outsw` at stride 2. -/
def xtOutsw : ℕ → UInt32 → Xt δ → Xt δ
  | 0, _, s => s
  | n + 1, esi, s =>
    xtOutsw n (esi + 2) ((s.outb D .data (s.mem esi)).outb D .data (s.mem (esi + 1)))

/-- `xwd8_latch_loop` : the high byte is staged, the low byte commits the word. -/
def xtLatchOut : ℕ → UInt32 → Xt δ → Xt δ
  | 0, _, s => s
  | n + 1, esi, s =>
    xtLatchOut n (esi + 2) ((s.outb D .hiLatch (s.mem (esi + 1))).outb D .data (s.mem esi))

/-- `XTIDE_WriteData` : 512 bytes from ESI. -/
def xtideWriteData (B : XtBuild) (esi : UInt32) (s : Xt δ) : Xt δ :=
  if s.tryTransport = .latch then xtLatchOut D 256 esi s
  else if B.fastXfer then
    if s.stride = 2 then xtOutsw D 256 esi s else xtOutsb D 512 esi s
  else xtOutsb D 512 esi s

end Data

/-! ## Geometry -/

/-- The word at `off` of the IDENTIFY data. -/
def idWord (ident : ℕ → UInt8) (off : ℕ) : ℕ := (ident off).toNat + 256 * (ident (off + 1)).toNat

/-- `XTIDE_CaptureGeometry`. -/
def xtideCaptureGeometry (ident : ℕ → UInt8) : XtGeometry :=
  let totalSec := idWord ident 120 + 65536 * idWord ident 122
  { cyls := idWord ident 2
    heads := idWord ident 6
    spt := idWord ident 12
    totalSec := totalSec
    lbaOk := idWord ident 98 &&& 0x200 != 0 && totalSec != 0 }

def DRVHD_LBA : ℕ := 0xE0
def DRVHD_MASTER : ℕ := 0xA0
def DRVHD_SLAVE : ℕ := 0xB0

/-- `XTIDE_SelectUnit` : `true` is the slave. -/
def xtideSelectUnit (unit : Bool) (s : Xt δ) : Xt δ :=
  { s with
    geom := s.units unit
    tryUnit := if unit then DRVHD_SLAVE else DRVHD_MASTER }

/-! ## Commands -/

section Commands

variable (D : XtDrive δ) (B : XtBuild)

/-- The task file of an LBA28 address ; `DRVHD_LBA` has DEV clear. -/
def xtLba (tryUnit lba : ℕ) : XtAddress where
  secNum := lba % 2 ^ 8
  cylLo := lba / 2 ^ 8 % 2 ^ 8
  cylHi := lba / 2 ^ 16 % 2 ^ 8
  drvHd := lba / 2 ^ 24 % 2 ^ 4 ||| DRVHD_LBA ||| tryUnit &&& 0x10

/-- `xrs_chs` : the task file of a CHS address, if the unit has a geometry. -/
def xtChs (g : XtGeometry) (tryUnit lba : ℕ) : Option XtAddress :=
  let track := g.heads * g.spt % 2 ^ 32
  if track = 0 then none
  else
    let cyl := lba / track
    let rem := lba % track
    some {
      secNum := rem % g.spt + 1
      cylLo := cyl % 2 ^ 8
      cylHi := cyl / 2 ^ 8 % 2 ^ 8
      drvHd := rem / g.spt % 2 ^ 4 ||| tryUnit }

/-- The two addressing modes. -/
def xtAddress (g : XtGeometry) (tryUnit lba : ℕ) : Option XtAddress :=
  if g.lbaOk then some (xtLba tryUnit lba) else xtChs g tryUnit lba

/-- `xrs_program` : one block writes the task file for either address. -/
def xtProgram (s : Xt δ) : Bool × Xt δ :=
  match xtideWaitNotBusy D B (s.outb D .drvHd (UInt8.ofNat s.o.drvHd)) with
  | (none, s) => (false, { s with failCode := 7 })
  | (some _, s) =>
    let s := s.outb D .secCnt (UInt8.ofNat s.reqCount)
    let s := s.outb D .secNum (UInt8.ofNat s.o.secNum)
    let s := s.outb D .cylLo (UInt8.ofNat s.o.cylLo)
    let s := s.outb D .cylHi (UInt8.ofNat s.o.cylHi)
    let s := s.outb D .status s.cmd
    (true, { s with tryTransport := s.activeTransport })

/-- `XTIDE_ProgramTaskfile`. -/
def xtideProgramTaskfile (s : Xt δ) : Bool × Xt δ :=
  match xtideWaitNotBusy D B s with
  | (none, s) => (false, { s with failCode := 7 })
  | (some _, s) =>
    match xtAddress s.geom s.tryUnit s.reqLba with
    | none => (false, { s with failCode := 9 })
    | some o => xtProgram D B { s with o := o }

/-- How often `dec ecx ; jnz` goes round. -/
def xtLoops (ecx : ℕ) : ℕ := if ecx = 0 then 2 ^ 32 else ecx

/-- `xrd_sector` : one DRQ for each sector. -/
def xtReadLoop : ℕ → UInt32 → Xt δ → Bool × Xt δ
  | 0, _, s => (true, s)
  | n + 1, edi, s =>
    match xtideWaitDrq D B s with
    | (false, s) => (false, { s with failCode := 8 })
    | (true, s) => xtReadLoop n (edi + 512) (xtideReadData D B edi s)

/-- `XTIDE_ReadSectors`. -/
def xtideReadSectors (s : Xt δ) : Bool × Xt δ :=
  match xtideProgramTaskfile D B { s with cmd := Ata.readSectors } with
  | (false, s) => (false, s)
  | (true, s) => xtReadLoop D B (xtLoops s.reqCount) s.reqBuf s

/-- `xwr_sector`. -/
def xtWriteLoop : ℕ → UInt32 → Xt δ → Bool × Xt δ
  | 0, _, s => (true, s)
  | n + 1, esi, s =>
    match xtideWaitDrq D B s with
    | (false, s) => (false, { s with failCode := 13 })
    | (true, s) => xtWriteLoop n (esi + 512) (xtideWriteData D B esi s)

/-- `xwr_check`. -/
def xtCheck (al : UInt8) (s : Xt δ) : Bool × Xt δ :=
  if Ata.err al then (false, { s with lastStatus := al, failCode := 14 }) else (true, s)

/-- What `XTIDE_WriteSectors` does after the last block : wait for the commit, or leave it
running if it may. -/
def xtCommit (s : Xt δ) : Bool × Xt δ :=
  if B.yieldCommit && s.deferOk then
    match xtPoll D lookNotBusy XT_COMMIT_POLLS 0 s with
    | ((.ready, al), s) => xtCheck al s
    | (_, s) => (true, { s with commitPending := true })
  else
    match xtideWaitNotBusy D B s with
    | (none, s) => (false, { s with failCode := 12 })
    | (some al, s) => xtCheck al s

/-- `XTIDE_WriteSectors`. -/
def xtideWriteSectors (s : Xt δ) : Bool × Xt δ :=
  match xtideProgramTaskfile D B { s with cmd := Ata.writeSectors } with
  | (false, s) => (false, s)
  | (true, s) =>
    match xtWriteLoop D B (xtLoops s.reqCount) s.reqBuf s with
    | (false, s) => (false, s)
    | (true, s) => xtCommit D B s

def XT_MAX_CHUNK : ℕ := 128

/-- One command of `XTIDE_XferRun` : `ecx` sectors, `rest` after them. -/
def xtChunk (ecx rest : ℕ) (s : Xt δ) : Bool × Xt δ :=
  if s.reqIsWrite then
    match xtideWriteSectors D B
      { s with reqCount := ecx, deferOk := if B.yieldCommit then rest == 0 else s.deferOk } with
    | (ok, s) => (ok, { s with deferOk := if B.yieldCommit then false else s.deferOk })
  else xtideReadSectors D B { s with reqCount := ecx }

/-- `xfr_chunk`. -/
def xtXferLoop (s : Xt δ) : Bool × Xt δ :=
  if s.reqCount = 0 then (true, s)
  else
    let ecx := min s.reqCount XT_MAX_CHUNK
    let rest := s.reqCount - ecx
    match xtChunk D B ecx rest s with
    | (false, s) => (false, s)
    | (true, s) =>
      if rest = 0 then (true, { s with reqCount := rest })
      else
        xtXferLoop { s with
          reqCount := rest
          reqLba := (s.reqLba + ecx) % 2 ^ 32
          reqBuf := s.reqBuf + UInt32.ofNat (ecx * 512) }
termination_by s.reqCount
decreasing_by
  simp only [XT_MAX_CHUNK]
  omega

/-- `XTIDE_XferRun`. -/
def xtideXferRun (s : Xt δ) : Bool × Xt δ :=
  xtXferLoop D B (if B.yieldCommit then { s with commitPending := false } else s)

end Commands

end Inboard
