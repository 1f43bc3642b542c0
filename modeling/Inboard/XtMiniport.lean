import Inboard.XtTransport

/-!
# The XT-IDE SCSI miniport

`XTIDEMP.ASM` over the transport : the entry points SCSIPORT calls (`XtCall`), what they
answer, and a run of such calls. A request is completed by `XtFinish`, once, with the
notification of its end and the request for the next ; the one that is not is a write
whose commit outlasts `XtStartIo`, which `XtTimer` or `XtResetBus` completes.
-/

set_option linter.unusedSectionVars false

namespace Inboard

variable {δ : Type*}

/-! ## Requests -/

/-- `XtFinish`. -/
def xtFinish (p : UInt32) (st : SrbStatus) (s : Xt δ) : Xt δ :=
  ((s.say (.srbStatus p st)).say (.requestComplete p)).say .nextRequest

/-- `rep movsb` to EDI. -/
def xtStore (mem : UInt32 → UInt8) : UInt32 → List UInt8 → UInt32 → UInt8
  | _, [] => mem
  | edi, b :: bs => xtStore (Function.update mem edi b) (edi + 1) bs

/-- `xsi_copyout` : a reply, clamped to what was asked for. -/
def xtCopyOut (p : UInt32) (srb : Srb) (reply : List UInt8) (s : Xt δ) : Xt δ :=
  if srb.dataBuffer = 0 then xtFinish p .invalidRequest s
  else
    let len := min reply.length srb.dataTransferLength
    let s := { s with mem := xtStore s.mem srb.dataBuffer (reply.take len) }
    xtFinish p .success (s.say (.transferLength p len))

/-- `XtModeSense`. -/
def xtModeSense : List UInt8 := [3, 0, 0, 0]

/-- The size `xsi_capacity` reports : the LBA28 capacity, or the CHS product. -/
def xtCapacity (g : XtGeometry) : ℕ :=
  if g.totalSec ≠ 0 then g.totalSec else g.cyls * g.heads % 2 ^ 32 * g.spt % 2 ^ 32

/-- The reply to READ CAPACITY : the last LBA and the block length, high byte first. -/
def xtCapacityReply (last : ℕ) : List UInt8 :=
  [UInt8.ofNat (last / 2 ^ 24), UInt8.ofNat (last / 2 ^ 16), UInt8.ofNat (last / 2 ^ 8),
    UInt8.ofNat last, 0, 0, 2, 0]

/-- `xsi_capacity`. -/
def xtReadCapacity (p : UInt32) (srb : Srb) (s : Xt δ) : Xt δ :=
  if xtCapacity s.geom = 0 then xtFinish p .invalidRequest s
  else xtCopyOut p srb (xtCapacityReply (xtCapacity s.geom - 1)) s

def XT_COMMIT_TIMER_US : ℕ := 1000
def XT_COMMIT_WAKES : ℕ := 100

/-- `xsi_yield` : the request stays open until `XtTimer` finishes it. -/
def xtYield (p : UInt32) (s : Xt δ) : Xt δ :=
  { s with dxSrb := p, dxWakes := 0 }.say (.requestTimerCall XT_COMMIT_TIMER_US)

/-- A request past the end of a medium whose LBA28 capacity is known. -/
def xtPastEnd (s : Xt δ) : Bool :=
  s.geom.totalSec != 0 &&
    (2 ^ 32 ≤ s.reqLba + s.reqCount || s.geom.totalSec < s.reqLba + s.reqCount)

section Drive

variable (D : XtDrive δ) (B : XtBuild)

/-- `xsi_nobound`, with a buffer. -/
def xtTransferRun (p : UInt32) (s : Xt δ) : Xt δ :=
  match xtideXferRun D B s with
  | (false, s) => xtFinish p .error s
  | (true, s) => if B.yieldCommit && s.commitPending then xtYield p s else xtFinish p .success s

/-- `xsi_transfer`. -/
def xtTransfer (p : UInt32) (srb : Srb) (s : Xt δ) : Xt δ :=
  if s.reqCount = 0 then xtFinish p .success s
  else if xtPastEnd s then xtFinish p .invalidRequest s
  else if srb.dataBuffer = 0 then xtFinish p .invalidRequest s
  else xtTransferRun D B p { s with reqBuf := srb.dataBuffer }

/-- `xsi_rw10` : LBA at [2..5], count at [7..8]. -/
def cdbLba10 (cdb : ℕ → UInt8) : ℕ :=
  (((cdb 2).toNat * 2 ^ 8 + (cdb 3).toNat) * 2 ^ 8 + (cdb 4).toNat) * 2 ^ 8 + (cdb 5).toNat

def cdbCount10 (cdb : ℕ → UInt8) : ℕ := (cdb 7).toNat * 2 ^ 8 + (cdb 8).toNat

/-- `xsi_rw6` : 21 bits of LBA at [1..3], and a count of 0 is 256. -/
def cdbLba6 (cdb : ℕ → UInt8) : ℕ :=
  ((cdb 1 &&& 0x1F).toNat * 2 ^ 8 + (cdb 2).toNat) * 2 ^ 8 + (cdb 3).toNat

def cdbCount6 (cdb : ℕ → UInt8) : ℕ := if cdb 4 = 0 then 256 else (cdb 4).toNat

/-- What a READ or WRITE CDB asks for. -/
structure XtRequest where
  isWrite : Bool
  lba : ℕ
  count : ℕ
  deriving DecidableEq, Repr

/-- `xsi_read10`, `xsi_write10`, `xsi_read6` and `xsi_write6`. -/
def cdbRequest (cdb : ℕ → UInt8) : Option XtRequest :=
  if cdb 0 = 0x28 then some ⟨false, cdbLba10 cdb, cdbCount10 cdb⟩
  else if cdb 0 = 0x2A then some ⟨true, cdbLba10 cdb, cdbCount10 cdb⟩
  else if cdb 0 = 0x08 then some ⟨false, cdbLba6 cdb, cdbCount6 cdb⟩
  else if cdb 0 = 0x0A then some ⟨true, cdbLba6 cdb, cdbCount6 cdb⟩
  else none

/-- TEST UNIT READY, SYNCHRONIZE CACHE, VERIFY, START STOP UNIT, REZERO UNIT, SEEK, MEDIUM
REMOVAL and MODE SELECT(6), which succeed without the drive. -/
def quietOpcodes : List UInt8 := [0x00, 0x35, 0x2F, 0x1B, 0x01, 0x2B, 0x1E, 0x15]

/-- The dispatch on the opcode, after `xsi_target_ok`. -/
def xtCommand (p : UInt32) (srb : Srb) (s : Xt δ) : Xt δ :=
  match cdbRequest srb.cdb with
  | some r =>
    xtTransfer D B p srb { s with reqIsWrite := r.isWrite, reqLba := r.lba, reqCount := r.count }
  | none =>
    if srb.cdb 0 = 0x12 then xtCopyOut p srb s.inquiry s
    else if srb.cdb 0 = 0x25 then xtReadCapacity p srb s
    else if srb.cdb 0 = 0x1A then xtCopyOut p srb xtModeSense s
    else if srb.cdb 0 ∈ quietOpcodes then xtFinish p .success s
    else xtFinish p .invalidRequest s

/-- `xsi_execute` : the master, or a slave that was found. -/
def xtExecute (p : UInt32) (srb : Srb) (s : Xt δ) : Xt δ :=
  if srb.lun ≠ 0 then xtFinish p .selectionTimeout s
  else if srb.targetId = 0 ∨ srb.targetId = 1 ∧ s.slavePresent then
    xtCommand D B p srb (xtideSelectUnit (srb.targetId == 1) s)
  else xtFinish p .selectionTimeout s

/-- `XtStartIo`. -/
def xtStartIo (p : UInt32) (srb : Srb) (s : Xt δ) : Xt δ :=
  let s := s.say (.startIo p srb)
  match srb.function with
  | .executeScsi => xtExecute D B p srb s
  | .flush | .shutdown | .resetBus | .resetDevice | .releaseQueue => xtFinish p .success s
  | .other _ => xtFinish p .badFunction s

/-! ## The start -/

/-- A driver that has probed its units, before the first call : SCSIPORT zeroes the device
extension. -/
def Xt.probed (drive : δ) (units : Bool → XtGeometry) (slavePresent : Bool) : Xt δ where
  drive := drive
  mem := fun _ => 0
  log := []
  stride := 2
  activeTransport := .pio8
  tryTransport := .pio8
  tryUnit := DRVHD_MASTER
  slavePresent := slavePresent
  geom := units false
  units := units
  reqLba := 0
  reqCount := 0
  reqBuf := 0
  reqIsWrite := false
  cmd := 0
  o := ⟨0, 0, 0, 0⟩
  commitPending := false
  deferOk := false
  lastStatus := 0
  failCode := 0
  inquiry := []
  dxSrb := 0
  dxWakes := 0

/-! ## The other entry points -/

/-- The end of a request that was waiting : `xtm_finish`. -/
def xtRelease (st : SrbStatus) (s : Xt δ) : Xt δ :=
  xtFinish s.dxSrb st { s with dxSrb := 0 }

/-- A look at a waiting request : `xtm_idle`, the next tick or `xtm_timeout`. -/
def xtWake (s : Xt δ) : Xt δ :=
  match xtideCommitPoll D s with
  | (.committed, s) => xtRelease .success s
  | (.failed, s) => xtRelease .error s
  | (.busy, s) =>
    let s := { s with dxWakes := s.dxWakes + 1 }
    if XT_COMMIT_WAKES ≤ s.dxWakes then xtRelease .timeout { s with commitPending := false }
    else s.say (.requestTimerCall XT_COMMIT_TIMER_US)

/-- `XtTimer`, which a build without `XT_YIELD_COMMIT` does not have. -/
def xtTimer (s : Xt δ) : Xt δ :=
  if B.yieldCommit then
    let s := s.say .timer
    if s.dxSrb = 0 then s else xtWake D s
  else s

/-- `XtResetBus` : a waiting write is handed back. -/
def xtResetBus (s : Xt δ) : Xt δ :=
  let s := s.say .resetBus
  if B.yieldCommit && s.dxSrb != 0 then
    xtRelease .busReset ({ s with commitPending := false }.say (.requestTimerCall 0))
  else s

/-! ## Runs -/

/-- A call from SCSIPORT. -/
inductive XtCall
  | startIo (p : UInt32) (srb : Srb)
  | timer
  | resetBus

def xtCall (s : Xt δ) : XtCall → Xt δ
  | .startIo p srb => xtStartIo D B p srb s
  | .timer => xtTimer D B s
  | .resetBus => xtResetBus B s

def xtRun (s : Xt δ) (calls : List XtCall) : Xt δ := calls.foldl (xtCall D B) s

@[simp] theorem xtRun_nil (s : Xt δ) : xtRun D B s [] = s := rfl

@[simp] theorem xtRun_cons (s : Xt δ) (c : XtCall) (calls : List XtCall) :
    xtRun D B s (c :: calls) = xtRun D B (xtCall D B s c) calls := rfl

end Drive

end Inboard
