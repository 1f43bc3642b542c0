import Inboard.Steps
import Mathlib.Logic.Function.Basic

/-!
# The EPAT parallel-port bridge

lpt_epat.c : an ATAPI drive behind a parallel port. The host writes the data and the
control port and reads the status port ; the bridge recognises the unlock frame, reads and
writes registers, and streams blocks to and from the drive. The drive is a parameter
(`LptDrive`) : its state is what the bridge shares with it, and the four functions the
bridge calls may do anything to it. The bytes that follow `epat_unlock` in memory are a
parameter too (`past`), since the recogniser may compare with them.

A state carries a log of what it did : the entries of `epat_unlock` compared, the register
values and stream bytes applied, the calls to the drive, and uses of the drive's pointer
while it is NULL.
-/

set_option linter.unusedSectionVars false

namespace Inboard

/-! ## The drive -/

/-- `packet_status`. -/
inductive PacketPhase where
  | idle
  | command
  | dataIn
  | dataOut
  | dataInDma
  | dataOutDma
  | complete
  | error
  | none
  deriving DecidableEq

/-- `ide_tf_t`. -/
structure IdeTf where
  features : UInt8
  phase : UInt8
  requestLength : UInt16
  atastat : UInt8
  error : UInt8
  drvsel : UInt8
  pos : ℕ

/-- `scsi_common_t` with its task file, and what the drive keeps for itself. -/
structure ScsiCommon (δ : Type*) where
  tf : IdeTf
  tempBuffer : Option (ℕ → UInt8)
  atapiCdb : ℕ → UInt8
  maxTransferLen : ℕ
  packetStatus : PacketPhase
  requestPos : ℕ
  packetLen : ℕ
  unitAttention : ℕ
  priv : δ

/-- The functions of a `scsi_device_t`. -/
inductive DriveFn where
  | command
  | phaseDataOut
  | commandStop
  | reset
  deriving DecidableEq

/-- The drive assigned to the port, or none, and what its functions do. -/
structure LptDrive (δ : Type*) where
  device : Option (ScsiCommon δ)
  call : DriveFn → ScsiCommon δ → ScsiCommon δ

def errStat : UInt8 := 0x01
def drqStat : UInt8 := 0x08
def readyStat : UInt8 := 0x40
def busyStat : UInt8 := 0x80

/-! ## The bridge -/

/-- `epat_unlock_state_t`. -/
inductive EpatUnlockState where
  | idle
  | run
  | cmd
  deriving DecidableEq

/-- `EPAT_BLOCK_NONE`, `EPAT_BLOCK_READ`, `EPAT_BLOCK_WRITE`. -/
inductive EpatBlock where
  | none
  | read
  | write
  deriving DecidableEq

/-- What the bridge did. -/
inductive EpatEvent (δ : Type*) where
  | compared (upos : ℕ)
  | reg (addr val : UInt8)
  | stream (val : UInt8)
  | called (fn : DriveFn) (left : ScsiCommon δ)
  | null

/-- `epat_t`. -/
structure Epat (δ : Type*) where
  sd : Option (ScsiCommon δ)
  noDrive : Bool
  block : EpatBlock
  blockArm : EpatBlock
  blockHalf : Bool
  blockLatch : UInt8
  data : UInt8
  ctrl : UInt8
  status : UInt8
  ustate : EpatUnlockState
  upos : ℕ
  ulast : UInt8
  udup : Bool
  ucmd : UInt8
  connected : Bool
  regAddr : UInt8
  regLatch : UInt8
  regWrite : Bool
  nibbleHi : Bool
  regs : UInt8 → UInt8
  log : List (EpatEvent δ)

/-- `EPAT_STAT_IDLE`. -/
def epatStatIdle : UInt8 := 0x38

/-- `EPAT_REG_TASKFILE`. -/
def epatRegTaskfile : UInt8 := 0x18

/-- `epat_init`. -/
def epatInit {δ : Type*} : Epat δ where
  sd := none
  noDrive := false
  block := .none
  blockArm := .none
  blockHalf := false
  blockLatch := 0
  data := 0
  ctrl := 0
  status := epatStatIdle
  ustate := .idle
  upos := 0
  ulast := 0
  udup := false
  ucmd := 0
  connected := false
  regAddr := 0
  regLatch := 0
  regWrite := false
  nibbleHi := false
  regs := fun _ => 0
  log := []

variable {δ : Type*}

/-- Log what was done. -/
def Epat.say (es : List (EpatEvent δ)) (dev : Epat δ) : Epat δ := { dev with log := dev.log ++ es }

/-! ## The unlock recogniser -/

/-- `epat_unlock`. -/
def epatUnlockTable : List UInt8 := [0x22, 0xAA, 0x55, 0x00, 0xFF, 0x87, 0x78]

/-- `epat_unlock[upos]`, and what follows the table. -/
def epatUnlock (past : ℕ → UInt8) (upos : ℕ) : UInt8 :=
  epatUnlockTable.getD upos (past (upos - 7))

/-- The checkpoint published after a match. -/
def epatCheckpoint (dev : Epat δ) : Epat δ :=
  if dev.upos = 5 then { dev with status := 0xB8 }
  else if dev.upos = 6 then { dev with status := 0x58 }
  else if dev.upos = 7 then { dev with status := 0xF0, ustate := .cmd }
  else dev

/-- A byte that is not a repeat, against the frame. -/
def epatUnlockMatch (past : ℕ → UInt8) (val : UInt8) (dev : Epat δ) : Epat δ :=
  if val = epatUnlock past dev.upos then
    epatCheckpoint { dev with upos := dev.upos + 1, ustate := .run }
  else if val = epatUnlock past 0 then { dev with upos := 1, ustate := .run }
  else { dev with upos := 0, ustate := .idle }

/-- `epat_unlock_feed`, whose result its caller ignores. -/
def epatUnlockFeed (past : ℕ → UInt8) (val : UInt8) (dev : Epat δ) : Epat δ :=
  if dev.udup ∧ val = dev.ulast then { dev with udup := false }
  else if dev.ustate = .cmd then
    { dev with ulast := val, udup := true, ucmd := val, ustate := .idle }
  else epatUnlockMatch past val
    ({ dev with ulast := val, udup := true }.say [.compared dev.upos])

/-! ## The packet phases -/

section Drive

variable (D : LptDrive δ)

/-- `epat_attach_drive`. -/
def epatAttachDrive (dev : Epat δ) : Epat δ :=
  if dev.sd.isSome then dev
  else if dev.noDrive then dev
  else { dev with sd := D.device, noDrive := D.device.isNone }

/-- What the bridge left of the drive, and what it did. -/
abbrev Drove (δ : Type*) := ScsiCommon δ × List (EpatEvent δ)

/-- `epat_atapi_callback` in a phase other than PHASE_COMMAND. -/
def epatAtapiPhase (sc : ScsiCommon δ) : ScsiCommon δ :=
  match sc.packetStatus with
  | .idle => { sc with
      tf.pos := 0
      tf.phase := 1
      tf.atastat := readyStat ||| drqStat ||| (sc.tf.atastat &&& errStat) }
  | .complete => { sc with tf.atastat := readyStat, tf.phase := 3, packetStatus := .none }
  | .error => { sc with tf.atastat := readyStat ||| errStat, tf.phase := 3, packetStatus := .none }
  | .dataIn => { sc with
      tf.atastat := readyStat ||| drqStat ||| (sc.tf.atastat &&& errStat)
      tf.phase := 2 }
  | .dataOut => { sc with
      tf.atastat := readyStat ||| drqStat ||| (sc.tf.atastat &&& errStat)
      tf.phase := 0 }
  | .command | .dataInDma | .dataOutDma | .none => sc

/-- `epat_atapi_callback`. The command's own phase is acted on at once. -/
def epatAtapiCallback (sc : ScsiCommon δ) : Drove δ :=
  if sc.packetStatus = .command then
    let sc := D.call .command
      { sc with tf.atastat := busyStat ||| (sc.tf.atastat &&& errStat) }
    (epatAtapiPhase sc, [.called .command sc])
  else (epatAtapiPhase sc, [])

/-- The end of a whole transfer : the drive's second phase, or the end of the command. -/
def epatPioEnd (fn : DriveFn) (sc : ScsiCommon δ) : Drove δ :=
  let sc := D.call fn { sc with tf.pos := 0, requestPos := 0 }
  if sc.packetStatus = .complete then
    let r := epatAtapiCallback D sc
    (r.1, .called fn sc :: r.2)
  else (sc, [.called fn sc])

/-- The end of a block : the next one, its length cut to what is left. -/
def epatPioNext (out : Bool) (sc : ScsiCommon δ) : Drove δ :=
  let sc :=
    if sc.packetLen - sc.tf.pos < sc.maxTransferLen then
      { sc with
        maxTransferLen := sc.packetLen - sc.tf.pos
        tf.requestLength := UInt16.ofNat (sc.packetLen - sc.tf.pos) }
    else sc
  let r := epatAtapiCallback D { sc with packetStatus := if out then .dataOut else .dataIn }
  ({ r.1 with requestPos := 0 }, r.2)

/-- `epat_pio_request`. -/
def epatPioRequest (out : Bool) (sc : ScsiCommon δ) : Drove δ :=
  let sc := { sc with tf.atastat := busyStat }
  if sc.packetLen ≤ sc.tf.pos then epatPioEnd D (if out then .phaseDataOut else .commandStop) sc
  else epatPioNext D out sc

/-- The transfer goes on, or has reached the end of a block. -/
def epatPioStep (out : Bool) (sc : ScsiCommon δ) : Drove δ :=
  if sc.maxTransferLen ≤ sc.requestPos ∨ sc.packetLen ≤ sc.tf.pos then epatPioRequest D out sc
  else (sc, [])

/-- `epat_data_read`, of an attached drive. -/
def scDataRead (sc : ScsiCommon δ) : UInt8 × Drove δ :=
  match sc.tempBuffer with
  | none => (0, sc, [])
  | some buf =>
    if sc.packetStatus ≠ .dataIn then (0, sc, [])
    else
      (if sc.tf.pos < sc.packetLen then buf sc.tf.pos else 0,
        epatPioStep D false { sc with tf.pos := sc.tf.pos + 1, requestPos := sc.requestPos + 1 })

/-- `epat_data_write`, to an attached drive. -/
def scDataWrite (val : UInt8) (sc : ScsiCommon δ) : Drove δ :=
  match sc.packetStatus with
  | .idle =>
    let sc := { sc with
      atapiCdb := Function.update sc.atapiCdb sc.tf.pos val
      tf.pos := sc.tf.pos + 1
      requestPos := sc.requestPos + 1 }
    if 12 ≤ sc.tf.pos then
      epatAtapiCallback D
        { sc with tf.pos := 0, tf.atastat := busyStat, packetStatus := .command }
    else (sc, [])
  | .dataOut =>
    match sc.tempBuffer with
    | none => (sc, [])
    | some buf => epatPioStep D true { sc with
        tempBuffer := some (Function.update buf sc.tf.pos val)
        tf.pos := sc.tf.pos + 1
        requestPos := sc.requestPos + 1 }
  | _ => (sc, [])

/-- `epat_command`. -/
def epatCommand (cmd : UInt8) (sc : ScsiCommon δ) : ScsiCommon δ :=
  if cmd ≠ 0xA0 then
    { sc with tf.atastat := readyStat ||| errStat ||| 0x10, tf.error := 0x04 }
  else
    { sc with
      tf.pos := 0
      packetStatus := .idle
      tf.phase := 1
      tf.atastat := readyStat ||| drqStat }

/-- Keep what the bridge left of the drive. -/
def Epat.drove (r : Drove δ) (dev : Epat δ) : Epat δ := { dev with sd := some r.1 }.say r.2

/-- `epat_data_read`. -/
def epatDataRead (dev : Epat δ) : UInt8 × Epat δ :=
  match dev.sd with
  | none => (0, dev.say [.null])
  | some sc => ((scDataRead D sc).1, dev.drove (scDataRead D sc).2)

/-- `epat_data_write`. -/
def epatDataWrite (val : UInt8) (dev : Epat δ) : Epat δ :=
  match dev.sd with
  | none => dev.say [.null]
  | some sc => dev.drove (scDataWrite D val sc)

/-! ## Registers -/

/-- A register of the task file, of an attached drive. -/
def tfRead (addr : UInt8) (sc : ScsiCommon δ) (dev : Epat δ) : UInt8 × Epat δ :=
  match (addr - epatRegTaskfile).toNat with
  | 0 => epatDataRead D dev
  | 1 => (sc.tf.error, dev)
  | 2 => (sc.tf.phase, dev)
  | 4 => (sc.tf.requestLength.toUInt8, dev)
  | 5 => ((sc.tf.requestLength >>> 8).toUInt8, dev)
  | 6 => (sc.tf.drvsel, dev)
  | 7 => (sc.tf.atastat, dev)
  | _ => (dev.regs addr, dev)

/-- `epat_reg_read`. -/
def epatRegRead (addr : UInt8) (dev : Epat δ) : UInt8 × Epat δ :=
  let dev := epatAttachDrive D dev
  match dev.sd with
  | none => (dev.regs addr, dev)
  | some sc =>
    if addr = 0x07 then epatDataRead D dev
    else if addr < epatRegTaskfile ∨ epatRegTaskfile + 7 < addr then (dev.regs addr, dev)
    else tfRead D addr sc dev

/-- A write to a register of the task file, of an attached drive. -/
def tfWrite (addr val : UInt8) (sc : ScsiCommon δ) : Drove δ :=
  match (addr - epatRegTaskfile).toNat with
  | 0 => scDataWrite D val sc
  | 1 => ({ sc with tf.features := val }, [])
  | 2 => ({ sc with tf.phase := val }, [])
  | 4 => ({ sc with tf.requestLength :=
      (sc.tf.requestLength &&& (0xFF00 : UInt16)) ||| val.toUInt16 }, [])
  | 5 => ({ sc with
      tf.requestLength := (sc.tf.requestLength &&& (0x00FF : UInt16)) ||| val.toUInt16 <<< 8 }, [])
  | 6 => ({ sc with tf.drvsel := val }, [])
  | 7 => (epatCommand val sc, [])
  | _ => (sc, [])

/-- `epat_reg_write`. -/
def epatRegWrite (addr val : UInt8) (dev : Epat δ) : Epat δ :=
  let dev := { dev with regs := Function.update dev.regs addr val }.say [.reg addr val]
  let dev := epatAttachDrive D dev
  match dev.sd with
  | none => dev
  | some sc =>
    if addr < epatRegTaskfile ∨ epatRegTaskfile + 7 < addr then dev
    else dev.drove (tfWrite D addr val sc)

/-- `epat_device_reset`. -/
def epatDeviceReset (dev : Epat δ) : Epat δ :=
  let regs : UInt8 → UInt8 := fun addr =>
    if addr = 0x1F then 0x40 ||| 0x10 else if addr = 0x1C then 0x14
    else if addr = 0x1D then 0xEB else 0
  let dev := epatAttachDrive D { dev with regs := regs }
  match dev.sd with
  | none => dev
  | some sc =>
    let sc := D.call .reset sc
    dev.drove ({ sc with unitAttention := 1 }, [.called .reset sc])

/-! ## The ports -/

/-- The value of the register a tagged write addressed. -/
def epatRegValue (val : UInt8) (dev : Epat δ) : Epat δ :=
  let dev := { dev with regWrite := false }
  if dev.regAddr < 0x20 then
    let addr := dev.regAddr
    let dev := epatRegWrite D addr val dev
    if addr = 0x16 ∧ val &&& 0x04 = 0 then epatDeviceReset D dev else dev
  else dev

/-- The number of a register, tagged with 0x60 to write it. Register 7 arms a block. -/
def epatRegSelect (val : UInt8) (dev : Epat δ) : Epat δ :=
  if val = 0x60 ||| 0x07 then { dev with blockArm := .write }
  else if val = 0x07 then { dev with blockArm := .read }
  else if val &&& 0x60 ≠ 0 then { dev with regAddr := val &&& ~~~0x60, regWrite := true }
  else { dev with regAddr := val, nibbleHi := false }

/-- A byte that is not the unlock frame's, of a connected bridge. -/
def epatWriteByte (val : UInt8) (dev : Epat δ) : Epat δ :=
  match dev.block with
  | .write => epatDataWrite D val (dev.say [.stream val])
  | .read => if val = 0 then { dev with block := .none } else dev
  | .none => if dev.regWrite then epatRegValue D val dev else epatRegSelect val dev

/-- `epat_write_data`. -/
def epatWriteData (past : ℕ → UInt8) (val : UInt8) (dev : Epat δ) : Epat δ :=
  let dev := epatUnlockFeed past val { dev with data := val }
  if dev.ustate ≠ .idle ∨ dev.ucmd ≠ 0 then dev
  else if ¬dev.connected then dev
  else epatWriteByte D val dev

end Drive

/-- The rising edge of nINIT, with a frame pending. -/
def epatCommit (val : UInt8) (dev : Epat δ) : Epat δ :=
  if dev.ctrl &&& 0x01 = 0 ∧ val &&& 0x01 ≠ 0 ∧ dev.ustate = .idle ∧ dev.ucmd ≠ 0 then
    if dev.ucmd = 0xE0 then
      { dev with connected := true, status := epatStatIdle, ucmd := 0, upos := 0 }
    else if dev.ucmd = 0x30 then
      { dev with connected := false, status := epatStatIdle, ucmd := 0, upos := 0 }
    else { dev with ucmd := 0, upos := 0 }
  else dev

/-- The strobes of a register access. -/
def epatStrobe (val : UInt8) (dev : Epat δ) : Epat δ :=
  if dev.connected ∧ val = 0x01 then { dev with ustate := .idle, upos := 0, nibbleHi := false }
  else if dev.connected ∧ val = 0x03 then { dev with nibbleHi := false }
  else if dev.connected ∧ val = 0x04 ∧ dev.ucmd = 0 then { dev with nibbleHi := true }
  else dev

/-- `epat_write_ctrl` after the commit. -/
def epatHandshake (val : UInt8) (dev : Epat δ) : Epat δ :=
  if dev.connected ∧ dev.blockArm = .write ∧ val = 0x05 then
    { dev with block := .write, blockArm := .none }
  else if dev.connected ∧ dev.blockArm = .read ∧ val = 0x03 then
    { dev with block := .read, blockArm := .none, blockHalf := false }
  else if dev.block = .write ∧ val = 0x07 then { dev with block := .none }
  else if dev.block ≠ .none then dev
  else epatStrobe val dev

/-- `epat_write_ctrl`. -/
def epatWriteCtrl (val : UInt8) (dev : Epat δ) : Epat δ :=
  { epatHandshake val (epatCommit val dev) with ctrl := val }

/-- The nibbles of a register : fetched once, the low one first. -/
def epatReadNibble (D : LptDrive δ) (dev : Epat δ) : UInt8 × Epat δ :=
  if dev.nibbleHi then ((dev.regLatch &&& 0xF0) ||| (epatStatIdle &&& 0x0F), dev)
  else
    let r := epatRegRead D dev.regAddr dev
    (((r.1 &&& 0x0F) <<< 4) ||| (epatStatIdle &&& 0x0F), { r.2 with regLatch := r.1 })

/-- `epat_read_status`. -/
def epatReadStatus (D : LptDrive δ) (dev : Epat δ) : UInt8 × Epat δ :=
  if dev.ustate ≠ .idle ∨ ¬dev.connected then (dev.status, dev)
  else if dev.block = .read then
    if dev.blockHalf then (dev.blockLatch &&& 0xF0, { dev with blockHalf := false })
    else
      let r := epatDataRead D dev
      ((r.1 &&& 0x0F) <<< 4, { r.2 with blockLatch := r.1, blockHalf := true })
  else if 0x20 ≤ dev.regAddr then (dev.status, dev)
  else epatReadNibble D dev

/-- `epat_read_ctrl`. -/
def epatReadCtrl (dev : Epat δ) : UInt8 := dev.ctrl

/-- An access of the host to the port. -/
inductive EpatAccess where
  | data (val : UInt8)
  | ctrl (val : UInt8)
  | readStatus
  | readCtrl
  deriving DecidableEq

/-- The bridge after an access. -/
def epatAccess (past : ℕ → UInt8) (D : LptDrive δ) (dev : Epat δ) : EpatAccess → Epat δ
  | .data val => epatWriteData D past val dev
  | .ctrl val => epatWriteCtrl val dev
  | .readStatus => (epatReadStatus D dev).2
  | .readCtrl => dev

end Inboard
