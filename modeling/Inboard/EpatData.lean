import Inboard.EpatUnlock

/-!
# Register and block writes of the EPAT bridge

The host writes a register, or a block of bytes to register 7, with the bridge connected
and no frame and no transfer under way (`Ready`). What arrives is what the host wrote,
in order, exactly when no value is 22h, the first byte of the unlock frame, and no block
is written before the drive is looked up (`epat_applied_iff`).
-/

set_option linter.unusedSectionVars false

namespace Inboard

variable {δ : Type*}

open Steps (new)

/-! ## What the host writes -/

/-- A register write, or a block write to register 7. -/
inductive HostOp where
  | reg (addr val : UInt8)
  | block (vals : List UInt8)

/-- A register write names a register of the bridge. Register 7 arms a block instead. -/
def HostOp.Valid : HostOp → Prop
  | .reg addr _ => addr < 0x20 ∧ addr ≠ 0x07
  | .block _ => True

/-- The accesses of a write. -/
def HostOp.accesses : HostOp → List EpatAccess
  | .reg addr val => [.data (0x60 + addr), .ctrl 0x01, .data val, .ctrl 0x04]
  | .block vals => [.data 0x67, .ctrl 0x01, .ctrl 0x05] ++ vals.map .data ++ [.ctrl 0x07]

/-- The values of a write. -/
def HostOp.vals : HostOp → List UInt8
  | .reg _ val => [val]
  | .block vals => vals

/-- What the bridge is to do. -/
def HostOp.wanted : HostOp → List (EpatEvent δ)
  | .reg addr val => [.reg addr val]
  | .block vals => vals.map .stream

/-- A register value applied, a byte delivered, or the drive's NULL pointer used. -/
def EpatEvent.isApplied : EpatEvent δ → Bool
  | .reg _ _ | .stream _ | .null => true
  | .compared _ | .called _ _ => false

/-- What the bridge has applied. -/
def applied (es : List (EpatEvent δ)) : List (EpatEvent δ) := es.filter EpatEvent.isApplied

theorem applied_append (es es' : List (EpatEvent δ)) :
    applied (es ++ es') = applied es ++ applied es' :=
  List.filter_append _ _

theorem applied_eq_nil {es : List (EpatEvent δ)} (h : ∀ e ∈ es, ¬e.isApplied) :
    applied es = [] :=
  List.filter_eq_nil_iff.2 h

theorem EpatEvent.IsCall.not_isApplied {e : EpatEvent δ} (h : e.IsCall) : ¬e.isApplied := by
  cases e <;> first | exact Bool.false_ne_true | exact h.elim

theorem EpatEvent.IsCompared.not_isApplied {e : EpatEvent δ} (h : e.IsCompared) :
    ¬e.isApplied := by
  cases e <;> first | exact Bool.false_ne_true | exact h.elim

/-! ## The drive's side -/

section Drive

variable (D : LptDrive δ)

/-- A drive that was looked for and not found is not there. -/
def Epat.DriveInv (dev : Epat δ) : Prop := dev.noDrive → D.device = none

/-- From `dev` to `dev'` the bridge applied `es`, and looked the drive up if `look` says so. -/
structure Epat.Did (look : Bool) (es : List (EpatEvent δ)) (dev dev' : Epat δ) : Prop where
  log : ∃ es', dev'.log = dev.log ++ es' ∧ applied es' = es
  inv : dev.DriveInv D → dev'.DriveInv D
  isSome : dev.DriveInv D → dev'.sd.isSome = (dev.sd.isSome || look && D.device.isSome)

variable {D}

theorem Epat.Did.of_log {dev dev' : Epat δ} {es es' : List (EpatEvent δ)}
    (hlog : dev'.log = dev.log ++ es') (hes : applied es' = es)
    (hsome : dev'.sd.isSome = dev.sd.isSome) (hno : dev'.noDrive = dev.noDrive) :
    Epat.Did D false es dev dev' where
  log := ⟨es', hlog, hes⟩
  inv h hnone := h (hno.symm.trans hnone)
  isSome _ := by rw [hsome, Bool.false_and, Bool.or_false]

/-- The bridge did nothing that the drive's side sees. -/
theorem Epat.Did.quiet {dev dev' : Epat δ} (hlog : dev'.log = dev.log) (hsd : dev'.sd = dev.sd)
    (hno : dev'.noDrive = dev.noDrive) : Epat.Did D false [] dev dev' :=
  .of_log (by rw [hlog, List.append_nil]) rfl (congrArg Option.isSome hsd) hno

theorem Epat.Did.trans {look look' : Bool} {es es' : List (EpatEvent δ)} {dev dev' dev'' : Epat δ}
    (h : Epat.Did D look es dev dev') (h' : Epat.Did D look' es' dev' dev'') :
    Epat.Did D (look || look') (es ++ es') dev dev'' where
  log := by
    obtain ⟨fs, hlog, rfl⟩ := h.log
    obtain ⟨fs', hlog', rfl⟩ := h'.log
    exact ⟨fs ++ fs', by rw [hlog', hlog, List.append_assoc], applied_append fs fs'⟩
  inv hinv := h'.inv (h.inv hinv)
  isSome hinv := by
    rw [h'.isSome (h.inv hinv), h.isSome hinv, Bool.and_or_distrib_right, Bool.or_assoc]

theorem Epat.Did.thenQuiet {look : Bool} {es : List (EpatEvent δ)} {dev dev' dev'' : Epat δ}
    (h : Epat.Did D look es dev dev') (h' : Epat.Did D false [] dev' dev'') :
    Epat.Did D look es dev dev'' := by
  have htrans := h.trans h'
  rwa [Bool.or_false, List.append_nil] at htrans

theorem Epat.Did.drove {r : Drove δ} {dev : Epat δ} (h : ∀ e ∈ r.2, e.IsCall)
    (hsome : dev.sd.isSome) : Epat.Did D false [] dev (dev.drove r) :=
  .of_log rfl (applied_eq_nil fun e he => (h e he).not_isApplied) hsome.symm rfl

variable (D)

theorem epatAttachDrive_did (dev : Epat δ) : Epat.Did D true [] dev (epatAttachDrive D dev) where
  log := by
    unfold epatAttachDrive
    split_ifs <;> exact ⟨[], (List.append_nil _).symm, rfl⟩
  inv h := by
    unfold epatAttachDrive
    split_ifs
    · exact h
    · exact h
    · exact fun hnone => Option.isNone_iff_eq_none.1 hnone
  isSome h := by
    unfold epatAttachDrive
    split_ifs with hsd hno
    · rw [hsd, Bool.true_or]
    · rw [h hno, Option.isSome_none, Bool.and_false, Bool.or_false]
    · rw [Bool.not_eq_true _ |>.mp hsd, Bool.false_or, Bool.true_and]

theorem epatRegWrite_did (addr val : UInt8) (dev : Epat δ) :
    Epat.Did D true [.reg addr val] dev (epatRegWrite D addr val dev) := by
  have hreg : Epat.Did D false [.reg addr val] dev
      ({ dev with regs := Function.update dev.regs addr val }.say [.reg addr val]) :=
    .of_log rfl rfl rfl rfl
  have hattach := hreg.trans (epatAttachDrive_did D _)
  unfold epatRegWrite
  dsimp only
  split
  · exact hattach
  · rename_i sc hsd
    split_ifs
    · exact hattach
    · exact hattach.trans (.drove (tfWrite_calls D addr val sc) (by rw [hsd]; rfl))

theorem epatDeviceReset_did (dev : Epat δ) :
    Epat.Did D true [] dev (epatDeviceReset D dev) := by
  have hregs (regs : UInt8 → UInt8) : Epat.Did D false [] dev { dev with regs := regs } :=
    .quiet rfl rfl rfl
  have hattach (regs : UInt8 → UInt8) := (hregs regs).trans (epatAttachDrive_did D _)
  unfold epatDeviceReset
  dsimp only
  split
  · exact hattach _
  · rename_i sc hsd
    refine (hattach _).trans (.drove (fun e he => ?_) (by rw [hsd]; rfl))
    obtain rfl := List.mem_singleton.1 he
    trivial

/-- A stream byte reaches the drive, or its NULL pointer is used. -/
theorem epatDataWrite_did (val : UInt8) (dev : Epat δ) :
    Epat.Did D false (if dev.sd.isSome then [] else [.null]) dev (epatDataWrite D val dev) := by
  unfold epatDataWrite
  cases hsd : dev.sd with
  | none => exact .of_log rfl rfl rfl rfl
  | some sc => exact .drove (scDataWrite_calls D val sc) (by rw [hsd]; rfl)

theorem epatRegApply_did (addr val : UInt8) (dev : Epat δ) :
    Epat.Did D true [.reg addr val] dev (epatRegApply D addr val dev) := by
  have hwrite := epatRegWrite_did D addr val dev
  unfold epatRegApply
  split_ifs
  · exact hwrite.trans (epatDeviceReset_did D _)
  · exact hwrite

end Drive

/-! ## The host's writes -/

/-- Connected, with no frame partly matched or pending. -/
structure Epat.Listening (dev : Epat δ) : Prop where
  connected : dev.connected
  ustate : dev.ustate = .idle
  upos : dev.upos = 0
  ucmd : dev.ucmd = 0

/-- And with no transfer under way : no block, and no register half written. -/
structure Epat.Ready (dev : Epat δ) : Prop extends dev.Listening where
  block : dev.block = .none
  regWrite : ¬dev.regWrite

theorem Epat.Listening.congr {dev dev' : Epat δ} (h : dev.Listening)
    (hconn : dev'.connected = dev.connected) (hustate : dev'.ustate = dev.ustate)
    (hupos : dev'.upos = dev.upos) (hucmd : dev'.ucmd = dev.ucmd) : dev'.Listening :=
  ⟨hconn.trans h.connected, hustate.trans h.ustate, hupos.trans h.upos, hucmd.trans h.ucmd⟩

/-- A byte the recogniser has seen and let pass. -/
def Epat.heard (val : UInt8) (udup : Bool) (es : List (EpatEvent δ)) (dev : Epat δ) : Epat δ :=
  { dev with data := val, ulast := val, udup := udup, log := dev.log ++ es }

theorem Epat.Listening.heard {dev : Epat δ} (h : dev.Listening) (val : UInt8) (udup : Bool)
    (es : List (EpatEvent δ)) : (dev.heard val udup es).Listening :=
  h.congr rfl rfl rfl rfl

/-- The strobe after a register number. -/
def Epat.strobed (dev : Epat δ) : Epat δ :=
  { dev with ustate := .idle, upos := 0, nibbleHi := false, ctrl := 0x01 }

/-- The strobe that starts an armed write block. -/
def Epat.opened (dev : Epat δ) : Epat δ :=
  { dev with block := .write, blockArm := .none, ctrl := 0x05 }

section Host

variable (past : ℕ → UInt8) (D : LptDrive δ)

theorem Epat.Did.heard {val : UInt8} {udup : Bool} {es : List (EpatEvent δ)} {dev : Epat δ}
    (hes : ∀ e ∈ es, e.IsCompared) : Epat.Did D false [] dev (dev.heard val udup es) :=
  .of_log rfl (applied_eq_nil fun e he => (hes e he).not_isApplied) rfl rfl

/-- A byte that cannot start a frame is acted on at once. -/
theorem epatWriteData_plain {val : UInt8} {dev : Epat δ} (hval : val ≠ 0x22)
    (hlisten : dev.Listening) :
    ∃ udup es, (∀ e ∈ es, e.IsCompared) ∧
      epatWriteData D past val dev = epatWriteByte D val (dev.heard val udup es) := by
  obtain ⟨hconn, hustate, hupos, hucmd⟩ := hlisten
  have hfeed : ∃ udup es, (∀ e ∈ es, e.IsCompared) ∧
      epatUnlockFeed past val { dev with data := val } = dev.heard val udup es := by
    unfold epatUnlockFeed Epat.heard
    split_ifs with hdup hcmd
    · refine ⟨false, [], fun e he => absurd he List.not_mem_nil, ?_⟩
      rw [List.append_nil, hdup.2]
    · exact absurd (hustate.symm.trans hcmd) EpatUnlockState.noConfusion
    · refine ⟨true, [.compared dev.upos], fun e he => ?_, ?_⟩
      · obtain rfl := List.mem_singleton.1 he
        trivial
      · have h0 : epatUnlock past 0 = 0x22 := rfl
        unfold epatUnlockMatch Epat.say
        rw [hupos, h0, if_neg hval, if_neg hval, ← hupos, ← hustate]
  obtain ⟨udup, es, hes, heq⟩ := hfeed
  refine ⟨udup, es, hes, ?_⟩
  have hpass : ¬((dev.heard val udup es).ustate ≠ .idle ∨ (dev.heard val udup es).ucmd ≠ 0) :=
    not_or.2 ⟨not_not.2 hustate, not_not.2 hucmd⟩
  unfold epatWriteData
  rw [heq]
  exact (if_neg hpass).trans (if_neg (not_not.2 hconn))

theorem epatWriteByte_select {val : UInt8} {dev : Epat δ} (hblock : dev.block = .none)
    (hwrite : ¬dev.regWrite) : epatWriteByte D val dev = epatRegSelect val dev := by
  unfold epatWriteByte
  rw [hblock]
  exact if_neg hwrite

theorem epatWriteByte_value {val : UInt8} {dev : Epat δ} (hblock : dev.block = .none)
    (hwrite : dev.regWrite) (haddr : dev.regAddr < 0x20) :
    epatWriteByte D val dev = epatRegApply D dev.regAddr val { dev with regWrite := false } := by
  rw [← epatRegValue_eq D val haddr]
  unfold epatWriteByte
  rw [hblock]
  exact if_pos hwrite

theorem epatWriteByte_stream {val : UInt8} {dev : Epat δ} (hblock : dev.block = .write) :
    epatWriteByte D val dev = epatDataWrite D val (dev.say [.stream val]) := by
  unfold epatWriteByte
  rw [hblock]

/-! ### The strobes -/

/-- With no frame pending the pulse commits nothing. -/
theorem epatWriteCtrl_plain {val : UInt8} {dev : Epat δ} (hucmd : dev.ucmd = 0) :
    epatWriteCtrl val dev = { epatHandshake val dev with ctrl := val } := by
  unfold epatWriteCtrl epatCommit
  rw [if_neg fun h => h.2.2.2 hucmd]

theorem epatWriteCtrl_select {dev : Epat δ} (hlisten : dev.Listening)
    (hblock : dev.block = .none) : epatWriteCtrl 0x01 dev = dev.strobed := by
  have hconn := hlisten.connected
  rw [epatWriteCtrl_plain hlisten.ucmd]
  unfold epatHandshake epatStrobe Epat.strobed
  rw [hblock]
  simp [hconn]

theorem epatWriteCtrl_release {dev : Epat δ} (hlisten : dev.Listening)
    (hblock : dev.block = .none) :
    epatWriteCtrl 0x04 dev = { dev with nibbleHi := true, ctrl := 0x04 } := by
  have hconn := hlisten.connected
  have hucmd := hlisten.ucmd
  rw [epatWriteCtrl_plain hlisten.ucmd]
  unfold epatHandshake epatStrobe
  rw [hblock]
  simp [hconn, hucmd]

theorem epatWriteCtrl_open {dev : Epat δ} (hlisten : dev.Listening)
    (harm : dev.blockArm = .write) :
    epatWriteCtrl 0x05 dev = dev.opened := by
  rw [epatWriteCtrl_plain hlisten.ucmd]
  unfold epatHandshake Epat.opened
  rw [if_pos ⟨hlisten.connected, harm, rfl⟩]

theorem epatWriteCtrl_close {dev : Epat δ} (hlisten : dev.Listening)
    (hblock : dev.block = .write) :
    epatWriteCtrl 0x07 dev = { dev with block := .none, ctrl := 0x07 } := by
  rw [epatWriteCtrl_plain hlisten.ucmd]
  unfold epatHandshake
  rw [hblock]
  simp

/-! ### Register numbers -/

/-- The registers of the bridge. -/
theorem forall_register {P : UInt8 → Prop} (h : ∀ n < 32, P (UInt8.ofNat n)) {addr : UInt8}
    (haddr : addr < 0x20) : P addr := by
  have haddr := h addr.toNat (UInt8.lt_iff_toNat_lt.1 haddr)
  rwa [UInt8.ofNat_toNat] at haddr

/-- A tagged register number does not start a frame. -/
theorem tagged_ne {addr : UInt8} (haddr : addr < 0x20) : 0x60 + addr ≠ 0x22 :=
  forall_register (P := fun addr => 0x60 + addr ≠ 0x22) (by decide) haddr

/-- A tagged register number selects the register. -/
theorem epatRegSelect_tagged {addr : UInt8} (haddr : addr < 0x20) (hne : addr ≠ 0x07)
    (dev : Epat δ) :
    epatRegSelect (0x60 + addr) dev = { dev with regAddr := addr, regWrite := true } := by
  have htag : addr ≠ 0x07 → 0x60 + addr ≠ 0x60 ||| 0x07 ∧ 0x60 + addr ≠ 0x07 ∧
      (0x60 + addr) &&& 0x60 ≠ 0 ∧ (0x60 + addr) &&& ~~~0x60 = addr :=
    forall_register (P := fun addr => addr ≠ 0x07 → 0x60 + addr ≠ 0x60 ||| 0x07 ∧
      0x60 + addr ≠ 0x07 ∧ (0x60 + addr) &&& 0x60 ≠ 0 ∧ (0x60 + addr) &&& ~~~0x60 = addr)
      (by decide) haddr
  obtain ⟨hblock, hbare, htagged, hnum⟩ := htag hne
  unfold epatRegSelect
  rw [if_neg hblock, if_neg hbare, if_pos htagged, hnum]

/-- A number selects a register or arms a block, and that is all. -/
theorem epatRegSelect_eq (val : UInt8) (dev : Epat δ) :
    ∃ blockArm regAddr regWrite nibbleHi, epatRegSelect val dev =
      { dev with
        blockArm := blockArm
        regAddr := regAddr
        regWrite := regWrite
        nibbleHi := nibbleHi } := by
  unfold epatRegSelect
  split_ifs
  · exact ⟨_, dev.regAddr, dev.regWrite, dev.nibbleHi, rfl⟩
  · exact ⟨_, dev.regAddr, dev.regWrite, dev.nibbleHi, rfl⟩
  · exact ⟨dev.blockArm, _, _, dev.nibbleHi, rfl⟩
  · exact ⟨dev.blockArm, _, dev.regWrite, _, rfl⟩

/-! ### The writes -/

/-- A register number, and the strobe that follows it. -/
theorem after_select {val : UInt8} {dev : Epat δ} (hready : dev.Ready) (hval : val ≠ 0x22) :
    ∃ udup es, (∀ e ∈ es, e.IsCompared) ∧
      Steps.after (epatAccess past D) dev [.data val, .ctrl 0x01] =
        (epatRegSelect val (dev.heard val udup es)).strobed := by
  obtain ⟨udup, es, hes, hdata⟩ := epatWriteData_plain past D hval hready.toListening
  refine ⟨udup, es, hes, ?_⟩
  have hctrl : Steps.after (epatAccess past D) dev [.data val, .ctrl 0x01] =
      epatWriteCtrl 0x01 (epatWriteData D past val dev) := rfl
  have hselect : epatWriteByte D val (dev.heard val udup es) =
      epatRegSelect val (dev.heard val udup es) :=
    epatWriteByte_select D hready.block hready.regWrite
  obtain ⟨blockArm, regAddr, regWrite, nibbleHi, hsel⟩ := epatRegSelect_eq val
    (dev.heard val udup es)
  have hlisten : (epatRegSelect val (dev.heard val udup es)).Listening := by
    rw [hsel]
    exact hready.toListening.congr rfl rfl rfl rfl
  have hblock : (epatRegSelect val (dev.heard val udup es)).block = .none := by
    rw [hsel]
    exact hready.block
  rw [hctrl, hdata, hselect, epatWriteCtrl_select hlisten hblock]

/-- The value of a half-written register, and the strobe that ends the write. -/
theorem after_value {val : UInt8} {dev : Epat δ} (hval : val ≠ 0x22) (hlisten : dev.Listening)
    (hblock : dev.block = .none) (hwrite : dev.regWrite) (haddr : dev.regAddr < 0x20) :
    (Steps.after (epatAccess past D) dev [.data val, .ctrl 0x04]).Ready ∧
      Epat.Did D true [.reg dev.regAddr val] dev
        (Steps.after (epatAccess past D) dev [.data val, .ctrl 0x04]) := by
  obtain ⟨udup, es, hes, hdata⟩ := epatWriteData_plain past D hval hlisten
  have hvalue : epatWriteByte D val (dev.heard val udup es) = epatRegApply D dev.regAddr val
      { dev.heard val udup es with regWrite := false } :=
    epatWriteByte_value D hblock hwrite haddr
  have hdid := epatRegApply_did D dev.regAddr val { dev.heard val udup es with regWrite := false }
  obtain ⟨r, heq, -⟩ := (epatRegApply_only D dev.regAddr val).exists_eq
    { dev.heard val udup es with regWrite := false }
  rw [hvalue.trans heq] at hdata
  rw [heq] at hdid
  have hlisten' : (r.withDrive { dev.heard val udup es with regWrite := false }).Listening :=
    hlisten.congr rfl rfl rfl rfl
  have hctrl : Steps.after (epatAccess past D) dev [.data val, .ctrl 0x04] =
      epatWriteCtrl 0x04 (epatWriteData D past val dev) := rfl
  rw [hctrl, hdata, epatWriteCtrl_release hlisten' hblock]
  refine ⟨⟨hlisten'.congr rfl rfl rfl rfl, hblock, Bool.false_ne_true⟩, ?_⟩
  have hquiet : Epat.Did D false [] (dev.heard val udup es)
      { dev.heard val udup es with regWrite := false } := .quiet rfl rfl rfl
  exact ((Epat.Did.heard D hes).trans (hquiet.trans hdid)).thenQuiet (.quiet rfl rfl rfl)

/-- A register write without 22h is applied. -/
theorem hostReg_did {addr val : UInt8} {dev : Epat δ} (hready : dev.Ready) (haddr : addr < 0x20)
    (hne : addr ≠ 0x07) (hval : val ≠ 0x22) :
    (Steps.after (epatAccess past D) dev (HostOp.reg addr val).accesses).Ready ∧
      Epat.Did D true [.reg addr val] dev
        (Steps.after (epatAccess past D) dev (HostOp.reg addr val).accesses) := by
  obtain ⟨udup, es, hes, hsel⟩ := after_select past D hready (tagged_ne haddr)
  rw [epatRegSelect_tagged haddr hne] at hsel
  have hops : (HostOp.reg addr val).accesses =
      [.data (0x60 + addr), .ctrl 0x01] ++ [.data val, .ctrl 0x04] := rfl
  rw [hops, Steps.after_append, hsel]
  have hlisten : (Epat.strobed { dev.heard (0x60 + addr) udup es with
      regAddr := addr
      regWrite := true }).Listening := ⟨hready.connected, rfl, rfl, hready.ucmd⟩
  obtain ⟨hready', hdid⟩ := after_value past D hval hlisten hready.block rfl haddr
  have hquiet : Epat.Did D false [] (dev.heard (0x60 + addr) udup es)
      (Epat.strobed { dev.heard (0x60 + addr) udup es with
        regAddr := addr
        regWrite := true }) := .quiet rfl rfl rfl
  exact ⟨hready', (Epat.Did.heard D hes).trans (hquiet.trans hdid)⟩

/-- What an open block without 22h does. -/
theorem after_stream : ∀ {vals : List UInt8} {dev : Epat δ}, (∀ val ∈ vals, val ≠ 0x22) →
    dev.Listening → dev.block = .write → ¬dev.regWrite → dev.DriveInv D →
    (Steps.after (epatAccess past D) dev (vals.map .data)).Listening ∧
      (Steps.after (epatAccess past D) dev (vals.map .data)).block = .write ∧
      ¬(Steps.after (epatAccess past D) dev (vals.map .data)).regWrite ∧
      Epat.Did D false (vals.flatMap fun val =>
        .stream val :: if dev.sd.isSome then [] else [.null]) dev
        (Steps.after (epatAccess past D) dev (vals.map .data))
  | [], dev, _, hlisten, hblock, hwrite, _ => ⟨hlisten, hblock, hwrite, .quiet rfl rfl rfl⟩
  | val :: vals, dev, hvals, hlisten, hblock, hwrite, hinv => by
    obtain ⟨hval, hvals⟩ := List.forall_mem_cons.1 hvals
    obtain ⟨udup, es, hes, hdata⟩ := epatWriteData_plain past D hval hlisten
    have hstream : epatWriteByte D val (dev.heard val udup es) =
        epatDataWrite D val ((dev.heard val udup es).say [.stream val]) :=
      epatWriteByte_stream D hblock
    obtain ⟨r, heq, -⟩ := (epatDataWrite_only D val).exists_eq
      ((dev.heard val udup es).say [.stream val])
    have hsay : Epat.Did D false [.stream val] (dev.heard val udup es)
        ((dev.heard val udup es).say [.stream val]) := .of_log rfl rfl rfl rfl
    have hwritten : Epat.Did D false (if dev.sd.isSome then [] else [.null])
        ((dev.heard val udup es).say [.stream val])
        (epatDataWrite D val ((dev.heard val udup es).say [.stream val])) :=
      epatDataWrite_did D val ((dev.heard val udup es).say [.stream val])
    have hdid := ((Epat.Did.heard D hes).trans hsay).trans hwritten
    rw [← hstream, ← hdata] at hdid
    rw [hstream.trans heq] at hdata
    have hsome : (epatWriteData D past val dev).sd.isSome = dev.sd.isSome :=
      (hdid.isSome hinv).trans (Bool.or_false _)
    have hlisten' : (epatWriteData D past val dev).Listening := by
      rw [hdata]
      exact hlisten.congr rfl rfl rfl rfl
    have hrest := after_stream hvals hlisten' (by rw [hdata]; exact hblock)
      (by rw [hdata]; exact hwrite) (hdid.inv hinv)
    rw [hsome] at hrest
    obtain ⟨hlisten'', hblock', hwrite', hdid'⟩ := hrest
    exact ⟨hlisten'', hblock', hwrite', hdid.trans hdid'⟩

/-- A block without 22h is streamed to the drive that is there. -/
theorem hostBlock_did {vals : List UInt8} {dev : Epat δ} (hready : dev.Ready)
    (hvals : ∀ val ∈ vals, val ≠ 0x22) (hinv : dev.DriveInv D) :
    (Steps.after (epatAccess past D) dev (HostOp.block vals).accesses).Ready ∧
      Epat.Did D false (vals.flatMap fun val =>
        .stream val :: if dev.sd.isSome then [] else [.null]) dev
        (Steps.after (epatAccess past D) dev (HostOp.block vals).accesses) := by
  have hne : (0x67 : UInt8) ≠ 0x22 := by decide
  obtain ⟨udup, es, hes, hsel⟩ := after_select past D hready hne
  have hops : (HostOp.block vals).accesses =
      ([.data 0x67, .ctrl 0x01] ++ [.ctrl 0x05]) ++ vals.map .data ++ [.ctrl 0x07] := rfl
  have hlisten : (Epat.strobed { dev.heard 0x67 udup es with blockArm := .write }).Listening :=
    ⟨hready.connected, rfl, rfl, hready.ucmd⟩
  have hlistenOpen :
      (Epat.strobed { dev.heard 0x67 udup es with blockArm := .write }).opened.Listening :=
    hlisten.congr rfl rfl rfl rfl
  have hopen : Steps.after (epatAccess past D) dev ([.data 0x67, .ctrl 0x01] ++ [.ctrl 0x05]) =
      (Epat.strobed { dev.heard 0x67 udup es with blockArm := .write }).opened := by
    rw [Steps.after_append, hsel]
    exact epatWriteCtrl_open hlisten rfl
  have hquiet : Epat.Did D false [] (dev.heard 0x67 udup es)
      (Epat.strobed { dev.heard 0x67 udup es with blockArm := .write }).opened :=
    .quiet rfl rfl rfl
  have hdid := (Epat.Did.heard D hes).trans hquiet
  obtain ⟨hlisten', hblock', hwrite', hdid'⟩ := after_stream past D hvals hlistenOpen rfl
    hready.regWrite (hdid.inv hinv)
  rw [hops, Steps.after_append, Steps.after_append, hopen]
  generalize Steps.after (epatAccess past D) _ (vals.map .data) = dev' at *
  have hclose : Steps.after (epatAccess past D) dev' [.ctrl 0x07] =
      { dev' with block := .none, ctrl := 0x07 } := epatWriteCtrl_close hlisten' hblock'
  rw [hclose]
  exact ⟨⟨hlisten'.congr rfl rfl rfl rfl, rfl, hwrite'⟩,
    (hdid.trans hdid').thenQuiet (.quiet rfl rfl rfl)⟩

/-- What the bridge applies of writes without 22h. A block before the drive is looked up uses
its NULL pointer. -/
def hostApplied (device : Bool) : Bool → List HostOp → List (EpatEvent δ)
  | _, [] => []
  | attached, .reg addr val :: ops => .reg addr val :: hostApplied device (attached || device) ops
  | attached, .block vals :: ops =>
    (vals.flatMap fun val => .stream val :: if attached then [] else [.null]) ++
      hostApplied device attached ops

/-- A run of writes without 22h. -/
theorem after_ops : ∀ {ops : List HostOp} {dev : Epat δ}, dev.Ready → dev.DriveInv D →
    (∀ op ∈ ops, op.Valid) → (∀ op ∈ ops, ∀ val ∈ op.vals, val ≠ 0x22) →
    applied (new Epat.log dev
        (Steps.after (epatAccess past D) dev (ops.flatMap HostOp.accesses))) =
      hostApplied D.device.isSome dev.sd.isSome ops
  | [], dev, _, _, _, _ => congrArg applied (Steps.new_eq (List.append_nil _).symm)
  | op :: ops, dev, hready, hinv, hvalid, hclean => by
    obtain ⟨hop, hvalid'⟩ := List.forall_mem_cons.1 hvalid
    obtain ⟨hval, hclean'⟩ := List.forall_mem_cons.1 hclean
    rw [List.flatMap_cons, Steps.new_after_append (epatAccess_log past D), applied_append]
    cases op with
    | reg addr val =>
      obtain ⟨hready', hdid⟩ := hostReg_did past D hready hop.1 hop.2
        (hval val (List.mem_singleton.2 rfl))
      obtain ⟨es, hlog, hes⟩ := hdid.log
      rw [after_ops hready' (hdid.inv hinv) hvalid' hclean', hdid.isSome hinv,
        Steps.new_eq hlog, hes]
      rfl
    | block vals =>
      have hvals : ∀ val ∈ vals, val ≠ 0x22 := hval
      obtain ⟨hready', hdid⟩ := hostBlock_did past D hready hvals hinv
      obtain ⟨es, hlog, hes⟩ := hdid.log
      rw [after_ops hready' (hdid.inv hinv) hvalid' hclean', hdid.isSome hinv,
        Steps.new_eq hlog, hes, Bool.false_and, Bool.or_false]
      rfl

theorem null_not_mem_wanted (ops : List HostOp) :
    (.null : EpatEvent δ) ∉ ops.flatMap HostOp.wanted := by
  intro hmem
  obtain ⟨op, -, hop⟩ := List.mem_flatMap.1 hmem
  cases op with
  | reg addr val => exact nomatch List.mem_singleton.1 hop
  | block vals =>
    obtain ⟨val, -, hval⟩ := List.mem_map.1 hop
    exact nomatch hval

/-- The writes arrive when every block that is not empty finds the drive looked up. -/
theorem hostApplied_eq_iff (device : Bool) : ∀ {attached : Bool} {ops : List HostOp},
    hostApplied (δ := δ) device attached ops = ops.flatMap HostOp.wanted ↔
      ∀ pre vals post, ops = pre ++ .block vals :: post → vals ≠ [] →
        attached ∨ device ∧ ∃ addr val, .reg addr val ∈ pre
  | attached, [] => by
    refine iff_of_true rfl fun pre vals post heq => ?_
    exact absurd heq.symm (List.append_ne_nil_of_right_ne_nil pre (List.cons_ne_nil _ _))
  | attached, .reg addr val :: ops => by
    have hcons : hostApplied (δ := δ) device attached (.reg addr val :: ops) =
          (HostOp.reg addr val :: ops).flatMap HostOp.wanted ↔
        hostApplied (δ := δ) device (attached || device) ops = ops.flatMap HostOp.wanted :=
      List.cons_inj_right _
    rw [hcons, hostApplied_eq_iff]
    constructor
    · intro h pre vals post heq hne
      cases pre with
      | nil => exact nomatch (List.cons.inj heq).1
      | cons op pre =>
        obtain ⟨rfl, rfl⟩ := List.cons.inj heq
        rcases h pre vals post rfl hne with hor | ⟨hdev, addr', val', hmem⟩
        · rcases Bool.or_eq_true_iff.1 hor with hatt | hdev
          · exact .inl hatt
          · exact .inr ⟨hdev, addr, val, List.mem_cons_self⟩
        · exact .inr ⟨hdev, addr', val', List.mem_cons_of_mem _ hmem⟩
    · intro h pre vals post heq hne
      rw [Bool.or_eq_true]
      rcases h (.reg addr val :: pre) vals post (by rw [heq, List.cons_append]) hne with
        hatt | ⟨hdev, -⟩
      · exact .inl (.inl hatt)
      · exact .inl (.inr hdev)
  | attached, .block vals :: ops => by
    have hwanted : (HostOp.block vals :: ops).flatMap (HostOp.wanted (δ := δ)) =
        vals.map .stream ++ ops.flatMap HostOp.wanted := rfl
    cases attached with
    | true =>
      have hcons : hostApplied (δ := δ) device true (.block vals :: ops) =
          vals.map .stream ++ hostApplied device true ops := by
        rw [List.map_eq_flatMap]
        rfl
      rw [hcons, hwanted, List.append_cancel_left_eq, hostApplied_eq_iff]
      exact iff_of_true (fun _ _ _ _ _ => .inl rfl) fun _ _ _ _ _ => .inl rfl
    | false =>
      cases vals with
      | nil =>
        have hcons : hostApplied (δ := δ) device false (.block [] :: ops) =
            hostApplied device false ops := rfl
        rw [hcons, hwanted, List.map_nil, List.nil_append, hostApplied_eq_iff]
        constructor
        · intro h pre vals post heq hne
          cases pre with
          | nil =>
            obtain ⟨hblock, -⟩ := List.cons.inj heq
            exact absurd (HostOp.block.inj hblock).symm hne
          | cons op pre =>
            obtain ⟨rfl, rfl⟩ := List.cons.inj heq
            rcases h pre vals post rfl hne with hatt | ⟨hdev, addr, val, hmem⟩
            · exact .inl hatt
            · exact .inr ⟨hdev, addr, val, List.mem_cons_of_mem _ hmem⟩
        · intro h pre vals post heq hne
          rcases h (.block [] :: pre) vals post (by rw [heq, List.cons_append]) hne with
            hatt | ⟨hdev, addr, val, hmem⟩
          · exact .inl hatt
          · obtain hblock | hmem := List.mem_cons.1 hmem
            · exact nomatch hblock
            · exact .inr ⟨hdev, addr, val, hmem⟩
      | cons val vals =>
        refine iff_of_false
            (fun heq => null_not_mem_wanted (δ := δ) (.block (val :: vals) :: ops) ?_) ?_
        · rw [← heq]
          exact List.mem_cons_of_mem _ List.mem_cons_self
        · intro h
          rcases h [] (val :: vals) ops rfl (List.cons_ne_nil _ _) with hatt | ⟨-, _, _, hmem⟩
          · exact Bool.false_ne_true hatt
          · exact List.not_mem_nil hmem

/-! ## The first byte of a frame -/

/-- A value 22h applied. -/
def EpatEvent.Is22 : EpatEvent δ → Prop
  | .reg _ val | .stream val => val = 0x22
  | .compared _ | .called _ _ | .null => False

theorem EpatEvent.Is22.isApplied {e : EpatEvent δ} (h : e.Is22) : e.isApplied := by
  cases e <;> first | rfl | exact h.elim

/-- From `dev` to `dev'` no value 22h is applied. -/
def Epat.No22 (dev dev' : Epat δ) : Prop :=
  ∃ es, dev'.log = dev.log ++ es ∧ ∀ e ∈ es, ¬e.Is22

theorem Epat.No22.of_log {dev dev' : Epat δ} (h : dev'.log = dev.log) : dev.No22 dev' :=
  ⟨[], by rw [h, List.append_nil], fun _ he => absurd he List.not_mem_nil⟩

theorem Epat.No22.trans {dev dev' dev'' : Epat δ} (h : dev.No22 dev') (h' : dev'.No22 dev'') :
    dev.No22 dev'' := by
  obtain ⟨es, hlog, hes⟩ := h
  obtain ⟨es', hlog', hes'⟩ := h'
  refine ⟨es ++ es', ?_, List.forall_mem_append.2 ⟨hes, hes'⟩⟩
  rw [hlog', hlog, List.append_assoc]

variable {D} in
theorem Epat.Did.no22 {look : Bool} {es : List (EpatEvent δ)} {dev dev' : Epat δ}
    (h : Epat.Did D look es dev dev') (hes : ∀ e ∈ es, ¬e.Is22) : dev.No22 dev' := by
  obtain ⟨es', hlog, rfl⟩ := h.log
  exact ⟨es', hlog, fun e he h22 => hes e (List.mem_filter.2 ⟨he, h22.isApplied⟩) h22⟩

theorem epatWriteByte_no22 {val : UInt8} (hval : val ≠ 0x22) (dev : Epat δ) :
    dev.No22 (epatWriteByte D val dev) := by
  unfold epatWriteByte
  cases dev.block with
  | write =>
    have hsay : Epat.Did D false [.stream val] dev (dev.say [.stream val]) :=
      .of_log rfl rfl rfl rfl
    refine (hsay.trans (epatDataWrite_did D val _)).no22 fun e he => ?_
    obtain rfl | he := List.mem_cons.1 he
    · exact hval
    · split_ifs at he
      · exact absurd he List.not_mem_nil
      · obtain rfl := List.mem_singleton.1 he
        exact not_false
  | read =>
    dsimp only
    split_ifs <;> exact .of_log rfl
  | none =>
    dsimp only
    split_ifs
    · by_cases haddr : dev.regAddr < 0x20
      · rw [epatRegValue_eq D val haddr]
        have hquiet : dev.No22 { dev with regWrite := false } := .of_log rfl
        refine hquiet.trans ((epatRegApply_did D dev.regAddr val _).no22 fun e he => ?_)
        obtain rfl := List.mem_singleton.1 he
        exact hval
      · unfold epatRegValue
        rw [if_neg haddr]
        exact .of_log rfl
    · unfold epatRegSelect
      split_ifs <;> exact .of_log rfl

/-- A byte 22h the recogniser has taken keeps it from passing the next one on. -/
def Epat.Wary (dev : Epat δ) : Prop := dev.ulast = 0x22 → dev.ustate ≠ .idle ∨ dev.ucmd ≠ 0

theorem epatUnlockFeed_ulast (val : UInt8) (dev : Epat δ) :
    (epatUnlockFeed past val dev).ulast = val := by
  unfold epatUnlockFeed
  split_ifs with hdup hcmd
  · exact hdup.2.symm
  · rfl
  · obtain ⟨_, _, _, heq, -⟩ := epatUnlockMatch_eq past val
      ({ dev with ulast := val, udup := true }.say [.compared dev.upos])
    rw [heq]
    rfl

/-- After 22h the recogniser is in a frame, or holds 22h as a command. -/
theorem epatUnlockFeed_wary {val : UInt8} {dev : Epat δ} (h : val = 0x22 → dev.Wary) :
    (epatUnlockFeed past val dev).Wary := by
  intro hlast
  obtain rfl : val = 0x22 := (epatUnlockFeed_ulast past val dev).symm.trans hlast
  unfold epatUnlockFeed
  split_ifs with hdup hcmd
  · exact h rfl hdup.2.symm
  · exact .inr (show (0x22 : UInt8) ≠ 0 by decide)
  · have h0 : (0x22 : UInt8) = epatUnlock past 0 := rfl
    obtain ⟨_, _, _, heq, ⟨-, -, rfl⟩ | ⟨-, -, -, rfl⟩ | ⟨-, hne, -⟩⟩ :=
        epatUnlockMatch_eq past 0x22
      ({ dev with ulast := 0x22, udup := true }.say [.compared dev.upos])
    · rw [heq]
      refine .inl ?_
      dsimp only
      split_ifs <;> exact EpatUnlockState.noConfusion
    · rw [heq]
      exact .inl EpatUnlockState.noConfusion
    · exact absurd h0 hne

/-- A byte is not applied as 22h. -/
theorem epatWriteData_no22 (val : UInt8) (dev : Epat δ) (h : val = 0x22 → dev.Wary) :
    dev.No22 (epatWriteData D past val dev) ∧ (epatWriteData D past val dev).Wary ∧
      (epatWriteData D past val dev).ulast = val := by
  have hwary : (epatUnlockFeed past val { dev with data := val }).Wary :=
    epatUnlockFeed_wary past h
  have hlast := epatUnlockFeed_ulast past val { dev with data := val }
  have hpass := epatWriteData_passes D past val dev
  refine ⟨?_, ?_, hpass.ulast.trans hlast⟩
  · have hfeed : dev.No22 (epatUnlockFeed past val { dev with data := val }) := by
      refine ⟨_, epatUnlockFeed_log past val { dev with data := val }, fun e he => ?_⟩
      unfold epatCompares at he
      split_ifs at he
      · exact absurd he List.not_mem_nil
      · obtain rfl := List.mem_singleton.1 he
        exact not_false
    unfold epatWriteData
    dsimp only
    split_ifs with htaken
    · exact hfeed
    · refine hfeed.trans (epatWriteByte_no22 D (fun hval => htaken ?_) _)
      exact hwary (hlast.trans hval)
    · exact hfeed
  · intro h22
    rw [hpass.ustate, hpass.ucmd]
    exact hwary (hpass.ulast.symm.trans h22)

theorem epatWriteCtrl_no22 (val : UInt8) (dev : Epat δ) : dev.No22 (epatWriteCtrl val dev) :=
  .of_log (epatWriteCtrl_mayReset val dev).1

/-- A register number and its strobe leave the recogniser wary. -/
theorem after_select_no22 {val : UInt8} (hval : val ≠ 0x22) (dev : Epat δ) :
    dev.No22 (Steps.after (epatAccess past D) dev [.data val, .ctrl 0x01]) ∧
      (Steps.after (epatAccess past D) dev [.data val, .ctrl 0x01]).ulast = val := by
  obtain ⟨hno, -, hlast⟩ := epatWriteData_no22 past D val dev fun h => absurd h hval
  exact ⟨hno.trans (epatWriteCtrl_no22 0x01 _), (epatWriteCtrl_frame 0x01 _).2.2.trans hlast⟩

theorem after_stream_no22 : ∀ (vals : List UInt8) {dev : Epat δ}, dev.Wary →
    dev.No22 (Steps.after (epatAccess past D) dev (vals.map .data))
  | [], _, _ => .of_log rfl
  | val :: vals, dev, hwary => by
    obtain ⟨hno, hwary', -⟩ := epatWriteData_no22 past D val dev fun _ => hwary
    exact hno.trans (after_stream_no22 vals hwary')

/-- No write of the host applies 22h, whatever was written before. -/
theorem hostOp_no22 {op : HostOp} (hop : op.Valid) (dev : Epat δ) :
    dev.No22 (Steps.after (epatAccess past D) dev op.accesses) := by
  cases op with
  | reg addr val =>
    obtain ⟨hno, hlast⟩ := after_select_no22 past D (tagged_ne hop.1) dev
    have hops : (HostOp.reg addr val).accesses =
        [.data (0x60 + addr), .ctrl 0x01] ++ [.data val, .ctrl 0x04] := rfl
    rw [hops, Steps.after_append]
    refine hno.trans ?_
    obtain ⟨hno', -, -⟩ := epatWriteData_no22 past D val
      (Steps.after (epatAccess past D) dev [.data (0x60 + addr), .ctrl 0x01])
      fun _ h22 => absurd (hlast.symm.trans h22) (tagged_ne hop.1)
    exact hno'.trans (epatWriteCtrl_no22 0x04 _)
  | block vals =>
    have hne : (0x67 : UInt8) ≠ 0x22 := by decide
    obtain ⟨hno, hlast⟩ := after_select_no22 past D hne dev
    have hops : (HostOp.block vals).accesses =
        [.data 0x67, .ctrl 0x01] ++ ([.ctrl 0x05] ++ vals.map .data ++ [.ctrl 0x07]) := rfl
    rw [hops, Steps.after_append, Steps.after_append, Steps.after_append]
    refine hno.trans ((epatWriteCtrl_no22 0x05 _).trans (Epat.No22.trans ?_
      (epatWriteCtrl_no22 0x07 _)))
    refine after_stream_no22 past D vals fun h22 => ?_
    exact absurd (hlast.symm.trans ((epatWriteCtrl_frame 0x05 _).2.2.symm.trans h22)) hne

theorem hostOps_no22 : ∀ {ops : List HostOp}, (∀ op ∈ ops, op.Valid) → ∀ dev : Epat δ,
    dev.No22 (Steps.after (epatAccess past D) dev (ops.flatMap HostOp.accesses))
  | [], _, _ => .of_log rfl
  | op :: ops, hvalid, dev => by
    obtain ⟨hop, hvalid⟩ := List.forall_mem_cons.1 hvalid
    rw [List.flatMap_cons, Steps.after_append]
    exact (hostOp_no22 past D hop dev).trans (hostOps_no22 hvalid _)

/-- A value 22h to be written is an event to be applied. -/
theorem wanted_is22 {ops : List HostOp} {op : HostOp} {val : UInt8} (hop : op ∈ ops)
    (hmem : val ∈ op.vals) (hval : val = 0x22) :
    ∃ e ∈ ops.flatMap (HostOp.wanted (δ := δ)), e.Is22 := by
  cases op with
  | reg addr val' =>
    obtain rfl := List.mem_singleton.1 hmem
    exact ⟨.reg addr val, List.mem_flatMap.2 ⟨_, hop, List.mem_singleton.2 rfl⟩, hval⟩
  | block vals =>
    exact ⟨.stream val, List.mem_flatMap.2 ⟨_, hop, List.mem_map_of_mem hmem⟩, hval⟩

/-! ## Reachable states -/

theorem epatDataRead_did (dev : Epat δ) :
    ∃ es, Epat.Did D false es dev (epatDataRead D dev).2 := by
  unfold epatDataRead
  cases hsd : dev.sd with
  | none => exact ⟨_, .of_log rfl rfl rfl rfl⟩
  | some sc => exact ⟨_, .drove (scDataRead_calls D sc) (by rw [hsd]; rfl)⟩

theorem epatRegRead_did (addr : UInt8) (dev : Epat δ) :
    ∃ es, Epat.Did D true es dev (epatRegRead D addr dev).2 := by
  have hattach := epatAttachDrive_did D dev
  obtain ⟨es, hread⟩ := epatDataRead_did D (epatAttachDrive D dev)
  unfold epatRegRead tfRead
  dsimp only
  split
  · exact ⟨_, hattach⟩
  · split_ifs
    · exact ⟨_, hattach.trans hread⟩
    · exact ⟨_, hattach⟩
    · split
      · exact ⟨_, hattach.trans hread⟩
      all_goals exact ⟨_, hattach⟩

theorem epatWriteByte_driveInv (val : UInt8) {dev : Epat δ} (h : dev.DriveInv D) :
    (epatWriteByte D val dev).DriveInv D := by
  unfold epatWriteByte
  cases dev.block with
  | write => exact (epatDataWrite_did D val _).inv h
  | read =>
    dsimp only
    split_ifs <;> exact h
  | none =>
    dsimp only
    split_ifs
    · by_cases haddr : dev.regAddr < 0x20
      · rw [epatRegValue_eq D val haddr]
        exact (epatRegApply_did D dev.regAddr val _).inv h
      · unfold epatRegValue
        rw [if_neg haddr]
        exact h
    · unfold epatRegSelect
      split_ifs <;> exact h

theorem epatWriteData_driveInv (val : UInt8) {dev : Epat δ} (h : dev.DriveInv D) :
    (epatWriteData D past val dev).DriveInv D := by
  have hfeed : (epatUnlockFeed past val { dev with data := val }).DriveInv D := by
    unfold epatUnlockFeed
    split_ifs
    · exact h
    · exact h
    · obtain ⟨_, _, _, heq, -⟩ := epatUnlockMatch_eq past val
        ({ dev with data := val, ulast := val, udup := true }.say [.compared dev.upos])
      rw [heq]
      exact h
  unfold epatWriteData
  dsimp only
  split_ifs
  · exact hfeed
  · exact epatWriteByte_driveInv D val hfeed
  · exact hfeed

theorem epatReadStatus_driveInv {dev : Epat δ} (h : dev.DriveInv D) :
    (epatReadStatus D dev).2.DriveInv D := by
  unfold epatReadStatus epatReadNibble
  dsimp only
  split_ifs
  · exact h
  · exact h
  · obtain ⟨es, hdid⟩ := epatDataRead_did D dev
    exact hdid.inv h
  · exact h
  · exact h
  · obtain ⟨es, hdid⟩ := epatRegRead_did D dev.regAddr dev
    exact hdid.inv h

theorem epatAccess_driveInv (dev : Epat δ) (a : EpatAccess) (h : dev.DriveInv D) :
    (epatAccess past D dev a).DriveInv D := by
  cases a with
  | data val => exact epatWriteData_driveInv past D val h
  | ctrl val => exact fun hnone => h ((epatWriteCtrl_frame val dev).2.1.symm.trans hnone)
  | readStatus => exact epatReadStatus_driveInv D h
  | readCtrl => exact h

/-- A drive that is not there stays unfound in every state reached from power-on. -/
theorem epat_driveInv (as : List EpatAccess) :
    (Steps.after (epatAccess past D) epatInit as).DriveInv D :=
  Steps.inv_after (epatAccess_driveInv past D) as fun hnone => absurd hnone Bool.false_ne_true

/-! ## Transparency -/

/-- From any state reached that is ready, the host's writes arrive, in order and no other,
exactly when no value is 22h and no block is written before the drive is looked up. -/
theorem epat_applied_iff (as : List EpatAccess) (ops : List HostOp)
    (hready : (Steps.after (epatAccess past D) epatInit as).Ready)
    (hvalid : ∀ op ∈ ops, op.Valid) :
    applied (new Epat.log (Steps.after (epatAccess past D) epatInit as)
        (Steps.after (epatAccess past D) (Steps.after (epatAccess past D) epatInit as)
          (ops.flatMap HostOp.accesses))) = ops.flatMap HostOp.wanted ↔
      (∀ op ∈ ops, ∀ val ∈ op.vals, val ≠ 0x22) ∧
        ∀ pre vals post, ops = pre ++ .block vals :: post → vals ≠ [] →
          (Steps.after (epatAccess past D) epatInit as).sd.isSome ∨
            D.device.isSome ∧ ∃ addr val, .reg addr val ∈ pre := by
  have hinv := epat_driveInv past D as
  generalize Steps.after (epatAccess past D) epatInit as = dev at hready hinv ⊢
  by_cases hclean : ∀ op ∈ ops, ∀ val ∈ op.vals, val ≠ 0x22
  · rw [after_ops past D hready hinv hvalid hclean, hostApplied_eq_iff]
    exact (and_iff_right hclean).symm
  · refine iff_of_false (fun heq => hclean fun op hop val hmem hval => ?_) fun h => hclean h.1
    obtain ⟨e, he, h22⟩ := wanted_is22 (δ := δ) hop hmem hval
    obtain ⟨es, hlog, hes⟩ := hostOps_no22 past D hvalid dev
    rw [← heq, Steps.new_eq hlog] at he
    exact hes e (List.mem_filter.1 he).1 h22

end Host

/-- Each byte written twice. -/
def twice (vals : List UInt8) : List EpatAccess := vals.flatMap fun val => [.data val, .data val]

/-- A connect frame, and the pulse that commits it. -/
def connectFrame : List EpatAccess :=
  twice [0x22, 0xAA, 0x55, 0x00, 0xFF, 0x87, 0x78, 0xE0] ++ [.ctrl 0x04, .ctrl 0x05, .ctrl 0x04]

/-- A drive that does nothing when it is called. -/
def idleDrive : LptDrive Unit where
  device := some
    { tf :=
        { features := 0
          phase := 0
          requestLength := 0xEB14
          atastat := readyStat
          error := 0
          drvsel := 0
          pos := 0 }
      tempBuffer := none
      atapiCdb := fun _ => 0
      maxTransferLen := 0
      packetStatus := .idle
      requestPos := 0
      packetLen := 0
      unitAttention := 0
      priv := () }
  call _ sc := sc

theorem connectFrame_ready :
    (Steps.after (epatAccess (fun _ => 0) idleDrive) epatInit connectFrame).Ready :=
  ⟨⟨by decide +kernel, by decide +kernel, by decide +kernel, by decide +kernel⟩,
    by decide +kernel, by decide +kernel⟩

theorem epat_applied_block :
    applied (new Epat.log (Steps.after (epatAccess (fun _ => 0) idleDrive) epatInit connectFrame)
        (Steps.after (epatAccess (fun _ => 0) idleDrive)
          (Steps.after (epatAccess (fun _ => 0) idleDrive) epatInit connectFrame)
          ([.reg 0x1E 0xA0, .block [0x12, 0x00]].flatMap HostOp.accesses))) =
      [.reg 0x1E 0xA0, .block [0x12, 0x00]].flatMap HostOp.wanted := by
  refine (epat_applied_iff (fun _ => 0) idleDrive connectFrame [.reg 0x1E 0xA0, .block [0x12, 0x00]]
    connectFrame_ready (by simp [HostOp.Valid])).2 ⟨by simp [HostOp.vals], ?_⟩
  intro pre vals post heq _
  refine .inr ⟨rfl, 0x1E, 0xA0, ?_⟩
  cases pre with
  | nil => exact nomatch (List.cons.inj heq).1
  | cons op pre => exact (List.cons.inj heq).1 ▸ List.mem_cons_self

/-- A byte 22h of a block is lost. -/
theorem not_epat_applied : ¬∀ (past : ℕ → UInt8) (D : LptDrive Unit) (as : List EpatAccess)
    (ops : List HostOp), (Steps.after (epatAccess past D) epatInit as).Ready →
    (∀ op ∈ ops, op.Valid) →
    applied (new Epat.log (Steps.after (epatAccess past D) epatInit as)
        (Steps.after (epatAccess past D) (Steps.after (epatAccess past D) epatInit as)
          (ops.flatMap HostOp.accesses))) = ops.flatMap HostOp.wanted := by
  intro h
  have hlost := congrArg List.length (h (fun _ => 0) idleDrive connectFrame
    [.reg 0x1E 0xA0, .block [0x22]] connectFrame_ready (by simp [HostOp.Valid]))
  exact absurd hlost (by decide +kernel)

end Inboard
