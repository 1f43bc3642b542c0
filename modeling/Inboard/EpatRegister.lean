import Inboard.EpatSession

/-!
# Register accesses of the EPAT bridge

In register mode a register access does the same to any two bridges with the same drive
and registers (`registerMode_write`, `registerMode_read`), so a session a connect frame
opens is as good as the first after power-on, and it is opened from the states of
`ConnectsFrom` only (`epat_session_iff`). What the bridge logs as applied is what it did to the
drive and the registers (`epat_performed`).
-/

set_option linter.unusedSectionVars false

namespace Inboard

variable {δ : Type*}

open Steps (new)

/-! ## What the host sees -/

section Host

variable (past : ℕ → UInt8) (D : LptDrive δ)

/-- What an access of the host returns. -/
def epatReturns (dev : Epat δ) : EpatAccess → List UInt8
  | .readStatus => [(epatReadStatus D dev).1]
  | .readCtrl => [epatReadCtrl dev]
  | .data _ | .ctrl _ => []

/-- What the host reads in a run. -/
def epatReads : Epat δ → List EpatAccess → List UInt8
  | _, [] => []
  | dev, a :: as => epatReturns D dev a ++ epatReads (epatAccess past D dev a) as

theorem epatReads_append : ∀ (dev : Epat δ) (as bs : List EpatAccess),
    epatReads past D dev (as ++ bs) =
      epatReads past D dev as ++ epatReads past D (Steps.after (epatAccess past D) dev as) bs
  | _, [], _ => rfl
  | dev, a :: as, bs => by
    have h := epatReads_append (epatAccess past D dev a) as bs
    rw [List.cons_append, epatReads, h, ← List.append_assoc]
    rfl

/-- What the accesses do : the values read, what is applied, and the drive and the registers
they leave. -/
def epatOutcome (dev : Epat δ) (as : List EpatAccess) :
    List UInt8 × List (EpatEvent δ) × Epat δ :=
  (epatReads past D dev as,
    applied (new Epat.log dev (Steps.after (epatAccess past D) dev as)),
    (Steps.after (epatAccess past D) dev as).driveSide)

/-- The accesses of a register read. -/
def regReadAccesses (addr : UInt8) : List EpatAccess :=
  [.data addr, .ctrl 0x01, .ctrl 0x03, .readStatus, .ctrl 0x04, .readStatus]

/-! ## Register writes -/

/-- From `dev` to `dev'` nothing is applied, and the drive and the registers stay. -/
structure Epat.Idles (dev dev' : Epat δ) : Prop where
  log : ∃ es, dev'.log = dev.log ++ es ∧ applied es = []
  driveSide : dev'.driveSide = dev.driveSide

theorem Epat.Idles.of_log {dev dev' : Epat δ} (hlog : dev'.log = dev.log)
    (hside : dev'.driveSide = dev.driveSide) : dev.Idles dev' :=
  ⟨⟨[], by rw [hlog, List.append_nil], rfl⟩, hside⟩

theorem Epat.Idles.trans {dev dev' dev'' : Epat δ} (h : dev.Idles dev') (h' : dev'.Idles dev'') :
    dev.Idles dev'' := by
  obtain ⟨es, hlog, hes⟩ := h.log
  obtain ⟨es', hlog', hes'⟩ := h'.log
  refine ⟨⟨es ++ es', by rw [hlog', hlog, List.append_assoc], ?_⟩, h'.driveSide.trans h.driveSide⟩
  rw [applied_append, hes, hes', List.append_nil]

theorem Epat.Idles.heard {val : UInt8} {udup : Bool} {es : List (EpatEvent δ)} {dev : Epat δ}
    (hes : ∀ e ∈ es, e.IsCompared) : dev.Idles (dev.heard val udup es) :=
  ⟨⟨es, rfl, applied_eq_nil fun e he => (hes e he).not_isApplied⟩, rfl⟩

theorem Epat.Idles.applied {dev dev' : Epat δ} (h : dev.Idles dev') :
    Inboard.applied (new Epat.log dev dev') = [] := by
  obtain ⟨es, hlog, hes⟩ := h.log
  rw [Steps.new_eq hlog, hes]

theorem epatWriteCtrl_idles (val : UInt8) (dev : Epat δ) : dev.Idles (epatWriteCtrl val dev) := by
  refine .of_log (epatWriteCtrl_mayReset val dev).1 ?_
  obtain ⟨_, _, _, _, hcommit⟩ := epatCommit_eq val dev
  obtain ⟨_, _, _, _, _, _, hshake⟩ := epatHandshake_eq val (epatCommit val dev)
  unfold epatWriteCtrl
  rw [hshake, hcommit]
  rfl

/-- A byte 22h after another one starts a frame. -/
theorem epatWriteData_22 {dev : Epat δ} (hlisten : dev.Listening) (hlast : dev.ulast ≠ 0x22) :
    dev.Idles (epatWriteData D past 0x22 dev) := by
  have hdup : ¬(dev.udup ∧ 0x22 = dev.ulast) := fun h => hlast h.2.symm
  have hcmd : dev.ustate ≠ .cmd := hlisten.ustate ▸ EpatUnlockState.noConfusion
  have hfeed := epatUnlockFeed_match past { dev with data := 0x22 } hdup hcmd
  obtain ⟨_, _, _, heq, ⟨-, -, rfl⟩ | ⟨-, -, -, rfl⟩ | ⟨-, hnot, -⟩⟩ := epatUnlockMatch_eq past 0x22
    ({ dev with data := 0x22, ulast := 0x22, udup := true }.say [.compared dev.upos])
  · rw [heq] at hfeed
    have htaken : epatWriteData D past 0x22 dev = epatUnlockFeed past 0x22
        { dev with data := 0x22 } := by
      refine if_pos (.inl ?_)
      rw [hfeed]
      dsimp only
      split_ifs <;> exact EpatUnlockState.noConfusion
    rw [htaken, hfeed]
    exact ⟨⟨[.compared dev.upos], rfl, rfl⟩, rfl⟩
  · rw [heq] at hfeed
    have htaken : epatWriteData D past 0x22 dev = epatUnlockFeed past 0x22
        { dev with data := 0x22 } :=
      if_pos (.inl (by rw [hfeed]; exact EpatUnlockState.noConfusion))
    rw [htaken, hfeed]
    exact ⟨⟨[.compared dev.upos], rfl, rfl⟩, rfl⟩
  · exact absurd rfl hnot

theorem epatRegSelect_idles (val : UInt8) (dev : Epat δ) : dev.Idles (epatRegSelect val dev) := by
  obtain ⟨_, _, _, _, heq⟩ := epatRegSelect_eq val dev
  rw [heq]
  exact .of_log rfl rfl

/-- A register number and its strobe, before a value or a read. -/
theorem after_select_idles {val : UInt8} {dev : Epat δ} (hready : dev.Ready) (hval : val ≠ 0x22) :
    dev.Idles (Steps.after (epatAccess past D) dev [.data val, .ctrl 0x01]) := by
  obtain ⟨udup, es, hes, heq⟩ := after_select past D hready hval
  rw [heq]
  exact ((Epat.Idles.heard hes).trans (epatRegSelect_idles val _)).trans (.of_log rfl rfl)

theorem driveSide_epatRegApply (addr val : UInt8) (dev : Epat δ) :
    (epatRegApply D addr val dev).driveSide =
        (epatRegApply D addr val dev.driveSide).driveSide := by
  rw [(epatRegApply_only D addr val).eq dev, Epat.driveSide_withDrive]

/-- What a register write does in register mode. -/
theorem registerMode_write {addr val : UInt8} {dev : Epat δ} (hready : dev.Ready)
    (haddr : addr < 0x20) :
    epatOutcome past D dev (HostOp.reg addr val).accesses =
      if addr = 0x07 ∨ val = 0x22 then ([], [], dev.driveSide)
      else ([], [.reg addr val], (epatRegApply D addr val dev.driveSide).driveSide) := by
  have hselect := after_select_idles past D hready (tagged_ne haddr)
  have hops : Steps.after (epatAccess past D) dev (HostOp.reg addr val).accesses =
      epatWriteCtrl 0x04 (epatWriteData D past val
        (Steps.after (epatAccess past D) dev [.data (0x60 + addr), .ctrl 0x01])) := rfl
  have hreads : epatReads past D dev (HostOp.reg addr val).accesses = [] := rfl
  have hidle (h : dev.Idles (epatWriteCtrl 0x04 (epatWriteData D past val
      (Steps.after (epatAccess past D) dev [.data (0x60 + addr), .ctrl 0x01])))) :
      epatOutcome past D dev (HostOp.reg addr val).accesses = ([], [], dev.driveSide) := by
    unfold epatOutcome
    rw [hreads, hops, h.applied, h.driveSide]
  obtain ⟨udup, es, hes, hsel⟩ := after_select past D hready (tagged_ne haddr)
  obtain ⟨_, _, _, _, hnum⟩ := epatRegSelect_eq (0x60 + addr) (dev.heard (0x60 + addr) udup es)
  have hlisten :
      (Steps.after (epatAccess past D) dev [.data (0x60 + addr), .ctrl 0x01]).Listening := by
    rw [hsel, hnum]
    exact ⟨hready.connected, rfl, rfl, hready.ucmd⟩
  have hblock : (Steps.after (epatAccess past D) dev [.data (0x60 + addr), .ctrl 0x01]).block =
      .none := by
    rw [hsel, hnum]
    exact hready.block
  have hlast : (Steps.after (epatAccess past D) dev [.data (0x60 + addr), .ctrl 0x01]).ulast =
      0x60 + addr := by
    rw [hsel, hnum]
    rfl
  by_cases hval : val = 0x22
  · rw [if_pos (.inr hval)]
    refine hidle (hselect.trans (Epat.Idles.trans ?_ (epatWriteCtrl_idles 0x04 _)))
    rw [hval]
    exact epatWriteData_22 past D hlisten (by rw [hlast]; exact tagged_ne haddr)
  obtain ⟨udup', es', hes', hdata⟩ := epatWriteData_plain past D hval hlisten
  by_cases hblk : addr = 0x07
  · rw [if_pos (.inl hblk)]
    have hwrite : ¬(Steps.after (epatAccess past D) dev
        [.data (0x60 + addr), .ctrl 0x01]).regWrite := by
      rw [hsel, hblk]
      exact hready.regWrite
    refine hidle (hselect.trans (Epat.Idles.trans ?_ (epatWriteCtrl_idles 0x04 _)))
    have hbyte : epatWriteByte D val (Epat.heard val udup' es'
        (Steps.after (epatAccess past D) dev [.data (0x60 + addr), .ctrl 0x01])) =
        epatRegSelect val (Epat.heard val udup' es'
          (Steps.after (epatAccess past D) dev [.data (0x60 + addr), .ctrl 0x01])) :=
      epatWriteByte_select D hblock hwrite
    rw [hdata, hbyte]
    exact (Epat.Idles.heard hes').trans (epatRegSelect_idles val _)
  · rw [if_neg (not_or.2 ⟨hblk, hval⟩)]
    obtain ⟨-, hdid⟩ := hostReg_did past D hready haddr hblk hval
    obtain ⟨fs, hlog, hfs⟩ := hdid.log
    rw [epatRegSelect_tagged haddr hblk] at hsel
    have hbyte : epatWriteByte D val (Epat.heard val udup' es'
        (Steps.after (epatAccess past D) dev [.data (0x60 + addr), .ctrl 0x01])) =
        epatRegApply D addr val { Epat.heard val udup' es'
          (Steps.after (epatAccess past D) dev [.data (0x60 + addr), .ctrl 0x01]) with
          regWrite := false } := by
      rw [hsel]
      exact epatWriteByte_value D (hready.block) rfl haddr
    have hside : (Steps.after (epatAccess past D) dev (HostOp.reg addr val).accesses).driveSide =
        (epatRegApply D addr val dev.driveSide).driveSide := by
      rw [hops, (epatWriteCtrl_idles 0x04 _).driveSide, hdata, hbyte, driveSide_epatRegApply]
      exact congrArg (fun dev => (epatRegApply D addr val dev).driveSide) hselect.driveSide
    unfold epatOutcome
    rw [hreads, Steps.new_eq hlog, hfs, hside]

/-! ## What an entry of the log does -/

/-- What a register value or a stream byte that is applied does to the drive and the
registers. -/
def EpatEvent.perform (dev : Epat δ) : EpatEvent δ → Epat δ
  | .reg addr val => (epatRegApply D addr val dev).driveSide
  | .stream val => (epatDataWrite D val dev).driveSide
  | .compared _ | .called _ _ | .null => dev

/-- From `dev` to `dev'` the drive and the registers changed as the log says. -/
def Epat.Performs (dev dev' : Epat δ) : Prop :=
  ∃ es, dev'.log = dev.log ++ es ∧
    dev'.driveSide = (applied es).foldl (EpatEvent.perform D) dev.driveSide

variable {D} in
theorem Epat.Idles.performs {dev dev' : Epat δ} (h : dev.Idles dev') : dev.Performs D dev' := by
  obtain ⟨es, hlog, hes⟩ := h.log
  exact ⟨es, hlog, by rw [hes, h.driveSide]; rfl⟩

variable {D} in
theorem Epat.Performs.trans {dev dev' dev'' : Epat δ} (h : dev.Performs D dev')
    (h' : dev'.Performs D dev'') : dev.Performs D dev'' := by
  obtain ⟨es, hlog, hside⟩ := h
  obtain ⟨es', hlog', hside'⟩ := h'
  refine ⟨es ++ es', by rw [hlog', hlog, List.append_assoc], ?_⟩
  rw [applied_append, List.foldl_append, ← hside, ← hside']

theorem epatUnlockFeed_idles (val : UInt8) (dev : Epat δ) :
    dev.Idles (epatUnlockFeed past val { dev with data := val }) := by
  refine ⟨⟨_, epatUnlockFeed_log past val { dev with data := val }, ?_⟩, ?_⟩
  · unfold epatCompares
    split_ifs <;> rfl
  · unfold epatUnlockFeed
    split_ifs
    · rfl
    · rfl
    · obtain ⟨_, _, _, heq, -⟩ := epatUnlockMatch_eq past val
        ({ dev with data := val, ulast := val, udup := true }.say [.compared dev.upos])
      rw [heq]
      rfl

/-- A stream byte goes to the drive. -/
theorem epatDataWrite_performs (val : UInt8) (dev : Epat δ) :
    dev.Performs D (epatDataWrite D val (dev.say [.stream val])) := by
  obtain ⟨es, hlog, hes⟩ := (epatDataWrite_did D val (dev.say [.stream val])).log
  refine ⟨.stream val :: es, hlog.trans (List.append_assoc dev.log [.stream val] es), ?_⟩
  have happlied : applied (.stream val :: es) = .stream val :: applied es := rfl
  have hrest (dev' : Epat δ) : (applied es).foldl (EpatEvent.perform D) dev' = dev' := by
    rw [hes]
    split_ifs <;> rfl
  rw [happlied, List.foldl_cons, hrest, (epatDataWrite_only D val).eq (dev.say [.stream val]),
    Epat.driveSide_withDrive]
  rfl

/-- A register value is applied. -/
theorem epatRegApply_performs (addr val : UInt8) (dev : Epat δ) :
    dev.Performs D (epatRegApply D addr val dev) := by
  obtain ⟨es, hlog, hes⟩ := (epatRegApply_did D addr val dev).log
  refine ⟨es, hlog, ?_⟩
  rw [hes, driveSide_epatRegApply]
  rfl

theorem epatWriteByte_performs (val : UInt8) (dev : Epat δ) :
    dev.Performs D (epatWriteByte D val dev) := by
  unfold epatWriteByte
  cases dev.block with
  | write => exact epatDataWrite_performs D val dev
  | read =>
    dsimp only
    split_ifs <;> exact (Epat.Idles.of_log rfl rfl).performs
  | none =>
    dsimp only
    split_ifs
    · have hquiet : dev.Idles { dev with regWrite := false } := .of_log rfl rfl
      by_cases haddr : dev.regAddr < 0x20
      · rw [epatRegValue_eq D val haddr]
        exact hquiet.performs.trans (epatRegApply_performs D dev.regAddr val _)
      · unfold epatRegValue
        rw [if_neg haddr]
        exact hquiet.performs
    · exact (epatRegSelect_idles val dev).performs

/-- The data and the control port change the drive and the registers by the entries of the log
alone, one after the other. -/
theorem epat_performed : ∀ (as : List EpatAccess) (dev : Epat δ), .readStatus ∉ as →
    dev.Performs D (Steps.after (epatAccess past D) dev as)
  | [], _, _ => (Epat.Idles.of_log rfl rfl).performs
  | a :: as, dev, hread => by
    obtain ⟨hne, hread⟩ := not_or.1 (mt List.mem_cons.2 hread)
    refine Epat.Performs.trans ?_ (epat_performed as (epatAccess past D dev a) hread)
    cases a with
    | data val =>
      have hfeed := (epatUnlockFeed_idles past val dev).performs (D := D)
      unfold epatAccess epatWriteData
      dsimp only
      split_ifs
      · exact hfeed
      · exact hfeed.trans (epatWriteByte_performs D val _)
      · exact hfeed
    | ctrl val => exact (epatWriteCtrl_idles val dev).performs
    | readStatus => exact absurd rfl hne
    | readCtrl => exact (Epat.Idles.of_log rfl rfl).performs

/-- A register value that is applied is the register's, unless it releases the reset. -/
theorem perform_reg {addr val : UInt8} (hreset : addr ≠ 0x16 ∨ val &&& 0x04 ≠ 0) (dev : Epat δ) :
    (EpatEvent.perform D dev (.reg addr val)).regs = Function.update dev.regs addr val := by
  have hkeep : ¬(addr = 0x16 ∧ val &&& 0x04 = 0) := fun h => hreset.elim (absurd h.1) (absurd h.2)
  have hattach (dev : Epat δ) : (epatAttachDrive D dev).regs = dev.regs := by
    unfold epatAttachDrive
    split_ifs <;> rfl
  have hwrite : (EpatEvent.perform D dev (.reg addr val)).regs =
      (epatRegWrite D addr val dev).regs := by
    dsimp only [EpatEvent.perform]
    rw [epatRegApply, if_neg hkeep]
    rfl
  rw [hwrite]
  unfold epatRegWrite
  dsimp only
  split
  · exact hattach _
  · split_ifs <;> exact hattach _

/-- A stream byte that is applied within a data-out block is the next of `temp_buffer`. -/
theorem perform_stream {dev : Epat δ} {sc : ScsiCommon δ} {buf : ℕ → UInt8} (hsd : dev.sd = some sc)
    (hphase : sc.packetStatus = .dataOut) (hbuf : sc.tempBuffer = some buf)
    (hblock : sc.requestPos + 1 < sc.maxTransferLen) (hlen : sc.tf.pos + 1 < sc.packetLen)
    (val : UInt8) :
    (EpatEvent.perform D dev (.stream val)).sd = some { sc with
      tempBuffer := some (Function.update buf sc.tf.pos val)
      tf.pos := sc.tf.pos + 1
      requestPos := sc.requestPos + 1 } := by
  have hgoes : ¬(sc.maxTransferLen ≤ sc.requestPos + 1 ∨ sc.packetLen ≤ sc.tf.pos + 1) := by
    omega
  have hwrite : (EpatEvent.perform D dev (.stream val)).sd = some (scDataWrite D val sc).1 := by
    dsimp only [EpatEvent.perform]
    rw [epatDataWrite, hsd]
    rfl
  rw [hwrite]
  unfold scDataWrite
  rw [hphase]
  dsimp only
  rw [hbuf]
  unfold epatPioStep
  dsimp only
  rw [if_neg hgoes]

/-! ## Register reads -/

/-- A bare register number selects the register, or arms a read block. -/
theorem epatRegSelect_bare {addr : UInt8} (haddr : addr < 0x20) (dev : Epat δ) :
    epatRegSelect addr dev =
      if addr = 0x07 then { dev with blockArm := .read }
      else { dev with regAddr := addr, nibbleHi := false } := by
  have hbare : addr ≠ 0x60 ||| 0x07 ∧ addr &&& 0x60 = 0 :=
    forall_register (P := fun addr => addr ≠ 0x60 ||| 0x07 ∧ addr &&& 0x60 = 0) (by decide) haddr
  unfold epatRegSelect
  rw [if_neg hbare.1, if_neg (not_not.2 hbare.2)]

/-- A register number does not start a frame. -/
theorem bare_ne {addr : UInt8} (haddr : addr < 0x20) : addr ≠ 0x22 :=
  forall_register (P := fun addr => addr ≠ 0x22) (by decide) haddr

/-- The strobe before the first nibble of a register. -/
theorem epatWriteCtrl_first {dev : Epat δ} (hlisten : dev.Listening) (hblock : dev.block = .none)
    (harm : dev.blockArm ≠ .read) :
    epatWriteCtrl 0x03 dev = { dev with nibbleHi := false, ctrl := 0x03 } := by
  have hconn := hlisten.connected
  rw [epatWriteCtrl_plain hlisten.ucmd]
  unfold epatHandshake epatStrobe
  rw [hblock]
  simp [hconn, harm]

/-- The strobe that starts an armed read block. -/
theorem epatWriteCtrl_openRead {dev : Epat δ} (hlisten : dev.Listening)
    (harm : dev.blockArm = .read) :
    epatWriteCtrl 0x03 dev =
      { dev with block := .read, blockArm := .none, blockHalf := false, ctrl := 0x03 } := by
  have hconn := hlisten.connected
  rw [epatWriteCtrl_plain hlisten.ucmd]
  unfold epatHandshake
  rw [if_neg (by rw [harm]; exact fun h => nomatch h.2.1), if_pos ⟨hconn, harm, rfl⟩]

/-- In a read block the control port carries the phase. -/
theorem epatWriteCtrl_phase {dev : Epat δ} (hlisten : dev.Listening) (hblock : dev.block = .read) :
    epatWriteCtrl 0x04 dev = { dev with ctrl := 0x04 } := by
  have hne : dev.block ≠ .none := hblock ▸ EpatBlock.noConfusion
  rw [epatWriteCtrl_plain hlisten.ucmd,
    epatHandshake_other (by decide) (by decide) (by decide), if_pos hne]

theorem epatReadStatus_low {dev : Epat δ} (hlisten : dev.Listening) (hblock : dev.block = .none)
    (haddr : dev.regAddr < 0x20) (hnibble : ¬dev.nibbleHi) :
    epatReadStatus D dev =
      ((((epatRegRead D dev.regAddr dev).1 &&& 0x0F) <<< 4) ||| (epatStatIdle &&& 0x0F),
        { (epatRegRead D dev.regAddr dev).2 with
          regLatch := (epatRegRead D dev.regAddr dev).1 }) := by
  have hquiet : ¬(dev.ustate ≠ .idle ∨ ¬dev.connected) :=
    not_or.2 ⟨not_not.2 hlisten.ustate, not_not.2 hlisten.connected⟩
  have hread : dev.block ≠ .read := by
    rw [hblock]
    exact EpatBlock.noConfusion
  unfold epatReadStatus epatReadNibble
  rw [if_neg hquiet, if_neg hread, if_neg (UInt8.not_le.2 haddr), if_neg hnibble]

theorem epatReadStatus_high {dev : Epat δ} (hlisten : dev.Listening) (hblock : dev.block = .none)
    (haddr : dev.regAddr < 0x20) (hnibble : dev.nibbleHi) :
    epatReadStatus D dev = ((dev.regLatch &&& 0xF0) ||| (epatStatIdle &&& 0x0F), dev) := by
  have hquiet : ¬(dev.ustate ≠ .idle ∨ ¬dev.connected) :=
    not_or.2 ⟨not_not.2 hlisten.ustate, not_not.2 hlisten.connected⟩
  have hread : dev.block ≠ .read := by
    rw [hblock]
    exact EpatBlock.noConfusion
  unfold epatReadStatus epatReadNibble
  rw [if_neg hquiet, if_neg hread, if_neg (UInt8.not_le.2 haddr), if_pos hnibble]

theorem epatReadStatus_half {dev : Epat δ} (hlisten : dev.Listening) (hblock : dev.block = .read) :
    epatReadStatus D dev =
      if dev.blockHalf then (dev.blockLatch &&& 0xF0, { dev with blockHalf := false })
      else (((epatDataRead D dev).1 &&& 0x0F) <<< 4,
        { (epatDataRead D dev).2 with
          blockLatch := (epatDataRead D dev).1
          blockHalf := true }) := by
  have hquiet : ¬(dev.ustate ≠ .idle ∨ ¬dev.connected) :=
    not_or.2 ⟨not_not.2 hlisten.ustate, not_not.2 hlisten.connected⟩
  unfold epatReadStatus
  rw [if_neg hquiet, if_pos hblock]

/-- The nibbles of a register. -/
def regNibbles (val : UInt8) : List UInt8 :=
  [((val &&& 0x0F) <<< 4) ||| (epatStatIdle &&& 0x0F), (val &&& 0xF0) ||| (epatStatIdle &&& 0x0F)]

/-- The nibbles of a byte of a block. -/
def blockNibbles (val : UInt8) : List UInt8 := [(val &&& 0x0F) <<< 4, val &&& 0xF0]

theorem Epat.Idles.applied_append {dev dev' dev'' : Epat δ} {es : List (EpatEvent δ)}
    (h : dev.Idles dev') (hlog : dev''.log = dev'.log ++ es) :
    Inboard.applied (new Epat.log dev dev'') = Inboard.applied es := by
  obtain ⟨es', hlog', hes'⟩ := h.log
  rw [hlog', List.append_assoc] at hlog
  rw [Steps.new_eq hlog, Inboard.applied_append, hes', List.nil_append]

theorem Epat.RegisterMode.blockArm_ne {dev : Epat δ} (h : dev.RegisterMode) :
    dev.blockArm ≠ .read := by
  rw [h.blockArm]
  exact EpatBlock.noConfusion

/-- A register selected, up to the first nibble. -/
theorem after_address {addr : UInt8} {dev : Epat δ} (hready : dev.Ready)
    (harm : dev.blockArm ≠ .read) (haddr : addr < 0x20) :
    ∃ dev', Steps.after (epatAccess past D) dev [.data addr, .ctrl 0x01, .ctrl 0x03] = dev' ∧
      dev.Idles dev' ∧ dev'.Listening ∧
      if addr = 0x07 then dev'.block = .read ∧ ¬dev'.blockHalf
      else dev'.block = .none ∧ dev'.regAddr = addr ∧ ¬dev'.nibbleHi := by
  obtain ⟨udup, es, hes, hsel⟩ := after_select past D hready (bare_ne haddr)
  have hselect := after_select_idles past D hready (bare_ne haddr)
  have hthree : Steps.after (epatAccess past D) dev [.data addr, .ctrl 0x01, .ctrl 0x03] =
      epatWriteCtrl 0x03 (Steps.after (epatAccess past D) dev [.data addr, .ctrl 0x01]) := rfl
  refine ⟨_, rfl, ?_, ?_⟩
  · rw [hthree]
    exact hselect.trans (epatWriteCtrl_idles 0x03 _)
  rw [epatRegSelect_bare haddr] at hsel
  rw [hthree, hsel]
  by_cases hblk : addr = 0x07
  · rw [if_pos hblk, if_pos hblk]
    have hlisten : (Epat.strobed { dev.heard addr udup es with blockArm := .read }).Listening :=
      ⟨hready.connected, rfl, rfl, hready.ucmd⟩
    rw [epatWriteCtrl_openRead hlisten rfl]
    exact ⟨hlisten.congr rfl rfl rfl rfl, rfl, Bool.false_ne_true⟩
  · rw [if_neg hblk, if_neg hblk]
    have hlisten : (Epat.strobed { dev.heard addr udup es with
        regAddr := addr
        nibbleHi := false }).Listening := ⟨hready.connected, rfl, rfl, hready.ucmd⟩
    rw [epatWriteCtrl_first hlisten hready.block harm]
    exact ⟨hlisten.congr rfl rfl rfl rfl, hready.block, rfl, Bool.false_ne_true⟩

/-- What a register read does with no block to be read : register 7 reads a byte of one. -/
theorem registerMode_read {addr : UInt8} {dev : Epat δ} (hready : dev.Ready)
    (harm : dev.blockArm ≠ .read) (haddr : addr < 0x20) :
    epatOutcome past D dev (regReadAccesses addr) =
      if addr = 0x07 then
        (blockNibbles (epatDataRead D dev.driveSide).1,
          applied (epatDataRead D dev.driveSide).2.log,
          (epatDataRead D dev.driveSide).2.driveSide)
      else
        (regNibbles (epatRegRead D addr dev.driveSide).1,
          applied (epatRegRead D addr dev.driveSide).2.log,
          (epatRegRead D addr dev.driveSide).2.driveSide) := by
  obtain ⟨dev3, hdev3, hidle, hlisten, hdev⟩ := after_address past D hready harm haddr
  have hreads : epatReads past D dev (regReadAccesses addr) =
      epatReads past D dev3 [.readStatus, .ctrl 0x04, .readStatus] := by
    rw [← hdev3]
    rfl
  have hafter : Steps.after (epatAccess past D) dev (regReadAccesses addr) =
      Steps.after (epatAccess past D) dev3 [.readStatus, .ctrl 0x04, .readStatus] := by
    rw [← hdev3]
    rfl
  have hreads3 : epatReads past D dev3 [.readStatus, .ctrl 0x04, .readStatus] =
      [(epatReadStatus D dev3).1,
        (epatReadStatus D (epatWriteCtrl 0x04 (epatReadStatus D dev3).2)).1] := rfl
  have hafter3 : Steps.after (epatAccess past D) dev3 [.readStatus, .ctrl 0x04, .readStatus] =
      (epatReadStatus D (epatWriteCtrl 0x04 (epatReadStatus D dev3).2)).2 := rfl
  unfold epatOutcome
  rw [hreads, hafter, hreads3, hafter3]
  by_cases hblk : addr = 0x07
  · rw [if_pos hblk] at hdev ⊢
    obtain ⟨hblock, hhalf⟩ := hdev
    have hval := epatDataRead_val D dev3
    have heq := (epatDataRead_only D).eq dev3
    rw [hidle.driveSide] at hval heq
    rw [epatReadStatus_half D hlisten hblock, if_neg hhalf, hval, heq]
    generalize epatDataRead D dev.driveSide = r
    have hlisten4 : Epat.Listening { r.2.withDrive dev3 with
        blockLatch := r.1
        blockHalf := true } := hlisten.congr rfl rfl rfl rfl
    have hphase : epatWriteCtrl 0x04 { r.2.withDrive dev3 with
        blockLatch := r.1
        blockHalf := true } =
        { r.2.withDrive dev3 with blockLatch := r.1, blockHalf := true, ctrl := 0x04 } :=
      epatWriteCtrl_phase hlisten4 hblock
    have hlisten5 : Epat.Listening { r.2.withDrive dev3 with
        blockLatch := r.1
        blockHalf := true
        ctrl := 0x04 } := hlisten.congr rfl rfl rfl rfl
    have hlog : (r.2.withDrive dev3).log = dev3.log ++ r.2.log := rfl
    rw [hphase, epatReadStatus_half D hlisten5 hblock]
    exact congrArg (fun es => (blockNibbles r.1, es, r.2.driveSide)) (hidle.applied_append hlog)
  · rw [if_neg hblk] at hdev ⊢
    obtain ⟨hblock, rfl, hnibble⟩ := hdev
    have hval := epatRegRead_val D dev3.regAddr dev3
    have heq := (epatRegRead_only D dev3.regAddr).eq dev3
    rw [hidle.driveSide] at hval heq
    rw [epatReadStatus_low D hlisten hblock haddr hnibble, hval, heq]
    generalize epatRegRead D dev3.regAddr dev.driveSide = r
    have hlisten4 : Epat.Listening { r.2.withDrive dev3 with regLatch := r.1 } :=
      hlisten.congr rfl rfl rfl rfl
    have hstrobe : epatWriteCtrl 0x04 { r.2.withDrive dev3 with regLatch := r.1 } =
        { r.2.withDrive dev3 with regLatch := r.1, nibbleHi := true, ctrl := 0x04 } :=
      epatWriteCtrl_release hlisten4 hblock
    have hlisten5 : Epat.Listening { r.2.withDrive dev3 with
        regLatch := r.1
        nibbleHi := true
        ctrl := 0x04 } := hlisten.congr rfl rfl rfl rfl
    have hlog : (r.2.withDrive dev3).log = dev3.log ++ r.2.log := rfl
    rw [hstrobe, epatReadStatus_high D hlisten5 hblock haddr rfl]
    exact congrArg (fun es => (regNibbles r.1, es, r.2.driveSide)) (hidle.applied_append hlog)

/-! ## Sessions -/

/-- A bridge powered on and connected once, with the drive and the registers of `dev`. -/
def Epat.poweredOn (dev : Epat δ) : Epat δ :=
  { Steps.after (epatAccess past D) epatInit connectFrame with
    sd := dev.sd
    noDrive := dev.noDrive
    regs := dev.regs }

/-- The bridge is connected and in register mode, and the next write or read of any of its
registers behaves as right after power-on. -/
def Epat.AsPowerOn (dev : Epat δ) : Prop :=
  dev.RegisterMode ∧ ∀ addr < 0x20,
    (∀ val, epatOutcome past D dev (HostOp.reg addr val).accesses =
      epatOutcome past D (dev.poweredOn past D) (HostOp.reg addr val).accesses) ∧
    epatOutcome past D dev (regReadAccesses addr) =
      epatOutcome past D (dev.poweredOn past D) (regReadAccesses addr)

theorem poweredOn_registerMode (dev : Epat δ) : (dev.poweredOn past D).RegisterMode := by
  have hinit : (epatInit : Epat δ).ustate ≠ .cmd := EpatUnlockState.noConfusion
  have hpos : (epatInit : Epat δ).upos < 7 := Nat.zero_lt_succ 6
  have hno : ¬(epatInit : Epat δ).Swallows22 := fun h => Bool.false_ne_true h.1.1
  have hmode := (connectFrame_registerMode_iff past D hinit hpos).2
    ⟨rfl, rfl, iff_of_false Bool.false_ne_true hno⟩
  exact ⟨⟨hmode.toListening.congr rfl rfl rfl rfl, hmode.block, hmode.regWrite⟩, hmode.blockArm⟩

/-- Register mode is all it takes. -/
theorem asPowerOn_iff (dev : Epat δ) : dev.AsPowerOn past D ↔ dev.RegisterMode := by
  refine ⟨fun h => h.1, fun hmode => ⟨hmode, fun addr haddr => ⟨fun val => ?_, ?_⟩⟩⟩
  · have hon := poweredOn_registerMode past D dev
    rw [registerMode_write past D hmode.toReady haddr, registerMode_write past D hon.toReady haddr]
    rfl
  · have hon := poweredOn_registerMode past D dev
    rw [registerMode_read past D hmode.toReady hmode.blockArm_ne haddr,
      registerMode_read past D hon.toReady hon.blockArm_ne haddr]
    rfl

end Host

/-- From a state reached, a connect frame opens a session as good as the first, whatever
bytes follow `epat_unlock` in memory, exactly if the state is one of `ConnectsFrom`. -/
theorem epat_session_iff (past₀ : ℕ → UInt8) (D : LptDrive δ) (as : List EpatAccess) :
    (∀ past, (Steps.after (epatAccess past D)
        (Steps.after (epatAccess past₀ D) epatInit as) connectFrame).AsPowerOn past D) ↔
      (Steps.after (epatAccess past₀ D) epatInit as).ConnectsFrom := by
  rw [← connectFrame_iff D (epat_frameInv past₀ D as)]
  exact forall_congr' fun past => asPowerOn_iff past D _

/-- A write block left open stays open. -/
theorem not_epat_session : ¬∀ (past : ℕ → UInt8) (D : LptDrive Unit) (as : List EpatAccess),
    (Steps.after (epatAccess past D)
      (Steps.after (epatAccess past D) epatInit as) connectFrame).AsPowerOn past D := by
  intro h
  have hblock := (h (fun _ => 0) idleDrive
    (connectFrame ++ [.data 0x67, .ctrl 0x01, .ctrl 0x05])).1.block
  exact absurd hblock (by decide +kernel)

end Inboard
