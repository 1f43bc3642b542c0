import Inboard.EpatReads
import Inboard.Ls120Refine

/-!
# The LS-120 transport over the EPAT bridge

The transport's accesses on the port that lpt_epat.c models (`epatPort`). Between two of
them the bridge is at rest (`Epat.AtRest`), and each does through the port what the registers
and the drive behind it do at once (`epatDirect`), as long as no byte 22h is written and the
byte after `epat_unlock` in memory is not 22h (`epatPort_refines`). So a whole run of the
miniport over the port is the run over the registers themselves (`ls_run_direct`).
-/

set_option linter.unusedSectionVars false

namespace Inboard

variable {δ : Type*}

section Port

variable (past : ℕ → UInt8) (D : LptDrive δ)

/-- The bridge on the parallel port. -/
def epatPort : LptPort (Epat δ) where
  writeData := epatWriteData D past
  writeControl := epatWriteCtrl
  readStatus := epatReadStatus D

/-- The bytes the drive gives one after the other. -/
def epatDataReads : ℕ → Epat δ → List UInt8 × Epat δ
  | 0, dev => ([], dev)
  | n + 1, dev =>
    let r := epatDataReads n (epatDataRead D dev).2
    ((epatDataRead D dev).1 :: r.1, r.2)

/-- The registers and the drive, with no port before them. -/
def epatDirect : LsBridge (Epat δ) where
  openFrame dev := dev
  connect dev := dev
  disconnect dev := dev
  regRead := epatRegRead D
  regWrite := epatRegApply D
  blockRead := epatDataReads D
  blockWrite vals dev := vals.foldl (fun dev val => epatDataWrite D val dev) dev

/-! ## At rest -/

/-- Nothing is under way, and the last byte does not hide the first one of a frame. -/
structure Epat.Still (dev : Epat δ) : Prop where
  ustate : dev.ustate = .idle
  ucmd : dev.ucmd = 0
  block : dev.block = .none
  blockArm : dev.blockArm = .none
  regWrite : dev.regWrite = false
  ulast : dev.ulast ≠ 0x22

/-- Between two accesses, connected or not. -/
structure Epat.AtRest (c : Bool) (dev : Epat δ) : Prop extends dev.Still where
  connected : dev.connected = c
  upos : dev.upos = 0

theorem Epat.AtRest.ready {dev : Epat δ} (h : dev.AtRest true) : dev.Ready :=
  ⟨⟨h.connected, h.ustate, h.upos, h.ucmd⟩, h.block, by rw [h.regWrite]; exact Bool.false_ne_true⟩

/-! ## Frames -/

/-- A byte that goes no further than the recogniser. -/
theorem epatWriteData_fed {val : UInt8} {dev dev' : Epat δ}
    (hfeed : epatUnlockFeed past val { dev with data := val } = dev')
    (htaken : dev'.ustate ≠ .idle ∨ dev'.ucmd ≠ 0 ∨ dev'.connected = false) :
    epatWriteData D past val dev = dev' := by
  unfold epatWriteData
  dsimp only
  rw [hfeed]
  rcases htaken with hstate | hucmd | hconn
  · exact if_pos (.inl hstate)
  · exact if_pos (.inr hucmd)
  · split_ifs with h h'
    · rfl
    · exact absurd h' (by rw [hconn]; exact Bool.false_ne_true)
    · rfl

/-- A byte of a frame that is compared and matches, written twice. -/
theorem after_framePair {val : UInt8} (dev : Epat δ) (upos : ℕ) (ustate : EpatUnlockState)
    (hdup : ¬(dev.udup ∧ val = dev.ulast)) (hcmd : dev.ustate ≠ .cmd) (hstate : ustate ≠ .idle)
    (hmatch : ∀ dev' : Epat δ, dev'.upos = dev.upos → ∃ status,
      epatUnlockMatch past val dev' =
        { dev' with status := status, ustate := ustate, upos := upos }) :
    ∃ status log, Steps.after (epatAccess past D) dev [.data val, .data val] =
      { dev with
        data := val
        ulast := val
        udup := false
        upos := upos
        ustate := ustate
        status := status
        log := log } := by
  have htwo : Steps.after (epatAccess past D) dev [.data val, .data val] =
      epatWriteData D past val (epatWriteData D past val dev) := rfl
  obtain ⟨status, hm⟩ := hmatch
    ({ dev with data := val, ulast := val, udup := true }.say [.compared dev.upos]) rfl
  have hfirst := epatWriteData_fed past D
    ((epatUnlockFeed_match past { dev with data := val } hdup hcmd).trans hm) (.inl hstate)
  refine ⟨status, dev.log ++ [.compared dev.upos], ?_⟩
  rw [htwo, hfirst]
  exact epatWriteData_fed past D (epatUnlockFeed_dup past val _ ⟨rfl, rfl⟩) (.inl hstate)

/-- The next entry of the table. -/
theorem epatUnlockMatch_next {val : UInt8} {dev : Epat δ} (hval : val = epatUnlock past dev.upos) :
    ∃ status, epatUnlockMatch past val dev = { dev with
      status := status
      ustate := if dev.upos + 1 = 7 then .cmd else .run
      upos := dev.upos + 1 } := by
  obtain ⟨status, _, _, heq, ⟨-, rfl, rfl⟩ | ⟨hne, -⟩ | ⟨hne, -⟩⟩ :=
    epatUnlockMatch_eq past val dev
  · exact ⟨status, heq⟩
  · exact absurd hval hne
  · exact absurd hval hne

/-- The bytes of a frame after its first. -/
theorem after_frameBytes : ∀ {vals : List UInt8} (dev : Epat δ), dev.udup = false →
    dev.ustate = .run → dev.upos ≠ 7 → FrameAt past dev.upos vals → ∃ data ulast status log,
      Steps.after (epatAccess past D) dev (twice vals) = { dev with
        data := data
        ulast := ulast
        upos := dev.upos + vals.length
        ustate := if dev.upos + vals.length = 7 then .cmd else .run
        status := status
        log := log }
  | [], dev, _, hrun, hne, _ => by
    refine ⟨dev.data, dev.ulast, dev.status, dev.log, ?_⟩
    have hlen : dev.upos + ([] : List UInt8).length = dev.upos := rfl
    rw [hlen, if_neg hne, ← hrun]
    rfl
  | val :: vals, dev, hdup, hrun, hne, ⟨hval, hend, hrest⟩ => by
    have hnot : ¬(dev.udup ∧ val = dev.ulast) := fun h => Bool.false_ne_true (hdup ▸ h.1)
    have hcmd : dev.ustate ≠ .cmd := hrun ▸ EpatUnlockState.noConfusion
    have hstate : (if dev.upos + 1 = 7 then .cmd else .run : EpatUnlockState) ≠ .idle := by
      split_ifs <;> exact EpatUnlockState.noConfusion
    obtain ⟨status, log, hpair⟩ := after_framePair past D dev (dev.upos + 1) _ hnot hcmd hstate
      fun dev' hpos => by
        rw [← hpos] at hval ⊢
        exact epatUnlockMatch_next past hval
    have htwice : twice (val :: vals) = [.data val, .data val] ++ twice vals := rfl
    have hlen : dev.upos + (val :: vals).length = dev.upos + 1 + vals.length := by
      rw [List.length_cons]
      omega
    rw [htwice, Steps.after_append, hpair, hlen]
    by_cases h7 : dev.upos + 1 = 7
    · obtain rfl := hend h7
      refine ⟨val, val, status, log, ?_⟩
      rw [hdup]
      rfl
    · obtain ⟨data, ulast, status', log', hrun'⟩ := after_frameBytes
        { dev with
          data := val
          ulast := val
          udup := false
          upos := dev.upos + 1
          ustate := if dev.upos + 1 = 7 then .cmd else .run
          status := status
          log := log } rfl (if_neg h7) h7 hrest
      exact ⟨data, ulast, status', log', hrun'.trans (by rw [hdup])⟩

/-- The command of a frame. -/
theorem after_frameCmd (val : UInt8) (dev : Epat δ) (hcmd : dev.ustate = .cmd)
    (hdup : dev.udup = false) (hval : val ≠ 0 ∨ dev.connected = false) :
    Steps.after (epatAccess past D) dev [.data val, .data val] =
      { dev with data := val, ulast := val, ucmd := val, ustate := .idle } := by
  have htwo : Steps.after (epatAccess past D) dev [.data val, .data val] =
      epatWriteData D past val (epatWriteData D past val dev) := rfl
  have hnot : ¬(dev.udup ∧ val = dev.ulast) := fun h => Bool.false_ne_true (hdup ▸ h.1)
  have hfeed : epatUnlockFeed past val { dev with data := val } =
      { dev with data := val, ulast := val, udup := true, ucmd := val, ustate := .idle } :=
    (if_neg hnot).trans (if_pos hcmd)
  rw [htwo, epatWriteData_fed past D hfeed (.inr hval),
    epatWriteData_fed past D (epatUnlockFeed_dup past val _ ⟨rfl, rfl⟩) (.inr hval), hdup]

/-- What the commit of a command does to the connection. -/
def cppLeaves (cmd : UInt8) (connected : Bool) : Bool :=
  if cmd = cppConnect then true else if cmd = cppDisconnect then false else connected

/-- The pulse at the end of a frame. The command 0 is not committed. -/
theorem after_framePulse (dev : Epat δ) (hustate : dev.ustate = .idle)
    (harm : dev.blockArm = .none) : ∃ nibbleHi status,
    Steps.after (epatAccess past D) dev [.ctrl 0x04, .ctrl 0x05, .ctrl 0x04] =
      { dev with
        connected := cppLeaves dev.ucmd dev.connected
        status := status
        ucmd := 0
        upos := if dev.ucmd = 0 then dev.upos else 0
        ctrl := 0x04
        nibbleHi := nibbleHi } := by
  have hthree : Steps.after (epatAccess past D) dev [.ctrl 0x04, .ctrl 0x05, .ctrl 0x04] =
      epatWriteCtrl 0x04 (epatWriteCtrl 0x05 (epatWriteCtrl 0x04 dev)) := rfl
  have hrise : (0x04 : UInt8) &&& 0x01 = 0 ∧ (0x05 : UInt8) &&& 0x01 ≠ 0 := by decide
  obtain ⟨nibbleHi, hfirst⟩ := epatWriteCtrl_four dev
  have hcommit : ∃ status, epatCommit 0x05 { dev with nibbleHi := nibbleHi, ctrl := 0x04 } =
      { dev with
        connected := cppLeaves dev.ucmd dev.connected
        status := status
        ucmd := 0
        upos := if dev.ucmd = 0 then dev.upos else 0
        ctrl := 0x04
        nibbleHi := nibbleHi } := by
    unfold epatCommit cppLeaves cppConnect cppDisconnect
    dsimp only
    by_cases hzero : dev.ucmd = 0
    · have hconn : ¬(0 : UInt8) = 0xE0 ∧ ¬(0 : UInt8) = 0x30 := by decide
      rw [if_neg fun h => h.2.2.2 hzero, hzero, if_neg hconn.1, if_neg hconn.2, if_pos rfl]
      exact ⟨dev.status, by rw [← hzero]⟩
    · rw [if_pos ⟨hrise.1, hrise.2, hustate, hzero⟩, if_neg hzero]
      by_cases hconn : dev.ucmd = 0xE0
      · rw [if_pos hconn, if_pos hconn]
        exact ⟨_, rfl⟩
      rw [if_neg hconn, if_neg hconn]
      by_cases hdisc : dev.ucmd = 0x30
      · rw [if_pos hdisc, if_pos hdisc]
        exact ⟨_, rfl⟩
      · rw [if_neg hdisc, if_neg hdisc]
        exact ⟨_, rfl⟩
  obtain ⟨status, hcommit⟩ := hcommit
  have hsecond : epatWriteCtrl 0x05 (epatWriteCtrl 0x04 dev) =
      { dev with
        connected := cppLeaves dev.ucmd dev.connected
        status := status
        ucmd := 0
        upos := if dev.ucmd = 0 then dev.upos else 0
        ctrl := 0x05
        nibbleHi := nibbleHi } := by
    have hwrite : dev.blockArm ≠ .write := harm ▸ EpatBlock.noConfusion
    rw [hfirst]
    unfold epatWriteCtrl
    rw [hcommit, epatHandshake_five, if_neg fun h => hwrite h.2]
  obtain ⟨nibbleHi', hthird⟩ := epatWriteCtrl_four (epatWriteCtrl 0x05 (epatWriteCtrl 0x04 dev))
  exact ⟨nibbleHi', status, by rw [hthree, hthird, hsecond]⟩

/-- The frame's first byte starts it. After the command 0 `upos` is still at the table's end, and
the byte that follows the table decides. -/
theorem epatUnlockMatch_first {dev : Epat δ}
    (hpos : 0x22 = epatUnlock past dev.upos → dev.upos = 0) :
    ∃ status, epatUnlockMatch past 0x22 dev =
      { dev with status := status, ustate := .run, upos := 1 } := by
  obtain ⟨status, _, _, heq, ⟨hval, rfl, rfl⟩ | ⟨-, -, rfl, rfl⟩ | ⟨-, hne, -⟩⟩ :=
    epatUnlockMatch_eq past 0x22 dev
  · refine ⟨status, heq.trans ?_⟩
    rw [hpos hval]
    rfl
  · exact ⟨status, heq⟩
  · exact absurd rfl hne

theorem foldl_writeData : ∀ (vals : List UInt8) (dev : Epat δ),
    vals.foldl (fun dev val => ((epatPort past D).writeData val)^[2] dev) dev =
      Steps.after (epatAccess past D) dev (twice vals)
  | [], _ => rfl
  | _ :: vals, _ => foldl_writeData vals _

theorem cppFrame_eq (cmd : UInt8) (dev : Epat δ) :
    (epatPort past D).cppFrame 2 cmd dev = Steps.after (epatAccess past D) dev
      ([.ctrl 0x04] ++ ([.data 0x22, .data 0x22] ++ (twice [0xAA, 0x55, 0x00, 0xFF, 0x87, 0x78] ++
        ([.data cmd, .data cmd] ++ [.ctrl 0x04, .ctrl 0x05, .ctrl 0x04])))) := by
  have htwice : twice [0x22, 0xAA, 0x55, 0x00, 0xFF, 0x87, 0x78, cmd] = [.data 0x22, .data 0x22] ++
      (twice [0xAA, 0x55, 0x00, 0xFF, 0x87, 0x78] ++ [.data cmd, .data cmd]) := rfl
  unfold LptPort.cppFrame
  dsimp only
  rw [foldl_writeData, htwice]
  simp only [Steps.after_append]
  rfl

/-- A whole frame, from a bridge that is not in one. -/
theorem after_cppFrame (cmd : UInt8) {dev : Epat δ} (h : dev.Still)
    (hpos : 0x22 = epatUnlock past dev.upos → dev.upos = 0)
    (hcmd : cmd ≠ 0x22) (hzero : cmd ≠ 0 ∨ dev.connected = false) :
    let dev' := (epatPort past D).cppFrame 2 cmd dev
    dev'.Still ∧ dev'.connected = cppLeaves cmd dev.connected ∧
      dev'.upos = (if cmd = 0 then 7 else 0) ∧ dev'.driveSide = dev.driveSide := by
  obtain ⟨hustate, hucmd, hblock, harm, hwrite, hlast⟩ := h
  obtain ⟨nibbleHi, hfour⟩ := epatWriteCtrl_four dev
  have hctrl : Steps.after (epatAccess past D) dev [.ctrl 0x04] =
      { dev with nibbleHi := nibbleHi, ctrl := 0x04 } := hfour
  have hnot : ¬(dev.udup ∧ 0x22 = dev.ulast) := fun h => hlast h.2.symm
  have hidle : dev.ustate ≠ .cmd := hustate ▸ EpatUnlockState.noConfusion
  obtain ⟨status, log, hfirst⟩ := after_framePair past D
    { dev with nibbleHi := nibbleHi, ctrl := 0x04 } 1 .run hnot hidle
    EpatUnlockState.noConfusion fun dev' hdev' =>
      epatUnlockMatch_first past (by rw [hdev']; exact hpos)
  obtain ⟨data, ulast, status', log', hbytes⟩ := after_frameBytes past D
    { dev with
      nibbleHi := nibbleHi
      ctrl := 0x04
      data := 0x22
      ulast := 0x22
      udup := false
      upos := 1
      ustate := .run
      status := status
      log := log } rfl rfl (by decide : 1 ≠ 7) (frameAt_table past)
  have hcommand := after_frameCmd past D cmd
    { dev with
      nibbleHi := nibbleHi
      ctrl := 0x04
      data := data
      ulast := ulast
      udup := false
      upos := 7
      ustate := .cmd
      status := status'
      log := log' } rfl rfl hzero
  obtain ⟨nibbleHi', status'', hpulse⟩ := after_framePulse past D
    { dev with
      nibbleHi := nibbleHi
      ctrl := 0x04
      data := cmd
      ulast := cmd
      udup := false
      upos := 7
      ustate := .idle
      ucmd := cmd
      status := status'
      log := log' } rfl harm
  have hall : (epatPort past D).cppFrame 2 cmd dev = { dev with
      connected := cppLeaves cmd dev.connected
      status := status''
      ucmd := 0
      upos := if cmd = 0 then 7 else 0
      ctrl := 0x04
      nibbleHi := nibbleHi'
      data := cmd
      ulast := cmd
      udup := false
      ustate := .idle
      log := log' } := by
    rw [cppFrame_eq, Steps.after_append, hctrl, Steps.after_append, hfirst, Steps.after_append,
      hbytes, Steps.after_append]
    exact (congrArg (Steps.after (epatAccess past D) ·
      [.ctrl 0x04, .ctrl 0x05, .ctrl 0x04]) hcommand).trans hpulse
  dsimp only
  rw [hall]
  exact ⟨⟨rfl, rfl, hblock, harm, hwrite, hcmd⟩, rfl, rfl, rfl⟩

/-- A frame from a bridge at rest. -/
theorem Epat.AtRest.cppFrame {c : Bool} {dev : Epat δ} (h : dev.AtRest c) (cmd : UInt8)
    (hcmd : cmd ≠ 0x22) (hzero : cmd ≠ 0) :
    ((epatPort past D).cppFrame 2 cmd dev).AtRest (cppLeaves cmd c) ∧
      ((epatPort past D).cppFrame 2 cmd dev).driveSide = dev.driveSide := by
  obtain ⟨hstill, hconn, hpos, hside⟩ := after_cppFrame past D cmd h.toStill (fun _ => h.upos)
    hcmd (.inl hzero)
  exact ⟨⟨hstill, by rw [hconn, h.connected], hpos.trans (if_neg hzero)⟩, hside⟩

/-! ## Opening -/

/-- A control value with nINIT low that is none of the block's. -/
theorem epatWriteCtrl_kick {val : UInt8} (hlow : val &&& 0x01 = 0) {dev : Epat δ}
    (hblock : dev.block = .none) :
    ∃ nibbleHi, epatWriteCtrl val dev = { dev with nibbleHi := nibbleHi, ctrl := val } := by
  have hodd (val' : UInt8) (h' : val' &&& 0x01 ≠ 0) : val ≠ val' := fun h => h' (h ▸ hlow)
  have h1 := hodd 0x01 (by decide)
  have h3 := hodd 0x03 (by decide)
  have h5 := hodd 0x05 (by decide)
  have h7 := hodd 0x07 (by decide)
  unfold epatWriteCtrl
  rw [epatCommit_low hlow, epatHandshake_other h3 h5 h7, if_neg (not_not.2 hblock)]
  unfold epatStrobe
  rw [if_neg fun h => h1 h.2, if_neg fun h => h3 h.2]
  split_ifs
  · exact ⟨_, rfl⟩
  · exact ⟨_, rfl⟩

theorem foldl_kick : ∀ (vals : List UInt8) {dev : Epat δ}, (∀ val ∈ vals, val &&& 0x01 = 0) →
    dev.block = .none → ∃ nibbleHi ctrl, vals.foldl (fun dev val => epatWriteCtrl val dev) dev =
      { dev with nibbleHi := nibbleHi, ctrl := ctrl }
  | [], dev, _, _ => ⟨dev.nibbleHi, dev.ctrl, rfl⟩
  | val :: vals, dev, hvals, hblock => by
    obtain ⟨hval, hvals⟩ := List.forall_mem_cons.1 hvals
    obtain ⟨_, heq⟩ := epatWriteCtrl_kick hval hblock
    rw [List.foldl_cons, heq]
    exact foldl_kick vals hvals hblock

/-- The preamble up to its last frame, which is not committed. -/
theorem after_preamble {c : Bool} {dev : Epat δ} (h : dev.AtRest c) :
    ∃ dev', [0x30, 0x40, 0x50, 0x00].foldl (fun dev cmd => (epatPort past D).cppFrame 2 cmd dev)
        (cppKick.foldl (fun dev val => epatWriteCtrl val dev) dev) = dev' ∧
      dev'.Still ∧ dev'.connected = false ∧ dev'.upos = 7 ∧ dev'.driveSide = dev.driveSide := by
  obtain ⟨nibbleHi, ctrl, hkick⟩ := foldl_kick cppKick (forall_mem_of_all (by decide)) h.block
  have hkicked : Epat.AtRest c { dev with nibbleHi := nibbleHi, ctrl := ctrl } :=
    ⟨⟨h.ustate, h.ucmd, h.block, h.blockArm, h.regWrite, h.ulast⟩, h.connected, h.upos⟩
  obtain ⟨h1, hside1⟩ := hkicked.cppFrame past D 0x30 (by decide) (by decide)
  obtain ⟨h2, hside2⟩ := h1.cppFrame past D 0x40 (by decide) (by decide)
  obtain ⟨h3, hside3⟩ := h2.cppFrame past D 0x50 (by decide) (by decide)
  have hconn : cppLeaves 0x50 (cppLeaves 0x40 (cppLeaves 0x30 c)) = false := rfl
  rw [hconn] at h3
  obtain ⟨hstill, hconn4, hpos, hside4⟩ := after_cppFrame past D 0x00 h3.toStill
    (fun _ => h3.upos) (by decide) (.inr h3.connected)
  refine ⟨_, rfl, ?_, ?_, ?_, ?_⟩
  · rw [hkick]
    exact hstill
  · rw [hkick]
    exact hconn4.trans h3.connected
  · rw [hkick]
    exact hpos
  · rw [hkick]
    exact hside4.trans (hside3.trans (hside2.trans hside1))

/-- The port is opened, unless the byte after `epat_unlock` is taken for the connect frame's
first. -/
theorem Epat.AtRest.openFrame {c : Bool} {dev : Epat δ} (hpast : past 0 ≠ 0x22)
    (h : dev.AtRest c) : ((epatPort past D).openFrame 2 dev).AtRest true ∧
      ((epatPort past D).openFrame 2 dev).driveSide = dev.driveSide := by
  obtain ⟨dev', hpre, hstill, hconn, hpos, hside⟩ := after_preamble past D h
  have hopen : (epatPort past D).openFrame 2 dev = (epatPort past D).cppFrame 2 cppConnect dev' :=
    congrArg ((epatPort past D).cppFrame 2 cppConnect) hpre
  have hpast' : 0x22 = epatUnlock past dev'.upos → dev'.upos = 0 := by
    rw [hpos]
    exact fun h => absurd h.symm hpast
  obtain ⟨hstill', hconn', hpos', hside'⟩ := after_cppFrame past D cppConnect hstill
    hpast' (by decide) (.inl (by decide))
  rw [hopen]
  exact ⟨⟨hstill', hconn', hpos'⟩, hside'.trans hside⟩

/-! ## Between two accesses -/

theorem DriveOnly.driveSide_congr {f : Epat δ → Epat δ} (hf : DriveOnly f) {dev side : Epat δ}
    (h : dev.driveSide = side.driveSide) : (f dev).driveSide = (f side).driveSide := by
  rw [hf.eq dev, hf.eq side, h]
  rfl

/-- Connected, in a block of kind `b` or in none, with what is behind the ports of `side`. -/
structure Epat.Held (b : EpatBlock) (dev side : Epat δ) : Prop extends dev.Listening where
  block : dev.block = b
  blockArm : dev.blockArm = .none
  regWrite : dev.regWrite = false
  ulast : dev.ulast ≠ 0x22
  driveSide : dev.driveSide = side.driveSide

theorem Epat.AtRest.held {dev : Epat δ} (h : dev.AtRest true) : dev.Held .none dev :=
  ⟨⟨h.connected, h.ustate, h.upos, h.ucmd⟩, h.block, h.blockArm, h.regWrite, h.ulast, rfl⟩

theorem Epat.Held.atRest {side dev : Epat δ} (h : dev.Held .none side) : dev.AtRest true :=
  ⟨⟨h.ustate, h.ucmd, h.block, h.blockArm, h.regWrite, h.ulast⟩, h.connected, h.upos⟩

theorem Epat.Held.ready {side dev : Epat δ} (h : dev.Held .none side) : dev.Ready :=
  h.atRest.ready

/-! ## Registers -/

/-- Register `addr` is selected ; `hi` says that its high nibble is next. -/
structure Epat.Selected (addr : UInt8) (hi : Bool) (dev side : Epat δ) : Prop extends
    dev.Held .none side where
  regAddr : dev.regAddr = addr
  nibbleHi : dev.nibbleHi = hi

section Registers

variable {addr : UInt8} {hi : Bool} {side dev : Epat δ}

theorem Epat.Held.select (h : dev.Held .none side) (haddr : addr < 0x20) (hne : addr ≠ 0x07) :
    (epatWriteCtrl 0x01 (epatWriteData D past addr dev)).Selected addr false side := by
  obtain ⟨udup, es, -, hsel⟩ := after_select past D h.ready (bare_ne haddr)
  have htwo : Steps.after (epatAccess past D) dev [.data addr, .ctrl 0x01] =
      epatWriteCtrl 0x01 (epatWriteData D past addr dev) := rfl
  rw [htwo, epatRegSelect_bare haddr, if_neg hne] at hsel
  rw [hsel]
  exact ⟨⟨⟨h.connected, rfl, rfl, h.ucmd⟩, h.block, h.blockArm, h.regWrite, bare_ne haddr,
    h.driveSide⟩, rfl, rfl⟩

/-- The strobe before the low nibble. -/
theorem Epat.Selected.first (h : dev.Selected addr hi side) :
    (epatWriteCtrl 0x03 dev).Selected addr false side := by
  rw [epatWriteCtrl_first h.toListening h.block (h.blockArm ▸ EpatBlock.noConfusion)]
  exact ⟨⟨h.toListening.congr rfl rfl rfl rfl, h.block, h.blockArm, h.regWrite, h.ulast,
    h.driveSide⟩, h.regAddr, rfl⟩

/-- The strobe before the high nibble. -/
theorem Epat.Selected.release (h : dev.Selected addr hi side) :
    (epatWriteCtrl 0x04 dev).Selected addr true side ∧
      (epatWriteCtrl 0x04 dev).regLatch = dev.regLatch := by
  rw [epatWriteCtrl_release h.toListening h.block]
  exact ⟨⟨⟨h.toListening.congr rfl rfl rfl rfl, h.block, h.blockArm, h.regWrite, h.ulast,
    h.driveSide⟩, h.regAddr, rfl⟩, rfl⟩

/-- The low nibble, with which the register is fetched. -/
theorem Epat.Selected.low (haddr : addr < 0x20) (h : dev.Selected addr false side) :
    (epatReadStatus D dev).1 =
        (((epatRegRead D addr side).1 &&& 0x0F) <<< 4) ||| (epatStatIdle &&& 0x0F) ∧
      (epatReadStatus D dev).2.Selected addr false (epatRegRead D addr side).2 ∧
      (epatReadStatus D dev).2.regLatch = (epatRegRead D addr side).1 := by
  have haddr' : dev.regAddr < 0x20 := h.regAddr.symm ▸ haddr
  have hnibble : ¬dev.nibbleHi := by
    rw [h.nibbleHi]
    exact Bool.false_ne_true
  have hval : (epatRegRead D addr dev).1 = (epatRegRead D addr side).1 := by
    rw [epatRegRead_val, h.driveSide, ← epatRegRead_val]
  have hside := (epatRegRead_only D addr).driveSide_congr h.driveSide
  obtain ⟨r, heq, -⟩ := (epatRegRead_only D addr).exists_eq dev
  rw [epatReadStatus_low D h.toListening h.block haddr' hnibble, h.regAddr, hval]
  rw [heq] at hside ⊢
  exact ⟨rfl, ⟨⟨h.toListening.congr rfl rfl rfl rfl, h.block, h.blockArm, h.regWrite, h.ulast,
    hside⟩, h.regAddr, h.nibbleHi⟩, rfl⟩

theorem Epat.Selected.high (haddr : addr < 0x20) (h : dev.Selected addr true side) :
    epatReadStatus D dev = ((dev.regLatch &&& 0xF0) ||| (epatStatIdle &&& 0x0F), dev) :=
  epatReadStatus_high D h.toListening h.block (h.regAddr.symm ▸ haddr) h.nibbleHi

/-- The high and the low nibble of a register, as the transport joins them. -/
def joinNibbles (hi lo : UInt8) : UInt8 :=
  (hi &&& (0xF0 : UInt8)) ||| ((lo &&& (0xF0 : UInt8)) >>> 4)

theorem joinNibbles_reg (val : UInt8) :
    joinNibbles ((val &&& 0xF0) ||| (epatStatIdle &&& 0x0F))
      (((val &&& 0x0F) <<< 4) ||| (epatStatIdle &&& 0x0F)) = val :=
  forall_byte (P := fun val => joinNibbles ((val &&& 0xF0) ||| (epatStatIdle &&& 0x0F))
    (((val &&& 0x0F) <<< 4) ||| (epatStatIdle &&& 0x0F)) = val) (by decide +kernel) val

/-- A register read fetches the register once, and joins its nibbles. -/
theorem Epat.Held.fetched (haddr : addr < 0x20) (hne : addr ≠ 0x07) (h : dev.Held .none side) :
    ((epatPort past D).regReadCont addr dev).1 = (epatRegRead D addr side).1 ∧
      ((epatPort past D).regReadCont addr dev).2.Held .none (epatRegRead D addr side).2 := by
  obtain ⟨hlo, hlow, hlatch⟩ := ((h.select past D haddr hne).first.first).low D haddr
  obtain ⟨hrel, hlatch'⟩ := hlow.release
  obtain ⟨hrel', hlatch''⟩ := hrel.release
  have hhi := hrel'.high D haddr
  have hread : (epatPort past D).regReadCont addr dev =
      (joinNibbles (epatReadStatus D (epatWriteCtrl 0x04 (epatWriteCtrl 0x04 (epatReadStatus D
          (epatWriteCtrl 0x03 (epatWriteCtrl 0x03 (epatWriteCtrl 0x01
            (epatWriteData D past addr dev))))).2))).1
        (epatReadStatus D (epatWriteCtrl 0x03 (epatWriteCtrl 0x03 (epatWriteCtrl 0x01
          (epatWriteData D past addr dev))))).1,
      (epatReadStatus D (epatWriteCtrl 0x04 (epatWriteCtrl 0x04 (epatReadStatus D
        (epatWriteCtrl 0x03 (epatWriteCtrl 0x03 (epatWriteCtrl 0x01
          (epatWriteData D past addr dev))))).2))).2) := rfl
  rw [hread, hhi, hlo, hlatch'', hlatch', hlatch]
  exact ⟨joinNibbles_reg _, hrel'.toHeld⟩

/-- Register `addr` is selected and waits for its value. -/
structure Epat.Tagged (addr : UInt8) (dev side : Epat δ) : Prop extends dev.Listening where
  block : dev.block = .none
  blockArm : dev.blockArm = .none
  regWrite : dev.regWrite
  regAddr : dev.regAddr = addr
  driveSide : dev.driveSide = side.driveSide

theorem tagged_eq (haddr : addr < 0x20) : addr ||| nibWriteTag = 0x60 + addr :=
  forall_register (P := fun addr => addr ||| nibWriteTag = 0x60 + addr) (by decide) haddr

theorem Epat.Held.tag (haddr : addr < 0x20) (hne : addr ≠ 0x07) (h : dev.Held .none side) :
    (epatWriteCtrl 0x01 (epatWriteData D past (addr ||| nibWriteTag) dev)).Tagged addr side := by
  obtain ⟨udup, es, -, hsel⟩ := after_select past D h.ready (tagged_ne haddr)
  have htwo : Steps.after (epatAccess past D) dev [.data (0x60 + addr), .ctrl 0x01] =
      epatWriteCtrl 0x01 (epatWriteData D past (0x60 + addr) dev) := rfl
  rw [tagged_eq haddr, ← htwo, hsel, epatRegSelect_tagged haddr hne]
  exact ⟨⟨h.connected, rfl, rfl, h.ucmd⟩, h.block, h.blockArm, rfl, rfl, h.driveSide⟩

theorem Epat.Tagged.again (h : dev.Tagged addr side) :
    (epatWriteCtrl 0x01 dev).Tagged addr side := by
  rw [epatWriteCtrl_select h.toListening h.block]
  exact ⟨⟨h.connected, rfl, rfl, h.ucmd⟩, h.block, h.blockArm, h.regWrite, h.regAddr, h.driveSide⟩

/-- The value of a register, and the strobe that ends the write. -/
theorem Epat.Tagged.value {val : UInt8} (haddr : addr < 0x20) (hval : val ≠ 0x22)
    (h : dev.Tagged addr side) :
    (epatWriteCtrl 0x04 (epatWriteData D past val dev)).Held .none
      (epatRegApply D addr val side) := by
  obtain ⟨udup, es, -, hdata⟩ := epatWriteData_plain past D hval h.toListening
  have haddr' : (dev.heard val udup es).regAddr < 0x20 := h.regAddr.symm ▸ haddr
  have hvalue : epatWriteByte D val (dev.heard val udup es) =
      epatRegApply D addr val { dev.heard val udup es with regWrite := false } := by
    have hblock : (dev.heard val udup es).block = .none := h.block
    have hwrite : (dev.heard val udup es).regWrite := h.regWrite
    exact (epatWriteByte_value D hblock hwrite haddr').trans
      (congrArg (epatRegApply D · val _) h.regAddr)
  have hsame : Epat.driveSide { dev.heard val udup es with regWrite := false } = side.driveSide :=
    h.driveSide
  have hside := (epatRegApply_only D addr val).driveSide_congr hsame
  obtain ⟨r, heq, -⟩ := (epatRegApply_only D addr val).exists_eq
    { dev.heard val udup es with regWrite := false }
  have hlisten : (r.withDrive { dev.heard val udup es with regWrite := false }).Listening :=
    h.toListening.congr rfl rfl rfl rfl
  rw [heq] at hside
  rw [hdata, hvalue, heq, epatWriteCtrl_release hlisten h.block]
  exact ⟨hlisten.congr rfl rfl rfl rfl, h.block, h.blockArm, rfl, hval, hside⟩

/-- A register write reaches the register. -/
theorem Epat.Held.written {val : UInt8} (haddr : addr < 0x20) (hne : addr ≠ 0x07)
    (hval : val ≠ 0x22) (h : dev.Held .none side) :
    ((epatPort past D).regWriteCont addr val dev).Held .none (epatRegApply D addr val side) :=
  (h.tag past D haddr hne).again.value past D haddr hval

end Registers

/-! ## Blocks -/

section Blocks

variable {b : EpatBlock} {dev side : Epat δ}

/-- In a block the control port carries the phase. -/
theorem Epat.Held.phase {val : UInt8} (hb : b ≠ .none) (hend : val = 0x07 → b ≠ .write)
    (h : dev.Held b side) : epatWriteCtrl val dev = { dev with ctrl := val } := by
  have hblock : dev.block ≠ .none := h.block ▸ hb
  have hnone : ∀ {b' : EpatBlock}, b' ≠ .none → dev.blockArm ≠ b' := fun hb' harm =>
    hb' (harm.symm.trans h.blockArm)
  rw [epatWriteCtrl_plain h.ucmd]
  unfold epatHandshake
  rw [if_neg fun h' => hnone EpatBlock.noConfusion h'.2.1,
    if_neg fun h' => hnone EpatBlock.noConfusion h'.2.1,
    if_neg fun h' => hend h'.2 (h.block ▸ h'.1), if_pos hblock]

theorem Epat.Held.ctrl {val : UInt8} (hb : b ≠ .none) (hend : val = 0x07 → b ≠ .write)
    (h : dev.Held b side) : (epatWriteCtrl val dev).Held b side := by
  rw [h.phase hb hend]
  exact ⟨h.toListening.congr rfl rfl rfl rfl, h.block, h.blockArm, h.regWrite, h.ulast,
    h.driveSide⟩

/-- Out of a block too the strobe 04h only tells the nibbles apart. -/
theorem Epat.Held.four (h : dev.Held b side) : (epatWriteCtrl 0x04 dev).Held b side := by
  obtain ⟨_, heq⟩ := epatWriteCtrl_four dev
  rw [heq]
  exact ⟨h.toListening.congr rfl rfl rfl rfl, h.block, h.blockArm, h.regWrite, h.ulast,
    h.driveSide⟩

/-- A block is armed and opened. -/
theorem Epat.Held.openWrite (h : dev.Held .none side) :
    (epatWriteCtrl 0x05 (epatWriteCtrl 0x01 (epatWriteData D past 0x67 dev))).Held .write side := by
  have hne : (0x67 : UInt8) ≠ 0x22 := by decide
  obtain ⟨udup, es, -, hsel⟩ := after_select past D h.ready hne
  have htwo : Steps.after (epatAccess past D) dev [.data 0x67, .ctrl 0x01] =
      epatWriteCtrl 0x01 (epatWriteData D past 0x67 dev) := rfl
  have hlisten : (Epat.strobed { dev.heard 0x67 udup es with blockArm := .write }).Listening :=
    ⟨h.connected, rfl, rfl, h.ucmd⟩
  have harm : epatRegSelect 0x67 (dev.heard 0x67 udup es) =
      { dev.heard 0x67 udup es with blockArm := .write } := rfl
  rw [← htwo, hsel, harm, epatWriteCtrl_open hlisten rfl]
  exact ⟨hlisten.congr rfl rfl rfl rfl, rfl, rfl, h.regWrite, hne, h.driveSide⟩

/-- A byte of a write block reaches the drive. -/
theorem Epat.Held.streamed {val : UInt8} (hval : val ≠ 0x22) (h : dev.Held .write side) :
    (epatWriteData D past val dev).Held .write (epatDataWrite D val side) := by
  obtain ⟨udup, es, -, hdata⟩ := epatWriteData_plain past D hval h.toListening
  have hsame : ((dev.heard val udup es).say [.stream val]).driveSide = side.driveSide :=
    h.driveSide
  have hside := (epatDataWrite_only D val).driveSide_congr hsame
  obtain ⟨r, heq, -⟩ := (epatDataWrite_only D val).exists_eq
    ((dev.heard val udup es).say [.stream val])
  have hbyte : epatWriteByte D val (dev.heard val udup es) =
      epatDataWrite D val ((dev.heard val udup es).say [.stream val]) :=
    epatWriteByte_stream D h.block
  rw [hdata, hbyte]
  rw [heq] at hside ⊢
  exact ⟨h.toListening.congr rfl rfl rfl rfl, h.block, h.blockArm, h.regWrite, hval, hside⟩

/-- The end of a write block. -/
theorem Epat.Held.closeWrite (h : dev.Held .write side) :
    (epatWriteCtrl 0x07 dev).Held .none side := by
  rw [epatWriteCtrl_close h.toListening h.block]
  exact ⟨h.toListening.congr rfl rfl rfl rfl, rfl, h.blockArm, h.regWrite, h.ulast, h.driveSide⟩

/-- The bytes of a write block, with the phase that alternates. -/
theorem Epat.Held.blockWriteLoop : ∀ {vals : List UInt8} {ph : UInt8} {dev side : Epat δ},
    (∀ val ∈ vals, val ≠ 0x22) → ph = 0 ∨ ph = 1 → dev.Held .write side →
    ((epatPort past D).blockWriteLoop vals ph dev).Held .write
      (vals.foldl (fun dev val => epatDataWrite D val dev) side)
  | [], _, _, _, _, _, h => h
  | val :: vals, ph, dev, side, hvals, hph, h => by
    obtain ⟨hval, hvals⟩ := List.forall_mem_cons.1 hvals
    have hne : 4 + ph ≠ 0x07 := by
      rcases hph with rfl | rfl <;> decide
    have hnext : ph ^^^ 1 = 0 ∨ ph ^^^ 1 = 1 := by
      rcases hph with rfl | rfl <;> decide
    have hrest := Epat.Held.blockWriteLoop hvals hnext
      ((h.streamed past D hval).ctrl EpatBlock.noConfusion fun h => absurd h hne)
    exact hrest

/-- A block write reaches the drive, byte by byte. -/
theorem Epat.Held.blockWritten {vals : List UInt8} (hvals : ∀ val ∈ vals, val ≠ 0x22)
    (h : dev.Held .none side) : ((epatPort past D).blockWriteSpp vals dev).Held .none
      (vals.foldl (fun dev val => epatDataWrite D val dev) side) := by
  unfold LptPort.blockWriteSpp
  by_cases hnil : vals = []
  · rw [if_pos hnil, hnil]
    exact h
  · rw [if_neg hnil]
    exact ((h.openWrite past D).blockWriteLoop past D hvals (.inl rfl)).closeWrite.four

/-! ### Reads -/

/-- In a read block, between two bytes. -/
structure Epat.Reads (dev side : Epat δ) : Prop extends dev.Held .read side where
  half : dev.blockHalf = false

theorem Epat.Held.openRead (h : dev.Held .none side) :
    (epatWriteCtrl 0x03 (epatWriteCtrl 0x01 (epatWriteData D past 0x07 dev))).Reads side := by
  have hne : (0x07 : UInt8) ≠ 0x22 := by decide
  obtain ⟨udup, es, -, hsel⟩ := after_select past D h.ready hne
  have htwo : Steps.after (epatAccess past D) dev [.data 0x07, .ctrl 0x01] =
      epatWriteCtrl 0x01 (epatWriteData D past 0x07 dev) := rfl
  have hlisten : (Epat.strobed { dev.heard 0x07 udup es with blockArm := .read }).Listening :=
    ⟨h.connected, rfl, rfl, h.ucmd⟩
  have harm : epatRegSelect 0x07 (dev.heard 0x07 udup es) =
      { dev.heard 0x07 udup es with blockArm := .read } := rfl
  rw [← htwo, hsel, harm, epatWriteCtrl_openRead hlisten rfl]
  exact ⟨⟨hlisten.congr rfl rfl rfl rfl, rfl, rfl, h.regWrite, hne, h.driveSide⟩, rfl⟩

/-- What the host writes into a read block is nothing to the bridge. -/
theorem Epat.Reads.data {val : UInt8} (hval : val ≠ 0x22) (hzero : val ≠ 0) (h : dev.Reads side) :
    (epatWriteData D past val dev).Reads side := by
  obtain ⟨udup, es, -, hdata⟩ := epatWriteData_plain past D hval h.toListening
  have hbyte : epatWriteByte D val (dev.heard val udup es) = dev.heard val udup es := by
    have hblock : (dev.heard val udup es).block = .read := h.block
    unfold epatWriteByte
    rw [hblock]
    exact if_neg hzero
  rw [hdata, hbyte]
  exact ⟨⟨h.toListening.heard val udup es, h.block, h.blockArm, h.regWrite, hval, h.driveSide⟩,
    h.half⟩

/-- A zero ends a read block. -/
theorem Epat.Reads.close (h : dev.Reads side) :
    (epatWriteData D past 0x00 dev).Held .none side := by
  have hne : (0x00 : UInt8) ≠ 0x22 := by decide
  obtain ⟨udup, es, -, hdata⟩ := epatWriteData_plain past D hne h.toListening
  have hbyte : epatWriteByte D 0x00 (dev.heard 0x00 udup es) =
      { dev.heard 0x00 udup es with block := .none } := by
    have hblock : (dev.heard 0x00 udup es).block = .read := h.block
    unfold epatWriteByte
    rw [hblock]
    rfl
  rw [hdata, hbyte]
  exact ⟨h.toListening.congr rfl rfl rfl rfl, rfl, h.blockArm, h.regWrite, hne, h.driveSide⟩

/-- A fetch gives the low nibble. -/
theorem Epat.Reads.low (h : dev.Reads side) :
    (epatReadStatus D dev).1 = ((epatDataRead D side).1 &&& 0x0F) <<< 4 ∧
      (epatReadStatus D dev).2.Held .read (epatDataRead D side).2 ∧
      (epatReadStatus D dev).2.blockHalf = true ∧
      (epatReadStatus D dev).2.blockLatch = (epatDataRead D side).1 := by
  have hval : (epatDataRead D dev).1 = (epatDataRead D side).1 := by
    rw [epatDataRead_val, h.driveSide, ← epatDataRead_val]
  have hside := (epatDataRead_only D).driveSide_congr h.driveSide
  obtain ⟨r, heq, -⟩ := (epatDataRead_only D).exists_eq dev
  rw [epatReadStatus_half D h.toListening h.block,
    if_neg (by rw [h.half]; exact Bool.false_ne_true), hval]
  rw [heq] at hside ⊢
  exact ⟨rfl, ⟨h.toListening.congr rfl rfl rfl rfl, h.block, h.blockArm, h.regWrite, h.ulast,
    hside⟩, rfl, rfl⟩

/-- The high nibble is the fetched byte's. -/
theorem Epat.Held.high (h : dev.Held .read side) (hhalf : dev.blockHalf = true) :
    (epatReadStatus D dev).1 = dev.blockLatch &&& 0xF0 ∧ (epatReadStatus D dev).2.Reads side := by
  rw [epatReadStatus_half D h.toListening h.block, if_pos hhalf]
  exact ⟨rfl, ⟨h.toListening.congr rfl rfl rfl rfl, h.block, h.blockArm, h.regWrite, h.ulast,
    h.driveSide⟩, rfl⟩

/-- The nibbles of a byte of a block, as the transport joins them. -/
def joinBlock (hi lo : UInt8) : UInt8 := (hi &&& (0xF0 : UInt8)) ||| (lo >>> 4)

theorem joinBlock_byte (val : UInt8) :
    joinBlock (val &&& 0xF0) ((val &&& 0x0F) <<< 4) = val :=
  forall_byte (P := fun val => joinBlock (val &&& 0xF0) ((val &&& 0x0F) <<< 4) = val)
    (by decide +kernel) val

/-- A byte of a read block, under any control values that end no block. -/
theorem Epat.Reads.byte {v w : UInt8} (h : dev.Reads side) :
    let a := epatReadStatus D (epatWriteCtrl v dev)
    let b := epatReadStatus D (epatWriteCtrl w a.2)
    a.1 &&& 0x08 = 0 ∧ joinBlock b.1 a.1 = (epatDataRead D side).1 ∧
      b.2.Reads (epatDataRead D side).2 := by
  have hne : (v = 0x07 → EpatBlock.read ≠ .write) ∧ (w = 0x07 → EpatBlock.read ≠ .write) :=
    ⟨fun _ => EpatBlock.noConfusion, fun _ => EpatBlock.noConfusion⟩
  have hfirst : (epatWriteCtrl v dev).Reads side := by
    refine ⟨h.toHeld.ctrl EpatBlock.noConfusion hne.1, ?_⟩
    rw [h.toHeld.phase EpatBlock.noConfusion hne.1]
    exact h.half
  obtain ⟨hlo, hheld, hhalf, hlatch⟩ := hfirst.low D
  have hphase := hheld.phase EpatBlock.noConfusion hne.2
  have hlatch' : (epatWriteCtrl w (epatReadStatus D (epatWriteCtrl v dev)).2).blockLatch =
      (epatDataRead D side).1 := by
    rw [hphase]
    exact hlatch
  obtain ⟨hhi, hreads⟩ := (hheld.ctrl EpatBlock.noConfusion hne.2).high D
    (by rw [hphase]; exact hhalf)
  refine ⟨?_, ?_, hreads⟩
  · rw [hlo]
    exact blockNibbles_bit3 _
  · rw [hhi, hlo, hlatch']
    exact joinBlock_byte _

/-- A byte that comes in two nibbles. -/
theorem LptPort.blockReadLoop_slow {π : Type*} (P : LptPort π) (ecx : ℕ) (ph : UInt8) (p : π) :
    let p' := if ecx = 0 then P.writeData 0xFD p else p
    let a := P.readStatus (P.writeControl (6 + ph) p')
    let b := P.readStatus (P.writeControl (4 + ph) a.2)
    let r := P.blockReadLoop ecx (ph ^^^ 1) b.2
    a.1 &&& 0x08 = 0 → P.blockReadLoop (ecx + 1) ph p = (joinBlock b.1 a.1 :: r.1, r.2) := by
  intro p' a b r hbit
  have hb : (if a.1 &&& 0x08 ≠ 0 then a else b) = b := if_neg (not_not.2 hbit)
  exact congrArg (fun b : UInt8 × π => (joinBlock b.1 a.1 ::
    (P.blockReadLoop ecx (ph ^^^ 1) b.2).1, (P.blockReadLoop ecx (ph ^^^ 1) b.2).2)) hb

/-- The bytes of a read block. -/
theorem Epat.Reads.blockReadLoop : ∀ (n : ℕ) (ph : UInt8) {dev side : Epat δ}, dev.Reads side →
    ((epatPort past D).blockReadLoop n ph dev).1 = (epatDataReads D n side).1 ∧
      ((epatPort past D).blockReadLoop n ph dev).2.Reads (epatDataReads D n side).2
  | 0, _, _, _, h => ⟨rfl, h⟩
  | n + 1, ph, dev, side, h => by
    have hlast : (if n = 0 then epatWriteData D past 0xFD dev else dev).Reads side := by
      split_ifs
      · exact h.data past D (by decide) (by decide)
      · exact h
    obtain ⟨hbit, hjoin, hreads⟩ := hlast.byte (v := 6 + ph) (w := 4 + ph) D
    obtain ⟨hbytes, hrest⟩ := Epat.Reads.blockReadLoop n (ph ^^^ 1) hreads
    rw [LptPort.blockReadLoop_slow (epatPort past D) n ph dev hbit]
    exact ⟨congrArg₂ List.cons hjoin hbytes, hrest⟩

/-- A block read fetches its bytes from the drive, each once. -/
theorem Epat.Held.blockRead (n : ℕ) (h : dev.Held .none side) :
    ((epatPort past D).blockReadSpp n dev).1 = (epatDataReads D n side).1 ∧
      ((epatPort past D).blockReadSpp n dev).2.Held .none (epatDataReads D n side).2 := by
  unfold LptPort.blockReadSpp
  by_cases hnil : n = 0
  · rw [if_pos hnil, hnil]
    exact ⟨rfl, h⟩
  · rw [if_neg hnil]
    have hff : (0xFF : UInt8) ≠ 0x22 ∧ (0xFF : UInt8) ≠ 0 := by decide
    obtain ⟨hbytes, hrest⟩ := ((h.openRead past D).data past D hff.1 hff.2).blockReadLoop past D n
      0
    exact ⟨hbytes, (hrest.close past D).four⟩

end Blocks

/-! ## Runs -/

theorem Epat.AtRest.heldAs {dev side : Epat δ} (h : dev.AtRest true)
    (hside : dev.driveSide = side.driveSide) : dev.Held .none side :=
  { h.held with driveSide := hside }

/-- Every access through the port is one of the registers and the drive behind it. -/
theorem epatPort_refines (hpast : past 0 ≠ 0x22) :
    ((epatPort past D).bridge 2).Refines (epatDirect D)
      fun c dev side => dev.AtRest c ∧ dev.driveSide = side.driveSide where
  openFrame h :=
    let hopen := h.1.openFrame past D hpast
    ⟨hopen.1, hopen.2.trans h.2⟩
  connect h :=
    let hframe := h.1.cppFrame past D cppConnect (by decide) (by decide)
    ⟨hframe.1, hframe.2.trans h.2⟩
  disconnect h :=
    let hframe := h.1.cppFrame past D cppDisconnect (by decide) (by decide)
    ⟨hframe.1, hframe.2.trans h.2⟩
  regRead haddr hne h :=
    let hread := (h.1.heldAs h.2).fetched past D haddr hne
    ⟨hread.1, hread.2.atRest, hread.2.driveSide⟩
  regWrite haddr hne hval h :=
    let hwrite := (h.1.heldAs h.2).written past D haddr hne hval
    ⟨hwrite.atRest, hwrite.driveSide⟩
  blockRead n h :=
    let hread := (h.1.heldAs h.2).blockRead past D n
    ⟨hread.1, hread.2.atRest, hread.2.driveSide⟩
  blockWrite hvals h :=
    let hwrite := (h.1.heldAs h.2).blockWritten past D hvals
    ⟨hwrite.atRest, hwrite.driveSide⟩

/-- A run of the miniport over the parallel port is the run over the registers themselves : the
same answers with the same data, the same variables, and the drive and the registers the same.
After it the bridge is connected if the transport says so. -/
theorem ls_run_direct (hpast : past 0 ≠ 0x22) {dev : Epat δ} (hrest : dev.AtRest false)
    {calls : List LsCall} (hclean : ∀ call ∈ calls, call.Clean) :
    let B := (epatPort past D).bridge 2
    let C := epatDirect D
    let s := Steps.after (lsCall B) (lsInitialize B (lsLoaded dev)) calls
    let t := Steps.after (lsCall C) (lsInitialize C (lsLoaded dev)) calls
    s.port = t.port ∧ s.state = t.state ∧ s.pendSrb = t.pendSrb ∧ s.settleLeft = t.settleLeft ∧
      s.srbCount = t.srbCount ∧ s.ls.vars = t.ls.vars ∧
      s.ls.bridge.driveSide = t.ls.bridge.driveSide ∧ s.ls.bridge.AtRest s.ls.connected := by
  intro B C s t
  have hR := epatPort_refines past D hpast
  have hrun : MpSim _ s t := MpSim.run hR (lsInitialize_sim hR ⟨hrest, rfl⟩) hclean
  obtain ⟨l, c, ht, hls, -, -⟩ := hrun
  rw [ht]
  refine ⟨rfl, rfl, rfl, rfl, rfl, hls.vars, hls.bridge.2, ?_⟩
  rw [hls.connected]
  exact hls.bridge.1

end Port

theorem epatInit_atRest : (epatInit : Epat δ).AtRest false :=
  ⟨⟨rfl, rfl, rfl, rfl, rfl, (by decide : (0 : UInt8) ≠ 0x22)⟩, rfl, rfl⟩

/-- INQUIRY over a bridge just powered on. -/
theorem ls_run_direct_inquiry :
    let B := (epatPort (fun _ => 0) idleDrive).bridge 2
    let C := epatDirect idleDrive
    let calls := [.timer, .startIo lsInquiry]
    let s := Steps.after (lsCall B) (lsInitialize B (lsLoaded epatInit)) calls
    let t := Steps.after (lsCall C) (lsInitialize C (lsLoaded epatInit)) calls
    s.port = t.port ∧ s.state = t.state ∧ s.pendSrb = t.pendSrb ∧ s.settleLeft = t.settleLeft ∧
      s.srbCount = t.srbCount ∧ s.ls.vars = t.ls.vars ∧
      s.ls.bridge.driveSide = t.ls.bridge.driveSide ∧ s.ls.bridge.AtRest s.ls.connected :=
  ls_run_direct (fun _ => 0) idleDrive (by decide) epatInit_atRest
    (List.forall_mem_cons.2 ⟨trivial, List.forall_mem_singleton.2
      ⟨(forall_mem_of_all (by decide) : ∀ val ∈ lsPacket lsInquiry, val ≠ 0x22),
        (by decide : UInt8.ofNat lsInquiry.dataTransferLength ≠ 0x22),
        (by decide : UInt8.ofNat (lsInquiry.dataTransferLength / 256) ≠ 0x22), nofun⟩⟩)

end Inboard
