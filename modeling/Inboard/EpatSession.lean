import Inboard.EpatData

/-!
# Sessions of the EPAT bridge

The host opens a session with a connect frame. Whatever the bridge was left in, the frame
is to leave it connected and in register mode, so that a register access behaves as right
after power-on (`AsPowerOn`). It does so exactly from the states of `ConnectsFrom`
(`epat_session_iff`) : no block is open or armed, no register is half written, and the
recogniser is not behind a whole frame.
-/

set_option linter.unusedSectionVars false

namespace Inboard

variable {δ : Type*}

open Steps (new)

/-! ## What a byte of a frame leaves alone -/

/-- From `dev` to `dev'` the block and the half-written register stand as they did. -/
structure Epat.SameMode (dev dev' : Epat δ) : Prop where
  block : dev'.block = dev.block
  blockArm : dev'.blockArm = dev.blockArm
  regWrite : dev'.regWrite = dev.regWrite

theorem Epat.SameMode.trans {dev dev' dev'' : Epat δ} (h : dev.SameMode dev')
    (h' : dev'.SameMode dev'') : dev.SameMode dev'' :=
  ⟨h'.block.trans h.block, h'.blockArm.trans h.blockArm, h'.regWrite.trans h.regWrite⟩

section Frame

variable (past : ℕ → UInt8) (D : LptDrive δ)

theorem epatUnlockFeed_sameMode (val : UInt8) (dev : Epat δ) :
    dev.SameMode (epatUnlockFeed past val dev) := by
  unfold epatUnlockFeed
  split_ifs
  · exact ⟨rfl, rfl, rfl⟩
  · exact ⟨rfl, rfl, rfl⟩
  · obtain ⟨_, _, _, heq, -⟩ := epatUnlockMatch_eq past val
      ({ dev with ulast := val, udup := true }.say [.compared dev.upos])
    rw [heq]
    exact ⟨rfl, rfl, rfl⟩

/-- A byte of a frame goes no further than the recogniser. -/
theorem epatWriteData_sameMode (val : UInt8) (dev : Epat δ)
    (h : (epatUnlockFeed past val { dev with data := val }).ustate ≠ .idle ∨
      (epatUnlockFeed past val { dev with data := val }).ucmd ≠ 0) :
    dev.SameMode (epatWriteData D past val dev) := by
  have htaken : epatWriteData D past val dev = epatUnlockFeed past val { dev with data := val } :=
    if_pos h
  rw [htaken]
  obtain ⟨hblock, harm, hwrite⟩ := epatUnlockFeed_sameMode past val { dev with data := val }
  exact ⟨hblock, harm, hwrite⟩

theorem epatUnlockFeed_dup (val : UInt8) (dev : Epat δ) (hdup : dev.udup ∧ val = dev.ulast) :
    epatUnlockFeed past val dev = { dev with udup := false } :=
  if_pos hdup

theorem epatUnlockFeed_match {val : UInt8} (dev : Epat δ)
    (hdup : ¬(dev.udup ∧ val = dev.ulast)) (hcmd : dev.ustate ≠ .cmd) :
    epatUnlockFeed past val dev = epatUnlockMatch past val
      ({ dev with ulast := val, udup := true }.say [.compared dev.upos]) :=
  (if_neg hdup).trans (if_neg hcmd)

/-- What a compare leaves depends on `upos` alone. -/
theorem epatUnlockMatch_congr (val : UInt8) (dev dev' : Epat δ) (h : dev'.upos = dev.upos) :
    (epatUnlockMatch past val dev').ustate = (epatUnlockMatch past val dev).ustate ∧
      (epatUnlockMatch past val dev').upos = (epatUnlockMatch past val dev).upos := by
  unfold epatUnlockMatch epatCheckpoint
  rw [h]
  split_ifs <;> exact ⟨rfl, rfl⟩

/-- Of a byte written twice exactly one is compared. -/
theorem after_pair (val : UInt8) {dev : Epat δ} (hcmd : dev.ustate ≠ .cmd) :
    (Steps.after (epatAccess past D) dev [.data val, .data val]).ustate =
        (epatUnlockMatch past val dev).ustate ∧
      (Steps.after (epatAccess past D) dev [.data val, .data val]).upos =
        (epatUnlockMatch past val dev).upos := by
  have hpass := epatWriteData_passes D past val dev
  have hpass' := epatWriteData_passes D past val (epatWriteData D past val dev)
  have htwo : Steps.after (epatAccess past D) dev [.data val, .data val] =
      epatWriteData D past val (epatWriteData D past val dev) := rfl
  rw [htwo, hpass'.ustate, hpass'.upos]
  by_cases hdup : dev.udup ∧ val = dev.ulast
  · rw [epatUnlockFeed_dup past val { dev with data := val } hdup] at hpass
    have hnot : ¬((epatWriteData D past val dev).udup ∧
        val = (epatWriteData D past val dev).ulast) := by
      rw [hpass.udup]
      exact fun h => absurd h.1 Bool.false_ne_true
    have hcmd' : (epatWriteData D past val dev).ustate ≠ .cmd := by
      rw [hpass.ustate]
      exact hcmd
    have hfeed := epatUnlockFeed_match past
      { epatWriteData D past val dev with data := val } hnot hcmd'
    rw [hfeed]
    exact epatUnlockMatch_congr past val _ _ hpass.upos
  · have hfeed := epatUnlockFeed_match past { dev with data := val } hdup hcmd
    rw [hfeed] at hpass
    obtain ⟨_, _, _, heq, -⟩ := epatUnlockMatch_eq past val
      ({ dev with data := val, ulast := val, udup := true }.say [.compared dev.upos])
    have hdup' : (epatWriteData D past val dev).udup ∧
        val = (epatWriteData D past val dev).ulast := by
      rw [hpass.udup, hpass.ulast, heq]
      exact ⟨rfl, rfl⟩
    rw [epatUnlockFeed_dup past val { epatWriteData D past val dev with data := val } hdup']
    have hcongr := epatUnlockMatch_congr past val dev
      ({ dev with data := val, ulast := val, udup := true }.say [.compared dev.upos]) rfl
    exact ⟨hpass.ustate.trans hcongr.1, hpass.upos.trans hcongr.2⟩

/-- A byte of a frame under way : a repeat, or the next entry. -/
theorem epatUnlockFeed_taken {val : UInt8} (dev : Epat δ) (hne : dev.ustate ≠ .idle)
    (h : dev.udup ∧ val = dev.ulast ∨ dev.ustate ≠ .cmd ∧ val = epatUnlock past dev.upos) :
    (epatUnlockFeed past val dev).ustate ≠ .idle := by
  by_cases hdup : dev.udup ∧ val = dev.ulast
  · rw [epatUnlockFeed_dup past val dev hdup]
    exact hne
  · obtain ⟨hcmd, hval⟩ := h.resolve_left hdup
    obtain ⟨_, _, _, heq, ⟨-, -, rfl⟩ | ⟨hnot, -⟩ | ⟨hnot, -⟩⟩ := epatUnlockMatch_eq past val
      ({ dev with ulast := val, udup := true }.say [.compared dev.upos])
    · rw [epatUnlockFeed_match past dev hdup hcmd, heq]
      dsimp only
      split_ifs <;> exact EpatUnlockState.noConfusion
    · exact absurd hval hnot
    · exact absurd hval hnot

/-- A byte of a frame under way, which matches. -/
theorem after_pair_taken {val : UInt8} {dev : Epat δ} (hrun : dev.ustate = .run)
    (hval : val = epatUnlock past dev.upos) :
    dev.SameMode (Steps.after (epatAccess past D) dev [.data val, .data val]) := by
  have hne : dev.ustate ≠ .idle := hrun ▸ EpatUnlockState.noConfusion
  have hcmd : dev.ustate ≠ .cmd := hrun ▸ EpatUnlockState.noConfusion
  have hpass := epatWriteData_passes D past val dev
  have hfirst : (epatUnlockFeed past val { dev with data := val }).ustate ≠ .idle :=
    epatUnlockFeed_taken past { dev with data := val } hne (.inr ⟨hcmd, hval⟩)
  have hsecond : (epatWriteData D past val dev).udup ∧ val = (epatWriteData D past val dev).ulast ∨
      (epatWriteData D past val dev).ustate ≠ .cmd ∧
        val = epatUnlock past (epatWriteData D past val dev).upos := by
    rw [hpass.udup, hpass.ulast, hpass.ustate, hpass.upos]
    by_cases hdup : dev.udup ∧ val = dev.ulast
    · rw [epatUnlockFeed_dup past val { dev with data := val } hdup]
      exact .inr ⟨hcmd, hval⟩
    · rw [epatUnlockFeed_match past { dev with data := val } hdup hcmd]
      obtain ⟨_, _, _, heq, -⟩ := epatUnlockMatch_eq past val
        ({ dev with data := val, ulast := val, udup := true }.say [.compared dev.upos])
      exact .inl (by rw [heq]; exact ⟨rfl, rfl⟩)
  have hne' : (epatWriteData D past val dev).ustate ≠ .idle := by
    rw [hpass.ustate]
    exact hfirst
  exact (epatWriteData_sameMode past D val dev (.inl hfirst)).trans
      (epatWriteData_sameMode past D _ _
    (.inl (epatUnlockFeed_taken past
        { epatWriteData D past val dev with data := val } hne' hsecond)))

/-- The command byte of a frame. -/
theorem after_pair_cmd {val : UInt8} {dev : Epat δ} (hcmd : dev.ustate = .cmd) (hval : val ≠ 0) :
    dev.SameMode (Steps.after (epatAccess past D) dev [.data val, .data val]) ∧
      (Steps.after (epatAccess past D) dev [.data val, .data val]).ustate = .idle ∧
      (Steps.after (epatAccess past D) dev [.data val, .data val]).upos = dev.upos ∧
      (Steps.after (epatAccess past D) dev [.data val, .data val]).ucmd = val := by
  have hne : dev.ustate ≠ .idle := hcmd ▸ EpatUnlockState.noConfusion
  have hpass := epatWriteData_passes D past val dev
  have hpass' := epatWriteData_passes D past val (epatWriteData D past val dev)
  have htwo : Steps.after (epatAccess past D) dev [.data val, .data val] =
      epatWriteData D past val (epatWriteData D past val dev) := rfl
  have hcommand (dev : Epat δ) (hdup : ¬(dev.udup ∧ val = dev.ulast)) (hcmd : dev.ustate = .cmd) :
      epatUnlockFeed past val dev =
        { dev with ulast := val, udup := true, ucmd := val, ustate := .idle } :=
    (if_neg hdup).trans (if_pos hcmd)
  rw [htwo, hpass'.ustate, hpass'.upos, hpass'.ucmd]
  by_cases hdup : dev.udup ∧ val = dev.ulast
  · have hfeed := epatUnlockFeed_dup past val { dev with data := val } hdup
    have hfirst := epatWriteData_sameMode past D val dev
      (by rw [hfeed]; exact .inl hne)
    rw [hfeed] at hpass
    have hfeed' := hcommand { epatWriteData D past val dev with data := val }
      (by rw [hpass.udup]; exact fun h => absurd h.1 Bool.false_ne_true)
      (hpass.ustate.trans hcmd)
    have hsecond := epatWriteData_sameMode past D val (epatWriteData D past val dev)
      (by rw [hfeed']; exact .inr hval)
    rw [hfeed']
    exact ⟨hfirst.trans hsecond, rfl, hpass.upos, rfl⟩
  · have hfeed := hcommand { dev with data := val } hdup hcmd
    have hfirst := epatWriteData_sameMode past D val dev
      (by rw [hfeed]; exact .inr hval)
    rw [hfeed] at hpass
    have hfeed' := epatUnlockFeed_dup past val { epatWriteData D past val dev with data := val }
      ⟨hpass.udup, hpass.ulast.symm⟩
    have hsecond := epatWriteData_sameMode past D val (epatWriteData D past val dev)
      (by rw [hfeed', hpass.ucmd]; exact .inr hval)
    rw [hfeed']
    exact ⟨hfirst.trans hsecond, hpass.ustate, hpass.upos, hpass.ucmd⟩

/-! ## The rest of a frame -/

/-- The bytes go on with the frame at `upos`, and complete it at their end if at all. -/
def FrameAt : ℕ → List UInt8 → Prop
  | _, [] => True
  | upos, val :: vals =>
    val = epatUnlock past upos ∧ (upos + 1 = 7 → vals = []) ∧ FrameAt (upos + 1) vals

/-- The bytes of a frame under way. -/
theorem after_twice : ∀ {vals : List UInt8} {dev : Epat δ}, dev.ustate = .run → dev.upos ≠ 7 →
    FrameAt past dev.upos vals →
    dev.SameMode (Steps.after (epatAccess past D) dev (twice vals)) ∧
      (Steps.after (epatAccess past D) dev (twice vals)).upos = dev.upos + vals.length ∧
      (Steps.after (epatAccess past D) dev (twice vals)).ustate =
        if dev.upos + vals.length = 7 then .cmd else .run
  | [], dev, hrun, hne, _ => ⟨⟨rfl, rfl, rfl⟩, rfl, hrun.trans (if_neg hne).symm⟩
  | val :: vals, dev, hrun, hne, ⟨hval, hend, hrest⟩ => by
    have hmode := after_pair_taken past D hrun hval
    have hcmd : dev.ustate ≠ .cmd := hrun ▸ EpatUnlockState.noConfusion
    obtain ⟨hustate, hupos⟩ := after_pair past D val hcmd
    obtain ⟨_, ustate, upos, heq, ⟨-, rfl, rfl⟩ | ⟨hnot, -⟩ | ⟨hnot, -⟩⟩ :=
      epatUnlockMatch_eq past val dev
    · rw [heq] at hustate hupos
      have htwice : twice (val :: vals) = [.data val, .data val] ++ twice vals := rfl
      rw [htwice, Steps.after_append]
      generalize Steps.after (epatAccess past D) dev [.data val, .data val] = dev' at *
      dsimp only at hustate hupos
      by_cases h7 : dev.upos + 1 = 7
      · obtain rfl := hend h7
        rw [if_pos h7] at hustate
        exact ⟨hmode, hupos, hustate.trans (if_pos h7).symm⟩
      · rw [if_neg h7] at hustate
        rw [← hupos] at hrest h7
        obtain ⟨hmode', hupos', hustate'⟩ := after_twice hustate h7 hrest
        have hlen : dev.upos + (val :: vals).length = dev'.upos + vals.length := by
          rw [hupos, List.length_cons]
          omega
        rw [hlen]
        exact ⟨hmode.trans hmode', hupos', hustate'⟩
    · exact absurd hval hnot
    · exact absurd hval hnot

/-- Past the table a frame goes on with what follows it in memory. -/
theorem frameAt_past {vals : List UInt8} {upos : ℕ} (hpos : 7 ≤ upos)
    (h : ∀ i < vals.length, past (upos - 7 + i) = vals.getD i 0) : FrameAt past upos vals := by
  induction vals generalizing upos with
  | nil => trivial
  | cons val vals ih =>
    refine ⟨?_, fun h7 => by omega, ih (by omega) fun i hi => ?_⟩
    · have hout : epatUnlock past upos = past (upos - 7) := by
        unfold epatUnlock
        rw [List.getD_eq_getElem?_getD, List.getElem?_eq_none hpos, Option.getD_none]
      rw [hout]
      exact (h 0 (Nat.zero_lt_succ _)).symm
    · have hsucc := h (i + 1) (Nat.succ_lt_succ hi)
      have hidx : upos - 7 + (i + 1) = upos + 1 - 7 + i := by omega
      rw [hidx] at hsucc
      exact hsucc

/-- The table's bytes after the first. -/
theorem frameAt_table : FrameAt past 1 [0xAA, 0x55, 0x00, 0xFF, 0x87, 0x78] :=
  ⟨rfl, by decide, rfl, by decide, rfl, by decide, rfl, by decide, rfl, by decide, rfl,
    by decide, trivial⟩

/-! ## The pulse -/

/-- The control values that only strobe a register access. -/
theorem epatHandshake_other {val : UInt8} (h3 : val ≠ 0x03) (h5 : val ≠ 0x05) (h7 : val ≠ 0x07)
    (dev : Epat δ) :
    epatHandshake val dev = if dev.block ≠ .none then dev else epatStrobe val dev := by
  unfold epatHandshake
  rw [if_neg fun h => h5 h.2.2, if_neg fun h => h3 h.2.2, if_neg fun h => h7 h.2]

theorem epatHandshake_five (dev : Epat δ) :
    epatHandshake 0x05 dev = if dev.connected ∧ dev.blockArm = .write then
      { dev with block := .write, blockArm := .none } else dev := by
  unfold epatHandshake epatStrobe
  split_ifs <;> simp_all

/-- With nINIT low nothing is committed. -/
theorem epatCommit_low {val : UInt8} (h : val &&& 0x01 = 0) (dev : Epat δ) :
    epatCommit val dev = dev :=
  if_neg fun hc => hc.2.1 h

theorem epatWriteCtrl_four (dev : Epat δ) :
    ∃ nibbleHi, epatWriteCtrl 0x04 dev = { dev with nibbleHi := nibbleHi, ctrl := 0x04 } := by
  have hstrobe : epatStrobe 0x04 dev =
      if dev.connected ∧ dev.ucmd = 0 then { dev with nibbleHi := true } else dev := by
    unfold epatStrobe
    simp
  unfold epatWriteCtrl
  rw [epatCommit_low (by decide), epatHandshake_other (by decide) (by decide) (by decide), hstrobe]
  split_ifs
  · exact ⟨_, rfl⟩
  · exact ⟨_, rfl⟩
  · exact ⟨_, rfl⟩

/-- The pulse of nINIT commits a connect. An armed write block starts on it. -/
theorem after_pulse {dev : Epat δ} (hustate : dev.ustate = .idle) (hucmd : dev.ucmd = 0xE0) :
    ∃ nibbleHi, Steps.after (epatAccess past D) dev [.ctrl 0x04, .ctrl 0x05, .ctrl 0x04] =
      { dev with
        connected := true
        status := epatStatIdle
        ucmd := 0
        upos := 0
        ctrl := 0x04
        block := if dev.blockArm = .write then .write else dev.block
        blockArm := if dev.blockArm = .write then .none else dev.blockArm
        nibbleHi := nibbleHi } := by
  have hthree : Steps.after (epatAccess past D) dev [.ctrl 0x04, .ctrl 0x05, .ctrl 0x04] =
      epatWriteCtrl 0x04 (epatWriteCtrl 0x05 (epatWriteCtrl 0x04 dev)) := rfl
  obtain ⟨nibbleHi, hfirst⟩ := epatWriteCtrl_four dev
  have hcommit : epatCommit 0x05 { dev with nibbleHi := nibbleHi, ctrl := 0x04 } =
      { dev with
        nibbleHi := nibbleHi
        ctrl := 0x04
        connected := true
        status := epatStatIdle
        ucmd := 0
        upos := 0 } := by
    have hlow : (0x04 : UInt8) &&& 0x01 = 0 := by decide
    have hhigh : (0x05 : UInt8) &&& 0x01 ≠ 0 := by decide
    have hpend : dev.ucmd ≠ 0 := by
      rw [hucmd]
      decide
    unfold epatCommit
    rw [if_pos ⟨hlow, hhigh, hustate, hpend⟩, if_pos hucmd]
  have hsecond : epatWriteCtrl 0x05 (epatWriteCtrl 0x04 dev) =
      { dev with
        connected := true
        status := epatStatIdle
        ucmd := 0
        upos := 0
        ctrl := 0x05
        block := if dev.blockArm = .write then .write else dev.block
        blockArm := if dev.blockArm = .write then .none else dev.blockArm
        nibbleHi := nibbleHi } := by
    rw [hfirst]
    unfold epatWriteCtrl
    rw [hcommit, epatHandshake_five]
    by_cases harm : dev.blockArm = .write
    · rw [if_pos ⟨rfl, harm⟩, if_pos harm, if_pos harm]
    · rw [if_neg fun h => harm h.2, if_neg harm, if_neg harm]
  obtain ⟨nibbleHi', hthird⟩ := epatWriteCtrl_four (epatWriteCtrl 0x05 (epatWriteCtrl 0x04 dev))
  refine ⟨nibbleHi', ?_⟩
  rw [hthree, hthird, hsecond]

/-- In a frame under way the pulse commits nothing. -/
theorem after_pulse_run {dev : Epat δ} (hrun : dev.ustate = .run) :
    (Steps.after (epatAccess past D) dev [.ctrl 0x04, .ctrl 0x05, .ctrl 0x04]).ustate = .run := by
  have hne : dev.ustate ≠ .idle := hrun ▸ EpatUnlockState.noConfusion
  have hthree : Steps.after (epatAccess past D) dev [.ctrl 0x04, .ctrl 0x05, .ctrl 0x04] =
      epatWriteCtrl 0x04 (epatWriteCtrl 0x05 (epatWriteCtrl 0x04 dev)) := rfl
  obtain ⟨_, hfirst⟩ := epatWriteCtrl_four dev
  have hfive : (epatWriteCtrl 0x05 (epatWriteCtrl 0x04 dev)).ustate = .run := by
    rw [hfirst]
    unfold epatWriteCtrl epatCommit
    rw [if_neg fun h => hne h.2.2.1, epatHandshake_five]
    split_ifs <;> exact hrun
  obtain ⟨_, hthird⟩ := epatWriteCtrl_four (epatWriteCtrl 0x05 (epatWriteCtrl 0x04 dev))
  rw [hthree, hthird]
  exact hfive

/-! ## The first byte -/

/-- The frame's first byte repeats the last one of the data port, and is taken for a
register byte. -/
def Epat.Swallows22 (dev : Epat δ) : Prop :=
  (dev.udup ∧ 0x22 = dev.ulast) ∧ dev.ustate = .idle ∧ dev.ucmd = 0 ∧ dev.connected

/-- A byte 22h that is no frame's : outside a block it ends a register write or begins one. -/
theorem epatWriteByte_22 (dev : Epat δ) :
    (epatWriteByte D 0x22 dev).block = dev.block ∧
      (epatWriteByte D 0x22 dev).blockArm = dev.blockArm ∧
      (dev.block = .none → ((epatWriteByte D 0x22 dev).regWrite ↔ ¬dev.regWrite)) := by
  unfold epatWriteByte
  cases hblock : dev.block with
  | write =>
    obtain ⟨r, heq, -⟩ := (epatDataWrite_only D 0x22).exists_eq (dev.say [.stream 0x22])
    dsimp only
    rw [heq]
    exact ⟨hblock, rfl, nofun⟩
  | read =>
    have hne : (0x22 : UInt8) ≠ 0 := by decide
    dsimp only
    rw [if_neg hne]
    exact ⟨hblock, rfl, nofun⟩
  | none =>
    dsimp only
    split_ifs with hwrite
    · by_cases haddr : dev.regAddr < 0x20
      · obtain ⟨r, heq, -⟩ := (epatRegApply_only D dev.regAddr 0x22).exists_eq
          { dev with regWrite := false }
        rw [epatRegValue_eq D 0x22 haddr, heq]
        exact ⟨hblock, rfl, fun _ => iff_of_false Bool.false_ne_true (not_not.2 hwrite)⟩
      · unfold epatRegValue
        rw [if_neg haddr]
        exact ⟨hblock, rfl, fun _ => iff_of_false Bool.false_ne_true (not_not.2 hwrite)⟩
    · have hsel : epatRegSelect 0x22 dev =
        { dev with regAddr := 0x22 &&& ~~~0x60, regWrite := true } := by
        unfold epatRegSelect
        rw [if_neg (by decide), if_neg (by decide), if_pos (by decide)]
      rw [hsel]
      exact ⟨hblock, rfl, fun _ => iff_of_true rfl hwrite⟩

/-- 22h occurs in the table once. -/
theorem epatUnlock_first {upos : ℕ} (hlt : upos < 7) (h : 0x22 = epatUnlock past upos) :
    upos = 0 := by
  have hin : epatUnlock past upos = epatUnlockTable.getD upos 0 := by
    unfold epatUnlock
    rw [List.getD_eq_getElem?_getD, List.getD_eq_getElem?_getD, List.getElem?_eq_getElem hlt,
      Option.getD_some, Option.getD_some]
  have honce : ∀ upos < 7, 0x22 = epatUnlockTable.getD upos 0 → upos = 0 := by decide
  exact honce upos hlt (h.trans hin)

/-- The first byte of a frame starts it anew, unless it is past the table. -/
theorem after_first {dev : Epat δ} (hcmd : dev.ustate ≠ .cmd) (hpos : dev.upos < 7) :
    (Steps.after (epatAccess past D) dev (twice [0x22])).ustate = .run ∧
      (Steps.after (epatAccess past D) dev (twice [0x22])).upos = 1 := by
  have h0 : (0x22 : UInt8) = epatUnlock past 0 := rfl
  obtain ⟨hustate, hupos⟩ := after_pair past D 0x22 hcmd
  obtain ⟨_, _, _, heq, ⟨hval, rfl, rfl⟩ | ⟨-, -, rfl, rfl⟩ | ⟨-, hnot, -⟩⟩ :=
    epatUnlockMatch_eq past 0x22 dev
  · have hzero := epatUnlock_first past hpos hval
    rw [heq, hzero] at hustate hupos
    exact ⟨hustate, hupos⟩
  · rw [heq] at hustate hupos
    exact ⟨hustate, hupos⟩
  · exact absurd h0 hnot

/-- What the first byte of a frame does to the block and the half-written register. -/
theorem after_first_mode {dev : Epat δ} (hcmd : dev.ustate ≠ .cmd) :
    (Steps.after (epatAccess past D) dev (twice [0x22])).block = dev.block ∧
      (Steps.after (epatAccess past D) dev (twice [0x22])).blockArm = dev.blockArm ∧
      (dev.block = .none → ((Steps.after (epatAccess past D) dev (twice [0x22])).regWrite ↔
        ¬(dev.regWrite ↔ dev.Swallows22))) := by
  have htwo : Steps.after (epatAccess past D) dev (twice [0x22]) =
      epatWriteData D past 0x22 (epatWriteData D past 0x22 dev) := rfl
  have hpass := epatWriteData_passes D past 0x22 dev
  have hrun (dev : Epat δ) : (epatUnlockMatch past 0x22 dev).ustate ≠ .idle := by
    have h0 : (0x22 : UInt8) = epatUnlock past 0 := rfl
    obtain ⟨_, _, _, heq, ⟨-, -, rfl⟩ | ⟨-, -, -, rfl⟩ | ⟨-, hnot, -⟩⟩ :=
      epatUnlockMatch_eq past 0x22 dev
    · rw [heq]
      dsimp only
      split_ifs <;> exact EpatUnlockState.noConfusion
    · rw [heq]
      exact EpatUnlockState.noConfusion
    · exact absurd h0 hnot
  have hkept (dev' : Epat δ) (hmode : dev.SameMode dev') (hnot : ¬dev.Swallows22) :
      dev'.block = dev.block ∧ dev'.blockArm = dev.blockArm ∧
        (dev.block = .none → (dev'.regWrite ↔ ¬(dev.regWrite ↔ dev.Swallows22))) := by
    refine ⟨hmode.block, hmode.blockArm, fun _ => ?_⟩
    rw [hmode.regWrite, iff_false_right hnot, not_not]
  rw [htwo]
  by_cases hdup : dev.udup ∧ 0x22 = dev.ulast
  · have hfeed := epatUnlockFeed_dup past 0x22 { dev with data := 0x22 } hdup
    rw [hfeed] at hpass
    have hsecond : (epatWriteData D past 0x22 dev).SameMode
        (epatWriteData D past 0x22 (epatWriteData D past 0x22 dev)) := by
      refine epatWriteData_sameMode past D 0x22 _ (.inl ?_)
      rw [epatUnlockFeed_match past { epatWriteData D past 0x22 dev with data := 0x22 }
        (by rw [hpass.udup]; exact fun h => absurd h.1 Bool.false_ne_true)
        (by rw [hpass.ustate]; exact hcmd)]
      exact hrun _
    by_cases hswallow : dev.Swallows22
    · have ⟨_, hustate, hucmd, hconn⟩ := hswallow
      have hwrite : epatWriteData D past 0x22 dev =
          epatWriteByte D 0x22 { dev with data := 0x22, udup := false } := by
        unfold epatWriteData
        rw [hfeed]
        exact (if_neg (not_or.2 ⟨not_not.2 hustate, not_not.2 hucmd⟩)).trans
          (if_neg (not_not.2 hconn))
      obtain ⟨hblock, harm, hreg⟩ := epatWriteByte_22 D { dev with data := 0x22, udup := false }
      rw [hsecond.block, hsecond.blockArm, hsecond.regWrite, hwrite]
      exact ⟨hblock, harm, fun hnone =>
        (hreg hnone).trans (not_congr (iff_true_right hswallow).symm)⟩
    · refine hkept _ (Epat.SameMode.trans ?_ hsecond) hswallow
      by_cases htaken : dev.ustate ≠ .idle ∨ dev.ucmd ≠ 0
      · exact epatWriteData_sameMode past D 0x22 dev (by rw [hfeed]; exact htaken)
      · obtain ⟨hustate, hucmd⟩ := not_or.1 htaken
        have hconn : ¬dev.connected := fun hconn =>
          hswallow ⟨hdup, not_not.1 hustate, not_not.1 hucmd, hconn⟩
        have hwrite : epatWriteData D past 0x22 dev = { dev with data := 0x22, udup := false } := by
          unfold epatWriteData
          rw [hfeed]
          exact (if_neg htaken).trans (if_pos hconn)
        rw [hwrite]
        exact ⟨rfl, rfl, rfl⟩
  · have hfirst := epatUnlockFeed_match past { dev with data := 0x22 } hdup hcmd
    have hne : (epatUnlockFeed past 0x22 { dev with data := 0x22 }).ustate ≠ .idle := by
      rw [hfirst]
      exact hrun _
    have hne' : (epatWriteData D past 0x22 dev).ustate ≠ .idle := by
      rw [hpass.ustate]
      exact hne
    have hdup' : (epatWriteData D past 0x22 dev).udup ∧
        0x22 = (epatWriteData D past 0x22 dev).ulast := by
      obtain ⟨_, _, _, heq, -⟩ := epatUnlockMatch_eq past 0x22
        ({ dev with data := 0x22, ulast := 0x22, udup := true }.say [.compared dev.upos])
      rw [hpass.udup, hpass.ulast, hfirst, heq]
      exact ⟨rfl, rfl⟩
    exact hkept _ ((epatWriteData_sameMode past D 0x22 dev (.inl hne)).trans
      (epatWriteData_sameMode past D 0x22 _ (.inl (epatUnlockFeed_taken past
        { epatWriteData D past 0x22 dev with data := 0x22 } hne' (.inl hdup')))))
      fun hswallow => hdup hswallow.1

/-! ## The whole frame -/

/-- Register mode : nothing but a register access is under way. -/
structure Epat.RegisterMode (dev : Epat δ) : Prop extends dev.Ready where
  blockArm : dev.blockArm = .none

/-- From here a connect frame ends in register mode. -/
structure Epat.ConnectsFrom (dev : Epat δ) : Prop where
  ustate : dev.ustate ≠ .cmd
  upos : dev.upos < 7
  block : dev.block = .none
  blockArm : dev.blockArm = .none
  regWrite : dev.regWrite ↔ dev.Swallows22

theorem connectFrame_eq : connectFrame = twice [0x22] ++
    (twice [0xAA, 0x55, 0x00, 0xFF, 0x87, 0x78] ++ ([.data 0xE0, .data 0xE0] ++
      [.ctrl 0x04, .ctrl 0x05, .ctrl 0x04])) := rfl

/-- A frame that starts in the table is recognised. -/
theorem connectFrame_registerMode_iff {dev : Epat δ} (hcmd : dev.ustate ≠ .cmd)
    (hpos : dev.upos < 7) :
    (Steps.after (epatAccess past D) dev connectFrame).RegisterMode ↔
      dev.block = .none ∧ dev.blockArm = .none ∧ (dev.regWrite ↔ dev.Swallows22) := by
  obtain ⟨hrun1, hupos1⟩ := after_first past D hcmd hpos
  obtain ⟨hblock1, harm1, hreg1⟩ := after_first_mode past D hcmd
  rw [connectFrame_eq, Steps.after_append, Steps.after_append, Steps.after_append]
  generalize Steps.after (epatAccess past D) dev (twice [0x22]) = dev1 at *
  have hne1 : dev1.upos ≠ 7 := by
    rw [hupos1]
    decide
  have hframe1 : FrameAt past dev1.upos [0xAA, 0x55, 0x00, 0xFF, 0x87, 0x78] := by
    rw [hupos1]
    exact frameAt_table past
  obtain ⟨hmode2, -, hcmd2⟩ := after_twice past D hrun1 hne1 hframe1
  rw [hupos1] at hcmd2
  generalize Steps.after (epatAccess past D) dev1 (twice _) = dev2 at *
  have hE0 : (0xE0 : UInt8) ≠ 0 := by decide
  obtain ⟨hmode3, hustate3, -, hucmd3⟩ := after_pair_cmd past D hcmd2 hE0
  generalize Steps.after (epatAccess past D) dev2 _ = dev3 at *
  have hmode := hmode2.trans hmode3
  have hblock3 := hmode.block.trans hblock1
  have harm3 := hmode.blockArm.trans harm1
  obtain ⟨_, heq⟩ := after_pulse past D hustate3 hucmd3
  rw [heq, hblock3, harm3]
  constructor
  · intro h
    have hblock := h.block
    have harm := h.blockArm
    have hreg := h.regWrite
    dsimp only at hblock harm hreg
    by_cases hwrite : dev.blockArm = .write
    · rw [if_pos hwrite] at hblock
      exact nomatch hblock
    · rw [if_neg hwrite] at hblock harm
      rw [hmode.regWrite, hreg1 hblock, not_not] at hreg
      exact ⟨hblock, harm, hreg⟩
  · rintro ⟨hblock, harm, hreg⟩
    have hwrite : dev.blockArm ≠ .write := harm ▸ EpatBlock.noConfusion
    refine ⟨⟨⟨rfl, hustate3, rfl, rfl⟩, (if_neg hwrite).trans hblock, ?_⟩,
      (if_neg hwrite).trans harm⟩
    rw [hmode.regWrite, hreg1 hblock, not_not]
    exact hreg

/-- A frame past the table, by the bytes that follow it in memory, is not recognised. -/
theorem after_past {vals : List UInt8} {val : UInt8} {dev : Epat δ} (hcmd : dev.ustate ≠ .cmd)
    (hpos : 7 ≤ dev.upos) (h : FrameAt past dev.upos (val :: vals)) :
    (Steps.after (epatAccess past D) dev (twice (val :: vals))).ustate = .run := by
  obtain ⟨hval, -, hrest⟩ := h
  obtain ⟨hustate, hupos⟩ := after_pair past D val hcmd
  obtain ⟨_, _, _, heq, ⟨-, rfl, rfl⟩ | ⟨hnot, -⟩ | ⟨hnot, -⟩⟩ := epatUnlockMatch_eq past val dev
  · rw [heq] at hustate hupos
    have htwice : twice (val :: vals) = [.data val, .data val] ++ twice vals := rfl
    rw [htwice, Steps.after_append]
    generalize Steps.after (epatAccess past D) dev [.data val, .data val] = dev' at *
    dsimp only at hustate hupos
    rw [if_neg (by omega)] at hustate
    rw [← hupos] at hrest
    obtain ⟨-, -, hend⟩ := after_twice past D hustate (by omega) hrest
    rw [hend, if_neg (by omega)]
  · exact absurd hval hnot
  · exact absurd hval hnot

end Frame

/-- Behind a whole frame the recogniser may take the next one for what follows the table. -/
theorem connectFrame_past (D : LptDrive δ) {dev : Epat δ} (hinv : dev.FrameInv)
    (h : dev.ustate = .cmd ∨ 7 ≤ dev.upos) :
    ∃ past, (Steps.after (epatAccess past D) dev connectFrame).ustate = .run := by
  by_cases hcmd : dev.ustate = .cmd
  · have hpos : dev.upos = 7 := by
      unfold Epat.FrameInv at hinv
      rwa [hcmd] at hinv
    have hframe : connectFrame = [.data 0x22, .data 0x22] ++
        (twice [0xAA, 0x55, 0x00, 0xFF, 0x87, 0x78, 0xE0] ++
          [.ctrl 0x04, .ctrl 0x05, .ctrl 0x04]) := rfl
    let past : ℕ → UInt8 := fun i => [0xAA, 0x55, 0x00, 0xFF, 0x87, 0x78, 0xE0].getD i 0
    refine ⟨past, ?_⟩
    have h22 : (0x22 : UInt8) ≠ 0 := by decide
    obtain ⟨-, hustate, hupos, -⟩ := after_pair_cmd past D hcmd h22
    rw [hframe, Steps.after_append, Steps.after_append]
    generalize Steps.after (epatAccess past D) dev [.data 0x22, .data 0x22] = dev1 at *
    rw [hpos] at hupos
    have hpast : FrameAt past dev1.upos [0xAA, 0x55, 0x00, 0xFF, 0x87, 0x78, 0xE0] := by
      refine frameAt_past past (Nat.le_of_eq hupos.symm) fun i _ => ?_
      rw [hupos, Nat.sub_self, Nat.zero_add]
    exact after_pulse_run past D (after_past past D (hustate ▸ EpatUnlockState.noConfusion)
      (Nat.le_of_eq hupos.symm) hpast)
  · have hpos := h.resolve_left hcmd
    let past : ℕ → UInt8 := fun i =>
      [0x22, 0xAA, 0x55, 0x00, 0xFF, 0x87, 0x78, 0xE0].getD (i - (dev.upos - 7)) 0
    refine ⟨past, ?_⟩
    have hpast : FrameAt past dev.upos [0x22, 0xAA, 0x55, 0x00, 0xFF, 0x87, 0x78, 0xE0] := by
      refine frameAt_past past hpos fun i _ => ?_
      have hidx : dev.upos - 7 + i - (dev.upos - 7) = i := Nat.add_sub_cancel_left _ _
      exact congrArg ([0x22, 0xAA, 0x55, 0x00, 0xFF, 0x87, 0x78, 0xE0].getD · 0) hidx
    have hframe : connectFrame = twice [0x22, 0xAA, 0x55, 0x00, 0xFF, 0x87, 0x78, 0xE0] ++
        [.ctrl 0x04, .ctrl 0x05, .ctrl 0x04] := rfl
    rw [hframe, Steps.after_append]
    exact after_pulse_run past D (after_past past D hcmd hpos hpast)

/-- A connect frame ends in register mode, whatever follows the table in memory, exactly
from the states of `ConnectsFrom`. -/
theorem connectFrame_iff (D : LptDrive δ) {dev : Epat δ} (hinv : dev.FrameInv) :
    (∀ past, (Steps.after (epatAccess past D) dev connectFrame).RegisterMode) ↔
      dev.ConnectsFrom := by
  constructor
  · intro h
    have hstart : ¬(dev.ustate = .cmd ∨ 7 ≤ dev.upos) := by
      intro hpast
      obtain ⟨past, hrun⟩ := connectFrame_past D hinv hpast
      exact nomatch hrun.symm.trans (h past).ustate
    obtain ⟨hcmd, hpos⟩ := not_or.1 hstart
    obtain ⟨hblock, harm, hreg⟩ := (connectFrame_registerMode_iff (fun _ => 0) D hcmd
      (Nat.lt_of_not_le hpos)).1 (h fun _ => 0)
    exact ⟨hcmd, Nat.lt_of_not_le hpos, hblock, harm, hreg⟩
  · rintro ⟨hcmd, hpos, hblock, harm, hreg⟩ past
    exact (connectFrame_registerMode_iff past D hcmd hpos).2 ⟨hblock, harm, hreg⟩

end Inboard
