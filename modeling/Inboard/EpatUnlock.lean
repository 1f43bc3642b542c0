import Inboard.EpatDrive

/-!
# The unlock recogniser of the EPAT bridge

What an access does to the recogniser. A byte moves it by `epat_unlock_feed` alone
(`epatWriteByte_passes`), and `ustate` and `upos` go together in every run (`FrameInv`).
`upos` runs past `epat_unlock` exactly when a data byte that is not a repeat follows a
whole frame before the recogniser is reset (`epat_compared_lt_iff`).
-/

set_option linter.unusedSectionVars false

namespace Inboard

variable {δ : Type*}

open Steps (new)

/-! ## What leaves the recogniser alone -/

/-- An entry of `epat_unlock` compared. -/
def EpatEvent.IsCompared : EpatEvent δ → Prop
  | .compared _ => True
  | .reg _ _ | .stream _ | .called _ _ | .null => False

theorem EpatEvent.FromDrive.not_isCompared {e : EpatEvent δ} (h : e.FromDrive) :
    ¬e.IsCompared := by
  intro h'
  cases e <;> first | exact h | exact h'

/-- From `dev` to `dev'` the recogniser and the connection have not moved. -/
structure Epat.Passes (dev dev' : Epat δ) : Prop where
  ustate : dev'.ustate = dev.ustate
  upos : dev'.upos = dev.upos
  ulast : dev'.ulast = dev.ulast
  udup : dev'.udup = dev.udup
  ucmd : dev'.ucmd = dev.ucmd
  connected : dev'.connected = dev.connected
  log : ∃ es, dev'.log = dev.log ++ es ∧ ∀ e ∈ es, ¬e.IsCompared

theorem Epat.Passes.of_log {dev dev' : Epat δ} (h : dev'.log = dev.log)
    (hustate : dev'.ustate = dev.ustate) (hupos : dev'.upos = dev.upos)
    (hulast : dev'.ulast = dev.ulast) (hudup : dev'.udup = dev.udup)
    (hucmd : dev'.ucmd = dev.ucmd) (hconn : dev'.connected = dev.connected) : dev.Passes dev' :=
  ⟨hustate, hupos, hulast, hudup, hucmd, hconn, [], by rw [h, List.append_nil],
    fun _ he => absurd he List.not_mem_nil⟩

theorem Epat.Passes.refl (dev : Epat δ) : dev.Passes dev := .of_log rfl rfl rfl rfl rfl rfl rfl

theorem Epat.Passes.trans {dev dev' dev'' : Epat δ} (h : dev.Passes dev')
    (h' : dev'.Passes dev'') : dev.Passes dev'' := by
  obtain ⟨es, hlog, hes⟩ := h.log
  obtain ⟨es', hlog', hes'⟩ := h'.log
  refine ⟨h'.ustate.trans h.ustate, h'.upos.trans h.upos, h'.ulast.trans h.ulast,
    h'.udup.trans h.udup, h'.ucmd.trans h.ucmd, h'.connected.trans h.connected, es ++ es', ?_, ?_⟩
  · rw [hlog', hlog, List.append_assoc]
  · exact List.forall_mem_append.2 ⟨hes, hes'⟩

theorem DriveOnly.passes {f : Epat δ → Epat δ} (hf : DriveOnly f) (dev : Epat δ) :
    dev.Passes (f dev) := by
  obtain ⟨r, heq, hr⟩ := hf.exists_eq dev
  rw [heq]
  exact ⟨rfl, rfl, rfl, rfl, rfl, rfl, r.log, rfl, fun e he => (hr e he).not_isCompared⟩

theorem Epat.Passes.stream (val : UInt8) (dev : Epat δ) : dev.Passes (dev.say [.stream val]) := by
  refine ⟨rfl, rfl, rfl, rfl, rfl, rfl, [.stream val], rfl, fun e he => ?_⟩
  obtain rfl := List.mem_singleton.1 he
  exact not_false

section Drive

variable (D : LptDrive δ)

theorem epatRegValue_passes (val : UInt8) (dev : Epat δ) : dev.Passes (epatRegValue D val dev) := by
  have hwrite : dev.Passes { dev with regWrite := false } := .of_log rfl rfl rfl rfl rfl rfl rfl
  by_cases haddr : dev.regAddr < 0x20
  · rw [epatRegValue_eq D val haddr]
    exact hwrite.trans ((epatRegApply_only D _ val).passes _)
  · unfold epatRegValue
    rw [if_neg haddr]
    exact hwrite

theorem epatRegSelect_passes (val : UInt8) (dev : Epat δ) :
    dev.Passes (epatRegSelect val dev) := by
  unfold epatRegSelect
  split_ifs <;> exact .of_log rfl rfl rfl rfl rfl rfl rfl

theorem epatWriteByte_passes (val : UInt8) (dev : Epat δ) :
    dev.Passes (epatWriteByte D val dev) := by
  unfold epatWriteByte
  cases dev.block with
  | write => exact (Epat.Passes.stream val dev).trans ((epatDataWrite_only D val).passes _)
  | read =>
    dsimp only
    split_ifs
    · exact .of_log rfl rfl rfl rfl rfl rfl rfl
    · exact .refl dev
  | none =>
    dsimp only
    split_ifs
    · exact epatRegValue_passes D val dev
    · exact epatRegSelect_passes val dev

theorem epatReadNibble_passes (dev : Epat δ) : dev.Passes (epatReadNibble D dev).2 := by
  unfold epatReadNibble
  split_ifs
  · exact .refl dev
  · exact ((epatRegRead_only D dev.regAddr).passes dev).trans
      (.of_log rfl rfl rfl rfl rfl rfl rfl)

theorem epatReadStatus_passes (dev : Epat δ) : dev.Passes (epatReadStatus D dev).2 := by
  unfold epatReadStatus
  split_ifs
  · exact .refl dev
  · exact .of_log rfl rfl rfl rfl rfl rfl rfl
  · exact ((epatDataRead_only D).passes dev).trans (.of_log rfl rfl rfl rfl rfl rfl rfl)
  · exact .refl dev
  · exact epatReadNibble_passes D dev

/-- A byte moves the recogniser by `epat_unlock_feed` alone. -/
theorem epatWriteData_passes (past : ℕ → UInt8) (val : UInt8) (dev : Epat δ) :
    (epatUnlockFeed past val { dev with data := val }).Passes (epatWriteData D past val dev) := by
  unfold epatWriteData
  dsimp only
  split_ifs
  · exact .refl _
  · exact epatWriteByte_passes D val _
  · exact .refl _

end Drive

/-! ## The recogniser's states -/

/-- `ustate` and `upos` go together. Without the table's bound, `upos` may be past 7. -/
def Epat.FrameInv (dev : Epat δ) : Prop :=
  match dev.ustate with
  | .idle => dev.upos = 0 ∨ dev.upos = 7
  | .run => 0 < dev.upos ∧ dev.upos ≠ 7
  | .cmd => dev.upos = 7

theorem Epat.Passes.frameInv {dev dev' : Epat δ} (h : dev.Passes dev') (hinv : dev.FrameInv) :
    dev'.FrameInv := by
  unfold FrameInv at hinv ⊢
  rwa [h.ustate, h.upos]

/-- The checkpoint sets the status, and after the last byte the state. -/
theorem epatCheckpoint_eq (dev : Epat δ) :
    ∃ status, epatCheckpoint dev =
      { dev with
        status := status
        ustate := if dev.upos = 7 then .cmd else dev.ustate } := by
  unfold epatCheckpoint
  split_ifs
  · omega
  · exact ⟨_, rfl⟩
  · omega
  · exact ⟨_, rfl⟩
  · exact ⟨_, rfl⟩
  · exact ⟨dev.status, rfl⟩

/-- What a byte that is compared does to the recogniser. -/
theorem epatUnlockMatch_eq (past : ℕ → UInt8) (val : UInt8) (dev : Epat δ) :
    ∃ status ustate upos,
      epatUnlockMatch past val dev =
        { dev with status := status, ustate := ustate, upos := upos } ∧
      (val = epatUnlock past dev.upos ∧ upos = dev.upos + 1 ∧
          ustate = (if upos = 7 then .cmd else .run) ∨
        val ≠ epatUnlock past dev.upos ∧ val = epatUnlock past 0 ∧ upos = 1 ∧ ustate = .run ∨
        val ≠ epatUnlock past dev.upos ∧ val ≠ epatUnlock past 0 ∧ upos = 0 ∧ ustate = .idle) := by
  unfold epatUnlockMatch
  split_ifs with hmatch hfirst
  · obtain ⟨status, heq⟩ := epatCheckpoint_eq
      { dev with upos := dev.upos + 1, ustate := EpatUnlockState.run }
    exact ⟨status, _, _, heq, .inl ⟨hmatch, rfl, rfl⟩⟩
  · exact ⟨dev.status, _, _, rfl, .inr (.inl ⟨hmatch, hfirst, rfl, rfl⟩)⟩
  · exact ⟨dev.status, _, _, rfl, .inr (.inr ⟨hmatch, hfirst, rfl, rfl⟩)⟩

theorem epatUnlockMatch_frameInv (past : ℕ → UInt8) (val : UInt8) (dev : Epat δ) :
    (epatUnlockMatch past val dev).FrameInv := by
  obtain ⟨status, ustate, upos, heq, ⟨-, hpos, rfl⟩ | ⟨-, -, rfl, rfl⟩ | ⟨-, -, rfl, rfl⟩⟩ :=
    epatUnlockMatch_eq past val dev
  · rw [heq]
    unfold Epat.FrameInv
    dsimp only
    split_ifs with h7
    · exact h7
    · exact ⟨by omega, h7⟩
  · rw [heq]
    exact ⟨Nat.one_pos, Nat.succ_ne_succ_iff.2 (Nat.zero_ne_add_one 5)⟩
  · rw [heq]
    exact .inl rfl

theorem epatUnlockFeed_frameInv (past : ℕ → UInt8) (val : UInt8) {dev : Epat δ}
    (h : dev.FrameInv) : (epatUnlockFeed past val dev).FrameInv := by
  unfold epatUnlockFeed
  split_ifs with hdup hcmd
  · exact h
  · have hpos : dev.upos = 7 := by
      unfold Epat.FrameInv at h
      rwa [hcmd] at h
    exact .inr hpos
  · exact epatUnlockMatch_frameInv past val _

theorem epatCommit_eq (val : UInt8) (dev : Epat δ) :
    ∃ connected status ucmd upos, epatCommit val dev =
      { dev with connected := connected, status := status, ucmd := ucmd, upos := upos } := by
  unfold epatCommit
  split_ifs
  · exact ⟨_, _, _, _, rfl⟩
  · exact ⟨_, _, _, _, rfl⟩
  · exact ⟨dev.connected, dev.status, _, _, rfl⟩
  · exact ⟨dev.connected, dev.status, dev.ucmd, dev.upos, rfl⟩

theorem epatHandshake_eq (val : UInt8) (dev : Epat δ) :
    ∃ block blockArm blockHalf ustate upos nibbleHi, epatHandshake val dev =
      { dev with
        block := block
        blockArm := blockArm
        blockHalf := blockHalf
        ustate := ustate
        upos := upos
        nibbleHi := nibbleHi } := by
  unfold epatHandshake epatStrobe
  split_ifs
  · exact ⟨_, _, dev.blockHalf, dev.ustate, dev.upos, dev.nibbleHi, rfl⟩
  · exact ⟨_, _, _, dev.ustate, dev.upos, dev.nibbleHi, rfl⟩
  · exact ⟨_, dev.blockArm, dev.blockHalf, dev.ustate, dev.upos, dev.nibbleHi, rfl⟩
  · exact ⟨dev.block, dev.blockArm, dev.blockHalf, dev.ustate, dev.upos, dev.nibbleHi, rfl⟩
  · exact ⟨dev.block, dev.blockArm, dev.blockHalf, _, _, _, rfl⟩
  · exact ⟨dev.block, dev.blockArm, dev.blockHalf, dev.ustate, dev.upos, _, rfl⟩
  · exact ⟨dev.block, dev.blockArm, dev.blockHalf, dev.ustate, dev.upos, _, rfl⟩
  · exact ⟨dev.block, dev.blockArm, dev.blockHalf, dev.ustate, dev.upos, dev.nibbleHi, rfl⟩

/-- The control port does not touch the drive's side, nor the last byte of the data port. -/
theorem epatWriteCtrl_frame (val : UInt8) (dev : Epat δ) :
    (epatWriteCtrl val dev).sd = dev.sd ∧ (epatWriteCtrl val dev).noDrive = dev.noDrive ∧
      (epatWriteCtrl val dev).ulast = dev.ulast := by
  obtain ⟨_, _, _, _, hcommit⟩ := epatCommit_eq val dev
  obtain ⟨_, _, _, _, _, _, hshake⟩ := epatHandshake_eq val (epatCommit val dev)
  unfold epatWriteCtrl
  rw [hshake, hcommit]
  exact ⟨rfl, rfl, rfl⟩

/-- From `dev` to `dev'` the recogniser has been reset or left alone, without a compare. -/
def Epat.MayReset (dev dev' : Epat δ) : Prop :=
  dev'.log = dev.log ∧
    (dev'.ustate = dev.ustate ∧ dev'.upos = dev.upos ∨ dev'.ustate = .idle ∧ dev'.upos = 0)

theorem Epat.MayReset.trans {dev dev' dev'' : Epat δ} (h : dev.MayReset dev')
    (h' : dev'.MayReset dev'') : dev.MayReset dev'' := by
  obtain ⟨hlog, h⟩ := h
  obtain ⟨hlog', ⟨hustate, hupos⟩ | hreset⟩ := h'
  · rw [Epat.MayReset, hustate, hupos]
    exact ⟨hlog'.trans hlog, h⟩
  · exact ⟨hlog'.trans hlog, .inr hreset⟩

theorem epatCommit_mayReset (val : UInt8) (dev : Epat δ) : dev.MayReset (epatCommit val dev) := by
  unfold epatCommit
  split_ifs with hpend
  · exact ⟨rfl, .inr ⟨hpend.2.2.1, rfl⟩⟩
  · exact ⟨rfl, .inr ⟨hpend.2.2.1, rfl⟩⟩
  · exact ⟨rfl, .inr ⟨hpend.2.2.1, rfl⟩⟩
  · exact ⟨rfl, .inl ⟨rfl, rfl⟩⟩

theorem epatHandshake_mayReset (val : UInt8) (dev : Epat δ) :
    dev.MayReset (epatHandshake val dev) := by
  unfold epatHandshake epatStrobe
  split_ifs
  all_goals first
    | exact ⟨rfl, .inl ⟨rfl, rfl⟩⟩
    | exact ⟨rfl, .inr ⟨rfl, rfl⟩⟩

/-- The commit and the strobes of a register access reset the recogniser or leave it. -/
theorem epatWriteCtrl_mayReset (val : UInt8) (dev : Epat δ) :
    dev.MayReset (epatWriteCtrl val dev) :=
  ((epatCommit_mayReset val dev).trans (epatHandshake_mayReset val _)).trans
    ⟨rfl, .inl ⟨rfl, rfl⟩⟩

theorem Epat.MayReset.frameInv {dev dev' : Epat δ} (h : dev.MayReset dev')
    (hinv : dev.FrameInv) : dev'.FrameInv := by
  unfold FrameInv at hinv ⊢
  obtain ⟨-, ⟨hustate, hupos⟩ | ⟨hustate, hupos⟩⟩ := h
  · rwa [hustate, hupos]
  · rw [hustate]
    exact .inl hupos

/-! ## Runs -/

section Run

variable (past : ℕ → UInt8) (D : LptDrive δ)

theorem epatAccess_frameInv (dev : Epat δ) (a : EpatAccess) (h : dev.FrameInv) :
    (epatAccess past D dev a).FrameInv := by
  cases a with
  | data val =>
    exact (epatWriteData_passes D past val dev).frameInv (epatUnlockFeed_frameInv past val h)
  | ctrl val => exact (epatWriteCtrl_mayReset val dev).frameInv h
  | readStatus => exact (epatReadStatus_passes D dev).frameInv h
  | readCtrl => exact h

/-- `ustate` and `upos` go together in every state reached from power-on. -/
theorem epat_frameInv (as : List EpatAccess) :
    (Steps.after (epatAccess past D) epatInit as).FrameInv :=
  Steps.inv_after (epatAccess_frameInv past D) as (.inl rfl)

/-- What the recogniser compares of a byte. -/
def epatCompares (val : UInt8) (dev : Epat δ) : List (EpatEvent δ) :=
  if dev.udup ∧ val = dev.ulast ∨ dev.ustate = .cmd then [] else [.compared dev.upos]

theorem epatUnlockFeed_log (val : UInt8) (dev : Epat δ) :
    (epatUnlockFeed past val dev).log = dev.log ++ epatCompares val dev := by
  unfold epatUnlockFeed epatCompares
  by_cases hdup : dev.udup ∧ val = dev.ulast
  · rw [if_pos hdup, if_pos (.inl hdup), List.append_nil]
  · rw [if_neg hdup]
    by_cases hcmd : dev.ustate = .cmd
    · rw [if_pos hcmd, if_pos (.inr hcmd), List.append_nil]
    · obtain ⟨_, _, _, heq, -⟩ := epatUnlockMatch_eq past val
        ({ dev with ulast := val, udup := true }.say [.compared dev.upos])
      rw [if_neg hcmd, if_neg (not_or.2 ⟨hdup, hcmd⟩), heq]
      rfl

/-- Every access adds to the log. -/
theorem epatAccess_log (dev : Epat δ) (a : EpatAccess) :
    dev.log <+: (epatAccess past D dev a).log := by
  cases a with
  | data val =>
    obtain ⟨es, hes, -⟩ := (epatWriteData_passes D past val dev).log
    have hfeed : dev.log <+: (epatUnlockFeed past val { dev with data := val }).log :=
      ⟨_, (epatUnlockFeed_log past val { dev with data := val }).symm⟩
    exact hfeed.trans ⟨es, hes.symm⟩
  | ctrl val => exact ⟨[], by rw [List.append_nil]; exact (epatWriteCtrl_mayReset val dev).1.symm⟩
  | readStatus =>
    obtain ⟨es, hes, -⟩ := (epatReadStatus_passes D dev).log
    exact ⟨es, hes.symm⟩
  | readCtrl => exact List.prefix_rfl

/-! ## The table's bound -/

/-- Entries of `epat_unlock` only. -/
def EpatEvent.InTable : EpatEvent δ → Prop
  | .compared upos => upos < 7
  | .reg _ _ | .stream _ | .called _ _ | .null => True

theorem EpatEvent.inTable_of_not_isCompared {e : EpatEvent δ} (h : ¬e.IsCompared) :
    e.InTable := by
  cases e
  · exact absurd trivial h
  all_goals trivial

/-- A byte that follows a whole frame is the repeat of the last one, or the recogniser has
been reset since. -/
def FrameReset (dev : Epat δ) : EpatAccess → Prop
  | .data val => dev.ustate = .idle → dev.upos = 7 → dev.udup ∧ val = dev.ulast
  | .ctrl _ | .readStatus | .readCtrl => True

/-- A byte is compared with the table exactly when it does not follow a whole frame. -/
theorem epatCompares_inTable_iff {val : UInt8} {dev : Epat δ} (hinv : dev.FrameInv)
    (hpos : dev.upos ≤ 7) :
    (∀ e ∈ epatCompares val dev, e.InTable) ↔ FrameReset dev (.data val) := by
  unfold epatCompares FrameReset
  unfold Epat.FrameInv at hinv
  by_cases hdup : dev.udup ∧ val = dev.ulast
  · rw [if_pos (.inl hdup)]
    exact iff_of_true (fun _ he => absurd he List.not_mem_nil) fun _ _ => hdup
  by_cases hcmd : dev.ustate = .cmd
  · rw [if_pos (.inr hcmd), hcmd]
    exact iff_of_true (fun _ he => absurd he List.not_mem_nil) fun h => nomatch h
  rw [if_neg (not_or.2 ⟨hdup, hcmd⟩), List.forall_mem_singleton]
  constructor
  · intro hlt _ h7
    exact absurd h7 (Nat.ne_of_lt hlt)
  · intro hreset
    refine Nat.lt_of_le_of_ne hpos fun h7 => ?_
    cases hustate : dev.ustate with
    | idle => exact hdup (hreset hustate h7)
    | run =>
      rw [hustate] at hinv
      exact hinv.2 h7
    | cmd => exact hcmd hustate

/-- An access compares with the table only exactly when it is not a byte after a frame. -/
theorem epatAccess_inTable_iff {dev : Epat δ} (a : EpatAccess) (hinv : dev.FrameInv)
    (hpos : dev.upos ≤ 7) :
    (∀ e ∈ new Epat.log dev (epatAccess past D dev a), e.InTable) ↔ FrameReset dev a := by
  have hquiet {dev' : Epat δ} (h : dev.Passes dev') :
      ∀ e ∈ new Epat.log dev dev', e.InTable := by
    obtain ⟨es, hlog, hes⟩ := h.log
    rw [Steps.new_eq hlog]
    exact fun e he => EpatEvent.inTable_of_not_isCompared (hes e he)
  cases a with
  | data val =>
    obtain ⟨es, hlog, hes⟩ := (epatWriteData_passes D past val dev).log
    rw [epatUnlockFeed_log, List.append_assoc] at hlog
    have hnew : new Epat.log dev (epatAccess past D dev (.data val)) =
        epatCompares val dev ++ es := Steps.new_eq hlog
    rw [hnew, List.forall_mem_append, epatCompares_inTable_iff hinv hpos]
    exact and_iff_left fun e he => EpatEvent.inTable_of_not_isCompared (hes e he)
  | ctrl val =>
    have hnew : new Epat.log dev (epatAccess past D dev (.ctrl val)) = [] :=
      Steps.new_eq ((epatWriteCtrl_mayReset val dev).1.trans (List.append_nil _).symm)
    rw [hnew]
    exact iff_of_true (fun _ he => absurd he List.not_mem_nil) trivial
  | readStatus => exact iff_of_true (hquiet (epatReadStatus_passes D dev)) trivial
  | readCtrl => exact iff_of_true (hquiet (.refl dev)) trivial

/-- A byte that does not follow a whole frame keeps `upos` in the table. -/
theorem epatUnlockFeed_upos_le {val : UInt8} {dev : Epat δ} (hinv : dev.FrameInv)
    (hpos : dev.upos ≤ 7) (hreset : FrameReset dev (.data val)) :
    (epatUnlockFeed past val dev).upos ≤ 7 := by
  have hcompares := (epatCompares_inTable_iff hinv hpos).2 hreset
  unfold epatCompares at hcompares
  unfold epatUnlockFeed
  split_ifs with hdup hcmd
  · exact hpos
  · exact hpos
  · rw [if_neg (not_or.2 ⟨hdup, hcmd⟩), List.forall_mem_singleton] at hcompares
    have hlt : dev.upos < 7 := hcompares
    obtain ⟨_, _, upos, heq, ⟨-, rfl, -⟩ | ⟨-, -, rfl, -⟩ | ⟨-, -, rfl, -⟩⟩ :=
      epatUnlockMatch_eq past val
        ({ dev with ulast := val, udup := true }.say [.compared dev.upos])
    · rw [heq]
      exact hlt
    · rw [heq]
      exact Nat.le_add_left 1 6
    · rw [heq]
      exact Nat.zero_le 7

theorem epatAccess_upos_le {dev : Epat δ} (a : EpatAccess) (hinv : dev.FrameInv)
    (hpos : dev.upos ≤ 7) (hreset : FrameReset dev a) : (epatAccess past D dev a).upos ≤ 7 := by
  cases a with
  | data val =>
    have hfeed : (epatUnlockFeed past val { dev with data := val }).upos ≤ 7 :=
      epatUnlockFeed_upos_le past hinv hpos hreset
    exact (epatWriteData_passes D past val dev).upos ▸ hfeed
  | ctrl val =>
    obtain ⟨-, ⟨-, hupos⟩ | ⟨-, hupos⟩⟩ := epatWriteCtrl_mayReset val dev
    · exact Nat.le_trans (Nat.le_of_eq hupos) hpos
    · exact Nat.le_trans (Nat.le_of_eq hupos) (Nat.zero_le 7)
  | readStatus => exact Nat.le_trans (Nat.le_of_eq (epatReadStatus_passes D dev).upos) hpos
  | readCtrl => exact hpos

/-- From power-on, `epat_unlock` is indexed in bounds exactly when no byte that is not a
repeat follows a whole frame before the recogniser is reset. -/
theorem epat_compared_lt_iff (as : List EpatAccess) :
    (∀ upos, .compared upos ∈ (Steps.after (epatAccess past D) epatInit as).log → upos < 7) ↔
      Steps.EveryStep (epatAccess past D) FrameReset epatInit as := by
  have hall : (∀ upos, .compared upos ∈ (Steps.after (epatAccess past D) epatInit as).log →
      upos < 7) ↔ ∀ e ∈ new Epat.log epatInit (Steps.after (epatAccess past D) epatInit as),
        e.InTable := by
    constructor
    · intro h e he
      cases e with
      | compared upos => exact h upos he
      | reg | stream | called | null => trivial
    · intro h upos he
      exact h _ he
  rw [hall, Steps.everyStep_new_iff (epatAccess_log past D)]
  refine Steps.everyStep_iff (I := fun dev : Epat δ => dev.FrameInv ∧ dev.upos ≤ 7) ?_ ?_ ?_
  · rintro dev a ⟨hinv, hpos⟩
    exact epatAccess_inTable_iff past D a hinv hpos
  · rintro dev a ⟨hinv, hpos⟩ hreset
    exact ⟨epatAccess_frameInv past D dev a hinv, epatAccess_upos_le past D a hinv hpos hreset⟩
  · exact ⟨.inl rfl, Nat.zero_le 7⟩

end Run

/-- A whole frame, each byte once, and a byte before the pulse. -/
def uncommittedFrame : List EpatAccess :=
  [0x22, 0xAA, 0x55, 0x00, 0xFF, 0x87, 0x78, 0xE0, 0x00].map .data

/-- The byte after the frame is compared with what follows `epat_unlock`. -/
theorem not_epat_compared_lt : ¬∀ (past : ℕ → UInt8) (D : LptDrive Unit) (as : List EpatAccess),
    ∀ upos, .compared upos ∈ (Steps.after (epatAccess past D) epatInit as).log → upos < 7 := by
  intro h
  refine Nat.lt_irrefl 7 (h (fun _ => 0) ⟨none, fun _ sc => sc⟩ uncommittedFrame 7 ?_)
  exact List.mem_of_getElem? (i := 7) rfl

end Inboard
