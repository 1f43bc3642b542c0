import Inboard.EpatSession

/-!
# BSY of the drive behind the EPAT bridge

The bridge sets BUSY_STAT before it calls the drive, and nothing but the bridge clears it
again : no timer runs for a drive behind a parallel port. An access returns with it clear
exactly when the drive's function it called has cleared it, or has moved to a phase that
the bridge acts on there (`Settles`), so a run never strands the host exactly when all its
calls settle (`epat_busy_iff`). `rdisk_phase_data_out` does not settle when MODE SELECT
names a page the drive does not have (`not_epat_busy`).
-/

set_option linter.unusedSectionVars false

namespace Inboard

variable {δ : Type*}

open Steps (new)

/-! ## What settles -/

/-- BUSY_STAT is clear in the drive's status. -/
def ScsiCommon.Clear (sc : ScsiCommon δ) : Prop := sc.tf.atastat &&& busyStat = 0

/-- The bridge will act on what the function left, or the function cleared BUSY_STAT. -/
def Settles (fn : DriveFn) (left : ScsiCommon δ) : Prop :=
  left.Clear ∨ match fn with
    | .command => left.packetStatus = .idle ∨ left.packetStatus = .complete ∨
        left.packetStatus = .error ∨ left.packetStatus = .dataIn ∨ left.packetStatus = .dataOut
    | .phaseDataOut | .commandStop => left.packetStatus = .complete
    | .reset => False

/-- What the bridge did that settles. -/
def EpatEvent.Settled : EpatEvent δ → Prop
  | .called fn left => Settles fn left
  | .compared _ | .reg _ _ | .stream _ | .null => True

instance (sc : ScsiCommon δ) : Decidable sc.Clear :=
  inferInstanceAs (Decidable (sc.tf.atastat &&& busyStat = 0))

instance (fn : DriveFn) (left : ScsiCommon δ) : Decidable (Settles fn left) :=
  match fn with
  | .command => inferInstanceAs (Decidable (left.Clear ∨ _ ∨ _))
  | .phaseDataOut | .commandStop => inferInstanceAs (Decidable (left.Clear ∨ _ = _))
  | .reset => inferInstanceAs (Decidable (left.Clear ∨ False))

instance : DecidablePred (EpatEvent.Settled (δ := δ))
  | .called fn left => inferInstanceAs (Decidable (Settles fn left))
  | .compared _ | .reg _ _ | .stream _ | .null => inferInstanceAs (Decidable True)

/-- Of what the bridge left of the drive, BUSY_STAT is clear exactly if every call settled. -/
def ClearIff (r : Drove δ) : Prop := r.1.Clear ↔ ∀ e ∈ r.2, e.Settled

theorem ClearIff.quiet {sc : ScsiCommon δ} (h : sc.Clear) : ClearIff (sc, []) :=
  iff_of_true h fun _ he => absurd he List.not_mem_nil

/-- READY and DRQ, with the error bit of before. -/
theorem ready_clear (stat : UInt8) :
    (readyStat ||| drqStat ||| (stat &&& errStat)) &&& busyStat = 0 := by
  have hall : ∀ n < 256,
      (readyStat ||| drqStat ||| (UInt8.ofNat n &&& errStat)) &&& busyStat = 0 := by
    decide +kernel
  have hstat := hall stat.toNat (UInt8.toNat_lt stat)
  rwa [UInt8.ofNat_toNat] at hstat

section Drive

variable (D : LptDrive δ)

/-- What the bridge makes of the phase a command left. -/
theorem epatAtapiPhase_clear_iff (sc : ScsiCommon δ) :
    (epatAtapiPhase sc).Clear ↔ Settles .command sc := by
  have hclear {sc' : ScsiCommon δ} (h : sc'.Clear) (hphase : sc.packetStatus = .idle ∨
      sc.packetStatus = .complete ∨ sc.packetStatus = .error ∨ sc.packetStatus = .dataIn ∨
      sc.packetStatus = .dataOut) : sc'.Clear ↔ Settles .command sc :=
    iff_of_true h (.inr hphase)
  have hkept (hphase : ¬(sc.packetStatus = .idle ∨ sc.packetStatus = .complete ∨
      sc.packetStatus = .error ∨ sc.packetStatus = .dataIn ∨ sc.packetStatus = .dataOut)) :
      sc.Clear ↔ Settles .command sc :=
    (or_iff_left hphase).symm
  unfold epatAtapiPhase
  cases hphase : sc.packetStatus with
  | idle => exact hclear (ready_clear _) (.inl hphase)
  | complete => exact hclear (by decide : readyStat &&& busyStat = 0) (.inr (.inl hphase))
  | error =>
    exact hclear (by decide : (readyStat ||| errStat) &&& busyStat = 0) (.inr (.inr (.inl hphase)))
  | dataIn => exact hclear (ready_clear _) (.inr (.inr (.inr (.inl hphase))))
  | dataOut => exact hclear (ready_clear _) (.inr (.inr (.inr (.inr hphase))))
  | command => exact hkept (by rw [hphase]; decide)
  | dataInDma => exact hkept (by rw [hphase]; decide)
  | dataOutDma => exact hkept (by rw [hphase]; decide)
  | none => exact hkept (by rw [hphase]; decide)

theorem clearIff_singleton {sc : ScsiCommon δ} {fn : DriveFn} {left : ScsiCommon δ}
    (h : sc.Clear ↔ Settles fn left) : ClearIff (sc, [.called fn left]) := by
  unfold ClearIff
  rw [List.forall_mem_singleton]
  exact h

/-- A CDB that is complete is carried out at once. -/
theorem epatAtapiCallback_command {sc : ScsiCommon δ} (h : sc.packetStatus = .command) :
    ClearIff (epatAtapiCallback D sc) := by
  unfold epatAtapiCallback
  rw [if_pos h]
  exact clearIff_singleton (epatAtapiPhase_clear_iff _)

/-- The other phases clear BUSY_STAT, and call nothing. -/
theorem epatAtapiCallback_phase {sc : ScsiCommon δ}
    (h : sc.packetStatus = .complete ∨ sc.packetStatus = .dataIn ∨ sc.packetStatus = .dataOut) :
    (epatAtapiCallback D sc).1.Clear ∧ (epatAtapiCallback D sc).2 = [] := by
  have hne : sc.packetStatus ≠ .command := by
    rcases h with h | h | h <;> rw [h] <;> exact PacketPhase.noConfusion
  unfold epatAtapiCallback
  rw [if_neg hne]
  refine ⟨(epatAtapiPhase_clear_iff sc).2 (.inr ?_), rfl⟩
  rcases h with h | h | h
  · exact .inr (.inl h)
  · exact .inr (.inr (.inr (.inl h)))
  · exact .inr (.inr (.inr (.inr h)))

/-- The end of a transfer is acted on if the drive says it is complete. -/
theorem epatPioEnd_clearIff {fn : DriveFn} (hfn : fn = .phaseDataOut ∨ fn = .commandStop)
    (sc : ScsiCommon δ) : ClearIff (epatPioEnd D fn sc) := by
  have hsettles (left : ScsiCommon δ) :
      Settles fn left ↔ left.Clear ∨ left.packetStatus = .complete := by
    rcases hfn with rfl | rfl <;> exact Iff.rfl
  unfold epatPioEnd
  dsimp only
  split_ifs with hcomplete
  · obtain ⟨hclear, hquiet⟩ := epatAtapiCallback_phase D (.inl hcomplete)
    unfold ClearIff
    rw [hquiet, List.forall_mem_singleton]
    exact iff_of_true hclear ((hsettles _).2 (.inr hcomplete))
  · refine clearIff_singleton ((hsettles _).trans ?_).symm
    exact or_iff_left hcomplete

theorem epatPioNext_clearIff (out : Bool) (sc : ScsiCommon δ) : ClearIff
    (epatPioNext D out sc) := by
  have hasked {sc' : ScsiCommon δ} (hphase : sc'.packetStatus = if out then .dataOut else .dataIn) :
      ClearIff (epatAtapiCallback D sc') := by
    have hmoving : sc'.packetStatus = .dataIn ∨ sc'.packetStatus = .dataOut := by
      cases out
      · exact .inl hphase
      · exact .inr hphase
    obtain ⟨hclear, hquiet⟩ := epatAtapiCallback_phase D (.inr hmoving)
    unfold ClearIff
    rw [hquiet]
    exact iff_of_true hclear fun _ he => absurd he List.not_mem_nil
  unfold epatPioNext
  exact hasked rfl

theorem epatPioStep_clearIff (out : Bool) {sc : ScsiCommon δ} (h : sc.Clear) :
    ClearIff (epatPioStep D out sc) := by
  unfold epatPioStep epatPioRequest
  dsimp only
  split_ifs
  · exact epatPioEnd_clearIff D (.inl rfl) _
  · exact epatPioEnd_clearIff D (.inr rfl) _
  · exact epatPioNext_clearIff D _ _
  · exact .quiet h

theorem scDataRead_clearIff {sc : ScsiCommon δ} (h : sc.Clear) :
    ClearIff (scDataRead D sc).2 := by
  unfold scDataRead
  cases sc.tempBuffer with
  | none => exact .quiet h
  | some buf =>
    dsimp only
    by_cases hin : sc.packetStatus ≠ .dataIn
    · rw [if_pos hin]
      exact .quiet h
    · rw [if_neg hin]
      exact epatPioStep_clearIff D false h

theorem scDataWrite_clearIff (val : UInt8) {sc : ScsiCommon δ} (h : sc.Clear) :
    ClearIff (scDataWrite D val sc) := by
  unfold scDataWrite
  split
  · dsimp only
    split_ifs
    · exact epatAtapiCallback_command D rfl
    · exact .quiet h
  · split
    · exact .quiet h
    · exact epatPioStep_clearIff D true h
  · exact .quiet h

theorem epatCommand_clear (cmd : UInt8) (sc : ScsiCommon δ) : (epatCommand cmd sc).Clear := by
  unfold epatCommand
  split_ifs
  · exact (by decide : (readyStat ||| errStat ||| 0x10) &&& busyStat = 0)
  · exact (by decide : (readyStat ||| drqStat) &&& busyStat = 0)

theorem tfWrite_clearIff (addr val : UInt8) {sc : ScsiCommon δ} (h : sc.Clear) :
    ClearIff (tfWrite D addr val sc) := by
  unfold tfWrite
  split
  · exact scDataWrite_clearIff D val h
  · exact .quiet h
  · exact .quiet h
  · exact .quiet h
  · exact .quiet h
  · exact .quiet h
  · exact .quiet (epatCommand_clear val sc)
  · exact .quiet h

/-! ## Accesses -/

/-- The drive the bridge fronts, looked up or not yet. -/
def Epat.drive (dev : Epat δ) : Option (ScsiCommon δ) :=
  if dev.sd.isSome then dev.sd else D.device

/-- BUSY_STAT is clear in the status of the drive, if there is one. -/
def Epat.BusyClear (dev : Epat δ) : Prop := ∀ sc, dev.drive D = some sc → sc.Clear

/-- From `dev`, where BUSY_STAT is clear, to `dev'` it stays so exactly if every call settles. -/
def Epat.BusyIff (dev dev' : Epat δ) : Prop :=
  ∃ es, dev'.log = dev.log ++ es ∧
    (dev.BusyClear D → (dev'.BusyClear D ↔ ∀ e ∈ es, e.Settled))

variable {D}

theorem Epat.BusyIff.of_drive {dev dev' : Epat δ} {es : List (EpatEvent δ)}
    (hdrive : dev'.drive D = dev.drive D) (hlog : dev'.log = dev.log ++ es)
    (hes : ∀ e ∈ es, e.Settled) : Epat.BusyIff D dev dev' := by
  refine ⟨es, hlog, fun h => iff_of_true ?_ hes⟩
  unfold BusyClear at h ⊢
  rwa [hdrive]

/-- What does not call the drive, before what may. -/
theorem Epat.BusyIff.after {dev dev' dev'' : Epat δ} {es : List (EpatEvent δ)}
    (hdrive : dev'.drive D = dev.drive D) (hlog : dev'.log = dev.log ++ es)
    (hes : ∀ e ∈ es, e.Settled) (h : Epat.BusyIff D dev' dev'') : Epat.BusyIff D dev dev'' := by
  obtain ⟨es', hlog', h⟩ := h
  refine ⟨es ++ es', by rw [hlog', hlog, List.append_assoc], fun hclear => ?_⟩
  rw [List.forall_mem_append, and_iff_right hes]
  refine h ?_
  unfold BusyClear at hclear ⊢
  rwa [hdrive]

theorem Epat.BusyIff.drove {dev : Epat δ} {sc : ScsiCommon δ} (hsd : dev.sd = some sc)
    {r : Drove δ} (h : sc.Clear → ClearIff r) : Epat.BusyIff D dev (dev.drove r) := by
  refine ⟨r.2, rfl, fun hclear => ?_⟩
  have hdrive : dev.drive D = some sc := by
    unfold Epat.drive
    rw [hsd]
    rfl
  have hiff : (dev.drove r).BusyClear D ↔ r.1.Clear := by
    have hdrove : (dev.drove r).drive D = some r.1 := rfl
    unfold BusyClear
    rw [hdrove]
    exact ⟨fun h => h r.1 rfl, fun h sc' heq => Option.some.inj heq ▸ h⟩
  exact hiff.trans (h (hclear sc hdrive))

variable (D)

theorem epatAttachDrive_drive (dev : Epat δ) :
    (epatAttachDrive D dev).drive D = dev.drive D ∧ (epatAttachDrive D dev).log = dev.log := by
  unfold epatAttachDrive Epat.drive
  split_ifs with hsd hno hdev
  · exact ⟨rfl, rfl⟩
  · exact ⟨rfl, rfl⟩
  · exact ⟨rfl, rfl⟩
  · exact ⟨rfl, rfl⟩

theorem epatDataRead_busy (dev : Epat δ) : Epat.BusyIff D dev (epatDataRead D dev).2 := by
  unfold epatDataRead
  cases hsd : dev.sd with
  | none => exact .of_drive rfl rfl fun e he => List.mem_singleton.1 he ▸ trivial
  | some sc => exact .drove hsd fun h => scDataRead_clearIff D h

theorem epatDataWrite_busy (val : UInt8) (dev : Epat δ) :
    Epat.BusyIff D dev (epatDataWrite D val dev) := by
  unfold epatDataWrite
  cases hsd : dev.sd with
  | none => exact .of_drive rfl rfl fun e he => List.mem_singleton.1 he ▸ trivial
  | some sc => exact .drove hsd fun h => scDataWrite_clearIff D val h

theorem Epat.BusyIff.quiet {dev dev' : Epat δ} (hsd : dev'.sd = dev.sd)
    (hlog : dev'.log = dev.log) : Epat.BusyIff D dev dev' := by
  refine .of_drive ?_ (by rw [hlog, List.append_nil]) fun _ he => absurd he List.not_mem_nil
  unfold Epat.drive
  rw [hsd]

theorem epatRegRead_busy (addr : UInt8) (dev : Epat δ) :
    Epat.BusyIff D dev (epatRegRead D addr dev).2 := by
  obtain ⟨hdrive, hlog⟩ := epatAttachDrive_drive D dev
  have hattach {dev' : Epat δ} (h : Epat.BusyIff D (epatAttachDrive D dev) dev') :
      Epat.BusyIff D dev dev' :=
    h.after hdrive (by rw [hlog, List.append_nil]) fun _ he => absurd he List.not_mem_nil
  unfold epatRegRead tfRead
  dsimp only
  split
  · exact hattach (.quiet D rfl rfl)
  · split_ifs
    · exact hattach (epatDataRead_busy D _)
    · exact hattach (.quiet D rfl rfl)
    · split
      · exact hattach (epatDataRead_busy D _)
      all_goals exact hattach (.quiet D rfl rfl)

/-- A register written and the drive looked up, with nothing called. -/
theorem epatRegWrite_looked (addr val : UInt8) (dev : Epat δ) :
    ∃ dev' : Epat δ, epatRegWrite D addr val dev =
        (match dev'.sd with
          | none => dev'
          | some sc =>
            if addr < epatRegTaskfile ∨ epatRegTaskfile + 7 < addr then dev'
            else dev'.drove (tfWrite D addr val sc)) ∧
      dev'.drive D = dev.drive D ∧ dev'.log = dev.log ++ [.reg addr val] := by
  obtain ⟨hdrive, hlog⟩ := epatAttachDrive_drive D
    ({ dev with regs := Function.update dev.regs addr val }.say [.reg addr val])
  exact ⟨_, rfl, hdrive, hlog⟩

theorem epatRegWrite_busy (addr val : UInt8) (dev : Epat δ) :
    Epat.BusyIff D dev (epatRegWrite D addr val dev) := by
  obtain ⟨dev', heq, hdrive, hlog⟩ := epatRegWrite_looked D addr val dev
  have hsettled : ∀ e ∈ [(.reg addr val : EpatEvent δ)], e.Settled :=
    fun e he => List.mem_singleton.1 he ▸ trivial
  rw [heq]
  split
  · exact .of_drive hdrive hlog hsettled
  · rename_i sc hsd
    split_ifs
    · exact .of_drive hdrive hlog hsettled
    · exact .after hdrive hlog hsettled (.drove hsd fun h => tfWrite_clearIff D addr val h)

/-- A register outside the task file calls nothing. -/
theorem epatRegWrite_outside {addr : UInt8} (haddr : addr < epatRegTaskfile) (val : UInt8)
    (dev : Epat δ) :
    (epatRegWrite D addr val dev).drive D = dev.drive D ∧
      (epatRegWrite D addr val dev).log = dev.log ++ [.reg addr val] := by
  obtain ⟨dev', heq, hdrive, hlog⟩ := epatRegWrite_looked D addr val dev
  rw [heq]
  split
  · exact ⟨hdrive, hlog⟩
  · rw [if_pos (.inl haddr)]
    exact ⟨hdrive, hlog⟩

theorem epatDeviceReset_busy (dev : Epat δ) : Epat.BusyIff D dev (epatDeviceReset D dev) := by
  unfold epatDeviceReset
  dsimp only
  generalize (fun addr : UInt8 => if addr = 0x1F then (0x40 ||| 0x10 : UInt8)
    else if addr = 0x1C then 0x14 else if addr = 0x1D then 0xEB else 0) = regs
  obtain ⟨hdrive, hlog⟩ := epatAttachDrive_drive D { dev with regs := regs }
  have hnil : ∀ e ∈ ([] : List (EpatEvent δ)), e.Settled := fun _ he => absurd he List.not_mem_nil
  have hlog' : (epatAttachDrive D { dev with regs := regs }).log = dev.log ++ [] := by
    rw [hlog, List.append_nil]
  split
  · exact .of_drive hdrive hlog' hnil
  · rename_i sc hsd
    refine .after hdrive hlog' hnil (.drove hsd fun _ => clearIff_singleton ?_)
    exact (or_iff_left not_false).symm

theorem epatRegApply_busy (addr val : UInt8) (dev : Epat δ) :
    Epat.BusyIff D dev (epatRegApply D addr val dev) := by
  unfold epatRegApply
  split_ifs with hreset
  · have haddr : addr < epatRegTaskfile := by
      rw [hreset.1]
      decide
    obtain ⟨hdrive, hlog⟩ := epatRegWrite_outside D haddr val dev
    exact .after hdrive hlog (fun e he => List.mem_singleton.1 he ▸ trivial)
      (epatDeviceReset_busy D _)
  · exact epatRegWrite_busy D addr val dev

theorem epatWriteByte_busy (val : UInt8) (dev : Epat δ) :
    Epat.BusyIff D dev (epatWriteByte D val dev) := by
  unfold epatWriteByte
  cases dev.block with
  | write =>
    have hsettled : ∀ e ∈ [(.stream val : EpatEvent δ)], e.Settled :=
      fun e he => List.mem_singleton.1 he ▸ trivial
    have hdrive : (dev.say [.stream val]).drive D = dev.drive D := rfl
    have hlog : (dev.say [.stream val]).log = dev.log ++ [.stream val] := rfl
    exact .after hdrive hlog hsettled (epatDataWrite_busy D val _)
  | read =>
    dsimp only
    split_ifs <;> exact .quiet D rfl rfl
  | none =>
    dsimp only
    split_ifs
    · by_cases haddr : dev.regAddr < 0x20
      · rw [epatRegValue_eq D val haddr]
        exact .after rfl (List.append_nil _).symm (fun _ he => absurd he List.not_mem_nil)
          (epatRegApply_busy D dev.regAddr val _)
      · unfold epatRegValue
        rw [if_neg haddr]
        exact .quiet D rfl rfl
    · obtain ⟨_, _, _, _, heq⟩ := epatRegSelect_eq val dev
      rw [heq]
      exact .quiet D rfl rfl

theorem epatCompares_settled (val : UInt8) (dev : Epat δ) :
    ∀ e ∈ epatCompares val dev, e.Settled := by
  unfold epatCompares
  intro e he
  split_ifs at he
  · exact absurd he List.not_mem_nil
  · exact List.mem_singleton.1 he ▸ trivial

theorem epatWriteData_busy (past : ℕ → UInt8) (val : UInt8) (dev : Epat δ) :
    Epat.BusyIff D dev (epatWriteData D past val dev) := by
  have hlog := epatUnlockFeed_log past val { dev with data := val }
  have hdrive : (epatUnlockFeed past val { dev with data := val }).drive D = dev.drive D := by
    unfold epatUnlockFeed
    split_ifs
    · rfl
    · rfl
    · obtain ⟨_, _, _, heq, -⟩ := epatUnlockMatch_eq past val
        ({ dev with data := val, ulast := val, udup := true }.say [.compared dev.upos])
      rw [heq]
      rfl
  have hsettled := epatCompares_settled val { dev with data := val }
  unfold epatWriteData
  dsimp only
  split_ifs
  · exact .of_drive hdrive hlog hsettled
  · exact .after hdrive hlog hsettled (epatWriteByte_busy D val _)
  · exact .of_drive hdrive hlog hsettled

theorem epatReadStatus_busy (dev : Epat δ) : Epat.BusyIff D dev (epatReadStatus D dev).2 := by
  unfold epatReadStatus epatReadNibble
  dsimp only
  split_ifs
  · exact .quiet D rfl rfl
  · exact .quiet D rfl rfl
  · exact epatDataRead_busy D dev
  · exact .quiet D rfl rfl
  · exact .quiet D rfl rfl
  · exact epatRegRead_busy D dev.regAddr dev

theorem epatAccess_busy (past : ℕ → UInt8) (dev : Epat δ) (a : EpatAccess) :
    Epat.BusyIff D dev (epatAccess past D dev a) := by
  cases a with
  | data val => exact epatWriteData_busy D past val dev
  | ctrl val => exact .quiet D (epatWriteCtrl_frame val dev).1 (epatWriteCtrl_mayReset val dev).1
  | readStatus => exact epatReadStatus_busy D dev
  | readCtrl => exact .quiet D rfl rfl

/-- From a state with BUSY_STAT clear it is clear whenever an access returns, exactly when
every call of the run settles. -/
theorem epat_busy_iff (past : ℕ → UInt8) {dev : Epat δ} (hclear : dev.BusyClear D)
    (as : List EpatAccess) :
    Steps.Everywhere (epatAccess past D) (Epat.BusyClear D) dev as ↔
      ∀ fn left, .called fn left ∈ new Epat.log dev (Steps.after (epatAccess past D) dev as) →
        Settles fn left := by
  have hall : (∀ fn left,
      .called fn left ∈ new Epat.log dev (Steps.after (epatAccess past D) dev as) →
        Settles fn left) ↔
      ∀ e ∈ new Epat.log dev (Steps.after (epatAccess past D) dev as), e.Settled := by
    constructor
    · intro h e he
      cases e with
      | called fn left => exact h fn left he
      | compared | reg | stream | null => trivial
    · intro h fn left he
      exact h _ he
  rw [hall, Steps.everyStep_new_iff (epatAccess_log past D)]
  refine Steps.everywhere_iff (fun dev a hdev => ?_) hclear
  obtain ⟨es, hlog, h⟩ := epatAccess_busy D past dev a
  rw [Steps.new_eq hlog]
  exact h hdev

end Drive

/-! ## A drive -/

/-- `rdisk_command_common`. -/
def rdiskCommandCommon (sc : ScsiCommon δ) : ScsiCommon δ :=
  { sc with tf.atastat := busyStat, tf.phase := 1, tf.pos := 0 }

/-- `rdisk_command_stop`. -/
def rdiskCommandStop (sc : ScsiCommon δ) : ScsiCommon δ :=
  { rdiskCommandCommon { sc with packetStatus := .complete } with tempBuffer := none }

/-- `rdisk_command`, of a MODE SELECT (6). Any other command completes at once. -/
def rdiskCommand (sc : ScsiCommon δ) : ScsiCommon δ :=
  if sc.atapiCdb 0 = 0x15 ∧ sc.atapiCdb 4 ≠ 0 then
    rdiskCommandCommon { sc with
      tf.error := 0
      tf.requestLength := (sc.atapiCdb 4).toUInt16
      tempBuffer := some (sc.tempBuffer.getD fun _ => 0)
      packetStatus := .dataOut
      requestPos := 0
      packetLen := (sc.atapiCdb 4).toNat
      maxTransferLen := (sc.atapiCdb 4).toNat }
  else rdiskCommandStop { sc with tf.error := 0, requestPos := 0, packetLen := 0 }

/-- The pages of `zip_100_mode_sense_page_flags`. -/
def zip100Pages : List UInt8 := [0x01, 0x02, 0x2F, 0x3F]

/-- `rdisk_phase_data_out`, of a MODE SELECT (6) whose parameters are one page header. A page
the drive does not have is no error of `rdisk_invalid_field_pl` : the buffer is freed, and
that is all. -/
def rdiskPhaseDataOut (sc : ScsiCommon δ) : ScsiCommon δ :=
  match sc.tempBuffer with
  | none => rdiskCommandStop sc
  | some buf =>
    if 4 < sc.packetLen ∧ buf 4 &&& 0x3F ∉ zip100Pages then { sc with tempBuffer := none }
    else rdiskCommandStop sc

/-- `rdisk_reset`. -/
def rdiskReset (sc : ScsiCommon δ) : ScsiCommon δ :=
  { sc with
    tf.atastat := 0
    tf.phase := 1
    tf.requestLength := 0xEB14
    packetStatus := .none
    unitAttention := 0 }

/-- The drive, with what `idleDrive` starts from. -/
def modeSelectDrive : LptDrive Unit where
  device := idleDrive.device
  call
    | .command => rdiskCommand
    | .phaseDataOut => rdiskPhaseDataOut
    | .commandStop => rdiskCommandStop
    | .reset => rdiskReset

/-- The phases the functions of rdisk leave, on a parallel port. -/
structure LptDrive.RdiskPhases (D : LptDrive δ) : Prop where
  command : ∀ sc, (D.call .command sc).packetStatus ∈
    [.complete, .error, .dataIn, .dataOut]
  phaseDataOut : ∀ sc, sc.packetStatus = .dataOut → (D.call .phaseDataOut sc).packetStatus ∈
    [.complete, .error, .dataOut]
  commandStop : ∀ sc, (D.call .commandStop sc).packetStatus = .complete
  reset : ∀ sc, (D.call .reset sc).Clear

theorem modeSelectDrive_phases : modeSelectDrive.RdiskPhases where
  command sc := by
    have hcall : modeSelectDrive.call .command sc = rdiskCommand sc := rfl
    rw [hcall]
    unfold rdiskCommand
    split_ifs
    · exact List.mem_of_getElem? (i := 3) rfl
    · exact List.mem_cons_self
  phaseDataOut sc h := by
    have hcall : modeSelectDrive.call .phaseDataOut sc = rdiskPhaseDataOut sc := rfl
    rw [hcall]
    unfold rdiskPhaseDataOut
    split
    · exact List.mem_cons_self
    · split_ifs
      · have hkept : ({ sc with tempBuffer := none } : ScsiCommon Unit).packetStatus = .dataOut := h
        rw [hkept]
        exact List.mem_of_getElem? (i := 2) rfl
      · exact List.mem_cons_self
  commandStop _ := rfl
  reset _ := (by decide : (0 : UInt8) &&& busyStat = 0)

/-- The accesses of a command with data for the drive. -/
def packetAccesses (cdb vals : List UInt8) : List EpatAccess :=
  connectFrame ++ [HostOp.reg 0x1F 0xA0, .block cdb, .block vals].flatMap HostOp.accesses

/-- MODE SELECT (6) of six bytes. -/
def modeSelectCdb : List UInt8 := [0x15, 0x10, 0, 0, 6, 0, 0, 0, 0, 0, 0, 0]

theorem epatInit_busyClear (call : DriveFn → ScsiCommon Unit → ScsiCommon Unit) :
    Epat.BusyClear ⟨idleDrive.device, call⟩ epatInit := by
  intro sc hsc
  obtain rfl := Option.some.inj hsc
  exact (by decide : readyStat &&& busyStat = 0)

/-- MODE SELECT of a page the drive has settles. -/
theorem epat_busy_modeSelect :
    Steps.Everywhere (epatAccess (fun _ => 0) modeSelectDrive) (Epat.BusyClear modeSelectDrive)
      epatInit (packetAccesses modeSelectCdb [0, 0, 0, 0, 0x01, 0]) := by
  have hall : ∀ e ∈ new Epat.log epatInit (Steps.after (epatAccess (fun _ => 0) modeSelectDrive)
      epatInit (packetAccesses modeSelectCdb [0, 0, 0, 0, 0x01, 0])), e.Settled := by
    decide +kernel
  exact (epat_busy_iff modeSelectDrive (fun _ => 0) (epatInit_busyClear modeSelectDrive.call) _).2
    fun fn left hmem => hall (.called fn left) hmem

/-- MODE SELECT of the caching page leaves BUSY_STAT set. -/
theorem not_epat_busy : ¬∀ (past : ℕ → UInt8) (D : LptDrive Unit), D.RdiskPhases →
    ∀ (dev : Epat Unit) (as : List EpatAccess), dev.BusyClear D →
      Steps.Everywhere (epatAccess past D) (Epat.BusyClear D) dev as := by
  intro h
  have hrun := h (fun _ => 0) modeSelectDrive modeSelectDrive_phases epatInit
    (packetAccesses modeSelectCdb [0, 0, 0, 0, 0x08, 0]) (epatInit_busyClear modeSelectDrive.call)
  have hend := Steps.everywhere_iff_prefix.1 hrun _ [] (List.append_nil _).symm
  have hsome : ((Steps.after (epatAccess (fun _ => 0) modeSelectDrive) epatInit
      (packetAccesses modeSelectCdb [0, 0, 0, 0, 0x08, 0])).drive modeSelectDrive).map
        (fun sc => sc.tf.atastat &&& busyStat) = some busyStat := by decide +kernel
  obtain ⟨sc, hsc, hbusy⟩ := Option.map_eq_some_iff.1 hsome
  exact absurd ((hend sc hsc).symm.trans hbusy) (by decide)

end Inboard
