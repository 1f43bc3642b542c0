import Inboard.Epat

/-!
# The drive's side of the EPAT bridge

The functions behind the ports read and change the drive and the register file, and nothing
else of the bridge (`DriveOnly`). So what a register access does can be computed on a bridge
just powered on that has the drive and the registers, and put back (`DriveOnly.eq`).
-/

set_option linter.unusedSectionVars false

namespace Inboard

variable {δ : Type*}

/-- A register value, a call to the drive, or its NULL pointer used. -/
def EpatEvent.FromDrive : EpatEvent δ → Prop
  | .reg _ _ | .called _ _ | .null => True
  | .compared _ | .stream _ => False

/-- A call to the drive. -/
def EpatEvent.IsCall : EpatEvent δ → Prop
  | .called _ _ => True
  | .compared _ | .reg _ _ | .stream _ | .null => False

/-- A call is of the drive's side. -/
theorem EpatEvent.IsCall.fromDrive {e : EpatEvent δ} (h : e.IsCall) : e.FromDrive := by
  cases e <;> trivial

/-! ## Frames -/

/-- A bridge just powered on, with the drive and the registers of `dev`. -/
def Epat.driveSide (dev : Epat δ) : Epat δ :=
  { epatInit with sd := dev.sd, noDrive := dev.noDrive, regs := dev.regs }

/-- `dev` with the drive and the registers of `r`, and what `r` has done. -/
def Epat.withDrive (r dev : Epat δ) : Epat δ :=
  { dev with sd := r.sd, noDrive := r.noDrive, regs := r.regs, log := dev.log ++ r.log }

/-- Of two drives' sides the later one stays, and the log has both. -/
theorem Epat.withDrive_withDrive (r q dev : Epat δ) :
    q.withDrive (r.withDrive dev) = (q.withDrive r).withDrive dev := by
  simp only [Epat.withDrive, List.append_assoc]

@[simp] theorem Epat.driveSide_withDrive (r dev : Epat δ) :
    (r.withDrive dev).driveSide = r.driveSide := rfl

/-- A bridge with its own drive and registers is the bridge. -/
theorem Epat.withDrive_self (dev : Epat δ) : dev.driveSide.withDrive dev = dev := by
  simp only [Epat.withDrive, Epat.driveSide, epatInit, List.append_nil]

/-- `f` reads and changes only the drive and the registers. -/
structure DriveOnly (f : Epat δ → Epat δ) : Prop where
  eq : ∀ dev : Epat δ, f dev = (f dev.driveSide).withDrive dev
  log : ∀ dev : Epat δ, ∀ e ∈ (f dev.driveSide).log, e.FromDrive

theorem DriveOnly.id : DriveOnly fun dev : Epat δ => dev where
  eq dev := dev.withDrive_self.symm
  log _ _ he := absurd he List.not_mem_nil

/-- One after the other. -/
theorem DriveOnly.comp {f g : Epat δ → Epat δ} (hg : DriveOnly g) (hf : DriveOnly f) :
    DriveOnly fun dev => g (f dev) where
  eq dev := by
    rw [hg.eq (f dev), hg.eq (f dev.driveSide), hf.eq dev, Epat.withDrive_withDrive,
      Epat.driveSide_withDrive]
  log dev e he := by
    rw [hg.eq (f dev.driveSide)] at he
    exact (List.mem_append.1 he).elim (hf.log dev e) (hg.log _ e)

/-- A function that looks at the drive's pointer. -/
theorem DriveOnly.ofSd {f : Epat δ → Epat δ} {g : ScsiCommon δ → Epat δ → Epat δ}
    (hf : DriveOnly f) (hg : ∀ sc, DriveOnly (g sc)) :
    DriveOnly fun dev => match dev.sd with
      | none => f dev
      | some sc => g sc dev where
  eq dev := by
    have hside : dev.driveSide.sd = dev.sd := rfl
    rw [hside]
    cases dev.sd with
    | none => exact hf.eq dev
    | some sc => exact (hg sc).eq dev
  log dev := by
    have hside : dev.driveSide.sd = dev.sd := rfl
    rw [hside]
    cases dev.sd with
    | none => exact hf.log dev
    | some sc => exact (hg sc).log dev

/-- Either of the two. -/
theorem DriveOnly.ite (c : Prop) [Decidable c] {f g : Epat δ → Epat δ} (hf : DriveOnly f)
    (hg : DriveOnly g) : DriveOnly fun dev => if c then f dev else g dev := by
  by_cases hc : c
  · simpa only [if_pos hc] using hf
  · simpa only [if_neg hc] using hg

/-- What is left of the drive is put back. -/
theorem DriveOnly.drove {r : Drove δ} (h : ∀ e ∈ r.2, e.IsCall) :
    DriveOnly fun dev => dev.drove r where
  eq _ := rfl
  log _ e he := (h e he).fromDrive

/-- So is the use of the drive's NULL pointer, which changes nothing. -/
theorem DriveOnly.null : DriveOnly fun dev : Epat δ => dev.say [.null] where
  eq _ := rfl
  log _ e he := by
    obtain rfl := List.mem_singleton.1 he
    trivial

/-- What a function leaves of the bridge. -/
theorem DriveOnly.exists_eq {f : Epat δ → Epat δ} (hf : DriveOnly f) (dev : Epat δ) :
    ∃ r : Epat δ, f dev = r.withDrive dev ∧ ∀ e ∈ r.log, e.FromDrive :=
  ⟨_, hf.eq dev, hf.log dev⟩

/-! ## The calls -/

section Drive

variable (D : LptDrive δ)

/-- `epat_atapi_callback` only calls the drive. -/
theorem epatAtapiCallback_calls (sc : ScsiCommon δ) :
    ∀ e ∈ (epatAtapiCallback D sc).2, e.IsCall := by
  unfold epatAtapiCallback
  split_ifs
  · intro e he
    obtain rfl := List.mem_singleton.1 he
    trivial
  · intro e he
    exact absurd he List.not_mem_nil

/-- So does the end of a transfer, whose callback may call it once more. -/
theorem epatPioEnd_calls (fn : DriveFn) (sc : ScsiCommon δ) :
    ∀ e ∈ (epatPioEnd D fn sc).2, e.IsCall := by
  unfold epatPioEnd
  dsimp only
  split_ifs
  · intro e he
    obtain rfl | he := List.mem_cons.1 he
    · trivial
    · exact epatAtapiCallback_calls D _ e he
  · intro e he
    obtain rfl := List.mem_singleton.1 he
    trivial

theorem epatPioStep_calls (out : Bool) (sc : ScsiCommon δ) :
    ∀ e ∈ (epatPioStep D out sc).2, e.IsCall := by
  unfold epatPioStep epatPioRequest
  dsimp only
  intro e he
  split_ifs at he
  · exact epatPioEnd_calls D _ _ e he
  · exact epatPioEnd_calls D _ _ e he
  · exact epatAtapiCallback_calls D _ e he
  · exact absurd he List.not_mem_nil

/-- A byte that is read calls the drive at the end of a block. -/
theorem scDataRead_calls (sc : ScsiCommon δ) : ∀ e ∈ (scDataRead D sc).2.2, e.IsCall := by
  unfold scDataRead
  intro e he
  cases hbuf : sc.tempBuffer with
  | none =>
    rw [hbuf] at he
    exact absurd he List.not_mem_nil
  | some buf =>
    rw [hbuf] at he
    dsimp only at he
    by_cases hin : sc.packetStatus ≠ .dataIn
    · rw [if_pos hin] at he
      exact absurd he List.not_mem_nil
    · rw [if_neg hin] at he
      exact epatPioStep_calls D _ _ e he

/-- And so does one that is written, of a command or of data. -/
theorem scDataWrite_calls (val : UInt8) (sc : ScsiCommon δ) :
    ∀ e ∈ (scDataWrite D val sc).2, e.IsCall := by
  unfold scDataWrite
  intro e he
  split at he
  · dsimp only at he
    split_ifs at he
    · exact epatAtapiCallback_calls D _ e he
    · exact absurd he List.not_mem_nil
  · split at he
    · exact absurd he List.not_mem_nil
    · exact epatPioStep_calls D _ _ e he
  · exact absurd he List.not_mem_nil

theorem tfWrite_calls (addr val : UInt8) (sc : ScsiCommon δ) :
    ∀ e ∈ (tfWrite D addr val sc).2, e.IsCall := by
  unfold tfWrite
  intro e he
  split at he
  · exact scDataWrite_calls D val sc e he
  all_goals exact absurd he List.not_mem_nil

/-! ## The functions behind the ports -/

/-- `epat_attach_drive` looks at the pointer and the note that there is no drive. -/
theorem epatAttachDrive_only : DriveOnly (epatAttachDrive D) where
  eq dev := by
    have hsd : dev.driveSide.sd = dev.sd := rfl
    have hno : dev.driveSide.noDrive = dev.noDrive := rfl
    unfold epatAttachDrive
    rw [hsd, hno]
    split_ifs
    · exact dev.withDrive_self.symm
    · exact dev.withDrive_self.symm
    · simp only [Epat.withDrive, Epat.driveSide, epatInit, List.append_nil]
  log dev e he := by
    unfold epatAttachDrive at he
    split_ifs at he <;> exact absurd he List.not_mem_nil

theorem epatDataRead_only : DriveOnly fun dev => (epatDataRead D dev).2 := by
  have h : DriveOnly fun dev : Epat δ => match dev.sd with
      | none => dev.say [.null]
      | some sc => dev.drove (scDataRead D sc).2 :=
    .ofSd .null fun sc => .drove (scDataRead_calls D sc)
  convert h using 2 with dev
  unfold epatDataRead
  cases dev.sd <;> rfl

/-- A data byte that is read is the drive's. -/
theorem epatDataRead_val (dev : Epat δ) :
    (epatDataRead D dev).1 = (epatDataRead D dev.driveSide).1 := by
  have hsd : dev.driveSide.sd = dev.sd := rfl
  unfold epatDataRead
  rw [hsd]
  cases dev.sd <;> rfl

theorem epatDataWrite_only (val : UInt8) : DriveOnly (epatDataWrite D val) :=
  .ofSd .null fun sc => .drove (scDataWrite_calls D val sc)

/-- Only the data register of the task file changes the drive when it is read. -/
theorem tfRead_only (addr : UInt8) (sc : ScsiCommon δ) :
    DriveOnly fun dev => (tfRead D addr sc dev).2 := by
  unfold tfRead
  split
  · exact epatDataRead_only D
  all_goals exact .id

theorem tfRead_val (addr : UInt8) (sc : ScsiCommon δ) (dev : Epat δ) :
    (tfRead D addr sc dev).1 = (tfRead D addr sc dev.driveSide).1 := by
  unfold tfRead
  split
  · exact epatDataRead_val D dev
  all_goals rfl

/-- `epat_reg_read` with the drive looked up. -/
theorem epatRegRead_only (addr : UInt8) : DriveOnly fun dev => (epatRegRead D addr dev).2 := by
  have h : DriveOnly fun dev : Epat δ => match dev.sd with
      | none => dev
      | some sc =>
        if addr = 0x07 then (epatDataRead D dev).2
        else if addr < epatRegTaskfile ∨ epatRegTaskfile + 7 < addr then dev
        else (tfRead D addr sc dev).2 :=
    .ofSd .id fun sc => .ite _ (epatDataRead_only D) (.ite _ .id (tfRead_only D addr sc))
  convert h.comp (epatAttachDrive_only D) using 2 with dev
  unfold epatRegRead
  dsimp only
  cases (epatAttachDrive D dev).sd with
  | none => rfl
  | some sc =>
    dsimp only
    split_ifs <;> rfl

/-- A register that is read is the drive's or the register file's. -/
theorem epatRegRead_val (addr : UInt8) (dev : Epat δ) :
    (epatRegRead D addr dev).1 = (epatRegRead D addr dev.driveSide).1 := by
  have hattach := (epatAttachDrive_only D).eq dev
  unfold epatRegRead
  dsimp only
  rw [hattach]
  generalize epatAttachDrive D dev.driveSide = r
  have hsd : (r.withDrive dev).sd = r.sd := rfl
  rw [hsd]
  cases r.sd with
  | none => rfl
  | some sc =>
    dsimp only
    split_ifs
    · rw [epatDataRead_val, Epat.driveSide_withDrive, ← epatDataRead_val]
    · rfl
    · rw [tfRead_val, Epat.driveSide_withDrive, ← tfRead_val]

/-- A register write changes the register file and the drive's task file. -/
theorem epatRegWrite_only (addr val : UInt8) : DriveOnly (epatRegWrite D addr val) := by
  have hreg : DriveOnly fun dev : Epat δ =>
      { dev with regs := Function.update dev.regs addr val }.say [.reg addr val] :=
    { eq := fun _ => rfl
      log := fun _ e he => by
        obtain rfl := List.mem_singleton.1 he
        trivial }
  have h : DriveOnly fun dev : Epat δ => match dev.sd with
      | none => dev
      | some sc =>
        if addr < epatRegTaskfile ∨ epatRegTaskfile + 7 < addr then dev
        else dev.drove (tfWrite D addr val sc) :=
    .ofSd .id fun sc => .ite _ .id (.drove (tfWrite_calls D addr val sc))
  exact h.comp ((epatAttachDrive_only D).comp hreg)

theorem epatDeviceReset_only : DriveOnly (epatDeviceReset D) := by
  have hregs (regs : UInt8 → UInt8) : DriveOnly fun dev : Epat δ => { dev with regs := regs } :=
    { eq := fun dev => by simp only [Epat.withDrive, Epat.driveSide, epatInit, List.append_nil]
      log := fun _ _ he => absurd he List.not_mem_nil }
  have h : DriveOnly fun dev : Epat δ => match dev.sd with
      | none => dev
      | some sc => dev.drove ({ D.call .reset sc with unitAttention := 1 },
          [.called .reset (D.call .reset sc)]) :=
    .ofSd .id fun sc => .drove fun e he => by
      obtain rfl := List.mem_singleton.1 he
      trivial
  exact h.comp ((epatAttachDrive_only D).comp (hregs _))

/-- A register value, and the reset that register 16h releases. -/
def epatRegApply (addr val : UInt8) (dev : Epat δ) : Epat δ :=
  if addr = 0x16 ∧ val &&& 0x04 = 0 then epatDeviceReset D (epatRegWrite D addr val dev)
  else epatRegWrite D addr val dev

/-- A tagged register below 20h is written, and the tag is gone. -/
theorem epatRegValue_eq (val : UInt8) {dev : Epat δ} (haddr : dev.regAddr < 0x20) :
    epatRegValue D val dev = epatRegApply D dev.regAddr val { dev with regWrite := false } :=
  if_pos haddr

theorem epatRegApply_only (addr val : UInt8) : DriveOnly (epatRegApply D addr val) :=
  .ite _ ((epatDeviceReset_only D).comp (epatRegWrite_only D addr val))
    (epatRegWrite_only D addr val)

end Drive

end Inboard
