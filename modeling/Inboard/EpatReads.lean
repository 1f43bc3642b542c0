import Inboard.EpatRegister
import Inboard.Machine

/-!
# Nibble reads of the EPAT bridge

A byte comes to the host in the top halves of two status reads, which it joins as `j44`. From a
bridge that is ready, the register read gives the register's value and the block read the drive's
bytes one after the other, each fetched once (`epat_nibble_reads`).
-/

set_option linter.unusedSectionVars false

namespace Inboard

variable {δ : Type*}

/-! ## What the host joins -/

/-- The host's byte of two status reads. -/
def j44 (a b : UInt8) : UInt8 := ((a >>> 4) &&& 0x0F) ||| (b &&& 0xF0)

/-- The bytes of status reads taken in pairs. -/
def j44s : List UInt8 → List UInt8
  | a :: b :: rs => j44 a b :: j44s rs
  | _ => []

/-- The first read of each pair. -/
def firsts : List UInt8 → List UInt8
  | a :: _ :: rs => a :: firsts rs
  | _ => []

/-- A register's two nibbles. -/
theorem j44s_regNibbles (val : UInt8) : j44s (regNibbles val) = [val] :=
  forall_byte (P := fun val => j44s (regNibbles val) = [val]) (by decide +kernel) val

/-- A block byte's two nibbles. -/
theorem j44s_blockNibbles (val : UInt8) (rs : List UInt8) :
    j44s (blockNibbles val ++ rs) = val :: j44s rs := by
  have h : j44 ((val &&& 0x0F) <<< 4) (val &&& 0xF0) = val :=
    forall_byte (P := fun val => j44 ((val &&& 0x0F) <<< 4) (val &&& 0xF0) = val)
      (by decide +kernel) val
  rw [blockNibbles, List.cons_append, List.cons_append, List.nil_append, j44s, h]

theorem firsts_blockNibbles (val : UInt8) (rs : List UInt8) :
    firsts (blockNibbles val ++ rs) = (val &&& 0x0F) <<< 4 :: firsts rs := rfl

theorem blockNibbles_bit3 (val : UInt8) : ((val &&& 0x0F) <<< 4) &&& 0x08 = 0 :=
  forall_byte (P := fun val => ((val &&& 0x0F) <<< 4) &&& 0x08 = 0) (by decide +kernel) val

section Drive

variable (past : ℕ → UInt8) (D : LptDrive δ)

/-- The next `n` bytes that the drive has to give, and the drive after them. -/
def driveBytes : ℕ → ScsiCommon δ → List UInt8 × ScsiCommon δ
  | 0, sc => ([], sc)
  | n + 1, sc =>
    ((scDataRead D sc).1 :: (driveBytes n (scDataRead D sc).2.1).1,
      (driveBytes n (scDataRead D sc).2.1).2)

/-- Inside a phase the drive's bytes are its buffer's, from its position on. -/
theorem driveBytes_dataIn {buf : ℕ → UInt8} : ∀ (n : ℕ) (sc : ScsiCommon δ),
    sc.tempBuffer = some buf → sc.packetStatus = .dataIn → sc.tf.pos + n < sc.packetLen →
    sc.requestPos + n < sc.maxTransferLen →
    driveBytes D n sc = ((List.range n).map fun i => buf (sc.tf.pos + i),
      { sc with tf.pos := sc.tf.pos + n, requestPos := sc.requestPos + n })
  | 0, _, _, _, _, _ => rfl
  | n + 1, sc, hbuf, hphase, hlen, hreq => by
    have hread : scDataRead D sc = (buf sc.tf.pos,
        { sc with tf.pos := sc.tf.pos + 1, requestPos := sc.requestPos + 1 }, []) := by
      have hstep : ¬ (sc.maxTransferLen ≤ sc.requestPos + 1 ∨ sc.packetLen ≤ sc.tf.pos + 1) := by
        omega
      unfold scDataRead epatPioStep
      rw [hbuf]
      dsimp only
      rw [if_neg (not_not.2 hphase), if_pos (by omega : sc.tf.pos < sc.packetLen), if_neg hstep]
    have ih := driveBytes_dataIn n
      { sc with tf.pos := sc.tf.pos + 1, requestPos := sc.requestPos + 1 } hbuf hphase
      (by dsimp only; omega) (by dsimp only; omega)
    rw [driveBytes, hread, ih, List.range_succ_eq_map, List.map_cons, List.map_map]
    dsimp only
    simp only [Nat.add_zero, Function.comp_def, Nat.succ_eq_add_one, Nat.add_assoc, Nat.add_comm 1]

/-! ## Register reads -/

/-- A register read gives the register's value, fetched once. -/
theorem register_read {addr : UInt8} {dev : Epat δ} (hready : dev.Ready)
    (harm : dev.blockArm ≠ .read) (haddr : addr < 0x20) (hne : addr ≠ 0x07) :
    j44s (epatReads past D dev (regReadAccesses addr)) = [(epatRegRead D addr dev).1] ∧
      (Steps.after (epatAccess past D) dev (regReadAccesses addr)).driveSide =
        (epatRegRead D addr dev).2.driveSide := by
  have hout := registerMode_read past D hready harm haddr
  rw [if_neg hne, epatOutcome, Prod.mk.injEq, Prod.mk.injEq] at hout
  obtain ⟨hreads, -, hside⟩ := hout
  have honly := (epatRegRead_only D addr).eq dev
  refine ⟨?_, hside.trans ?_⟩
  · rw [hreads, j44s_regNibbles, ← epatRegRead_val D addr dev]
  · rw [honly]
    rfl

/-! ## Block reads -/

/-- The accesses of a block read of `n` bytes. -/
def blockReadAccesses (n : ℕ) : List EpatAccess :=
  [.data 0x07, .ctrl 0x01, .ctrl 0x03] ++
    ((List.replicate n [EpatAccess.readStatus, .readStatus]).flatten ++ [.data 0x00])

/-- In the middle of a block read, between two bytes. -/
structure Epat.Streaming (dev : Epat δ) (sc : ScsiCommon δ) : Prop extends dev.Listening where
  block : dev.block = .read
  half : dev.blockHalf = false
  sd : dev.sd = some sc

/-- A byte of a block : two status reads, one fetch. -/
theorem after_blockByte {dev : Epat δ} {sc : ScsiCommon δ} (h : dev.Streaming sc) :
    epatReads past D dev [.readStatus, .readStatus] = blockNibbles (scDataRead D sc).1 ∧
      (Steps.after (epatAccess past D) dev [.readStatus, .readStatus]).Streaming
        (scDataRead D sc).2.1 := by
  have hfetch : epatDataRead D dev = ((scDataRead D sc).1, dev.drove (scDataRead D sc).2) := by
    unfold epatDataRead
    rw [h.sd]
  have hlow := epatReadStatus_half D h.toListening h.block
  rw [if_neg (by rw [h.half]; exact Bool.false_ne_true), hfetch] at hlow
  have hlisten : Epat.Listening { dev.drove (scDataRead D sc).2 with
      blockLatch := (scDataRead D sc).1
      blockHalf := true } := h.toListening.congr rfl rfl rfl rfl
  have hhigh := epatReadStatus_half D hlisten h.block
  rw [if_pos rfl] at hhigh
  have hafter : Steps.after (epatAccess past D) dev [.readStatus, .readStatus] =
      (epatReadStatus D (epatReadStatus D dev).2).2 := rfl
  have hreads : epatReads past D dev [.readStatus, .readStatus] =
      [(epatReadStatus D dev).1, (epatReadStatus D (epatReadStatus D dev).2).1] := rfl
  rw [hafter, hreads, hlow, hhigh]
  exact ⟨rfl, h.toListening.congr rfl rfl rfl rfl, h.block, rfl, rfl⟩

/-- The bytes of a block, one after the other. -/
theorem after_blockBytes : ∀ (n : ℕ) {dev : Epat δ} {sc : ScsiCommon δ}, dev.Streaming sc →
    let as := (List.replicate n [EpatAccess.readStatus, .readStatus]).flatten
    j44s (epatReads past D dev as) = (driveBytes D n sc).1 ∧
      (∀ a ∈ firsts (epatReads past D dev as), a &&& 0x08 = 0) ∧
      (Steps.after (epatAccess past D) dev as).Streaming (driveBytes D n sc).2
  | 0, _, _, h => ⟨rfl, nofun, h⟩
  | n + 1, dev, sc, h => by
    obtain ⟨hreads, hstream⟩ := after_blockByte past D h
    obtain ⟨hjoin, hclear, hrest⟩ := after_blockBytes n hstream
    have hsplit : (List.replicate (n + 1) [EpatAccess.readStatus, .readStatus]).flatten =
        [.readStatus, .readStatus] ++ (List.replicate n
            [EpatAccess.readStatus, .readStatus]).flatten :=
      rfl
    dsimp only
    rw [hsplit, epatReads_append, Steps.after_append, hreads, j44s_blockNibbles,
      firsts_blockNibbles, hjoin]
    refine ⟨rfl, fun a ha => ?_, hrest⟩
    rcases List.mem_cons.1 ha with rfl | ha
    exacts [blockNibbles_bit3 _, hclear a ha]

/-- Register 7 and its strobes open a block read of an attached drive. -/
theorem after_openRead {dev : Epat δ} {sc : ScsiCommon δ} (hready : dev.Ready)
    (hsd : dev.sd = some sc) :
    (Steps.after (epatAccess past D) dev [.data 0x07, .ctrl 0x01, .ctrl 0x03]).Streaming sc := by
  have h22 : (0x07 : UInt8) ≠ 0x22 := by decide
  obtain ⟨udup, es, -, hsel⟩ := after_select past D hready h22
  rw [epatRegSelect_bare (by decide), if_pos rfl] at hsel
  have hlisten : (Epat.strobed { dev.heard 0x07 udup es with blockArm := .read }).Listening :=
    ⟨hready.connected, rfl, rfl, hready.ucmd⟩
  have hthree : Steps.after (epatAccess past D) dev [.data 0x07, .ctrl 0x01, .ctrl 0x03] =
      epatWriteCtrl 0x03 (Steps.after (epatAccess past D) dev [.data 0x07, .ctrl 0x01]) := rfl
  rw [hthree, hsel, epatWriteCtrl_openRead hlisten rfl]
  exact ⟨hlisten.congr rfl rfl rfl rfl, rfl, rfl, hsd⟩

/-- A zero ends a block read. -/
theorem after_closeRead {dev : Epat δ} {sc : ScsiCommon δ} (h : dev.Streaming sc) :
    (epatWriteData D past 0x00 dev).sd = some sc ∧ (epatWriteData D past 0x00 dev).Listening ∧
      (epatWriteData D past 0x00 dev).block = .none := by
  have h22 : (0x00 : UInt8) ≠ 0x22 := by decide
  obtain ⟨udup, es, -, heq⟩ := epatWriteData_plain past D h22 h.toListening
  have hbyte : epatWriteByte D 0x00 (dev.heard 0x00 udup es) =
      { dev.heard 0x00 udup es with block := .none } := by
    unfold epatWriteByte Epat.heard
    simp only [h.block]
    rfl
  rw [heq, hbyte]
  exact ⟨h.sd, h.toListening.congr rfl rfl rfl rfl, rfl⟩

/-- Nibble reads are exact. From a bridge that is ready, a register read gives the register's value
and a block read the drive's bytes, each fetched once ; the first read of each pair of a block has
bit 3 clear. -/
theorem epat_nibble_reads (dev : Epat δ) (hready : dev.Ready) :
    (dev.blockArm ≠ .read → ∀ addr < 0x20, addr ≠ 0x07 →
      j44s (epatReads past D dev (regReadAccesses addr)) = [(epatRegRead D addr dev).1] ∧
      (Steps.after (epatAccess past D) dev (regReadAccesses addr)).driveSide =
        (epatRegRead D addr dev).2.driveSide) ∧
    ∀ sc n, dev.sd = some sc →
      j44s (epatReads past D dev (blockReadAccesses n)) = (driveBytes D n sc).1 ∧
      (Steps.after (epatAccess past D) dev (blockReadAccesses n)).sd = some (driveBytes D n sc).2 ∧
      (∀ a ∈ firsts (epatReads past D dev (blockReadAccesses n)), a &&& 0x08 = 0) ∧
      (Steps.after (epatAccess past D) dev (blockReadAccesses n)).block = .none ∧
      ∀ buf, sc.tempBuffer = some buf → sc.packetStatus = .dataIn →
        sc.tf.pos + n < sc.packetLen → sc.requestPos + n < sc.maxTransferLen →
        driveBytes D n sc = ((List.range n).map fun i => buf (sc.tf.pos + i),
          { sc with tf.pos := sc.tf.pos + n, requestPos := sc.requestPos + n }) := by
  refine ⟨fun harm addr haddr hne => register_read past D hready harm haddr hne,
    fun sc n hsd => ?_⟩
  have hopen := after_openRead past D hready hsd
  have hquiet : epatReads past D dev [.data 0x07, .ctrl 0x01, .ctrl 0x03] = [] := rfl
  obtain ⟨hjoin, hclear, hstream⟩ := after_blockBytes past D n hopen
  obtain ⟨hend, -, hblock⟩ := after_closeRead past D hstream
  have hreads : epatReads past D dev (blockReadAccesses n) =
      epatReads past D (Steps.after (epatAccess past D) dev [.data 0x07, .ctrl 0x01, .ctrl 0x03])
        (List.replicate n [EpatAccess.readStatus, .readStatus]).flatten := by
    unfold blockReadAccesses
    rw [epatReads_append, hquiet, List.nil_append, epatReads_append]
    exact List.append_nil _
  have hafter : Steps.after (epatAccess past D) dev (blockReadAccesses n) =
      epatWriteData D past 0x00 (Steps.after (epatAccess past D)
        (Steps.after (epatAccess past D) dev [.data 0x07, .ctrl 0x01, .ctrl 0x03])
        (List.replicate n [EpatAccess.readStatus, .readStatus]).flatten) := by
    unfold blockReadAccesses
    rw [Steps.after_append, Steps.after_append]
    rfl
  rw [hreads, hafter]
  exact ⟨hjoin, hend, hclear, hblock, fun buf hbuf hphase => driveBytes_dataIn D n sc hbuf hphase⟩

end Drive

/-- After the connect frame register 1Eh reads as the drive holds it. -/
theorem epat_nibble_reads_drvsel :
    let dev := Steps.after (epatAccess (fun _ => 0) idleDrive) epatInit connectFrame
    j44s (epatReads (fun _ => 0) idleDrive dev (regReadAccesses 0x1E)) =
        [(epatRegRead idleDrive 0x1E dev).1] ∧
      (Steps.after (epatAccess (fun _ => 0) idleDrive) dev (regReadAccesses 0x1E)).driveSide =
        (epatRegRead idleDrive 0x1E dev).2.driveSide :=
  (epat_nibble_reads (fun _ => 0) idleDrive _ connectFrame_ready).1 (by decide +kernel) 0x1E
    (by decide) (by decide)

/-- In an open write block a register's number is data, and the read gives another register. -/
theorem not_epat_nibble_reads : ¬∀ (past : ℕ → UInt8) (D : LptDrive Unit) (as : List EpatAccess),
    (Steps.after (epatAccess past D) epatInit as).Listening → ∀ addr < 0x20, addr ≠ 0x07 →
      j44s (epatReads past D (Steps.after (epatAccess past D) epatInit as)
        (regReadAccesses addr)) =
        [(epatRegRead D addr (Steps.after (epatAccess past D) epatInit as)).1] := by
  intro h
  have hread := h (fun _ => 0) idleDrive
    (connectFrame ++ [.data 0x7F, .ctrl 0x01, .data 0x00, .ctrl 0x04, .data 0x67, .ctrl 0x01,
      .ctrl 0x05])
    ⟨by decide +kernel, by decide +kernel, by decide +kernel, by decide +kernel⟩ 0x1F
    (by decide) (by decide)
  exact absurd hread (by decide +kernel)

end Inboard
