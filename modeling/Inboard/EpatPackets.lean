import Inboard.Epat
import Mathlib.Logic.Function.Iterate

/-!
# The packet phases of the EPAT bridge

A PACKET command from the command register on : 12 bytes of `atapi_cdb`, the drive's command,
and the data phases, in each of which the host moves as many bytes as `request_length` says.
The phases take the bytes of `temp_buffer` once each and in order, and end the command once
(`epat_packet_accounting`).
-/

set_option linter.unusedSectionVars false

namespace Inboard

variable {δ : Type*}

/-! ## The host's side -/

/-- The index into `temp_buffer` that an access of the data register uses. -/
def ScsiCommon.bufIndex (out : Bool) (sc : ScsiCommon δ) : Option ℕ :=
  if sc.tempBuffer.isNone then none
  else if out then if sc.packetStatus = .dataOut then some sc.tf.pos else none
  else if sc.packetStatus = .dataIn ∧ sc.tf.pos < sc.packetLen then some sc.tf.pos else none

/-- The index into `atapi_cdb` that a write of the data register uses. -/
def ScsiCommon.cdbIndex (sc : ScsiCommon δ) : Option ℕ :=
  if sc.packetStatus = .idle then some sc.tf.pos else none

/-- The bridge, the bytes moved so far and the places used of `temp_buffer` and of `atapi_cdb`. -/
structure Transfer (δ : Type*) where
  dev : Epat δ
  bytes : List UInt8
  used : List ℕ
  cdbUsed : List ℕ

section Host

variable (D : LptDrive δ) (out : Bool) (vals : ℕ → UInt8)

/-- The indices that an access of the data register uses. -/
def Transfer.mark (out : Bool) (t : Transfer δ) : Transfer δ :=
  match t.dev.sd with
  | none => t
  | some sc =>
    { t with
      used := t.used ++ (sc.bufIndex out).toList
      cdbUsed := t.cdbUsed ++ if out then sc.cdbIndex.toList else [] }

/-- A byte moved through the data register ; the host's bytes are `vals`. -/
def Transfer.move (t : Transfer δ) : Transfer δ :=
  if out then
    { t.mark true with
      dev := epatDataWrite D (vals t.bytes.length) t.dev
      bytes := t.bytes ++ [vals t.bytes.length] }
  else
    { t.mark false with
      dev := (epatDataRead D t.dev).2
      bytes := t.bytes ++ [(epatDataRead D t.dev).1] }

/-- `request_length`, as the host reads it. -/
def Transfer.requestLength (t : Transfer δ) : ℕ :=
  match t.dev.sd with
  | none => 0
  | some sc => sc.tf.requestLength.toNat

/-- A DRQ phase : as many bytes as `request_length` says. -/
def Transfer.phase (t : Transfer δ) : Transfer δ := (Transfer.move D out vals)^[t.requestLength] t

/-- PACKET, written to the command register of an attached drive. -/
def packetCommand (sc : ScsiCommon δ) (dev : Epat δ) : Epat δ :=
  { dev with sd := some (epatCommand 0xA0 sc) }

/-- PACKET and the 12 bytes of its CDB. -/
def Transfer.packet (cdb : ℕ → UInt8) (sc : ScsiCommon δ) (dev : Epat δ) : Transfer δ :=
  { (Transfer.move D true cdb)^[12] ⟨packetCommand sc dev, [], [], []⟩ with bytes := [] }

end Host

/-! ## A command that is ready for its data -/

/-- What a drive's command leaves when it enters a data phase. -/
structure EntersData (out : Bool) (n m : ℕ) (buf : ℕ → UInt8) (sc : ScsiCommon δ) : Prop where
  status : sc.packetStatus = if out then .dataOut else .dataIn
  pos : sc.tf.pos = 0
  requestPos : sc.requestPos = 0
  packetLen : sc.packetLen = n
  maxTransferLen : sc.maxTransferLen = m
  requestLength : sc.tf.requestLength.toNat = m
  buffer : sc.tempBuffer = some buf

/-- The bytes of the phase that starts at byte `b`, as `request_length` has them. -/
def phaseLen (n m b : ℕ) : ℕ := if b = 0 then m else min m (n - b)

/-- `temp_buffer` once the host has moved `i` bytes. -/
def movedBuf (out : Bool) (vals buf : ℕ → UInt8) (i : ℕ) : ℕ → UInt8 :=
  fun x => if out = true ∧ x < i then vals x else buf x

/-- Byte `i` of the transfer. -/
def dataByte (out : Bool) (vals buf : ℕ → UInt8) (i : ℕ) : UInt8 := if out then vals i else buf i

/-- Byte `i` is next, in the phase that started at byte `b`. -/
structure Transfer.At (out : Bool) (vals buf : ℕ → UInt8) (n m : ℕ) (log : List (EpatEvent δ))
    (b i : ℕ) (t : Transfer δ) (sc : ScsiCommon δ) : Prop where
  sd : t.dev.sd = some sc
  log : t.dev.log = log
  status : sc.packetStatus = if out then .dataOut else .dataIn
  pos : sc.tf.pos = i
  requestPos : sc.requestPos = i - b
  packetLen : sc.packetLen = n
  maxTransferLen : sc.maxTransferLen = phaseLen n m b
  requestLength : sc.tf.requestLength.toNat = phaseLen n m b
  buffer : sc.tempBuffer = some (movedBuf out vals buf i)
  drq : sc.tf.atastat &&& drqStat = drqStat
  used : t.used = List.range i
  cdbUsed : t.cdbUsed = List.range 12
  bytes : t.bytes = (List.range i).map (dataByte out vals buf)

/-- The function of the drive that ends the command. -/
def endFn (out : Bool) : DriveFn := if out then .phaseDataOut else .commandStop

/-- The command was ended, once, with all of its bytes moved. -/
structure Transfer.Ended (D : LptDrive δ) (out : Bool) (vals buf : ℕ → UInt8) (n : ℕ)
    (log : List (EpatEvent δ)) (t : Transfer δ) (sc : ScsiCommon δ) : Prop where
  sd : t.dev.sd = some (epatPioEnd D (endFn out) sc).1
  log : t.dev.log = log ++ [.called (endFn out) (D.call (endFn out)
    { sc with tf.pos := 0, requestPos := 0 })]
  buffer : sc.tempBuffer = some (movedBuf out vals buf n)
  used : t.used = List.range n
  cdbUsed : t.cdbUsed = List.range 12
  bytes : t.bytes = (List.range n).map (dataByte out vals buf)

/-! ## One byte -/

/-- The end of the command calls the drive once. -/
theorem epatPioEnd_events (D : LptDrive δ) (fn : DriveFn) (sc : ScsiCommon δ) :
    (epatPioEnd D fn sc).2 = [.called fn (D.call fn { sc with tf.pos := 0, requestPos := 0 })] := by
  unfold epatPioEnd
  dsimp only
  split_ifs with hcomplete
  · have hquiet : ∀ sc : ScsiCommon δ, sc.packetStatus = .complete →
        (epatAtapiCallback D sc).2 = [] := by
      intro sc hsc
      rw [epatAtapiCallback, if_neg (by simp [hsc])]
    rw [hquiet _ hcomplete]
  · rfl

section Move

variable {D : LptDrive δ} {out : Bool} {vals buf : ℕ → UInt8} {n m b i : ℕ}
  {log : List (EpatEvent δ)} {t : Transfer δ} {sc : ScsiCommon δ}

theorem movedBuf_succ (out : Bool) (vals buf : ℕ → UInt8) (i : ℕ) :
    (if out then Function.update (movedBuf out vals buf i) i
        (vals i) else movedBuf out vals buf i) =
      movedBuf out vals buf (i + 1) := by
  ext x
  cases out with
  | false => simp [movedBuf]
  | true =>
    by_cases hx : x = i
    · simp [movedBuf, hx]
    · have hlt : x < i + 1 ↔ x < i := by omega
      simp [movedBuf, Function.update_of_ne hx, hlt]

/-- The drive with byte `i` moved, before the end of a block is looked for. -/
def ScsiCommon.moved (out : Bool) (vals buf : ℕ → UInt8) (i : ℕ) (sc : ScsiCommon δ) :
    ScsiCommon δ :=
  { sc with
    tempBuffer := some (movedBuf out vals buf (i + 1))
    tf.pos := sc.tf.pos + 1
    requestPos := sc.requestPos + 1 }

theorem Transfer.At.move_eq (h : t.At out vals buf n m log b i sc) (hi : i < n) :
    t.move D out vals = { t with
      dev := t.dev.drove (epatPioStep D out (sc.moved out vals buf i))
      bytes := t.bytes ++ [dataByte out vals buf i]
      used := t.used ++ [i] } := by
  have hlen : t.bytes.length = i := by rw [h.bytes]; simp
  have hstatus := h.status
  have hstep := movedBuf_succ out vals buf i
  obtain ⟨tf, tempBuffer, atapiCdb, maxTransferLen, packetStatus, requestPos, packetLen, ua,
      priv⟩ := sc
  obtain rfl : tempBuffer = _ := h.buffer
  obtain rfl : packetLen = n := h.packetLen
  have hpos : tf.pos = i := h.pos
  cases out with
  | true =>
    obtain rfl : packetStatus = .dataOut := hstatus
    rw [if_pos rfl] at hstep
    simp [Transfer.move, Transfer.mark, h.sd, ScsiCommon.bufIndex, ScsiCommon.cdbIndex, hpos,
      epatDataWrite, scDataWrite, hlen, hstep, ScsiCommon.moved, dataByte]
  | false =>
    obtain rfl : packetStatus = .dataIn := hstatus
    rw [if_neg Bool.false_ne_true] at hstep
    have hbyte : movedBuf false vals buf (i + 1) i = buf i := by simp [movedBuf]
    simp [Transfer.move, Transfer.mark, h.sd, ScsiCommon.bufIndex, hpos, hi, hbyte,
      epatDataRead, scDataRead, hstep, ScsiCommon.moved, dataByte]

theorem Transfer.At.phase_pos (h : t.At out vals buf n m log b i sc) :
    phaseLen n m b < 65536 := by
  rw [← h.requestLength]
  exact sc.tf.requestLength.toNat_lt

/-- Within a phase. -/
theorem Transfer.At.step (h : t.At out vals buf n m log b i sc) (hb : b ≤ i) (hi : i + 1 < n)
    (hin : i + 1 - b < phaseLen n m b) :
    (t.move D out vals).At out vals buf n m log b (i + 1) (sc.moved out vals buf i) := by
  have hstay : epatPioStep D out (sc.moved out vals buf i) = (sc.moved out vals buf i, []) := by
    refine if_neg ?_
    simp only [ScsiCommon.moved, h.requestPos, h.maxTransferLen, h.pos, h.packetLen]
    omega
  rw [h.move_eq (by omega), hstay]
  refine ⟨rfl, ?_, h.status, ?_, ?_, h.packetLen, h.maxTransferLen, h.requestLength, rfl, h.drq, ?_,
    ?_, ?_⟩
  · simp [Epat.drove, Epat.say, h.log]
  · simp [ScsiCommon.moved, h.pos]
  · simp only [ScsiCommon.moved, h.requestPos]
    omega
  · rw [h.used, List.range_succ]
  · exact h.cdbUsed
  · rw [h.bytes, List.range_succ, List.map_append]
    rfl

/-- The next phase has what is left, or as much as the first. -/
theorem phaseLen_next (hb : b ≤ i) (hi : i + 1 < n) (hend : i + 1 - b = phaseLen n m b) :
    phaseLen n m (i + 1) =
      if n - (i + 1) < phaseLen n m b then n - (i + 1) else phaseLen n m b := by
  have hlen := hend
  unfold phaseLen at hlen ⊢
  rw [if_neg (Nat.succ_ne_zero i)]
  split_ifs at hlen ⊢ <;> omega

/-- The drive at the start of the next phase. -/
def ScsiCommon.nextPhase (out : Bool) (len : ℕ) (req : UInt16) (sc : ScsiCommon δ) :
    ScsiCommon δ :=
  { sc with
    tf.atastat := readyStat ||| drqStat ||| (busyStat &&& errStat)
    tf.phase := if out then 0 else 2
    tf.requestLength := req
    maxTransferLen := len
    packetStatus := if out then .dataOut else .dataIn
    requestPos := 0 }

/-- The last byte of a phase that is not the last. -/
theorem Transfer.At.next (h : t.At out vals buf n m log b i sc) (hb : b ≤ i) (hi : i + 1 < n)
    (hend : i + 1 - b = phaseLen n m b) :
    ∃ sc', (t.move D out vals).At out vals buf n m log (i + 1) (i + 1) sc' := by
  have hlen := phaseLen_next hb hi hend
  have hcap := h.phase_pos
  have hpio : epatPioStep D out (sc.moved out vals buf i) =
      ((sc.moved out vals buf i).nextPhase out (phaseLen n m (i + 1))
        (if n - (i + 1) < phaseLen n m b then UInt16.ofNat (n - (i + 1))
          else sc.tf.requestLength), []) := by
    have hreq : (sc.moved out vals buf i).maxTransferLen ≤
        (sc.moved out vals buf i).requestPos := by
      simp only [ScsiCommon.moved, h.requestPos, h.maxTransferLen]
      omega
    rw [epatPioStep, if_pos (.inl hreq), epatPioRequest]
    dsimp only
    have hmore : ¬ (sc.moved out vals buf i).packetLen ≤ (sc.moved out vals buf i).tf.pos := by
      simp only [ScsiCommon.moved, h.packetLen, h.pos]
      omega
    rw [if_neg hmore, epatPioNext]
    simp only [ScsiCommon.moved, ScsiCommon.nextPhase, h.packetLen, h.pos, h.maxTransferLen, hlen]
    cases out <;> split_ifs <;> simp [epatAtapiCallback, epatAtapiPhase]
  refine ⟨(sc.moved out vals buf i).nextPhase out (phaseLen n m (i + 1))
    (if n - (i + 1) < phaseLen n m b then UInt16.ofNat (n - (i + 1)) else sc.tf.requestLength), ?_⟩
  rw [h.move_eq (by omega), hpio]
  have hdrq : (readyStat ||| drqStat ||| (busyStat &&& errStat)) &&& drqStat = drqStat := by decide
  refine ⟨rfl, ?_, rfl, ?_, (Nat.sub_self _).symm, h.packetLen, rfl, ?_, rfl, hdrq, ?_, ?_, ?_⟩
  · simp [Epat.drove, Epat.say, h.log]
  · simp [ScsiCommon.nextPhase, ScsiCommon.moved, h.pos]
  · rw [hlen]
    simp only [ScsiCommon.nextPhase]
    split_ifs with hshort
    · rw [UInt16.toNat_ofNat', Nat.mod_eq_of_lt (by omega)]
    · exact h.requestLength
  · rw [h.used, List.range_succ]
  · exact h.cdbUsed
  · rw [h.bytes, List.range_succ, List.map_append]
    rfl

/-- The last byte. -/
theorem Transfer.At.last (h : t.At out vals buf n m log b i sc) (hi : i + 1 = n) :
    (t.move D out vals).Ended D out vals buf n log
      { sc.moved out vals buf i with tf.atastat := busyStat } := by
  have hdone : (sc.moved out vals buf i).packetLen ≤ (sc.moved out vals buf i).tf.pos := by
    simp only [ScsiCommon.moved, h.packetLen, h.pos]
    omega
  have hpio : epatPioStep D out (sc.moved out vals buf i) =
      epatPioEnd D (endFn out) { sc.moved out vals buf i with tf.atastat := busyStat } := by
    rw [epatPioStep, if_pos (.inr hdone), epatPioRequest]
    dsimp only
    rw [if_pos hdone, endFn]
  rw [h.move_eq (by omega), hpio]
  refine ⟨rfl, ?_, ?_, ?_, h.cdbUsed, ?_⟩
  · simp only [Epat.drove, Epat.say, h.log]
    rw [epatPioEnd_events]
  · rw [← hi]
    rfl
  · rw [h.used, ← hi, List.range_succ]
  · rw [h.bytes, ← hi, List.range_succ, List.map_append]
    rfl

/-! ## Phases -/

theorem Transfer.At.run (h : t.At out vals buf n m log b b sc) : ∀ k, k < phaseLen n m b →
    b + k < n → ∃ sc', ((Transfer.move D out vals)^[k] t).At out vals buf n m log b (b + k) sc'
  | 0, _, _ => ⟨sc, h⟩
  | k + 1, hk, hn => by
    obtain ⟨sc', h'⟩ := h.run k (Nat.lt_of_succ_lt hk) (by omega)
    rw [Function.iterate_succ_apply']
    exact ⟨_, h'.step (Nat.le_add_right b k) (by omega) (by omega)⟩

theorem Transfer.At.requestLength_eq (h : t.At out vals buf n m log b i sc) :
    t.requestLength = phaseLen n m b := by
  rw [Transfer.requestLength, h.sd]
  exact h.requestLength

/-- A phase that is not the last. -/
theorem Transfer.At.phase (h : t.At out vals buf n m log b b sc) (hpos : 0 < phaseLen n m b)
    (hmore : b + phaseLen n m b < n) : ∃ sc',
      (t.phase D out vals).At out vals buf n m log (b + phaseLen n m b)
          (b + phaseLen n m b) sc' := by
  obtain ⟨k, hk⟩ := Nat.exists_eq_succ_of_ne_zero (Nat.ne_of_gt hpos)
  obtain ⟨sc', h'⟩ := h.run k (by omega) (by omega)
  rw [Transfer.phase, h.requestLength_eq, hk, Function.iterate_succ_apply']
  exact h'.next (Nat.le_add_right b k) (by omega) (by omega)

/-- All that is left, in one phase. -/
theorem Transfer.At.run_end (h : t.At out vals buf n m log b b sc) (hb : b < n)
    (hlen : n - b ≤ phaseLen n m b) :
    ∃ sc', ((Transfer.move D out vals)^[n - b] t).Ended D out vals buf n log sc' := by
  obtain ⟨k, hk⟩ := Nat.exists_eq_succ_of_ne_zero (Nat.ne_of_gt (Nat.sub_pos_of_lt hb))
  obtain ⟨sc', h'⟩ := h.run k (by omega) (by omega)
  rw [hk, Function.iterate_succ_apply']
  exact ⟨_, h'.last (by omega)⟩

theorem phaseLen_eq (hmn : m ≤ n) : phaseLen n m b = min m (n - b) := by
  unfold phaseLen
  split_ifs <;> omega

/-- The phases before the last. -/
theorem Transfer.At.phases (h : t.At out vals buf n m log 0 0 sc) (hm : 1 ≤ m) (hmn : m ≤ n) :
    ∀ j, j * m < n → ∃ sc',
      ((Transfer.phase D out vals)^[j] t).At out vals buf n m log (j * m) (j * m) sc'
  | 0, _ => by
    rw [Nat.zero_mul]
    exact ⟨sc, h⟩
  | j + 1, hj => by
    rw [Nat.succ_mul] at hj ⊢
    obtain ⟨sc', h'⟩ := h.phases hm hmn j (by omega)
    have hlen : phaseLen n m (j * m) = m := by
      rw [phaseLen_eq hmn]
      omega
    have hnext := h'.phase (D := D) (by omega) (by omega)
    rw [Function.iterate_succ_apply']
    rwa [hlen] at hnext

/-- All phases : as many as it takes to move `n` bytes by `m`. -/
theorem Transfer.At.phases_end (h : t.At out vals buf n m log 0 0 sc) (hm : 1 ≤ m) (hmn : m ≤ n) :
    ∃ sc', ((Transfer.phase D out vals)^[(n + m - 1) / m] t).Ended D out vals buf n log sc' := by
  have hcount : (n + m - 1) / m = (n - 1) / m + 1 := by
    rw [← Nat.add_div_right _ (by omega)]
    congr 1
    omega
  have hlow : (n - 1) / m * m ≤ n - 1 := Nat.div_mul_le_self _ _
  have hhigh : n - 1 < ((n - 1) / m + 1) * m := by
    rw [Nat.mul_comm]
    exact Nat.lt_mul_div_succ _ (by omega)
  rw [Nat.succ_mul] at hhigh
  obtain ⟨sc', h'⟩ := h.phases (D := D) hm hmn ((n - 1) / m) (by omega)
  have hlen : phaseLen n m ((n - 1) / m * m) = n - (n - 1) / m * m := by
    rw [phaseLen_eq hmn]
    omega
  have hend := h'.run_end (D := D) (by omega) (Nat.le_of_eq hlen.symm)
  rw [hcount, Function.iterate_succ_apply', Transfer.phase, h'.requestLength_eq, hlen]
  exact hend

end Move

/-! ## The command -/

section Packet

variable {D : LptDrive δ} {out : Bool} {vals buf : ℕ → UInt8} {n m : ℕ}

/-- The drive with `i` bytes of the CDB. -/
def cdbSent (cdb : ℕ → UInt8) (i : ℕ) (sc : ScsiCommon δ) : ScsiCommon δ :=
  { epatCommand 0xA0 sc with
    atapiCdb := fun x => if x < i then cdb x else sc.atapiCdb x
    tf.pos := i
    requestPos := sc.requestPos + i }

/-- The drive as its command is called. -/
def commandReady (cdb : ℕ → UInt8) (sc : ScsiCommon δ) : ScsiCommon δ :=
  { cdbSent cdb 12 sc with
    tf.pos := 0
    tf.atastat := busyStat ||| (busyStat &&& errStat)
    packetStatus := .command }

/-- What the drive's command leaves. -/
def commandLeft (D : LptDrive δ) (cdb : ℕ → UInt8) (sc : ScsiCommon δ) : ScsiCommon δ :=
  D.call .command (commandReady cdb sc)

theorem cdbSent_succ (cdb : ℕ → UInt8) (i : ℕ) (sc : ScsiCommon δ) :
    { cdbSent cdb i sc with
      atapiCdb := Function.update (cdbSent cdb i sc).atapiCdb i (cdb i)
      tf.pos := i + 1
      requestPos := (cdbSent cdb i sc).requestPos + 1 } = cdbSent cdb (i + 1) sc := by
  have hcdb : Function.update (fun x => if x < i then cdb x else sc.atapiCdb x) i (cdb i) =
      fun x => if x < i + 1 then cdb x else sc.atapiCdb x := by
    ext x
    by_cases hx : x = i
    · simp [hx]
    · have hlt : x < i + 1 ↔ x < i := by omega
      simp [Function.update_of_ne hx, hlt]
  simp only [cdbSent, hcdb]
  rfl

theorem mark_idle {t : Transfer δ} {sc : ScsiCommon δ} (hsd : t.dev.sd = some sc)
    (hidle : sc.packetStatus = .idle) :
    t.mark true = { t with cdbUsed := t.cdbUsed ++ [sc.tf.pos] } := by
  simp [Transfer.mark, hsd, ScsiCommon.bufIndex, ScsiCommon.cdbIndex, hidle]

theorem packet_run (D : LptDrive δ) (cdb : ℕ → UInt8) (sc : ScsiCommon δ) (dev : Epat δ) :
    ∀ i, i < 12 → (Transfer.move D true cdb)^[i] ⟨packetCommand sc dev, [], [], []⟩ =
      ⟨{ dev with sd := some (cdbSent cdb i sc) }, (List.range i).map cdb, [], List.range i⟩
  | 0, _ => rfl
  | i + 1, hi => by
    rw [Function.iterate_succ_apply', packet_run D cdb sc dev i (Nat.lt_of_succ_lt hi)]
    have hidle : (cdbSent cdb i sc).packetStatus = .idle := rfl
    have hpos : (cdbSent cdb i sc).tf.pos = i := rfl
    have hmore : ¬ 12 ≤ i + 1 := by omega
    rw [Transfer.move, if_pos rfl, mark_idle rfl hidle, hpos]
    simp only [epatDataWrite, scDataWrite, hidle, hpos, if_neg hmore, Epat.drove, Epat.say,
      List.length_map, List.length_range, List.append_nil]
    rw [List.range_succ, List.map_append, ← cdbSent_succ cdb i sc]
    rfl

theorem packet_eq (D : LptDrive δ) (cdb : ℕ → UInt8) (sc : ScsiCommon δ) (dev : Epat δ) :
    Transfer.packet D cdb sc dev =
      ⟨{ dev with
          sd := some (epatAtapiPhase (commandLeft D cdb sc))
          log := dev.log ++ [.called .command (commandLeft D cdb sc)] }, [], [],
              List.range 12⟩ := by
  rw [Transfer.packet, Function.iterate_succ_apply', packet_run D cdb sc dev 11 (by decide)]
  have hcdb := cdbSent_succ cdb 11 sc
  have hwrite : scDataWrite D (cdb 11) (cdbSent cdb 11 sc) =
      epatAtapiCallback D { cdbSent cdb 12 sc with
        tf.pos := 0
        tf.atastat := busyStat
        packetStatus := .command } := by
    rw [← hcdb]
    rfl
  have hcall : epatAtapiCallback D { cdbSent cdb 12 sc with
        tf.pos := 0
        tf.atastat := busyStat
        packetStatus := .command } =
      (epatAtapiPhase (commandLeft D cdb sc), [.called .command (commandLeft D cdb sc)]) := rfl
  rw [Transfer.move, if_pos rfl, mark_idle rfl rfl]
  simp only [epatDataWrite, List.length_map, List.length_range, hwrite, hcall]
  rfl

/-- The first phase, announced. -/
theorem packet_at {cdb : ℕ → UInt8} {sc : ScsiCommon δ}
    (h : EntersData out n m buf (commandLeft D cdb sc)) (vals : ℕ → UInt8) (dev : Epat δ) :
    (Transfer.packet D cdb sc dev).At out vals buf n m
      (dev.log ++ [.called .command (commandLeft D cdb sc)]) 0 0
      (epatAtapiPhase (commandLeft D cdb sc)) := by
  rw [packet_eq]
  obtain ⟨hstatus, hpos, hreq, hlen, hmax, hrequest, hbuf⟩ := h
  generalize commandLeft D cdb sc = r at *
  have hmoved : movedBuf out vals buf 0 = buf := by
    ext x
    simp [movedBuf]
  have hdrq (a : UInt8) : (readyStat ||| drqStat ||| (a &&& errStat)) &&& drqStat = drqStat := by
    have hbits : ∀ j (h : j < 8), (8#8)[j] = true → (72#8)[j] = true := by decide
    apply UInt8.toBitVec_inj.1
    ext j hj
    simp only [readyStat, drqStat, errStat, UInt8.toBitVec_and, UInt8.toBitVec_or]
    simpa using fun h => Or.inl (hbits j hj h)
  cases out with
  | true =>
    simp only [↓reduceIte] at hstatus
    refine ⟨rfl, rfl, ?_, ?_, ?_, ?_, ?_, ?_, ?_, ?_, rfl, rfl, rfl⟩ <;>
      simp [epatAtapiPhase, hstatus, hpos, hreq, hlen, hmax, hrequest, hbuf, hmoved, phaseLen, hdrq]
  | false =>
    simp only [Bool.false_eq_true, ↓reduceIte] at hstatus
    refine ⟨rfl, rfl, ?_, ?_, ?_, ?_, ?_, ?_, ?_, ?_, rfl, rfl, rfl⟩ <;>
      simp [epatAtapiPhase, hstatus, hpos, hreq, hlen, hmax, hrequest, hbuf, hmoved, phaseLen, hdrq]

/-- The drive is in no phase that moves bytes. -/
def Settled (sc : ScsiCommon δ) : Prop :=
  sc.packetStatus ≠ .dataIn ∧ sc.packetStatus ≠ .dataOut ∧ sc.packetStatus ≠ .idle

/-- Moves after the end of the command take nothing. -/
theorem settled_moves {t : Transfer δ} {sc : ScsiCommon δ} (hsd : t.dev.sd = some sc)
    (h : Settled sc) (out : Bool) (vals : ℕ → UInt8) : ∀ k,
    ((Transfer.move D out vals)^[k] t).dev = t.dev ∧ ((Transfer.move D out vals)^[k] t).used =
        t.used ∧
      (out = false → ((Transfer.move D out vals)^[k] t).bytes = t.bytes ++ List.replicate k 0)
  | 0 => ⟨rfl, rfl, fun _ => by simp⟩
  | k + 1 => by
    obtain ⟨hdev, hused, hbytes⟩ := settled_moves hsd h out vals k
    rw [Function.iterate_succ_apply']
    generalize (Transfer.move D out vals)^[k] t = u at hdev hused hbytes ⊢
    obtain ⟨hin, hout, hidle⟩ := h
    rw [← hdev] at hsd
    have hkeep : u.dev.drove (sc, []) = u.dev := by
      simp [Epat.drove, Epat.say, ← hsd]
    cases out with
    | true =>
      have hwrite (val : UInt8) : scDataWrite D val sc = (sc, []) := by
        unfold scDataWrite
        split <;> first | contradiction | rfl
      refine ⟨?_, ?_, nofun⟩
      · refine Eq.trans ?_ hdev
        simp [Transfer.move, epatDataWrite, hsd, hwrite, hkeep]
      · simp [Transfer.move, Transfer.mark, hsd, ScsiCommon.bufIndex, hout, hused]
    | false =>
      have hread : scDataRead D sc = (0, sc, []) := by
        unfold scDataRead
        split
        · rfl
        · rw [if_pos hin]
      refine ⟨?_, ?_, fun _ => ?_⟩
      · refine Eq.trans ?_ hdev
        simp [Transfer.move, epatDataRead, hsd, hread, hkeep]
      · simp [Transfer.move, Transfer.mark, hsd, ScsiCommon.bufIndex, hin, hused]
      · simp [Transfer.move, epatDataRead, hsd, hread, hbytes rfl, List.replicate_succ']

end Packet

/-! ## Accounting -/

/-- A command that enters a data phase of `n` bytes, announced by `m`. With `m ≤ n` there are as
many phases as it takes to move `n` bytes by `m`, each announced with what it has, and they move
the `n` bytes of `temp_buffer` once each and in order, and end the command once. With `n < m` the
one phase is announced with `m` : the `n` bytes are moved and the command is ended, and what the
host still moves of the phase takes nothing. -/
theorem epat_packet_accounting (D : LptDrive δ) (dev : Epat δ) (sc : ScsiCommon δ)
    (cdb vals buf : ℕ → UInt8) (out : Bool) (n m : ℕ) (hn : 1 ≤ n) (hm : 1 ≤ m)
    (h : EntersData out n m buf (commandLeft D cdb sc)) :
    let t := Transfer.packet D cdb sc dev
    let log := dev.log ++ [.called .command (commandLeft D cdb sc)]
    (m ≤ n →
      (∀ j, j < (n + m - 1) / m → ((Transfer.phase D out vals)^[j] t).requestLength =
          min m (n - j * m) ∧
        ∃ sc', ((Transfer.phase D out vals)^[j] t).At out vals buf n m log (j * m) (j * m) sc') ∧
      ∃ sc', ((Transfer.phase D out vals)^[(n + m - 1) / m] t).Ended D out vals buf n log sc') ∧
    (n < m → ∃ sc', ((Transfer.move D out vals)^[n] t).Ended D out vals buf n log sc' ∧
      (Settled (epatPioEnd D (endFn out) sc').1 →
        (t.phase D out vals).dev = ((Transfer.move D out vals)^[n] t).dev ∧
        (t.phase D out vals).used = List.range n ∧
        (out = false → (t.phase D out vals).bytes =
          (List.range n).map buf ++ List.replicate (m - n) 0))) := by
  have hat := packet_at h vals dev
  refine ⟨fun hmn => ⟨fun j hj => ?_, hat.phases_end hm hmn⟩, fun hnm => ?_⟩
  · have hjm : j * m < n := by
      have := Nat.div_mul_le_self (n + m - 1) m
      have := Nat.mul_le_mul_right m (Nat.succ_le_of_lt hj)
      rw [Nat.succ_mul] at this
      omega
    obtain ⟨sc', h'⟩ := hat.phases (D := D) hm hmn j hjm
    exact ⟨h'.requestLength_eq.trans (phaseLen_eq hmn), sc', h'⟩
  · obtain ⟨sc', h'⟩ := hat.run_end (D := D) (by omega) (by simp [phaseLen]; omega)
    rw [Nat.sub_zero] at h'
    refine ⟨sc', h', fun hsettled => ?_⟩
    obtain ⟨hdev, hused, hbytes⟩ := settled_moves h'.sd hsettled out vals (m - n)
    have hsplit : (Transfer.packet D cdb sc dev).phase D out vals =
        (Transfer.move D out vals)^[m - n]
          ((Transfer.move D out vals)^[n] (Transfer.packet D cdb sc dev)) := by
      rw [Transfer.phase, hat.requestLength_eq, phaseLen, if_pos rfl, ← Function.iterate_add_apply,
        Nat.sub_add_cancel (Nat.le_of_lt hnm)]
    rw [hsplit]
    refine ⟨hdev, hused.trans h'.used, fun hout => ?_⟩
    subst hout
    rw [hbytes rfl, h'.bytes]
    rfl

/-! ## A drive that reads a few bytes -/

/-- A drive whose command reads `n` bytes, announced by `m`. -/
def fewBytes (n m : ℕ) : LptDrive Unit where
  device := none
  call
    | .command, sc => { sc with
        packetStatus := .dataIn
        requestPos := 0
        packetLen := n
        maxTransferLen := m
        tf.requestLength := UInt16.ofNat m
        tempBuffer := some UInt8.ofNat }
    | _, sc => { sc with packetStatus := .complete }

def quietDrive : ScsiCommon Unit := ⟨⟨0, 0, 0, 0, 0, 0, 0⟩, none, fun _ => 0, 0, .none, 0, 0, 0, ()⟩

/-- Three bytes, two of them in the first phase. -/
theorem epat_packet_three : ∃ sc',
    ((Transfer.phase (fewBytes 3 2) false fun _ => 0)^[2]
      (Transfer.packet (fewBytes 3 2) (fun _ => 0) quietDrive epatInit)).Ended (fewBytes 3 2) false
        (fun _ => 0) UInt8.ofNat 3
        [.called .command (commandLeft (fewBytes 3 2) (fun _ => 0) quietDrive)] sc' :=
  ((epat_packet_accounting (fewBytes 3 2) epatInit quietDrive (fun _ => 0) (fun _ => 0) UInt8.ofNat
    false 3 2 (by decide) (by decide) ⟨rfl, rfl, rfl, rfl, rfl, rfl, rfl⟩).1 (by decide)).2

/-- One byte, announced with two : the host moves two. -/
theorem epat_packet_short :
    EntersData false 1 2 UInt8.ofNat (commandLeft (fewBytes 1 2) (fun _ => 0) quietDrive) ∧
    ((Transfer.phase (fewBytes 1 2) false fun _ => 0)^[(1 + 2 - 1) / 2]
      (Transfer.packet (fewBytes 1 2) (fun _ => 0) quietDrive epatInit)).bytes ≠
        (List.range 1).map UInt8.ofNat :=
  ⟨⟨rfl, rfl, rfl, rfl, rfl, rfl, rfl⟩, by decide⟩

end Inboard
