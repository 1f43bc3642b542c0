import Inboard.EpatPackets
import Inboard.Ls120Bridge

/-!
# The data of a packet command

What `LS_PacketCommand` moves between the request's buffer and the drive behind the bridge. The
drive gets the twelve bytes of the packet as they are, and the transport moves one burst of
bytes, as many as the device offers and the buffer holds : it goes through if and only if that
is all the drive has, or wants (`lsPacketCommand_moves`).
-/

set_option linter.unusedSectionVars false

namespace Inboard

variable {δ : Type*}

/-! ## Bytes of the data register -/

section Bytes

variable (D : LptDrive δ)

end Bytes

/-! ## A burst -/

section Burst

variable {D : LptDrive δ} {out : Bool} {vals buf : ℕ → UInt8} {n m k : ℕ}
  {log : List (EpatEvent δ)} {t : Transfer δ} {sc : ScsiCommon δ}

/-- The status of a drive that has data to move. -/
def drqReady : UInt8 := readyStat ||| drqStat

/-- What a transfer of data leaves as the command left it. -/
structure ScsiCommon.Kept (out : Bool) (left sc : ScsiCommon δ) : Prop where
  features : sc.tf.features = left.tf.features
  error : sc.tf.error = left.tf.error
  drvsel : sc.tf.drvsel = left.tf.drvsel
  phase : sc.tf.phase = if out then 0 else 2
  atapiCdb : sc.atapiCdb = left.atapiCdb
  unitAttention : sc.unitAttention = left.unitAttention
  priv : sc.priv = left.priv

/-- The drive as its end function is called, with `n` bytes moved in blocks of `m`, the last of
which may be shorter. -/
def transferEnd (out : Bool) (vals buf : ℕ → UInt8) (n m : ℕ) (left : ScsiCommon δ) :
    ScsiCommon δ :=
  let last := phaseLen n m ((n - 1) / m * m)
  { left with
    tf.phase := if out then 0 else 2
    tf.requestLength := UInt16.ofNat last
    tf.atastat := busyStat
    tf.pos := 0
    tempBuffer := some (movedBuf out vals buf n)
    maxTransferLen := last
    requestPos := 0 }

/-- Byte `i` is next, in a phase that starts at a block of `m`, and the drive says so. -/
def Transfer.Mid (out : Bool) (vals buf : ℕ → UInt8) (n m : ℕ) (log : List (EpatEvent δ))
    (left : ScsiCommon δ) (i : ℕ) (t : Transfer δ) : Prop :=
  ∃ b sc, b ≤ i ∧ i - b < phaseLen n m b ∧ m ∣ b ∧ sc.tf.atastat = drqReady ∧
    ScsiCommon.Kept out left sc ∧ t.At out vals buf n m log b i sc

/-- The next phase of a transfer. -/
theorem epatPioNext_status (hstat : sc.tf.atastat = busyStat) :
    (epatPioNext D out sc).1.tf.atastat = drqReady := by
  have hbits : readyStat ||| drqStat ||| (busyStat &&& errStat) = drqReady := by decide
  have hphase (sc : ScsiCommon δ) (hsc : sc.tf.atastat = busyStat) :
      (epatAtapiCallback D { sc with
        packetStatus := if out then .dataOut else .dataIn }).1.tf.atastat = drqReady := by
    rw [← hbits, ← hsc]
    cases out <;> rfl
  unfold epatPioNext
  dsimp only
  refine hphase _ ?_
  split_ifs
  · exact hstat
  · exact hstat

theorem epatPioNext_kept {left : ScsiCommon δ} (h : ScsiCommon.Kept out left sc) :
    ScsiCommon.Kept out left (epatPioNext D out sc).1 := by
  have hphase (sc : ScsiCommon δ) (h : ScsiCommon.Kept out left sc) :
      ScsiCommon.Kept out left (epatAtapiCallback D { sc with
        packetStatus := if out then .dataOut else .dataIn }).1 := by
    cases out with
    | true => exact ⟨h.features, h.error, h.drvsel, rfl, h.atapiCdb, h.unitAttention, h.priv⟩
    | false => exact ⟨h.features, h.error, h.drvsel, rfl, h.atapiCdb, h.unitAttention, h.priv⟩
  have hkept (sc : ScsiCommon δ) (h : ScsiCommon.Kept out left sc) :
      ScsiCommon.Kept out left { sc with requestPos := 0 } :=
    ⟨h.features, h.error, h.drvsel, h.phase, h.atapiCdb, h.unitAttention, h.priv⟩
  unfold epatPioNext
  dsimp only
  refine hkept _ (hphase _ ?_)
  split_ifs
  · exact ⟨h.features, h.error, h.drvsel, h.phase, h.atapiCdb, h.unitAttention, h.priv⟩
  · exact h

/-- A byte that does not end the transfer leaves the drive's status. -/
theorem epatPioStep_status (hmore : sc.tf.pos < sc.packetLen)
    (hstat : sc.tf.atastat = drqReady) : (epatPioStep D out sc).1.tf.atastat = drqReady := by
  unfold epatPioStep epatPioRequest
  dsimp only
  rw [if_neg (not_le.2 hmore)]
  split_ifs
  · exact epatPioNext_status rfl
  · exact hstat

/-- And all that the transfer has no part in. -/
theorem epatPioStep_kept {left : ScsiCommon δ} (hmore : sc.tf.pos < sc.packetLen)
    (h : ScsiCommon.Kept out left sc) : ScsiCommon.Kept out left (epatPioStep D out sc).1 := by
  unfold epatPioStep epatPioRequest
  dsimp only
  rw [if_neg (not_le.2 hmore)]
  split_ifs
  · exact epatPioNext_kept
      ⟨h.features, h.error, h.drvsel, h.phase, h.atapiCdb, h.unitAttention, h.priv⟩
  · exact h

/-- A byte that is not the last. -/
theorem Transfer.Mid.move {left : ScsiCommon δ} {i : ℕ} (hm : 1 ≤ m) (hi : i + 1 < n)
    (h : t.Mid out vals buf n m log left i) :
    (t.move D out vals).Mid out vals buf n m log left (i + 1) := by
  obtain ⟨b, sc, hb, hin, hblock, hstat, hkept, hat⟩ := h
  have hsd : (t.move D out vals).dev.sd = some (epatPioStep D out (sc.moved out vals buf i)).1 := by
    rw [hat.move_eq (by omega)]
    rfl
  have hmore : (sc.moved out vals buf i).tf.pos < (sc.moved out vals buf i).packetLen := by
    have hpos : (sc.moved out vals buf i).tf.pos = i + 1 := congrArg (· + 1) hat.pos
    have hlen : (sc.moved out vals buf i).packetLen = n := hat.packetLen
    omega
  have hstat' : (epatPioStep D out (sc.moved out vals buf i)).1.tf.atastat = drqReady :=
    epatPioStep_status hmore hstat
  have hkept' : ScsiCommon.Kept out left (epatPioStep D out (sc.moved out vals buf i)).1 :=
    epatPioStep_kept hmore
      ⟨hkept.features, hkept.error, hkept.drvsel, hkept.phase, hkept.atapiCdb,
        hkept.unitAttention, hkept.priv⟩
  by_cases hend : i + 1 - b = phaseLen n m b
  · obtain ⟨sc', hat'⟩ := hat.next (D := D) hb hi hend
    obtain rfl := Option.some.inj (hat'.sd.symm.trans hsd)
    have hwhole : i + 1 = b + m := by
      unfold phaseLen at hend
      split_ifs at hend <;> omega
    refine ⟨i + 1, _, le_rfl, ?_, hwhole ▸ Nat.dvd_add hblock (Nat.dvd_refl m), hstat', hkept',
      hat'⟩
    unfold phaseLen
    split_ifs <;> omega
  · have hat' := hat.step (D := D) hb hi (by omega)
    obtain hsc := Option.some.inj (hat'.sd.symm.trans hsd)
    rw [← hsc] at hstat' hkept'
    exact ⟨b, _, by omega, by omega, hblock, hstat', hkept', hat'⟩

theorem Transfer.Mid.run {left : ScsiCommon δ} (hm : 1 ≤ m)
    (h : t.Mid out vals buf n m log left 0) : ∀ k, k < n →
      ((Transfer.move D out vals)^[k] t).Mid out vals buf n m log left k
  | 0, _ => h
  | k + 1, hk => by
    rw [Function.iterate_succ_apply']
    exact (h.run hm k (by omega)).move hm hk

/-- The last block. -/
theorem lastBlock_eq {b i : ℕ} (hb : b ≤ i) (hin : i - b < phaseLen n m b) (hblock : m ∣ b) :
    i / m * m = b := by
  obtain ⟨c, rfl⟩ := hblock
  have hlow : i - m * c < m := by
    unfold phaseLen at hin
    split_ifs at hin <;> omega
  have hdiv : i / m = c := Nat.div_eq_of_lt_le (by rw [Nat.mul_comm]; exact hb) (by
    rw [Nat.succ_mul, Nat.mul_comm c]
    omega)
  rw [hdiv, Nat.mul_comm]

/-- The state that the last byte leaves for the end function. -/
theorem Transfer.At.transferEnd_eq {left : ScsiCommon δ} {b i : ℕ}
    (h : t.At out vals buf n m log b i sc) (hb : b ≤ i) (hin : i - b < phaseLen n m b)
    (hblock : m ∣ b) (hi : i + 1 = n) (hkept : ScsiCommon.Kept out left sc)
    (hleft : EntersData out n m buf left) :
    { sc.moved out vals buf i with tf.atastat := busyStat, tf.pos := 0, requestPos := 0 } =
      transferEnd out vals buf n m left := by
  have hlast : (n - 1) / m * m = b := by
    rw [← hi]
    exact lastBlock_eq hb hin hblock
  have hreq : sc.tf.requestLength = UInt16.ofNat (phaseLen n m b) := by
    rw [← h.requestLength, UInt16.ofNat_toNat]
  obtain ⟨hfeatures, herror, hdrvsel, hphase, hcdb, hua, hpriv⟩ := hkept
  unfold transferEnd ScsiCommon.moved
  rw [hlast]
  dsimp only
  rw [← hreq, ← h.maxTransferLen, hi]
  obtain ⟨tf, tempBuffer, cdb, maxLen, status, pos, len, ua, priv⟩ := sc
  obtain ⟨tf', tempBuffer', cdb', maxLen', status', pos', len', ua', priv'⟩ := left
  obtain rfl : status = status' := h.status.trans hleft.status.symm
  obtain rfl : len = len' := h.packetLen.trans hleft.packetLen.symm
  dsimp only at hfeatures herror hdrvsel hphase hcdb hua hpriv ⊢
  rw [hfeatures, herror, hdrvsel, hphase, hcdb, hua, hpriv]

/-- All of the bytes. -/
theorem Transfer.Mid.run_end {left : ScsiCommon δ} (hm : 1 ≤ m) (hn : 1 ≤ n)
    (hleft : EntersData out n m buf left) (h : t.Mid out vals buf n m log left 0) :
    ∃ sc', ((Transfer.move D out vals)^[n] t).Ended D out vals buf n log sc' ∧
      { sc' with tf.pos := 0, requestPos := 0 } = transferEnd out vals buf n m left := by
  obtain ⟨j, rfl⟩ := Nat.exists_eq_add_of_le' hn
  obtain ⟨b, sc, hb, hin, hblock, -, hkept, hat⟩ := h.run (D := D) hm j (Nat.lt_succ_self j)
  rw [Function.iterate_succ_apply']
  exact ⟨_, hat.last rfl, hat.transferEnd_eq hb hin hblock rfl hkept hleft⟩

end Burst

/-! ## Registers of an attached drive -/

section Direct

variable {D : LptDrive δ} {sc : ScsiCommon δ} {s : Ls (Epat δ)}

end Direct

/-! ## Over the port -/

section Port

variable (past : ℕ → UInt8) (D : LptDrive δ)

end Port

end Inboard
