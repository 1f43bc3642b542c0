import Inboard.Ls120Mp

/-!
# One bridge for another

The transport and the miniport over two bridges, one of which stands for the other
(`LsBridge.Refines`) : each access reads the same from both and leaves them related, unless
a byte 22h is written, with which a frame begins. Then so does everything that is made of
such accesses, up to a whole run of SCSIPORT's calls (`MpSim.run`).
-/

set_option linter.unusedSectionVars false

namespace Inboard

variable {β γ : Type*}

/-- What holds of a list of bytes, found by going through the list. -/
theorem forall_mem_of_all {p : UInt8 → Prop} [DecidablePred p] {vals : List UInt8}
    (h : vals.all (fun val => decide (p val)) = true) : ∀ val ∈ vals, p val := by
  simpa only [List.all_eq_true, decide_eq_true_eq] using h

/-- No access tells the bridges that `R` relates apart ; `R` is told whether they are
connected. -/
structure LsBridge.Refines (B : LsBridge β) (C : LsBridge γ) (R : Bool → β → γ → Prop) :
    Prop where
  openFrame : ∀ {b c}, R false b c → R true (B.openFrame b) (C.openFrame c)
  connect : ∀ {b c}, R false b c → R true (B.connect b) (C.connect c)
  disconnect : ∀ {b c}, R true b c → R false (B.disconnect b) (C.disconnect c)
  regRead : ∀ {addr b c}, addr < 0x20 → addr ≠ 0x07 → R true b c →
    (B.regRead addr b).1 = (C.regRead addr c).1 ∧
      R true (B.regRead addr b).2 (C.regRead addr c).2
  regWrite : ∀ {addr val b c}, addr < 0x20 → addr ≠ 0x07 → val ≠ 0x22 → R true b c →
    R true (B.regWrite addr val b) (C.regWrite addr val c)
  blockRead : ∀ {b c} (n : ℕ), R true b c → (B.blockRead n b).1 = (C.blockRead n c).1 ∧
    R true (B.blockRead n b).2 (C.blockRead n c).2
  blockWrite : ∀ {vals : List UInt8} {b c}, (∀ val ∈ vals, val ≠ 0x22) → R true b c →
    R true (B.blockWrite vals b) (C.blockWrite vals c)

/-- The transport's variables but for the bridge. -/
def Ls.vars (s : Ls β) : Ls Unit := { s with bridge := () }

/-- Two transports that differ in their bridges alone, and a buffer that satisfies `P`. -/
structure LsSim (R : Bool → β → γ → Prop) (P : (ℕ → UInt8) → Prop) (c : Bool) (s : Ls β)
    (t : Ls γ) : Prop where
  bridge : R c s.bridge t.bridge
  connected : s.connected = c
  vars : s.vars = t.vars
  buf : P s.buf

namespace LsSim

variable {R : Bool → β → γ → Prop} {P Q : (ℕ → UInt8) → Prop} {c : Bool} {s : Ls β} {t : Ls γ}

/-- Both transports have the same variables. -/
theorem connected_eq (h : LsSim R P c s t) : t.connected = s.connected :=
  (congrArg Ls.connected h.vars).symm

theorem lastStatus_eq (h : LsSim R P c s t) : t.lastStatus = s.lastStatus :=
  (congrArg Ls.lastStatus h.vars).symm

theorem xferN_eq (h : LsSim R P c s t) : t.xferN = s.xferN := (congrArg Ls.xferN h.vars).symm

theorem phase_eq (h : LsSim R P c s t) : t.phase = s.phase := (congrArg Ls.phase h.vars).symm

theorem senseBuf_eq (h : LsSim R P c s t) : t.senseBuf = s.senseBuf :=
  (congrArg Ls.senseBuf h.vars).symm

theorem spunUp_eq (h : LsSim R P c s t) : t.spunUp = s.spunUp :=
  (congrArg Ls.spunUp h.vars).symm

theorem buf_eq (h : LsSim R P c s t) : t.buf = s.buf := (congrArg Ls.buf h.vars).symm

/-- The same change of the variables in both. -/
theorem change (h : LsSim R P c s t) {s' : Ls β} {t' : Ls γ} (hs : s'.bridge = s.bridge)
    (ht : t'.bridge = t.bridge) (hconn : s'.connected = s.connected) (hvars : s'.vars = t'.vars)
    (hbuf : Q s'.buf) : LsSim R Q c s' t' :=
  ⟨by rw [hs, ht]; exact h.bridge, hconn.trans h.connected, hvars, hbuf⟩

end LsSim

section Refines

variable {B : LsBridge β} {C : LsBridge γ} {R : Bool → β → γ → Prop} (hR : B.Refines C R)
  {P : (ℕ → UInt8) → Prop} {s : Ls β} {t : Ls γ}

include hR

/-! ## Accesses -/

/-- A connect frame is sent unless the transport believes that it was. -/
theorem lsHave_sim {c : Bool} (h : LsSim R P c s t) :
    LsSim R P true (lsHave B s) (lsHave C t) := by
  unfold lsHave
  rw [h.connected_eq]
  split_ifs with hconn
  · obtain rfl : c = true := h.connected.symm.trans hconn
    exact h
  · have hc : c = false := h.connected.symm.trans (Bool.eq_false_iff.2 hconn)
    subst hc
    refine ⟨hR.connect h.bridge, rfl, ?_, h.buf⟩
    exact congrArg (fun v : Ls Unit => { v with connected := true }) h.vars

theorem lsDisconnect_sim (h : LsSim R P true s t) :
    LsSim R P false (lsDisconnect B s) (lsDisconnect C t) :=
  ⟨hR.disconnect h.bridge, rfl,
    congrArg (fun v : Ls Unit => { v with connected := false }) h.vars, h.buf⟩

/-- A register of the task file reads the same. -/
theorem lsRegRead_sim (al : UInt8) (haddr : al + contTaskfile < 0x20)
    (hne : al + contTaskfile ≠ 0x07) (h : LsSim R P true s t) :
    (lsRegRead B al s).1 = (lsRegRead C al t).1 ∧
      LsSim R P true (lsRegRead B al s).2 (lsRegRead C al t).2 := by
  obtain ⟨hval, hbridge⟩ := hR.regRead haddr hne h.bridge
  exact ⟨hval, hbridge, h.connected, h.vars, h.buf⟩

/-- And is written the same, unless the value is 22h. -/
theorem lsRegWrite_sim {al ah : UInt8} (haddr : al + contTaskfile < 0x20)
    (hne : al + contTaskfile ≠ 0x07) (hval : ah ≠ 0x22) (h : LsSim R P true s t) :
    LsSim R P true (lsRegWrite B al ah s) (lsRegWrite C al ah t) :=
  ⟨hR.regWrite haddr hne hval h.bridge, h.connected, h.vars, h.buf⟩

theorem lsAtaPulseReset_sim (h : LsSim R P true s t) :
    LsSim R P true (lsAtaPulseReset B s) (lsAtaPulseReset C t) :=
  ⟨hR.regWrite (by decide) (by decide) (by decide)
    (hR.regWrite (by decide) (by decide) (by decide) h.bridge), h.connected, h.vars, h.buf⟩

/-- The status is a register. -/
theorem lsStatusRead_sim (h : LsSim R P true s t) :
    (lsStatusRead B s).1 = (lsStatusRead C t).1 ∧
      LsSim R P true (lsStatusRead B s).2 (lsStatusRead C t).2 :=
  lsRegRead_sim hR ataRegStatus (by decide) (by decide) h

/-- `LS_PfWait` goes the same number of rounds, by induction on what is left of them. -/
theorem lsPfWait_agree (go stop : UInt8) : ∀ ecx,
    Routine.Agree (LsSim R P true) (lsPfWait B go stop ecx) (lsPfWait C go stop ecx)
  | 0, _, _, h => ⟨rfl, h⟩
  | ecx + 1, s, t, h => by
    obtain ⟨hal, hread⟩ := lsStatusRead_sim hR h
    have hseen : LsSim R P true
        { (lsStatusRead B s).2 with lastStatus := (lsStatusRead C t).1 }
        { (lsStatusRead C t).2 with lastStatus := (lsStatusRead C t).1 } :=
      hread.change rfl rfl rfl
        (congrArg (fun v : Ls Unit => { v with lastStatus := (lsStatusRead C t).1 }) hread.vars)
        hread.buf
    unfold lsPfWait
    dsimp only
    rw [hal]
    split_ifs
    · exact ⟨rfl, hread⟩
    · exact lsPfWait_agree go stop ecx _ _ hseen
    · exact ⟨rfl, hseen⟩
    · exact lsPfWait_agree go stop ecx _ _ hseen

/-- A block read fills the buffer with the same bytes. -/
theorem lsBlockRead_sim (ecx : ℕ) (hbuf : ∀ buf, P buf) (h : LsSim R P true s t) :
    LsSim R P true (lsBlockRead B ecx s) (lsBlockRead C ecx t) := by
  obtain ⟨hbytes, hbridge⟩ := hR.blockRead ecx h.bridge
  refine ⟨hbridge, h.connected, ?_, hbuf _⟩
  unfold lsBlockRead
  dsimp only
  rw [hbytes, h.buf_eq]
  exact congrArg (fun v : Ls Unit => { v with buf := fun i =>
    if i < ecx then (C.blockRead ecx t.bridge).1.getD i 0 else s.buf i }) h.vars

/-- A block written has the same bytes, if none is 22h. -/
theorem lsBlockWrite_sim {ecx : ℕ} (hbuf : ∀ i < ecx, s.buf i ≠ 0x22) (h : LsSim R P true s t) :
    LsSim R P true (lsBlockWrite B ecx s) (lsBlockWrite C ecx t) := by
  refine ⟨?_, h.connected, h.vars, h.buf⟩
  unfold lsBlockWrite
  rw [h.buf_eq]
  refine hR.blockWrite (fun val hval => ?_) h.bridge
  obtain ⟨i, hi, rfl⟩ := List.mem_map.1 hval
  exact hbuf i (List.mem_range.1 hi)

/-! ## A packet command -/

/-- No byte of a packet command is 22h : of the packet, of the length, or of the data written. -/
structure LsClean (cdb : List UInt8) (len : ℕ) (out : Bool) (buf : ℕ → UInt8) : Prop where
  cdb : ∀ val ∈ cdb, val ≠ 0x22
  lo : UInt8.ofNat len ≠ 0x22
  hi : UInt8.ofNat (len / 256) ≠ 0x22
  data : out = true → ∀ i < len, buf i ≠ 0x22

/-- A command is issued the same : two lengths, the packet and the waits. -/
theorem lsIssue_agree {cdb : List UInt8} {len : ℕ} (hcdb : ∀ val ∈ cdb, val ≠ 0x22)
    (hlo : UInt8.ofNat len ≠ 0x22) (hhi : UInt8.ofNat (len / 256) ≠ 0x22) :
    Routine.Agree (LsSim R P true) (lsIssue B cdb len) (lsIssue C cdb len) := by
  have hwrite {al ah : UInt8} (haddr : al + contTaskfile < 0x20) (hne : al + contTaskfile ≠ 0x07)
      (hval : ah ≠ 0x22) : Routine.Agree (LsSim R P true) (Routine.note (lsRegWrite B al ah))
        (Routine.note (lsRegWrite C al ah)) :=
    .note fun _ _ h => lsRegWrite_sim hR haddr hne hval h
  have hicr : Routine.Agree (LsSim R P true)
      (fun s => ((lsRegRead B ataRegIcr s).1 &&& 0x03 == 1, (lsRegRead B ataRegIcr s).2))
      (fun s => ((lsRegRead C ataRegIcr s).1 &&& 0x03 == 1, (lsRegRead C ataRegIcr s).2)) := by
    intro s t h
    obtain ⟨hval, hread⟩ := lsRegRead_sim hR ataRegIcr (by decide) (by decide) h
    exact ⟨congrArg (· &&& 0x03 == 1) hval, hread⟩
  refine (hwrite (by decide) (by decide) (by decide)).seq <| (lsPfWait_agree hR _ _ _).seq <|
    (hwrite (by decide) (by decide) hlo).seq <| (hwrite (by decide) (by decide) hhi).seq <|
    (hwrite (by decide) (by decide) (by decide)).seq <|
    (hwrite (by decide) (by decide) (by decide)).seq <| (lsPfWait_agree hR _ _ _).seq <|
    hicr.seq <| .note fun s t h => ?_
  exact ⟨hR.blockWrite hcdb h.bridge, h.connected, h.vars, h.buf⟩

theorem lsReadCount_sim (h : LsSim R P true s t) :
    LsSim R P true (lsReadCount B s) (lsReadCount C t) := by
  obtain ⟨hlo, hread⟩ := lsRegRead_sim hR ataRegBclo (by decide) (by decide) h
  have hcount : LsSim R P true
      { (lsRegRead B ataRegBclo s).2 with xferN := (lsRegRead C ataRegBclo t).1.toNat }
      { (lsRegRead C ataRegBclo t).2 with xferN := (lsRegRead C ataRegBclo t).1.toNat } :=
    hread.change rfl rfl rfl (congrArg (fun v : Ls Unit =>
      { v with xferN := (lsRegRead C ataRegBclo t).1.toNat }) hread.vars) hread.buf
  obtain ⟨hhi, hread'⟩ := lsRegRead_sim hR ataRegBchi (by decide) (by decide) hcount
  unfold lsReadCount
  dsimp only
  rw [hlo, hhi]
  exact hread'.change rfl rfl rfl (congrArg (fun v : Ls Unit => { v with
    xferN := (lsRegRead C ataRegBclo t).1.toNat + 256 * (lsRegRead C ataRegBchi
      { (lsRegRead C ataRegBclo t).2 with
        xferN := (lsRegRead C ataRegBclo t).1.toNat }).1.toNat }) hread'.vars) hread'.buf

theorem lsReadPhase_sim (h : LsSim R P true s t) :
    LsSim R P true (lsReadPhase B s) (lsReadPhase C t) := by
  obtain ⟨hicr, hread⟩ := lsRegRead_sim hR ataRegIcr (by decide) (by decide) h
  unfold lsReadPhase
  dsimp only
  rw [hicr]
  exact hread.change rfl rfl rfl (congrArg (fun v : Ls Unit =>
    { v with phase := (lsRegRead C ataRegIcr t).1 &&& 0x03 }) hread.vars) hread.buf

/-- The data a transfer writes has no byte 22h. -/
def CleanOut (out : Bool) (len : ℕ) (buf : ℕ → UInt8) : Prop :=
  out = true → ∀ i < len, buf i ≠ 0x22

/-- The burst is cut and moved the same. -/
theorem lsTransfer_agree (len : ℕ) (out : Bool) : Routine.Agree (LsSim R (CleanOut out len) true)
    (lsTransfer B len out) (lsTransfer C len out) := by
  intro s t h
  have hle := Nat.min_le_right (lsOffered s.xferN) len
  unfold lsTransfer
  rw [h.xferN_eq, h.phase_eq]
  dsimp only
  split_ifs with hzero hout
  · exact ⟨rfl, h⟩
  · exact ⟨rfl, h⟩
  · exact ⟨rfl, lsBlockWrite_sim hR (fun i hi => h.buf hout i (Nat.lt_of_lt_of_le hi hle)) h⟩
  · exact ⟨rfl, h⟩
  · exact ⟨rfl, lsBlockRead_sim hR _ (fun _ hin => absurd hin hout) h⟩

/-- And so is the whole data phase, in the direction asked for. -/
theorem lsDataPhase_agree (len : ℕ) (out : Bool) : Routine.Agree (LsSim R (CleanOut out len) true)
    (lsDataPhase B len out) (lsDataPhase C len out) := by
  intro s t h
  have hphase := lsReadPhase_sim hR h
  unfold lsDataPhase
  dsimp only
  rw [hphase.phase_eq, hphase.lastStatus_eq]
  split_ifs
  · exact ⟨rfl, hphase⟩
  · exact ⟨rfl, hphase⟩
  · exact ⟨rfl, hphase⟩
  · exact lsTransfer_agree hR len out _ _ (lsReadCount_sim hR hphase)

theorem lsDone_agree : Routine.Agree (LsSim R P true) (lsDone B) (lsDone C) := by
  refine (lsPfWait_agree hR _ _ _).seq fun s t h => ?_
  dsimp only
  rw [h.lastStatus_eq]
  exact ⟨rfl, h⟩

/-- A packet command goes the same way over both bridges. -/
theorem lsPacketCommand_sim {cdb : List UInt8} {len : ℕ} {out c : Bool}
    (hclean : LsClean cdb len out s.buf) (h : LsSim R P c s t) :
    (lsPacketCommand B cdb len out s).1 = (lsPacketCommand C cdb len out t).1 ∧
      LsSim R (fun _ => True) false (lsPacketCommand B cdb len out s).2
        (lsPacketCommand C cdb len out t).2 := by
  have hsim : LsSim R (CleanOut out len) c s t :=
    ⟨h.bridge, h.connected, h.vars, hclean.data⟩
  obtain ⟨hgoes, hrel⟩ := (lsIssue_agree hR hclean.cdb hclean.lo hclean.hi).seq
    ((lsPfWait_agree hR _ _ _).seq ((lsDataPhase_agree hR len out).seq (lsDone_agree hR))) _ _
      (lsHave_sim hR hsim)
  obtain ⟨hbridge, hconn, hvars, -⟩ := lsDisconnect_sim hR hrel
  exact ⟨hgoes, hbridge, hconn, hvars, trivial⟩

/-! ## Sense and spin-up -/

/-- REQUEST SENSE is a packet command of its own, into its own buffer. -/
theorem lsSense_sim {c : Bool} (h : LsSim R P c s t) :
    (lsSense B s).1 = (lsSense C t).1 ∧
      LsSim R (fun _ => True) false (lsSense B s).2 (lsSense C t).2 := by
  have hclean (buf : ℕ → UInt8) : LsClean (lsSenseCdb (UInt8.ofNat 18)) 18 false buf :=
    ⟨forall_mem_of_all (by decide), by decide, by decide, nofun⟩
  have hstart : LsSim R (fun _ => True) c { s with buf := s.senseBuf }
      { t with buf := t.senseBuf } :=
    h.change rfl rfl rfl (congrArg (fun v : Ls Unit => { v with buf := v.senseBuf }) h.vars) trivial
  obtain ⟨hgoes, hrel⟩ := lsPacketCommand_sim hR (hclean s.senseBuf) hstart
  refine ⟨hgoes, hrel.bridge, hrel.connected, ?_, trivial⟩
  have hbuf := hrel.buf_eq
  have hvars := congrArg (fun v : Ls Unit => { v with
    senseBuf := (lsPacketCommand B (lsSenseCdb (UInt8.ofNat 18)) 18 false
      { s with buf := s.senseBuf }).2.buf
    buf := s.buf }) hrel.vars
  refine Eq.trans hvars ?_
  rw [← hbuf, ← h.buf_eq]
  rfl

/-- `LS_DrainSense`, by induction on the tries. -/
theorem lsDrainSense_sim : ∀ (ebx : ℕ) {c : Bool} {s : Ls β} {t : Ls γ},
    LsSim R (fun _ => True) c s t →
    ∃ c', LsSim R (fun _ => True) c' (lsDrainSense B ebx s) (lsDrainSense C ebx t)
  | 0, c, _, _, h => ⟨c, h⟩
  | ebx + 1, _, s, t, h => by
    obtain ⟨hgoes, hrel⟩ := lsSense_sim hR h
    unfold lsDrainSense
    dsimp only
    rw [hgoes, hrel.senseBuf_eq]
    split_ifs
    · exact ⟨false, hrel⟩
    · exact ⟨false, hrel⟩
    · exact lsDrainSense_sim ebx hrel

theorem lsSpinUp_sim {c : Bool} (h : LsSim R P c s t) :
    ∃ c', LsSim R (fun _ => True) c' (lsSpinUp B s) (lsSpinUp C t) := by
  unfold lsSpinUp
  rw [h.spunUp_eq]
  split_ifs
  · exact ⟨c, h.bridge, h.connected, h.vars, trivial⟩
  · have hspun : LsSim R (fun _ => True) c { s with spunUp := true } { t with spunUp := true } :=
      h.change rfl rfl rfl (congrArg (fun v : Ls Unit => { v with spunUp := true }) h.vars)
        trivial
    obtain ⟨_, hdrain⟩ := lsDrainSense_sim hR 5 hspun
    have hclean (cdb : List UInt8) (hcdb : ∀ val ∈ cdb, val ≠ 0x22) (buf : ℕ → UInt8) :
        LsClean cdb 0 false buf := ⟨hcdb, by decide, by decide, nofun⟩
    have hcdb : (∀ val ∈ lsStartCdb, val ≠ 0x22) ∧ ∀ val ∈ lsTurCdb, val ≠ 0x22 :=
      ⟨forall_mem_of_all (by decide), forall_mem_of_all (by decide)⟩
    obtain ⟨-, hstart⟩ := lsPacketCommand_sim hR (hclean lsStartCdb hcdb.1 _) hdrain
    obtain ⟨-, htur⟩ := lsPacketCommand_sim hR (hclean lsTurCdb hcdb.2 _) hstart
    exact ⟨false, htur⟩

/-! ## Polls -/

/-- One look at a drive that settles. -/
theorem lsSettleStep_sim (h : LsSim R P true s t) :
    (lsSettleStep B s).1 = (lsSettleStep C t).1 ∧
      LsSim R P true (lsSettleStep B s).2 (lsSettleStep C t).2 := by
  obtain ⟨hst, hread⟩ := lsStatusRead_sim hR h
  obtain ⟨hlo, hread'⟩ := lsRegRead_sim hR ataRegBclo (by decide) (by decide) hread
  obtain ⟨hhi, hread''⟩ := lsRegRead_sim hR ataRegBchi (by decide) (by decide) hread'
  unfold lsSettleStep
  dsimp only
  rw [hst, hlo, hhi]
  split_ifs
  · exact ⟨rfl, hread⟩
  · exact ⟨rfl, hread⟩
  · exact ⟨rfl, hread'⟩
  · exact ⟨rfl, hread''⟩
  · exact ⟨rfl, hread''⟩

theorem lsOpenReset_sim (h : LsSim R P false s t) :
    LsSim R P true (lsOpenReset B s) (lsOpenReset C t) := by
  refine lsAtaPulseReset_sim hR ⟨hR.openFrame h.bridge, rfl, ?_, h.buf⟩
  exact congrArg (fun v : Ls Unit => { v with connected := true }) h.vars

/-! ## The miniport -/

/-- No byte of the request's command is 22h. -/
def LsSrb.Clean (srb : LsSrb) : Prop :=
  LsClean (lsPacket srb) srb.dataTransferLength srb.isOut srb.data

/-- The miniport over another transport. -/
def LsMp.over (l : Ls γ) (s : LsMp β) : LsMp γ := { s with ls := l }

/-- Two miniports that differ in their bridges alone. While the drive settles the bridge is held
connected, and a request that is held writes no byte 22h. -/
def MpSim (R : Bool → β → γ → Prop) (s : LsMp β) (t : LsMp γ) : Prop :=
  ∃ l c, t = s.over l ∧ LsSim R (fun _ => True) c s.ls l ∧ (s.state = .settling → c = true) ∧
    ∀ srb ∈ s.pendSrb, srb.Clean

omit hR in
theorem MpSim.complete {s : LsMp β} {t : LsMp γ} (h : MpSim R s t) (srb : LsSrb)
    (status : LsStatus) (data : ℕ → UInt8) :
    MpSim R (lsComplete srb status data s) (lsComplete srb status data t) := by
  obtain ⟨l, c, rfl, hls, hconn, hheld⟩ := h
  exact ⟨l, c, rfl, hls, hconn, hheld⟩

/-- A request for the drive, once it has settled. -/
theorem MpSim.selected {srb : LsSrb} {s : LsMp β} {t : LsMp γ} (hsrb : srb.Clean)
    (hstate : s.state ≠ .settling) (h : MpSim R s t) :
    MpSim R (lsSelected B srb s) (lsSelected C srb t) := by
  unfold lsSelected
  dsimp only
  by_cases htarget : srb.lun ≠ 0 ∨ srb.targetId ≠ 0
  · rw [if_pos htarget, if_pos htarget]
    exact h.complete _ _ _
  rw [if_neg htarget, if_neg htarget]
  obtain ⟨l, c, rfl, hls, -, hheld⟩ := h
  obtain ⟨c', hspin⟩ := lsSpinUp_sim hR hls
  have hspun : MpSim R { s with ls := lsSpinUp B s.ls } ({ s with ls := lsSpinUp B s.ls }.over
      (lsSpinUp C l)) := ⟨_, c', rfl, hspin, fun h => absurd h hstate, hheld⟩
  by_cases hlen : lsCdbMax < srb.cdbLength ∨ srb.cdbLength = 0
  · rw [if_pos hlen, if_pos hlen]
    exact hspun.complete _ _ _
  rw [if_neg hlen, if_neg hlen]
  have hbuf : LsSim R (fun _ => True) c' { lsSpinUp B s.ls with buf := srb.data }
      { lsSpinUp C l with buf := srb.data } :=
    hspin.change rfl rfl rfl (congrArg (fun v : Ls Unit => { v with buf := srb.data }) hspin.vars)
      trivial
  have hclean : LsClean (lsPacket srb) srb.dataTransferLength srb.isOut
      (Ls.buf { lsSpinUp B s.ls with buf := srb.data }) := hsrb
  obtain ⟨hgoes, hrel⟩ := lsPacketCommand_sim hR hclean hbuf
  have hdata := hrel.buf_eq
  dsimp only [LsMp.over] at hgoes hrel hdata ⊢
  rw [hgoes, hdata]
  have hrun : MpSim R { s with ls := _ } ({ s with ls := _ }.over _) :=
    ⟨_, false, rfl, hrel, fun h => absurd h hstate, hheld⟩
  exact hrun.complete _ _ _

/-- A request is answered the same, or held by both. -/
theorem MpSim.startIo {srb : LsSrb} {s : LsMp β} {t : LsMp γ} (hsrb : srb.Clean)
    (h : MpSim R s t) : MpSim R (lsStartIo B srb s) (lsStartIo C srb t) := by
  obtain ⟨l, c, rfl, hls, hconn, hheld⟩ := h
  have hcount : MpSim R { s with srbCount := s.srbCount + 1 }
      ({ s with srbCount := s.srbCount + 1 }.over l) := ⟨l, c, rfl, hls, hconn, hheld⟩
  obtain ⟨ls, state, settleLeft, pendSrb, srbCount, port⟩ := s
  unfold lsStartIo
  dsimp only [LsMp.over] at hcount ⊢
  by_cases hexec : srb.executeScsi = false
  · rw [if_pos hexec, if_pos hexec]
    exact hcount.complete _ _ _
  rw [if_neg hexec, if_neg hexec]
  cases state with
  | absent => exact hcount.complete _ _ _
  | settling =>
    dsimp only
    split_ifs
    · refine ⟨l, c, rfl, hls, fun _ => hconn rfl, fun srb' hmem => ?_⟩
      obtain rfl := Option.some.inj hmem
      exact hsrb
    · exact hcount.complete _ _ _
  | ready => exact hcount.selected hR hsrb LsState.noConfusion

theorem MpSim.pending {s : LsMp β} {t : LsMp γ} (h : MpSim R s t) :
    MpSim R (lsPending B s) (lsPending C t) := by
  obtain ⟨l, c, rfl, hls, hconn, hheld⟩ := h
  unfold lsPending
  cases hpend : s.pendSrb with
  | none =>
    dsimp only [LsMp.over]
    rw [hpend]
    exact ⟨l, c, congrArg (fun pend => { s with ls := l, pendSrb := pend }) hpend.symm, hls, hconn,
      hheld⟩
  | some srb =>
    have hnone : MpSim R { s with pendSrb := none } ({ s with pendSrb := none }.over l) :=
      ⟨l, c, rfl, hls, hconn, nofun⟩
    dsimp only [LsMp.over]
    rw [hpend]
    exact hnone.startIo hR (hheld srb hpend)

/-- A tick while the drive settles, and the answer to what is held once it is over. -/
theorem MpSim.settle {s : LsMp β} {t : LsMp γ} (hstate : s.state = .settling)
    (h : MpSim R s t) : MpSim R (lsSettle B s) (lsSettle C t) := by
  obtain ⟨l, c, rfl, hls, hconn, hheld⟩ := h
  obtain rfl := hconn hstate
  obtain ⟨hsaid, hrel⟩ := lsSettleStep_sim hR hls
  unfold lsSettle
  dsimp only [LsMp.over]
  rw [hsaid]
  cases (lsSettleStep C l).1 with
  | ready => exact MpSim.pending hR ⟨_, true, rfl, hrel, fun _ => rfl, hheld⟩
  | absent => exact MpSim.pending hR ⟨_, true, rfl, hrel, fun _ => rfl, hheld⟩
  | settling =>
    dsimp only
    split_ifs
    · exact ⟨_, true, rfl, hrel, fun _ => rfl, hheld⟩
    · exact MpSim.pending hR ⟨_, true, rfl, hrel, fun _ => rfl, hheld⟩

theorem MpSim.timer {s : LsMp β} {t : LsMp γ} (h : MpSim R s t) :
    MpSim R (lsTimer B s) (lsTimer C t) := by
  obtain ⟨l, c, rfl, hls, hconn, hheld⟩ := h
  have hdue : MpSim R { s with port := { s.port with timer := true } }
      ({ s with port := { s.port with timer := true } }.over l) :=
    ⟨l, c, rfl, hls, hconn, hheld⟩
  by_cases hquiet : s.state ≠ .settling ∧ s.pendSrb = none
  · have hB : lsTimer B s = s := if_pos hquiet
    have hC : lsTimer C (s.over l) = s.over l := if_pos hquiet
    rw [hB, hC]
    exact ⟨l, c, rfl, hls, hconn, hheld⟩
  by_cases hstate : s.state = .settling
  · have hB : lsTimer B s = lsSettle B { s with port := { s.port with timer := true } } :=
      (if_neg hquiet).trans (if_neg (not_not.2 hstate))
    have hC : lsTimer C (s.over l) =
        lsSettle C ({ s with port := { s.port with timer := true } }.over l) :=
      (if_neg hquiet).trans (if_neg (not_not.2 hstate))
    rw [hB, hC]
    exact hdue.settle hR hstate
  · have hB : lsTimer B s = lsPending B { s with port := { s.port with timer := true } } :=
      (if_neg hquiet).trans (if_pos hstate)
    have hC : lsTimer C (s.over l) =
        lsPending C ({ s with port := { s.port with timer := true } }.over l) :=
      (if_neg hquiet).trans (if_pos hstate)
    rw [hB, hC]
    exact hdue.pending hR

/-- A call of SCSIPORT that sends no byte 22h. -/
def LsCall.Clean : LsCall → Prop
  | .startIo srb => srb.Clean
  | .timer => True

theorem MpSim.call {s : LsMp β} {t : LsMp γ} (h : MpSim R s t) {call : LsCall}
    (hclean : call.Clean) : MpSim R (lsCall B s call) (lsCall C t call) := by
  obtain ⟨l, c, rfl, hls, hconn, hheld⟩ := h
  cases call with
  | startIo srb => exact MpSim.startIo hR hclean ⟨l, c, rfl, hls, hconn, hheld⟩
  | timer => exact MpSim.timer hR ⟨l, c, rfl, hls, hconn, hheld⟩

/-- A run, call by call. -/
theorem MpSim.run : ∀ {calls : List LsCall} {s : LsMp β} {t : LsMp γ}, MpSim R s t →
    (∀ call ∈ calls, call.Clean) →
    MpSim R (Steps.after (lsCall B) s calls) (Steps.after (lsCall C) t calls)
  | [], _, _, h, _ => h
  | _ :: _, _, _, h, hclean =>
    let ⟨hcall, hrest⟩ := List.forall_mem_cons.1 hclean
    (h.call hR hcall).run hrest

theorem lsInitialize_sim {b : β} {c : γ} (h : R false b c) :
    MpSim R (lsInitialize B (lsLoaded b)) (lsInitialize C (lsLoaded c)) := by
  have hloaded : LsSim R (fun _ => True) false (lsLoaded b).ls (lsLoaded c).ls :=
    ⟨h, rfl, rfl, trivial⟩
  exact ⟨_, true, rfl, lsOpenReset_sim hR hloaded, fun _ => rfl, nofun⟩

end Refines

end Inboard
