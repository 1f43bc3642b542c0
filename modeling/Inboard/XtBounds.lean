import Inboard.XtCommit

/-!
# The medium a request may name

A READ or WRITE should go to the drive exactly when its last sector is on the medium that
READ CAPACITY reports (`Handled`). `XtStartIo` bounds it by the LBA28 capacity alone, so a
unit that has none is not bounded at all, and the registers wrap on an address they do not
reach ; `xtide_handled_iff` says for which requests neither matters.
-/

set_option linter.unusedSectionVars false

namespace Inboard

open Ata (Device)

variable {δ : Type*}

/-! ## The size of a medium -/

/-- The last LBA in a READ CAPACITY reply, high byte first. -/
def replyLast (reply : List UInt8) : ℕ :=
  (reply.take 4).foldl (fun n b => n * 256 + b.toNat) 0

/-- The last LBA that READ CAPACITY reports of a unit, if it reports one. -/
def XtGeometry.lastLba (g : XtGeometry) : Option ℕ :=
  if xtCapacity g = 0 then none else some (replyLast (xtCapacityReply (xtCapacity g - 1)))

/-- The last sector of the request is on the medium that READ CAPACITY reports. -/
def XtGeometry.Holds (g : XtGeometry) (r : XtRequest) : Prop :=
  ∃ last, g.lastLba = some last ∧ r.lba + r.count - 1 ≤ last

theorem capacityReply_last {last : ℕ} (h : last < 2 ^ 32) :
    replyLast (xtCapacityReply last) = last := by
  have hbyte (n : ℕ) : (UInt8.ofNat n).toNat = n % 2 ^ 8 := UInt8.toNat_ofNat
  simp only [replyLast, xtCapacityReply, List.take_succ_cons, List.take_zero, List.foldl_cons,
    List.foldl_nil, hbyte]
  omega

/-- A unit IDENTIFY described, with tracks that the registers address. -/
structure XtGeometry.Identified (g : XtGeometry) : Prop extends XtGeometry.Tracked g where
  ident : ∃ ident, g = xtideCaptureGeometry ident

theorem idWord_lt (ident : ℕ → UInt8) (off : ℕ) : idWord ident off < 2 ^ 16 := by
  have := (ident off).toNat_lt
  have := (ident (off + 1)).toNat_lt
  unfold idWord
  omega

theorem XtGeometry.Identified.cyls_lt {g : XtGeometry} (h : g.Identified) : g.cyls < 2 ^ 16 := by
  obtain ⟨ident, rfl⟩ := h.ident
  exact idWord_lt ident 2

theorem XtGeometry.Identified.totalSec_lt {g : XtGeometry} (h : g.Identified) :
    g.totalSec < 2 ^ 32 := by
  obtain ⟨ident, rfl⟩ := h.ident
  have := idWord_lt ident 120
  have := idWord_lt ident 122
  unfold xtideCaptureGeometry
  dsimp only
  omega

/-- The capacity is the LBA28 one, or the CHS product. -/
theorem XtGeometry.Identified.capacity {g : XtGeometry} (h : g.Identified) :
    xtCapacity g = if g.totalSec ≠ 0 then g.totalSec else g.cyls * (g.heads * g.spt) := by
  have hcyls := h.cyls_lt
  have hheads : g.cyls * g.heads ≤ 65535 * 16 :=
    Nat.mul_le_mul (Nat.le_of_lt_succ hcyls) h.heads_le
  have hall : g.cyls * g.heads * g.spt ≤ 65535 * 16 * 255 := Nat.mul_le_mul hheads h.spt_le
  unfold xtCapacity
  rw [Nat.mod_eq_of_lt (Nat.lt_of_le_of_lt hheads (by decide)),
    Nat.mod_eq_of_lt (Nat.lt_of_le_of_lt hall (by decide)), Nat.mul_assoc]

theorem XtGeometry.Identified.capacity_le {g : XtGeometry} (h : g.Identified) :
    xtCapacity g < 2 ^ 32 := by
  have htotal := h.totalSec_lt
  have hall := Nat.mul_le_mul (Nat.le_of_lt_succ h.cyls_lt) h.track_le
  rw [h.capacity]
  split_ifs
  · exact htotal
  · omega

/-- What READ CAPACITY makes of it. -/
theorem XtGeometry.Identified.holds_iff {g : XtGeometry} (h : g.Identified) {r : XtRequest}
    (hcount : r.count ≠ 0) : g.Holds r ↔ r.lba + r.count ≤ xtCapacity g := by
  have hlt := h.capacity_le
  have hlast : replyLast (xtCapacityReply (xtCapacity g - 1)) = xtCapacity g - 1 :=
    capacityReply_last (by omega)
  unfold Holds lastLba
  rw [hlast]
  split_ifs with hzero
  · refine ⟨fun ⟨_, hnone, _⟩ => (nomatch hnone), fun hle => ?_⟩
    omega
  · simp only [Option.some.injEq, exists_eq_left']
    omega

/-! ## Requests past the registers -/

section Ready

variable {D : XtDrive δ} (hD : D.Ready) (B : XtBuild)

include hD

/-- Every command of a request is given, and the device reads the address of the last one as far
as the registers reach. -/
theorem xtXferLoop_ready {s : Xt δ} {unit : Bool} (hg : s.geom.Tracked)
    (hunit : s.tryUnit = drvHdBase unit) (hcount : s.reqCount ≠ 0)
    (hend : s.reqLba + s.reqCount ≤ 2 ^ 32) :
    ∃ as, s.Sent as (xtXferLoop D B s).2 ∧ ∀ (geom : Bool → Ata.Geometry) (d : Device),
      geom unit = s.geom.ata → d.buf = [] → ∃ cs ms,
        d.Added (d.run s.activeTransport.wiring geom as) cs ms ∧ ∃ c ∈ cs, c.xfer.left ≠ 0 ∧
          c.xfer.next = some (lastChunk s.reqLba s.reqCount % s.geom.reach) := by
  have haddr := xtAddress_ne_none hg hunit s.reqLba
  unfold xtXferLoop
  rw [if_neg hcount]
  obtain ⟨hne, hle, hmax, hwhole⟩ := chunk_bounds hcount
  dsimp only
  generalize min s.reqCount XT_MAX_CHUNK = ecx at hne hle hmax hwhole ⊢
  obtain ⟨as, blocks, hcmd, -⟩ := xtChunk_spec D B ecx (s.reqCount - ecx) s hne hmax
  have hready := xtChunk_ready hD B ecx (s.reqCount - ecx) haddr
  generalize xtChunk D B ecx (s.reqCount - ecx) s = r at hcmd hready ⊢
  obtain ⟨ok, t⟩ := r
  obtain rfl : ok = true := hready
  have hfirst {geom : Bool → Ata.Geometry} {d : Device} (hgeom : geom unit = s.geom.ata)
      (hbuf : d.buf = []) : ∃ c ms, d.Added (d.run s.activeTransport.wiring geom as) [c] ms ∧
        c.xfer.left ≠ 0 ∧ c.xfer.next = some (s.reqLba % s.geom.reach) := by
    obtain ⟨hok, -⟩ | ⟨o, settled, ho, -, hadded⟩ := hcmd.serves geom d hbuf
    · exact absurd hok (by simp)
    · obtain ⟨o', ho', hsector, hdev⟩ := sector_xtAddress hg unit s.reqLba ecx
      rw [hunit, ho'] at ho
      obtain rfl := Option.some.inj ho
      refine ⟨_, _, hadded, ?_, ?_⟩
      · have hcount := count_taskFile o' hne hmax
        exact hcount.trans_ne hne
      · rw [← hsector, ← hgeom, ← hdev]
        rfl
  dsimp only
  split_ifs with hrest
  · have hlast : lastChunk s.reqLba s.reqCount = s.reqLba := by
      simp only [lastChunk, XT_MAX_CHUNK] at hmax ⊢
      omega
    refine ⟨as, hcmd.sent.request _ t.reqLba t.reqBuf, fun geom d hgeom hbuf => ?_⟩
    obtain ⟨c, ms, hadded, hc⟩ := hfirst hgeom hbuf
    rw [hlast]
    exact ⟨[c], ms, hadded, c, List.mem_singleton_self c, hc⟩
  · have hlba : (t.reqLba + ecx) % 2 ^ 32 = s.reqLba + ecx := by
      rw [hcmd.reqLba]
      exact Nat.mod_eq_of_lt (by omega)
    obtain ⟨as', hsent', hnext⟩ := xtXferLoop_ready (s := t.onward ecx (s.reqCount - ecx))
      (hcmd.sent.geom ▸ hg) (hcmd.sent.tryUnit.trans hunit) hrest
      (by dsimp only [Xt.onward]; omega)
    refine ⟨as ++ as', (hcmd.sent.onward ecx _).trans hsent', fun geom d hgeom hbuf => ?_⟩
    obtain ⟨c, ms, hadded, -⟩ := hfirst hgeom hbuf
    obtain ⟨cs', ms', hadded', c', hc', hlast⟩ := hnext geom _
      (hgeom.trans (congrArg XtGeometry.ata hcmd.sent.geom.symm)) hadded.buf
    dsimp only [Xt.onward] at hlast hadded'
    rw [hlba, lastChunk_rest s.reqLba hrest hwhole, hcmd.sent.geom] at hlast
    rw [hcmd.sent.activeTransport] at hadded'
    rw [Device.run_append]
    exact ⟨_, _, hadded.trans hadded', c', List.mem_append_right [c] hc', hlast⟩
termination_by s.reqCount
decreasing_by
  simp only [Xt.onward]
  omega

end Ready

theorem XtGeometry.Tracked.le_reach {g : XtGeometry} (h : g.Tracked) : 2 ^ 16 ≤ g.reach := by
  have := Nat.mul_pos h.heads_pos h.spt_pos
  unfold reach
  split_ifs <;> omega

/-! ## Requests -/

/-- The request went to the drive, and no command for it named another sector. -/
def Xt.Passes (s : Xt δ) (p : UInt32) (srb : Srb) (unit : Bool) (g : XtGeometry) (r : XtRequest)
    (t : Xt δ) : Prop :=
  ∃ es, t.log = s.log ++ .startIo p srb :: es ∧ accesses es ≠ [] ∧
    ∀ (geom : Bool → Ata.Geometry) (d : Device), geom unit = g.ata → d.buf = [] → ∃ cs ms m,
      d.Added (d.run s.activeTransport.wiring geom (accesses es)) cs ms ∧
        cs.flatMap (·.xfer.sectors) = List.range' r.lba m ∧ m ≤ r.count ∧
        ∀ c ∈ cs, c.xfer.dev = unit

/-- The request was refused, and the drive left alone. -/
def Xt.Refuses (s : Xt δ) (p : UInt32) (srb : Srb) (t : Xt δ) : Prop :=
  t.log = s.log ++ .startIo p srb :: finishEvents p .invalidRequest

/-- Whatever the drive, the build and the state, `srb` goes to the drive if its last sector is on
the medium that READ CAPACITY reports, and is refused if it is not. -/
def Handled (g : XtGeometry) (srb : Srb) (unit : Bool) (r : XtRequest) : Prop :=
  ∀ (δ : Type) (D : XtDrive δ) (B : XtBuild) (p : UInt32) (s : Xt δ), srb.Asks s unit r →
    s.units unit = g →
      (g.Holds r → s.Passes p srb unit g r (xtStartIo D B p srb s)) ∧
        (¬g.Holds r → s.Refuses p srb (xtStartIo D B p srb s))

theorem accesses_finishEvents (p : UInt32) (st : SrbStatus) : accesses (finishEvents p st) = [] :=
  rfl

theorem Xt.Passes.not_refuses {s t : Xt δ} {p : UInt32} {srb : Srb} {unit : Bool} {g : XtGeometry}
    {r : XtRequest} (h : s.Passes p srb unit g r t) : ¬s.Refuses p srb t := by
  intro hrefuse
  obtain ⟨es, hlog, hes, -⟩ := h
  rw [Xt.Refuses, hlog] at hrefuse
  have heq : es = finishEvents p .invalidRequest := by simpa using hrefuse
  rw [heq] at hes
  exact hes (accesses_finishEvents ..)

section Drive

variable (D : XtDrive δ) (B : XtBuild) {p : UInt32} {srb : Srb} {s : Xt δ} {unit : Bool}
  {g : XtGeometry} {r : XtRequest}

/-- `XtStartIo` bounds a request by the LBA28 capacity, if there is one. -/
theorem xtPastEnd_iff (hg : g.Identified) (hunit : s.units unit = g) (buf : UInt32) :
    xtPastEnd (s.asked unit r buf) = true ↔ g.totalSec ≠ 0 ∧ g.totalSec < r.lba + r.count := by
  have hlt := hg.totalSec_lt
  subst hunit
  rw [xtPastEnd, Bool.and_eq_true, bne_iff_ne, Bool.or_eq_true, decide_eq_true_iff,
    decide_eq_true_iff]
  dsimp only [Xt.asked, xtideSelectUnit]
  omega

theorem xtStartIo_refuses (h : srb.Asks s unit r) (hcount : r.count ≠ 0)
    (hpast : xtPastEnd (s.asked unit r s.reqBuf) = true ∨ srb.dataBuffer = 0) :
    s.Refuses p srb (xtStartIo D B p srb s) := by
  have hfinish : (xtFinish p .invalidRequest ((s.say (.startIo p srb)).asked unit r s.reqBuf)).log =
      s.log ++ .startIo p srb :: finishEvents p .invalidRequest := by
    rw [xtFinish_eq]
    simp [Xt.asked, Xt.say, xtideSelectUnit]
  have hsome : ¬((s.say (.startIo p srb)).asked unit r s.reqBuf).reqCount = 0 := hcount
  rw [Xt.Refuses, xtStartIo_eq D B p h, xtTransfer, if_neg hsome]
  split_ifs with hend hbuf
  · exact hfinish
  · exact hfinish
  · exact absurd hpast (not_or.2 ⟨hend, hbuf⟩)

theorem xtStartIo_transferRun (h : srb.Asks s unit r) (hcount : r.count ≠ 0)
    (hpast : xtPastEnd (s.asked unit r s.reqBuf) = false) (hbuf : srb.dataBuffer ≠ 0) :
    xtStartIo D B p srb s =
      xtTransferRun D B p ((s.say (.startIo p srb)).asked unit r srb.dataBuffer) := by
  have hsome : ¬((s.say (.startIo p srb)).asked unit r s.reqBuf).reqCount = 0 := hcount
  have hend : ¬xtPastEnd ((s.say (.startIo p srb)).asked unit r s.reqBuf) = true := by
    rw [Bool.not_eq_true]
    exact hpast
  rw [xtStartIo_eq D B p h, xtTransfer, if_neg hsome, if_neg hend, if_neg hbuf]
  rfl

/-- What the transfer adds to the log. -/
theorem xtTransferRun_log (p : UInt32) (s : Xt δ) : ∃ tail, accesses tail = [] ∧
    (xtTransferRun D B p s).log = (xtideXferRun D B s).2.log ++ tail := by
  unfold xtTransferRun
  generalize xtideXferRun D B s = q
  obtain ⟨ok, t⟩ := q
  cases ok with
  | false =>
    dsimp only
    exact ⟨finishEvents p .error, rfl, by rw [xtFinish_eq]⟩
  | true =>
    dsimp only
    split_ifs
    · exact ⟨yieldEvents, rfl, rfl⟩
    · exact ⟨finishEvents p .success, rfl, by rw [xtFinish_eq]⟩

/-- The log of a request that is run. -/
theorem xtStartIo_log (h : srb.Asks s unit r) (hcount : r.count ≠ 0)
    (hpast : xtPastEnd (s.asked unit r s.reqBuf) = false) (hbuf : srb.dataBuffer ≠ 0)
    {as : List Ata.Access}
    (hsent : ((s.say (.startIo p srb)).asked unit r srb.dataBuffer).Sent as (xtideXferRun D B
      ((s.say (.startIo p srb)).asked unit r srb.dataBuffer)).2) :
    ∃ es, (xtStartIo D B p srb s).log = s.log ++ .startIo p srb :: es ∧ accesses es = as := by
  obtain ⟨tail, htail, hlog⟩ := xtTransferRun_log D B p
    ((s.say (.startIo p srb)).asked unit r srb.dataBuffer)
  refine ⟨as.map .access ++ tail, ?_, ?_⟩
  · rw [xtStartIo_transferRun D B h hcount hpast hbuf, hlog, hsent.log]
    simp [Xt.asked, Xt.say, xtideSelectUnit]
  · rw [accesses_append, accesses_access, htail, List.append_nil]

theorem xtStartIo_passes (h : srb.Asks s unit r) (hg : g.Tracked) (hunit : s.units unit = g)
    (hcount : r.count ≠ 0) (hpast : xtPastEnd (s.asked unit r s.reqBuf) = false)
    (hbuf : srb.dataBuffer ≠ 0) (hreach : lastChunk r.lba r.count < g.reach) :
    s.Passes p srb unit g r (xtStartIo D B p srb s) := by
  have hfit := cdbRequest_count h.request
  subst hunit
  obtain ⟨n, as, hmoved, -⟩ := xtideXferRun_spec D B
    ((s.say (.startIo p srb)).asked unit r srb.dataBuffer) unit hg rfl (.inl hreach)
    (by dsimp only [Xt.asked]; omega)
  obtain ⟨es, hlog, hes⟩ := xtStartIo_log D B h hcount hpast hbuf hmoved.sent
  refine ⟨es, hlog, hes ▸ hmoved.ne hcount, fun geom d hgeom hempty => ?_⟩
  obtain ⟨cs, m, hadded, hsectors, -, hm, hcs⟩ := hmoved.requested geom d hgeom hempty
  rw [hes]
  exact ⟨cs, _, m, hadded, hsectors, hm, fun c hc => (hcs c hc).2.1⟩

/-- A request that the registers do not reach does not pass. -/
theorem not_passes_ready {D : XtDrive δ} (hD : D.Ready) (h : srb.Asks s unit r) (hg : g.Tracked)
    (hunit : s.units unit = g) (hcount : r.count ≠ 0)
    (hpast : xtPastEnd (s.asked unit r s.reqBuf) = false) (hbuf : srb.dataBuffer ≠ 0)
    (hend : r.lba + r.count ≤ 2 ^ 32) (hreach : g.reach ≤ lastChunk r.lba r.count) :
    ¬s.Passes p srb unit g r (xtStartIo D plainBuild p srb s) := by
  have hfit := cdbRequest_count h.request
  subst hunit
  rintro ⟨es, hlog, -, hpass⟩
  obtain ⟨as, hsent, hlast⟩ := xtXferLoop_ready hD plainBuild
    (s := (s.say (.startIo p srb)).asked unit r srb.dataBuffer) hg
        (rfl : _ = drvHdBase unit) hcount hend
  obtain ⟨es', hlog', hes⟩ := xtStartIo_log D plainBuild h hcount hpast hbuf hsent
  obtain rfl : es = es' := by
    rw [hlog] at hlog'
    simpa using hlog'
  obtain ⟨cs, ms, m, hadded, hsectors, hm, -⟩ := hpass (fun _ => (s.units unit).ata)
    (Device.idle ⟨0, 0, 0, 0, 0⟩) rfl rfl
  obtain ⟨cs', ms', hadded', c, hc, hleft, hnext⟩ := hlast (fun _ => (s.units unit).ata)
    (Device.idle ⟨0, 0, 0, 0, 0⟩) rfl rfl
  rw [hes] at hadded
  obtain rfl : cs = cs' := List.append_cancel_left (hadded.issued.symm.trans hadded'.issued)
  have hmem : lastChunk r.lba r.count % (s.units unit).reach ∈ List.range' r.lba m := by
    rw [← hsectors]
    refine List.mem_flatMap.2 ⟨c, hc, ?_⟩
    unfold Ata.Transfer.sectors
    rw [hnext]
    exact List.mem_range'_1.2 ⟨Nat.le_refl _, Nat.lt_add_of_pos_right (Nat.pos_of_ne_zero hleft)⟩
  have hlow := (List.mem_range'_1.1 hmem).1
  have hlt := lastChunk_lt r.lba hcount
  have hwide := hg.le_reach
  have hwrap : lastChunk r.lba r.count % (s.units unit).reach ≤
      lastChunk r.lba r.count - (s.units unit).reach := by
    rw [Nat.mod_eq_sub_mod hreach]
    exact Nat.mod_le ..
  omega

end Drive

/-- A request on the medium passes if it has a buffer and the registers reach it. -/
theorem holds_passes (D : XtDrive δ) (B : XtBuild) {p : UInt32} {srb : Srb} {s : Xt δ}
    {unit : Bool} {g : XtGeometry} {r : XtRequest} (hg : g.Identified) (h : srb.Asks s unit r)
    (hunit : s.units unit = g) (hcount : r.count ≠ 0) (hheld : g.Holds r)
    (hbuf : srb.dataBuffer ≠ 0) (hreach : lastChunk r.lba r.count < g.reach) :
    s.Passes p srb unit g r (xtStartIo D B p srb s) := by
  have hcap := (hg.holds_iff hcount).1 hheld
  have hpast : ¬xtPastEnd (s.asked unit r s.reqBuf) = true := by
    rw [xtPastEnd_iff hg hunit]
    rintro ⟨htotal, hlt⟩
    rw [hg.capacity, if_pos htotal] at hcap
    omega
  exact xtStartIo_passes D B h hg.toTracked hunit hcount (by simpa using hpast) hbuf hreach

/-- A request that no LBA28 capacity bounds is not refused. -/
theorem not_refuses_unbounded (D : XtDrive δ) (B : XtBuild) {p : UInt32} {srb : Srb} {s : Xt δ}
    {unit : Bool} {g : XtGeometry} {r : XtRequest} (hg : g.Identified) (h : srb.Asks s unit r)
    (hunit : s.units unit = g) (hcount : r.count ≠ 0) (htotal : g.totalSec = 0)
    (hbuf : srb.dataBuffer ≠ 0) : ¬s.Refuses p srb (xtStartIo D B p srb s) := by
  have hpast : ¬xtPastEnd (s.asked unit r s.reqBuf) = true := by
    rw [xtPastEnd_iff hg hunit]
    exact fun h => h.1 htotal
  obtain ⟨as, hsent, hne, -⟩ := xtideXferRun_ends D B
    ((s.say (.startIo p srb)).asked unit r srb.dataBuffer)
  obtain ⟨es, hlog, hes⟩ := xtStartIo_log D B h hcount (by simpa using hpast) hbuf hsent
  intro hrefuse
  rw [Xt.Refuses, hlog] at hrefuse
  have heq : es = finishEvents p .invalidRequest := by simpa using hrefuse
  rw [heq, accesses_finishEvents] at hes
  exact hne hcount hes.symm

/-- `XtStartIo` accepts exactly the medium for a request if : on the medium, it has a buffer and
its last command starts where the registers reach ; past it, the unit has an LBA28 capacity, or
there is no buffer. -/
theorem xtide_handled_iff {g : XtGeometry} (hg : g.Identified) {srb : Srb} {unit : Bool}
    {r : XtRequest} (hsrb : srb.Asks (Xt.probed () (fun _ => g) true) unit r)
    (hcount : r.count ≠ 0) : Handled g srb unit r ↔
      (g.Holds r → srb.dataBuffer ≠ 0 ∧ lastChunk r.lba r.count < g.reach) ∧
        (¬g.Holds r → g.totalSec ≠ 0 ∨ srb.dataBuffer = 0) := by
  have hholds := hg.holds_iff hcount
  have hcap := hg.capacity
  have hlt := hg.capacity_le
  constructor
  · intro h
    obtain ⟨hpass, hrefuse⟩ := h Unit readyDrive plainBuild 1 _ hsrb rfl
    have hrun (hbuf : srb.dataBuffer ≠ 0)
        (hnone : ¬(g.totalSec ≠ 0 ∧ g.totalSec < r.lba + r.count)) :
        xtPastEnd ((Xt.probed () (fun _ => g) true).asked unit r 0) = false := by
      rwa [← Bool.not_eq_true, xtPastEnd_iff hg rfl]
    refine ⟨fun hheld => ?_, fun hnot => ?_⟩
    · have hend := hholds.1 hheld
      have hbuf : srb.dataBuffer ≠ 0 := fun hnull =>
        (hpass hheld).not_refuses (xtStartIo_refuses readyDrive plainBuild hsrb hcount (.inr hnull))
      have hnotPast : ¬(g.totalSec ≠ 0 ∧ g.totalSec < r.lba + r.count) := by
        rintro ⟨htotal, hover⟩
        rw [hcap, if_pos htotal] at hend
        omega
      refine ⟨hbuf, Nat.lt_of_not_le fun hreach => ?_⟩
      exact not_passes_ready readyDrive_ready hsrb hg.toTracked rfl hcount (hrun hbuf hnotPast) hbuf
        (by omega) hreach (hpass hheld)
    · by_contra hopen
      obtain ⟨htotal, hbuf⟩ := not_or.1 hopen
      exact not_refuses_unbounded readyDrive plainBuild hg hsrb rfl hcount (not_not.1 htotal) hbuf
        (hrefuse hnot)
  · rintro ⟨hon, hoff⟩ δ D B p s h hunit
    refine ⟨fun hheld => ?_, fun hnot => ?_⟩
    · obtain ⟨hbuf, hreach⟩ := hon hheld
      exact holds_passes D B hg h hunit hcount hheld hbuf hreach
    · refine xtStartIo_refuses D B h hcount ?_
      rcases hoff hnot with htotal | hnull
      · refine .inl ((xtPastEnd_iff hg hunit _).2 ⟨htotal, ?_⟩)
        rw [hholds, hcap, if_pos htotal] at hnot
        omega
      · exact .inr hnull

/-- IDENTIFY of a drive of one sector, without LBA : words 1, 3 and 6 are 1, the rest is 0. -/
def oneSectorIdent (off : ℕ) : UInt8 := if off = 2 ∨ off = 6 ∨ off = 12 then 1 else 0

theorem oneSector_identified : (xtideCaptureGeometry oneSectorIdent).Identified :=
  ⟨⟨by decide, by decide, by decide, by decide⟩, oneSectorIdent, rfl⟩

/-- The write of its only sector. -/
theorem xtide_handled_oneSector :
    Handled (xtideCaptureGeometry oneSectorIdent) writeFirst false ⟨true, 0, 1⟩ := by
  have hasks : writeFirst.Asks (Xt.probed () (fun _ => xtideCaptureGeometry oneSectorIdent) true)
      false ⟨true, 0, 1⟩ := ⟨rfl, rfl, rfl, nofun, by decide⟩
  have hheld : (xtideCaptureGeometry oneSectorIdent).Holds ⟨true, 0, 1⟩ :=
    (oneSector_identified.holds_iff (by decide)).2 (by decide)
  exact (xtide_handled_iff oneSector_identified hasks (by decide)).2
    ⟨fun _ => by decide, fun h => absurd hheld h⟩

/-- WRITE(10) of sector 65536, whose cylinder does not fit its registers. -/
def writeWrapped : Srb where
  function := .executeScsi
  targetId := 0
  lun := 0
  cdb := fun i => [0x2A, 0, 0, 1, 0, 0, 0, 0, 1, 0].getD i 0
  dataBuffer := 0x1000
  dataTransferLength := 512

theorem writeWrapped_asks (s : Xt δ) : writeWrapped.Asks s false ⟨true, 65536, 1⟩ :=
  ⟨rfl, rfl, rfl, nofun, by decide⟩

/-- On a unit of one sector, without LBA, the write goes to the drive instead of being refused,
and overwrites sector 0. -/
theorem not_xtide_handled : ¬∀ (g : XtGeometry) (srb : Srb) (unit : Bool) (r : XtRequest),
    g.Identified → srb.Asks (Xt.probed () (fun _ => g) true) unit r → r.count ≠ 0 →
      Handled g srb unit r := by
  intro h
  have hall := h _ writeWrapped false _ oneSector_identified (writeWrapped_asks _) (by decide)
  obtain ⟨-, hrefuse⟩ := hall Unit readyDrive plainBuild 1
    (Xt.probed () (fun _ => xtideCaptureGeometry oneSectorIdent) true) (writeWrapped_asks _) rfl
  refine not_refuses_unbounded readyDrive plainBuild oneSector_identified (writeWrapped_asks _) rfl
    (by decide) (by decide) (by decide) (hrefuse ?_)
  rw [oneSector_identified.holds_iff (by decide)]
  decide

end Inboard
