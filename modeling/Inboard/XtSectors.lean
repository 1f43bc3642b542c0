import Inboard.XtAccess

/-!
# The sectors a request moves

The log of a request read by the drive. A command names the sectors that are left and
moves their blocks (`xtideProgramTaskfile_spec`), and a request is its commands in order
(`xtideXferRun_spec`).
-/

set_option linter.unusedSectionVars false

namespace Inboard

open Ata (Device looks)

variable {δ : Type*}

/-! ## Commands -/

/-- From `s` to `t` the drive was accessed, and the variables of the transfer may have
changed. -/
structure Xt.Sent (as : List Ata.Access) (s t : Xt δ) : Prop where
  log : t.log = s.log ++ as.map .access
  stride : t.stride = s.stride
  activeTransport : t.activeTransport = s.activeTransport
  tryUnit : t.tryUnit = s.tryUnit
  slavePresent : t.slavePresent = s.slavePresent
  geom : t.geom = s.geom
  units : t.units = s.units
  reqIsWrite : t.reqIsWrite = s.reqIsWrite
  inquiry : t.inquiry = s.inquiry
  dxSrb : t.dxSrb = s.dxSrb
  dxWakes : t.dxWakes = s.dxWakes

/-- From `s` to `t` a task file was written, at most. -/
structure Xt.Programmed (as : List Ata.Access) (s t : Xt δ) : Prop extends Xt.Sent as s t where
  mem : t.mem = s.mem
  reqLba : t.reqLba = s.reqLba
  reqCount : t.reqCount = s.reqCount
  reqBuf : t.reqBuf = s.reqBuf
  commitPending : t.commitPending = s.commitPending
  deferOk : t.deferOk = s.deferOk

theorem Xt.Sent.trans {as bs : List Ata.Access} {s t u : Xt δ} (h : s.Sent as t)
    (h' : t.Sent bs u) :
    s.Sent (as ++ bs) u where
  log := by rw [h'.log, h.log, List.map_append, List.append_assoc]
  stride := h'.stride.trans h.stride
  activeTransport := h'.activeTransport.trans h.activeTransport
  tryUnit := h'.tryUnit.trans h.tryUnit
  slavePresent := h'.slavePresent.trans h.slavePresent
  geom := h'.geom.trans h.geom
  units := h'.units.trans h.units
  reqIsWrite := h'.reqIsWrite.trans h.reqIsWrite
  inquiry := h'.inquiry.trans h.inquiry
  dxSrb := h'.dxSrb.trans h.dxSrb
  dxWakes := h'.dxWakes.trans h.dxWakes

theorem Xt.Programmed.trans {as bs : List Ata.Access} {s t u : Xt δ} (h : s.Programmed as t)
    (h' : t.Programmed bs u) : s.Programmed (as ++ bs) u where
  toSent := h.toSent.trans h'.toSent
  mem := h'.mem.trans h.mem
  reqLba := h'.reqLba.trans h.reqLba
  reqCount := h'.reqCount.trans h.reqCount
  reqBuf := h'.reqBuf.trans h.reqBuf
  commitPending := h'.commitPending.trans h.commitPending
  deferOk := h'.deferOk.trans h.deferOk

theorem Xt.moved_programmed (s : Xt δ) (d : δ) (as : List Ata.Access) (l : UInt8) (f : ℕ) :
    s.Programmed as (s.moved d as s.mem l f) :=
  ⟨⟨rfl, rfl, rfl, rfl, rfl, rfl, rfl, rfl, rfl, rfl, rfl⟩, rfl, rfl, rfl, rfl, rfl, rfl⟩

theorem Xt.moved_sent (s : Xt δ) (d : δ) (as : List Ata.Access) (m : UInt32 → UInt8) (l : UInt8)
    (f : ℕ) : s.Sent as (s.moved d as m l f) :=
  ⟨rfl, rfl, rfl, rfl, rfl, rfl, rfl, rfl, rfl, rfl, rfl⟩

/-- The registers that an address and a count fill. -/
def XtAddress.taskFile (o : XtAddress) (count : ℕ) : Ata.TaskFile where
  secCnt := UInt8.ofNat count
  secNum := UInt8.ofNat o.secNum
  cylLo := UInt8.ofNat o.cylLo
  cylHi := UInt8.ofNat o.cylHi
  drvHd := UInt8.ofNat o.drvHd

/-- Tracks that a head and a sector register can address : 16 heads, 255 sectors a track. -/
structure XtGeometry.Tracked (g : XtGeometry) : Prop where
  heads_pos : 1 ≤ g.heads
  heads_le : g.heads ≤ 16
  spt_pos : 1 ≤ g.spt
  spt_le : g.spt ≤ 255

/-- The shape of a unit as its registers can address it : a word of cylinders as well, and 28
bits of LBA. -/
structure XtGeometry.Shaped (g : XtGeometry) : Prop extends XtGeometry.Tracked g where
  cyls_lt : g.cyls < 2 ^ 16
  totalSec_le : g.lbaOk = true → g.totalSec ≤ 2 ^ 28

/-- The sectors of the unit's medium, in the mode it is addressed in. -/
def XtGeometry.medium (g : XtGeometry) : ℕ :=
  if g.lbaOk then g.totalSec else g.cyls * g.heads * g.spt

/-- The sectors that the registers can name, in the mode the unit is addressed in. -/
def XtGeometry.reach (g : XtGeometry) : ℕ :=
  if g.lbaOk then 2 ^ 28 else g.heads * g.spt * 2 ^ 16

theorem XtGeometry.Shaped.medium_le {g : XtGeometry} (h : g.Shaped) : g.medium ≤ g.reach := by
  unfold medium reach
  split_ifs with hlba
  · exact h.totalSec_le hlba
  · rw [Nat.mul_assoc, Nat.mul_comm]
    exact Nat.mul_le_mul_left _ (Nat.le_of_lt h.cyls_lt)

theorem XtGeometry.Tracked.track_le {g : XtGeometry} (h : g.Tracked) : g.heads * g.spt ≤ 4080 :=
  Nat.mul_le_mul h.heads_le h.spt_le

theorem XtGeometry.Tracked.reach_le {g : XtGeometry} (h : g.Tracked) : g.reach ≤ 2 ^ 28 := by
  have := h.track_le
  unfold reach
  split_ifs <;> omega

/-- What the unit's device knows of its shape. -/
def XtGeometry.ata (g : XtGeometry) : Ata.Geometry where
  heads := g.heads
  spt := g.spt

/-- The drive/head base of a unit. -/
def drvHdBase (unit : Bool) : ℕ := if unit then DRVHD_SLAVE else DRVHD_MASTER

/-- Drive/Head in LBA mode : the LBA bit, the unit and the top of the address. -/
theorem drvHd_lba (unit : Bool) {h : ℕ} (hh : h < 16) :
    UInt8.ofNat (h ||| DRVHD_LBA ||| drvHdBase unit &&& 0x10) &&& 0x40 ≠ 0 ∧
      (UInt8.ofNat (h ||| DRVHD_LBA ||| drvHdBase unit &&& 0x10) &&& 0x10 != 0) = unit ∧
      (UInt8.ofNat (h ||| DRVHD_LBA ||| drvHdBase unit &&& 0x10) &&& 0x0F).toNat = h := by
  revert h
  cases unit <;> decide

/-- Drive/Head in CHS mode : no LBA bit, the unit and the head. -/
theorem drvHd_chs (unit : Bool) {h : ℕ} (hh : h < 16) :
    UInt8.ofNat (h ||| drvHdBase unit) &&& 0x40 = 0 ∧
      (UInt8.ofNat (h ||| drvHdBase unit) &&& 0x10 != 0) = unit ∧
      (UInt8.ofNat (h ||| drvHdBase unit) &&& 0x0F).toNat = h := by
  revert h
  cases unit <;> decide

theorem toNat_ofNat_mod (n : ℕ) : (UInt8.ofNat (n % 2 ^ 8)).toNat = n % 2 ^ 8 :=
  UInt8.toNat_ofNat_of_lt' (Nat.mod_lt n (by decide))

/-- A device reads an LBA28 task file as the low 28 bits of the address it was made of. -/
theorem sector_xtLba (unit : Bool) (lba n : ℕ) (geom : Ata.Geometry) :
    ((xtLba (drvHdBase unit) lba).taskFile n).sector geom = some (lba % 2 ^ 28) ∧
      ((xtLba (drvHdBase unit) lba).taskFile n).dev = unit := by
  have htop : lba / 2 ^ 24 % 2 ^ 4 < 16 := Nat.mod_lt _ (by decide)
  obtain ⟨hmode, hdev, hhead⟩ := drvHd_lba unit htop
  refine ⟨(Ata.TaskFile.sector_lba hmode geom).trans ?_, hdev⟩
  unfold Ata.TaskFile.lba28 Ata.TaskFile.head
  dsimp only [XtAddress.taskFile, xtLba]
  rw [hhead, toNat_ofNat_mod, toNat_ofNat_mod, toNat_ofNat_mod]
  refine congrArg some ?_
  omega

/-- A device reads a CHS task file as the address it was made of, less whole turns of the
cylinder registers. -/
theorem sector_xtChs {g : XtGeometry} (hg : g.Tracked) (unit : Bool) (lba n : ℕ) :
    ∃ o, xtChs g (drvHdBase unit) lba = some o ∧
      (o.taskFile n).sector g.ata = some (lba % (g.heads * g.spt * 2 ^ 16)) ∧
      (o.taskFile n).dev = unit := by
  have htrack : g.heads * g.spt % 2 ^ 32 = g.heads * g.spt :=
    Nat.mod_eq_of_lt (Nat.lt_of_le_of_lt hg.track_le (by decide))
  have hpos : 0 < g.heads * g.spt := Nat.mul_pos hg.heads_pos hg.spt_pos
  have hhead : lba % (g.heads * g.spt) / g.spt < g.heads :=
    Nat.div_lt_of_lt_mul (Nat.lt_of_lt_of_eq (Nat.mod_lt lba hpos) (Nat.mul_comm ..))
  have hhead16 : lba % (g.heads * g.spt) / g.spt % 2 ^ 4 = lba % (g.heads * g.spt) / g.spt :=
    Nat.mod_eq_of_lt (Nat.lt_of_lt_of_le hhead hg.heads_le)
  have hsec : lba % (g.heads * g.spt) % g.spt < g.spt := Nat.mod_lt _ hg.spt_pos
  obtain ⟨hmode, hdev, hlow⟩ := drvHd_chs unit (Nat.lt_of_lt_of_le hhead hg.heads_le)
  have hsecnum : (UInt8.ofNat (lba % (g.heads * g.spt) % g.spt + 1)).toNat =
      lba % (g.heads * g.spt) % g.spt + 1 := by
    have hlt : lba % (g.heads * g.spt) % g.spt + 1 < 256 :=
      Nat.lt_succ_of_le (Nat.le_trans hsec hg.spt_le)
    exact UInt8.toNat_ofNat_of_lt' hlt
  have hcylinder (cyl : ℕ) : cyl / 2 ^ 8 % 2 ^ 8 * 256 + cyl % 2 ^ 8 = cyl % 2 ^ 16 := by
    omega
  let o : XtAddress :=
    ⟨lba % (g.heads * g.spt) % g.spt + 1, lba / (g.heads * g.spt) % 2 ^ 8,
      lba / (g.heads * g.spt) / 2 ^ 8 % 2 ^ 8, lba % (g.heads * g.spt) / g.spt ||| drvHdBase unit⟩
  refine ⟨o, ?_, ?_, hdev⟩
  · unfold xtChs
    dsimp only
    rw [htrack, hhead16, if_neg (Nat.pos_iff_ne_zero.1 hpos)]
  · have hcylLo : (o.taskFile n).cylLo.toNat = lba / (g.heads * g.spt) % 2 ^ 8 := toNat_ofNat_mod _
    have hcylHi : (o.taskFile n).cylHi.toNat = lba / (g.heads * g.spt) / 2 ^ 8 % 2 ^ 8 :=
      toNat_ofNat_mod _
    have hheadReg : (o.taskFile n).head = lba % (g.heads * g.spt) / g.spt := hlow
    have hsecReg : (o.taskFile n).secNum.toNat = lba % (g.heads * g.spt) % g.spt + 1 := hsecnum
    rw [Ata.TaskFile.sector_chs (g := g.ata) hmode (hheadReg ▸ hhead)
      (hsecReg ▸ Nat.le_add_left 1 _) (hsecReg ▸ hsec), hcylLo, hcylHi, hheadReg, hsecReg,
      hcylinder]
    dsimp only [XtGeometry.ata]
    rw [Nat.add_sub_cancel, Nat.add_mul, Nat.mul_assoc, Nat.add_assoc, Nat.div_add_mod',
      Nat.mod_mul (b := 2 ^ 16), Nat.add_comm, Nat.mul_comm (g.heads * g.spt)]

/-- A device reads a task file as a sector of its own : the one it was made of, if the registers
reach that far. -/
theorem sector_xtAddress {g : XtGeometry} (hg : g.Tracked) (unit : Bool) (lba n : ℕ) :
    ∃ o, xtAddress g (drvHdBase unit) lba = some o ∧
      (o.taskFile n).sector g.ata = some (lba % g.reach) ∧ (o.taskFile n).dev = unit := by
  unfold xtAddress XtGeometry.reach
  split_ifs
  · exact ⟨_, rfl, sector_xtLba unit lba n g.ata⟩
  · exact sector_xtChs hg unit lba n

/-- A unit of the bus has an address for every sector. -/
theorem xtAddress_ne_none {g : XtGeometry} {head : ℕ} {unit : Bool} (hg : g.Tracked)
    (hunit : head = drvHdBase unit) (lba : ℕ) : xtAddress g head lba ≠ none := by
  obtain ⟨o, ho, -⟩ := sector_xtAddress hg unit lba 0
  rw [hunit, ho]
  exact Option.some_ne_none o

section Commands

variable (D : XtDrive δ) (B : XtBuild)

/-- `xrs_program` gives the command, or stops at a busy drive. -/
theorem xtProgram_spec (s : Xt δ) : ∃ as, s.Programmed as (xtProgram D B s).2 ∧
    if (xtProgram D B s).1 then
      (xtProgram D B s).2.tryTransport = s.activeTransport ∧
        ∀ write, s.cmd = (if write then Ata.writeSectors else Ata.readSectors) →
          ∃ vs, as = Ata.programs (s.o.taskFile s.reqCount) vs write
    else ∃ v vs, as = .outb .drvHd v :: looks vs := by
  obtain ⟨d, vs, hwait, -⟩ := xtideWaitNotBusy_spec D B
    (s.outb D .drvHd (UInt8.ofNat s.o.drvHd))
  rw [Xt.outb_eq, Xt.looked, Xt.moved_moved] at hwait
  unfold xtProgram
  rw [Xt.outb_eq]
  split
  · next s' heq =>
    rw [heq] at hwait
    obtain rfl : s' = s.moved d ([.outb .drvHd (UInt8.ofNat s.o.drvHd)] ++ looks vs) s.mem
        s.lastStatus s.failCode := hwait
    refine ⟨_, s.moved_programmed d _ s.lastStatus 7, ?_⟩
    simp only [Bool.false_eq_true, if_false]
    exact ⟨_, vs, rfl⟩
  · next al s' heq =>
    rw [heq] at hwait
    obtain rfl : s' = s.moved d ([.outb .drvHd (UInt8.ofNat s.o.drvHd)] ++ looks vs) s.mem
        s.lastStatus s.failCode := hwait
    refine ⟨.outb .drvHd (UInt8.ofNat s.o.drvHd) :: (looks vs ++
      [.outb .secCnt (UInt8.ofNat s.reqCount), .outb .secNum (UInt8.ofNat s.o.secNum),
        .outb .cylLo (UInt8.ofNat s.o.cylLo), .outb .cylHi (UInt8.ofNat s.o.cylHi),
        .outb .status s.cmd]), ?_, ?_⟩
    · dsimp only [Xt.outb_eq]
      simp only [Xt.moved_moved]
      refine ⟨⟨?_, rfl, rfl, rfl, rfl, rfl, rfl, rfl, rfl, rfl, rfl⟩, rfl, rfl, rfl, rfl, rfl, rfl⟩
      simp [Xt.moved]
    · simp only [if_true]
      refine ⟨rfl, fun write hcmd => ⟨vs, ?_⟩⟩
      rw [Ata.programs, ← hcmd]
      rfl

/-- `XTIDE_ProgramTaskfile` gives the command at the request's address, if it clears the
carry. -/
theorem xtideProgramTaskfile_spec (s : Xt δ) (write : Bool)
    (hcmd : s.cmd = if write then Ata.writeSectors else Ata.readSectors) :
    ∃ vs as, vs ≠ [] ∧ s.Programmed (looks vs ++ as) (xtideProgramTaskfile D B s).2 ∧
      if (xtideProgramTaskfile D B s).1 then
        (xtideProgramTaskfile D B s).2.tryTransport = s.activeTransport ∧
          ∃ o vs', xtAddress s.geom s.tryUnit s.reqLba = some o ∧
            as = Ata.programs (o.taskFile s.reqCount) vs' write
      else as = [] ∨ ∃ v vs', as = .outb .drvHd v :: looks vs' := by
  obtain ⟨d, vs, hwait, hvs, -⟩ := xtideWaitNotBusy_spec D B s
  unfold xtideProgramTaskfile
  split
  · next s' heq =>
    rw [heq] at hwait
    obtain rfl : s' = s.looked d vs := hwait
    refine ⟨vs, [], hvs, ?_, ?_⟩
    · rw [List.append_nil]
      exact s.moved_programmed d _ _ _
    · simp
  · next al s' heq =>
    rw [heq] at hwait
    obtain rfl : s' = s.looked d vs := hwait
    split
    · refine ⟨vs, [], hvs, ?_, ?_⟩
      · rw [List.append_nil]
        exact s.moved_programmed d _ _ _
      · simp
    · next o haddr =>
      obtain ⟨as, hgo, has⟩ := xtProgram_spec D B { s.looked d vs with o := o }
      refine ⟨vs, as, hvs, ?_, ?_⟩
      · have haddressed : s.Programmed (looks vs) { s.looked d vs with o := o } :=
          ⟨⟨rfl, rfl, rfl, rfl, rfl, rfl, rfl, rfl, rfl, rfl, rfl⟩, rfl, rfl, rfl, rfl, rfl, rfl⟩
        exact haddressed.trans hgo
      · split_ifs at has ⊢ with hok
        · obtain ⟨htransport, hgive⟩ := has
          obtain ⟨vs', rfl⟩ := hgive write hcmd
          exact ⟨htransport, o, vs', haddr, rfl⟩
        · exact .inr has

/-- A chunk's count register says how many sectors it has. -/
theorem count_taskFile (o : XtAddress) {n : ℕ} (h0 : n ≠ 0) (hn : n ≤ XT_MAX_CHUNK) :
    (o.taskFile n).count = n := by
  have hlt : n < 256 := Nat.lt_of_le_of_lt hn (by decide)
  have hnat : (UInt8.ofNat n).toNat = n := UInt8.toNat_ofNat_of_lt' hlt
  have hne : UInt8.ofNat n ≠ 0 := by
    intro h
    rw [h] at hnat
    exact h0 hnat.symm
  unfold XtAddress.taskFile Ata.TaskFile.count
  rw [if_neg hne, hnat]

/-- What the drive sees of one command for `n` sectors at the variables' address : nothing,
or the command and its blocks. -/
def Xt.Serves (n : ℕ) (s : Xt δ) (write ok : Bool) (as : List Ata.Access)
    (blocks : List (List UInt8)) (geom : Bool → Ata.Geometry) (d : Device) : Prop :=
  (ok = false ∧ blocks = [] ∧ d.Added (d.run s.activeTransport.wiring geom as) [] []) ∨
    ∃ o settled, xtAddress s.geom s.tryUnit s.reqLba = some o ∧
      (d.settled = true → settled = true) ∧
      d.Added (d.run s.activeTransport.wiring geom as)
        [⟨(o.taskFile n).transfer geom write, settled⟩]
        (((o.taskFile n).transfer geom write).blocks blocks)

/-- One command of at most `n` sectors between memory at `reqBuf` and the drive. -/
structure Xt.Commanded (n : ℕ) (s : Xt δ) (write ok : Bool) (t : Xt δ) (as : List Ata.Access)
    (blocks : List (List UInt8)) : Prop where
  sent : s.Sent as t
  ne : as ≠ []
  reqLba : t.reqLba = s.reqLba
  reqBuf : t.reqBuf = s.reqBuf
  le : blocks.length ≤ n
  all : ok = true → blocks.length = n
  mem : blocks = xtBlocks t.mem s.reqBuf blocks.length
  past : ∀ i, 512 * blocks.length ≤ i → i < 2 ^ 32 →
    t.mem (s.reqBuf + UInt32.ofNat i) = s.mem (s.reqBuf + UInt32.ofNat i)
  wrote : write = true → t.mem = s.mem
  serves : ∀ (geom : Bool → Ata.Geometry) (d : Device), d.buf = [] →
    s.Serves n write ok as blocks geom d

theorem looks_append_ne_nil {vs : List UInt8} (hvs : vs ≠ []) (as : List Ata.Access) :
    looks vs ++ as ≠ [] :=
  List.append_ne_nil_of_left_ne_nil (by simpa [looks] using hvs) as

/-- A command that was not given. -/
theorem Xt.Commanded.notGiven {s t : Xt δ} (n : ℕ) (write : Bool) {vs : List UInt8}
    (hvs : vs ≠ []) {as : List Ata.Access} (h : s.Programmed (looks vs ++ as) t)
    (has : as = [] ∨ ∃ v vs', as = .outb .drvHd v :: looks vs') :
    s.Commanded n write false t (looks vs ++ as) [] where
  sent := h.toSent
  ne := looks_append_ne_nil hvs as
  reqLba := h.reqLba
  reqBuf := h.reqBuf
  le := Nat.zero_le n
  all hok := absurd hok Bool.false_ne_true
  mem := rfl
  past i _ _ := by rw [h.mem]
  wrote _ := h.mem
  serves geom d hbuf := by
    refine .inl ⟨rfl, rfl, ?_⟩
    have hlooks := (Device.added_looks s.activeTransport.wiring geom hbuf vs).1
    rw [Device.run_append]
    obtain rfl | ⟨v, vs', rfl⟩ := has
    · exact hlooks
    · exact hlooks.trans (Device.added_select _ geom hlooks.buf v vs')

/-- A command that was given, and the blocks it moved. -/
theorem Xt.Commanded.given {s t u : Xt δ} {n : ℕ} {write ok : Bool} {vs : List UInt8}
    (hvs : vs ≠ []) (vs' : List UInt8) {o : XtAddress} {as : List Ata.Access}
        {blocks : List (List UInt8)}
    (h : s.Programmed (looks vs ++ Ata.programs (o.taskFile n) vs' write) t)
    (haddr : xtAddress s.geom s.tryUnit s.reqLba = some o) (h0 : n ≠ 0) (hn : n ≤ XT_MAX_CHUNK)
    (hsent : t.Sent as u) (hlba : u.reqLba = t.reqLba) (hreq : u.reqBuf = t.reqBuf)
    (hmoves : Ata.Moves s.activeTransport.wiring write n ok as blocks)
    (hmem : blocks = xtBlocks u.mem t.reqBuf blocks.length)
    (hpast : ∀ i, 512 * blocks.length ≤ i → i < 2 ^ 32 →
      u.mem (t.reqBuf + UInt32.ofNat i) = t.mem (t.reqBuf + UInt32.ofNat i))
    (hwrote : write = true → u.mem = t.mem) :
    s.Commanded n write ok u (looks vs ++ Ata.programs (o.taskFile n) vs' write ++ as) blocks where
  sent := h.toSent.trans hsent
  ne := by
    rw [List.append_assoc]
    exact looks_append_ne_nil hvs _
  reqLba := hlba.trans h.reqLba
  reqBuf := hreq.trans h.reqBuf
  le := hmoves.le
  all := hmoves.all
  mem := by rwa [h.reqBuf] at hmem
  past i hi hlt := by
    have := hpast i hi hlt
    rwa [h.reqBuf, h.mem] at this
  wrote hwrite := (hwrote hwrite).trans h.mem
  serves geom d hbuf := by
    obtain ⟨hlooks, hsettled⟩ := Device.added_looks s.activeTransport.wiring geom hbuf vs
    rw [← count_taskFile o h0 hn] at hmoves
    obtain ⟨settled, hadded, hkeep⟩ :=
      Device.added_command s.activeTransport.wiring geom hlooks.buf (o.taskFile n) vs' hmoves
    refine .inr ⟨o, settled, haddr, fun h => hkeep (hsettled h), ?_⟩
    rw [List.append_assoc, Device.run_append]
    exact hlooks.trans hadded

/-- `XTIDE_ReadSectors`. -/
theorem xtideReadSectors_spec (s : Xt δ) (h0 : s.reqCount ≠ 0) (hn : s.reqCount ≤ XT_MAX_CHUNK) :
    ∃ as blocks, s.Commanded s.reqCount false (xtideReadSectors D B s).1
        (xtideReadSectors D B s).2 as blocks ∧
      (xtideReadSectors D B s).2.commitPending = s.commitPending := by
  have hstart : s.Programmed [] { s with cmd := Ata.readSectors } :=
    ⟨⟨by simp, rfl, rfl, rfl, rfl, rfl, rfl, rfl, rfl, rfl, rfl⟩, rfl, rfl, rfl, rfl, rfl, rfl⟩
  obtain ⟨vs, as, hvs, hgo, has⟩ := xtideProgramTaskfile_spec D B { s with cmd := Ata.readSectors }
    false rfl
  have hprog := hstart.trans hgo
  unfold xtideReadSectors
  split
  · next t heq =>
    rw [heq] at hprog has
    simp only [Bool.false_eq_true, if_false] at has
    exact ⟨_, [], .notGiven s.reqCount false hvs hprog has, hprog.commitPending⟩
  · next t heq =>
    rw [heq] at hprog has
    simp only [if_true] at has
    obtain ⟨htransport, o, vs', haddr, rfl⟩ := has
    have hloops : xtLoops t.reqCount = s.reqCount :=
        (if_neg (hprog.reqCount ▸ h0)).trans hprog.reqCount
    obtain ⟨d, as, l, f, blocks, hloop, hmoves⟩ := xtReadLoop_spec D B s.reqCount t.reqBuf t
    rw [htransport] at hmoves
    rw [hloops]
    have hlen := length_flatten_blocks hmoves.length
    have hfit : 512 * blocks.length ≤ 2 ^ 32 := by
      have := hmoves.le
      have : XT_MAX_CHUNK = 128 := rfl
      omega
    refine ⟨_, blocks, .given hvs vs' hprog haddr h0 hn
        (u := (xtReadLoop D B s.reqCount t.reqBuf t).2)
      ?_ ?_ ?_ hmoves ?_ ?_ (by simp), ?_⟩
    · rw [hloop]
      exact t.moved_sent d as _ l f
    · rw [hloop]
      rfl
    · rw [hloop]
      rfl
    · rw [hloop]
      refine eq_xtBlocks hmoves.length (xtLoad_store _ _ _ ?_)
      rwa [hlen]
    · intro i hi hlt
      rw [hloop]
      exact xtStore_past _ _ _ (hlen ▸ hi) hlt
    · rw [hloop]
      exact hprog.commitPending

/-- `xwr_check` passes a status without ERR. -/
theorem xtCheck_spec {al : UInt8} (hbusy : Ata.busy al = false) (s : Xt δ) (d : δ)
    (vs : List UInt8) : ∃ l f, (xtCheck al (s.looked d (vs ++ [al]))).2 =
        s.moved d (looks (vs ++ [al])) s.mem l f ∧
      ((xtCheck al (s.looked d (vs ++ [al]))).1 = true →
        ∃ vs' v, vs ++ [al] = vs' ++ [v] ∧ Ata.settledStatus v = true) := by
  unfold xtCheck
  split_ifs with herr
  · exact ⟨al, 14, rfl, nofun⟩
  · refine ⟨s.lastStatus, s.failCode, rfl, fun _ => ⟨vs, al, rfl, ?_⟩⟩
    simp [Ata.settledStatus, hbusy, herr]

/-- The end of a write : a status with BSY=0 and ERR=0 was the last, or the commit was left
running. -/
theorem xtCommit_spec (s : Xt δ) : ∃ d vs l f,
    ((xtCommit D B s).2 = s.moved d (looks vs) s.mem l f ∧
      ((xtCommit D B s).1 = true → ∃ vs' v, vs = vs' ++ [v] ∧ Ata.settledStatus v = true)) ∨
    (B.yieldCommit = true ∧ s.deferOk = true ∧ (xtCommit D B s).1 = true ∧
      (xtCommit D B s).2 = { s.moved d (looks vs) s.mem l f with commitPending := true }) := by
  unfold xtCommit
  split_ifs with hdefer
  · rw [Bool.and_eq_true] at hdefer
    obtain ⟨d, vs, hlook, -, hend⟩ := xtPoll_spec D lookNotBusy XT_COMMIT_POLLS 0 s
    split
    · next al s' heq =>
      rw [heq] at hlook hend
      obtain ⟨hready, vs', rfl⟩ := hend XtLook.noConfusion
      obtain rfl : s' = s.looked d (vs' ++ [al]) := hlook
      obtain ⟨l, f, hcheck⟩ := xtCheck_spec (busy_of_ready hready) s d vs'
      exact ⟨d, _, l, f, .inl hcheck⟩
    · next r s' hne heq =>
      rw [heq] at hlook
      obtain rfl : s' = s.looked d vs := hlook
      exact ⟨d, vs, s.lastStatus, s.failCode, .inr ⟨hdefer.1, hdefer.2, rfl, rfl⟩⟩
  · obtain ⟨d, vs, hlook, -, hend⟩ := xtideWaitNotBusy_spec D B s
    split
    · next s' heq =>
      rw [heq] at hlook
      obtain rfl : s' = s.looked d vs := hlook
      exact ⟨d, vs, s.lastStatus, 12, .inl ⟨rfl, fun h => absurd h Bool.false_ne_true⟩⟩
    · next al s' heq =>
      rw [heq] at hlook hend
      obtain ⟨hbusy, vs', rfl⟩ := hend al rfl
      obtain rfl : s' = s.looked d (vs' ++ [al]) := hlook
      obtain ⟨l, f, hcheck⟩ := xtCheck_spec hbusy s d vs'
      exact ⟨d, _, l, f, .inl hcheck⟩

/-- The accesses of a write end settled : between blocks the drive has shown BSY=0 and
ERR=0. -/
def EndsSettled (w : Ata.Wiring) (as : List Ata.Access) : Prop :=
  ∀ (geom : Bool → Ata.Geometry) (d : Device), (d.run w geom as).buf = [] →
    (d.run w geom as).settled = true

/-- `XTIDE_WriteSectors` : it clears the carry on a settled drive, or leaves the commit
pending. -/
theorem xtideWriteSectors_spec (s : Xt δ) (h0 : s.reqCount ≠ 0) (hn : s.reqCount ≤ XT_MAX_CHUNK) :
    ∃ as blocks, s.Commanded s.reqCount true (xtideWriteSectors D B s).1
        (xtideWriteSectors D B s).2 as blocks ∧
      (((xtideWriteSectors D B s).2.commitPending = s.commitPending ∧
          ((xtideWriteSectors D B s).1 = true → EndsSettled s.activeTransport.wiring as)) ∨
        (B.yieldCommit = true ∧ s.deferOk = true ∧ (xtideWriteSectors D B s).1 = true ∧
          (xtideWriteSectors D B s).2.commitPending = true)) := by
  have hstart : s.Programmed [] { s with cmd := Ata.writeSectors } :=
    ⟨⟨by simp, rfl, rfl, rfl, rfl, rfl, rfl, rfl, rfl, rfl, rfl⟩, rfl, rfl, rfl, rfl, rfl, rfl⟩
  obtain ⟨vs, as, hvs, hgo, has⟩ := xtideProgramTaskfile_spec D B { s with cmd := Ata.writeSectors }
    true rfl
  have hprog := hstart.trans hgo
  unfold xtideWriteSectors
  split
  · next t heq =>
    rw [heq] at hprog has
    simp only [Bool.false_eq_true, if_false] at has
    exact ⟨_, [], .notGiven s.reqCount true hvs hprog has, .inl ⟨hprog.commitPending, by simp⟩⟩
  · next t heq =>
    rw [heq] at hprog has
    simp only [if_true] at has
    obtain ⟨htransport, o, vs', haddr, rfl⟩ := has
    have hloops : xtLoops t.reqCount = s.reqCount :=
      (if_neg (hprog.reqCount ▸ h0)).trans hprog.reqCount
    obtain ⟨d, as, l, f, k, hloop, hmoves⟩ := xtWriteLoop_spec D B s.reqCount t.reqBuf t
    rw [htransport] at hmoves
    rw [hloops]
    split
    · next u hfail =>
      rw [hfail] at hloop hmoves
      obtain rfl : u = t.moved d as t.mem l f := hloop
      refine ⟨_, _, .given hvs vs' hprog haddr h0 hn (t.moved_sent d as t.mem l f) rfl rfl hmoves ?_
        (fun _ _ _ => rfl) fun _ => rfl, .inl ⟨hprog.commitPending, by simp⟩⟩
      rw [length_xtBlocks]
      rfl
    · next u hdone =>
      rw [hdone] at hloop hmoves
      obtain rfl : u = t.moved d as t.mem l f := hloop
      have hcommit := xtCommit_spec D B (t.moved d as t.mem l f)
      generalize xtCommit D B (t.moved d as t.mem l f) = r at hcommit ⊢
      obtain ⟨ok, u⟩ := r
      obtain ⟨d', vs'', l', f', hend⟩ := hcommit
      have hall := hmoves.append_looks (fun h : ok = true => rfl) vs''
      have hblocks : xtBlocks t.mem t.reqBuf k =
          xtBlocks t.mem t.reqBuf (xtBlocks t.mem t.reqBuf k).length := by
        rw [length_xtBlocks]
      rw [Xt.moved_moved] at hend
      obtain ⟨heq', hsettle⟩ | ⟨hyield, hdefer, hok, heq'⟩ := hend
      · obtain rfl : u = t.moved d' (as ++ looks vs'') t.mem l' f' := heq'
        refine ⟨_, _, .given hvs vs' hprog haddr h0 hn (t.moved_sent ..) rfl rfl hall hblocks
          (fun _ _ _ => rfl) fun _ => rfl,
          .inl ⟨hprog.commitPending, fun hok geom dv hbuf => ?_⟩⟩
        obtain ⟨vs₁, v, rfl, hv⟩ := hsettle hok
        rw [← List.append_assoc] at hbuf ⊢
        exact Device.settled_run_looks _ geom dv hv hbuf
      · obtain rfl : u = { t.moved d' (as ++ looks vs'') t.mem l' f' with commitPending := true } :=
          heq'
        refine ⟨_, _, .given hvs vs' hprog haddr h0 hn ?_ rfl rfl hall hblocks
          (fun _ _ _ => rfl) fun _ => rfl, .inr ⟨hyield, hprog.deferOk.symm.trans hdefer, hok, rfl⟩⟩
        exact ⟨rfl, rfl, rfl, rfl, rfl, rfl, rfl, rfl, rfl, rfl, rfl⟩

/-- The chunk's count and the leave to defer are set before the command, and the leave is
taken back after it. -/
theorem Xt.Commanded.of_counted {s t : Xt δ} {n c : ℕ} {write ok defer b : Bool}
    {as : List Ata.Access} {blocks : List (List UInt8)}
    (h : Xt.Commanded n { s with reqCount := c, deferOk := defer } write ok t as blocks) :
    s.Commanded n write ok { t with deferOk := b } as blocks where
  sent := ⟨h.sent.log, h.sent.stride, h.sent.activeTransport, h.sent.tryUnit,
    h.sent.slavePresent, h.sent.geom, h.sent.units, h.sent.reqIsWrite, h.sent.inquiry,
    h.sent.dxSrb, h.sent.dxWakes⟩
  ne := h.ne
  reqLba := h.reqLba
  reqBuf := h.reqBuf
  le := h.le
  all := h.all
  mem := h.mem
  past := h.past
  wrote := h.wrote
  serves := h.serves

/-- One command of `XTIDE_XferRun`. Only the last may leave its commit pending. -/
theorem xtChunk_spec (ecx rest : ℕ) (s : Xt δ) (h0 : ecx ≠ 0) (hn : ecx ≤ XT_MAX_CHUNK) :
    ∃ as blocks, s.Commanded ecx s.reqIsWrite (xtChunk D B ecx rest s).1
        (xtChunk D B ecx rest s).2 as blocks ∧
      (((xtChunk D B ecx rest s).2.commitPending = s.commitPending ∧
          ((xtChunk D B ecx rest s).1 = true → s.reqIsWrite = true →
            EndsSettled s.activeTransport.wiring as)) ∨
        (B.yieldCommit = true ∧ s.reqIsWrite = true ∧ rest = 0 ∧
          (xtChunk D B ecx rest s).1 = true ∧
          (xtChunk D B ecx rest s).2.commitPending = true)) := by
  unfold xtChunk
  by_cases hwrite : s.reqIsWrite = true
  · rw [if_pos hwrite]
    obtain ⟨as, blocks, hcmd, hend⟩ := xtideWriteSectors_spec D B
      { s with reqCount := ecx, deferOk := if B.yieldCommit then rest == 0 else s.deferOk } h0 hn
    generalize xtideWriteSectors D B
      { s with reqCount := ecx, deferOk := if B.yieldCommit then rest == 0 else s.deferOk } = r
      at hcmd hend ⊢
    obtain ⟨ok, t⟩ := r
    rw [hwrite]
    refine ⟨as, blocks, hcmd.of_counted, hend.imp (fun h => ⟨h.1, fun hok _ => h.2 hok⟩) ?_⟩
    rintro ⟨hyield, hdefer, hok, hpending⟩
    have hrest : (if B.yieldCommit then rest == 0 else s.deferOk) = true := hdefer
    rw [if_pos hyield, beq_iff_eq] at hrest
    exact ⟨hyield, rfl, hrest, hok, hpending⟩
  · obtain ⟨as, blocks, hcmd, hpending⟩ := xtideReadSectors_spec D B
      { s with reqCount := ecx } h0 hn
    have hread : s.reqIsWrite = false := by simpa using hwrite
    rw [if_neg hwrite]
    generalize xtideReadSectors D B { s with reqCount := ecx } = r at hcmd hpending ⊢
    obtain ⟨ok, t⟩ := r
    rw [hread]
    exact ⟨as, blocks, hcmd.of_counted (b := t.deferOk), .inl ⟨hpending, nofun⟩⟩

/-- What the drive sees of a request for `count` sectors from `lba` on : commands that name
its first sectors, each once and in order, and the blocks moved between the first `n` of them
and memory at `buf`. -/
def Requested (w : Ata.Wiring) (geom : Bool → Ata.Geometry) (write unit : Bool) (lba count n : ℕ)
    (buf : UInt32) (mem : UInt32 → UInt8) (as : List Ata.Access) (d : Device) : Prop :=
  ∃ cs m, d.Added (d.run w geom as) cs
      ((Ata.Transfer.mk write unit (some lba) count).blocks (xtBlocks mem buf n)) ∧
    cs.flatMap (·.xfer.sectors) = List.range' lba m ∧ n ≤ m ∧ m ≤ count ∧
    ∀ c ∈ cs, c.xfer.write = write ∧ c.xfer.dev = unit ∧ 1 ≤ c.xfer.left ∧
      c.xfer.left ≤ XT_MAX_CHUNK

/-- One chunk, as the drive sees it. -/
theorem Xt.Commanded.requested {s t : Xt δ} {n : ℕ} {ok unit : Bool} {as : List Ata.Access}
    {blocks : List (List UInt8)} (h : s.Commanded n s.reqIsWrite ok t as blocks)
    (hg : s.geom.Tracked) (hunit : s.tryUnit = drvHdBase unit) (h0 : n ≠ 0)
    (hn : n ≤ XT_MAX_CHUNK) (hlba : s.reqLba < s.geom.reach) {geom : Bool → Ata.Geometry}
    (hgeom : geom unit = s.geom.ata) {d : Device} (hbuf : d.buf = []) :
    Requested s.activeTransport.wiring geom s.reqIsWrite unit s.reqLba n blocks.length s.reqBuf
      t.mem as d := by
  have hmem := h.mem
  obtain ⟨hok, rfl, hadded⟩ | ⟨o, settled, haddr, -, hadded⟩ := h.serves geom d hbuf
  · exact ⟨[], 0, hadded, rfl, Nat.le_refl 0, Nat.zero_le n, fun c hc => absurd hc List.not_mem_nil⟩
  · obtain ⟨o', haddr', hsector, hdev⟩ := sector_xtAddress hg unit s.reqLba n
    rw [Nat.mod_eq_of_lt hlba] at hsector
    rw [hunit, haddr'] at haddr
    obtain rfl := Option.some.inj haddr
    have hxfer : (o'.taskFile n).transfer geom s.reqIsWrite =
        ⟨s.reqIsWrite, unit, some s.reqLba, n⟩ := by
      rw [Ata.TaskFile.transfer, hdev, hgeom, hsector, count_taskFile o' h0 hn]
    rw [hxfer] at hadded
    refine ⟨_, n, hmem ▸ hadded, by simp [Ata.Transfer.sectors], h.le, Nat.le_refl n,
        fun c hc => ?_⟩
    obtain rfl := List.mem_singleton.1 hc
    exact ⟨rfl, rfl, Nat.pos_of_ne_zero h0, hn⟩

theorem Requested.mono {w : Ata.Wiring} {geom : Bool → Ata.Geometry} {write unit : Bool}
    {lba count count' n : ℕ} {buf : UInt32} {mem : UInt32 → UInt8} {as : List Ata.Access}
        {d : Device}
    (h : Requested w geom write unit lba count n buf mem as d) (hle : count ≤ count') :
    Requested w geom write unit lba count' n buf mem as d := by
  obtain ⟨cs, m, hadded, hsectors, hn, hm, hcs⟩ := h
  rw [Ata.Transfer.blocks_left write unit count count'] at hadded
  exact ⟨cs, m, hadded, hsectors, hn, Nat.le_trans hm hle, hcs⟩

theorem Requested.congr_mem {w : Ata.Wiring} {geom : Bool → Ata.Geometry} {write unit : Bool}
    {lba count n : ℕ} {buf : UInt32} {mem mem' : UInt32 → UInt8} {as : List Ata.Access} {d : Device}
    (h : Requested w geom write unit lba count n buf mem as d)
    (hmem : ∀ i < 512 * n, mem (buf + UInt32.ofNat i) = mem' (buf + UInt32.ofNat i)) :
    Requested w geom write unit lba count n buf mem' as d := by
  unfold Requested at h ⊢
  rwa [← xtBlocks_congr hmem]

/-- A chunk and what follows it. -/
theorem Requested.append {w : Ata.Wiring} {geom : Bool → Ata.Geometry} {write unit : Bool}
    {lba ecx rest n : ℕ} {buf : UInt32} {mem : UInt32 → UInt8} {as bs : List Ata.Access}
        {d : Device}
    (h : Requested w geom write unit lba ecx ecx buf mem as d)
    (h' : Requested w geom write unit (lba + ecx) rest n (buf + UInt32.ofNat (ecx * 512)) mem bs
      (d.run w geom as)) :
    Requested w geom write unit lba (ecx + rest) (ecx + n) buf mem (as ++ bs) d := by
  obtain ⟨cs, m, hadded, hsectors, hle, hm, hcs⟩ := h
  obtain ⟨cs', m', hadded', hsectors', hle', hm', hcs'⟩ := h'
  obtain rfl : m = ecx := Nat.le_antisymm hm hle
  refine ⟨cs ++ cs', m + m', ?_, ?_, by omega, by omega, List.forall_mem_append.2 ⟨hcs, hcs'⟩⟩
  · have hblocks : (Ata.Transfer.mk write unit (some lba) (m + rest)).blocks
        (xtBlocks mem buf (m + n)) =
          (Ata.Transfer.mk write unit (some lba) m).blocks (xtBlocks mem buf m) ++
            (Ata.Transfer.mk write unit (some (lba + m)) rest).blocks
              (xtBlocks mem (buf + UInt32.ofNat (m * 512)) n) := by
      rw [xtBlocks_add, Ata.Transfer.blocks_append, length_xtBlocks]
      exact congrArg₂ (· ++ ·) (Ata.Transfer.blocks_left ..) (Ata.Transfer.blocks_left ..)
    rw [Device.run_append, hblocks]
    exact hadded.trans hadded'
  · rw [List.flatMap_append, hsectors, hsectors', List.range'_append_1]

/-- Where the last command of a request for `count` sectors from `lba` on starts. -/
def lastChunk (lba count : ℕ) : ℕ := lba + (count - 1) / XT_MAX_CHUNK * XT_MAX_CHUNK

theorem le_lastChunk (lba count : ℕ) : lba ≤ lastChunk lba count := Nat.le_add_right ..

theorem lastChunk_lt (lba : ℕ) {count : ℕ} (h : count ≠ 0) :
    lastChunk lba count < lba + count := by
  have := Nat.div_mul_le_self (count - 1) XT_MAX_CHUNK
  unfold lastChunk
  omega

/-- A whole command goes first. -/
theorem lastChunk_rest (lba : ℕ) {count ecx : ℕ} (hrest : count - ecx ≠ 0)
    (hecx : count - ecx ≠ 0 → ecx = XT_MAX_CHUNK) :
    lastChunk (lba + ecx) (count - ecx) = lastChunk lba count := by
  obtain rfl := hecx hrest
  simp only [lastChunk, XT_MAX_CHUNK] at hrest ⊢
  omega

/-- A chunk is not empty, and whole if more follows it. -/
theorem chunk_bounds {count : ℕ} (h : count ≠ 0) :
    min count XT_MAX_CHUNK ≠ 0 ∧ min count XT_MAX_CHUNK ≤ count ∧
      min count XT_MAX_CHUNK ≤ XT_MAX_CHUNK ∧
      (count - min count XT_MAX_CHUNK ≠ 0 → min count XT_MAX_CHUNK = XT_MAX_CHUNK) := by
  simp only [XT_MAX_CHUNK]
  omega

/-- From `s` to `t` a request was carried out as far as its first `n` sectors, and memory past
them is as it was. -/
structure Xt.Transferred (s : Xt δ) (unit : Bool) (n : ℕ) (t : Xt δ) (as : List Ata.Access) :
    Prop where
  sent : s.Sent as t
  ne : s.reqCount ≠ 0 → as ≠ []
  le : n ≤ s.reqCount
  past : ∀ i, 512 * n ≤ i → i < 2 ^ 32 →
    t.mem (s.reqBuf + UInt32.ofNat i) = s.mem (s.reqBuf + UInt32.ofNat i)
  wrote : s.reqIsWrite = true → t.mem = s.mem
  requested : ∀ (geom : Bool → Ata.Geometry) (d : Device), geom unit = s.geom.ata → d.buf = [] →
    Requested s.activeTransport.wiring geom s.reqIsWrite unit s.reqLba s.reqCount n s.reqBuf
      t.mem as d

/-- What `XTIDE_XferRun` sets up after a chunk of `ecx` sectors, with `rest` to go. -/
def Xt.onward (t : Xt δ) (ecx rest : ℕ) : Xt δ :=
  { t with
    reqCount := rest
    reqLba := (t.reqLba + ecx) % 2 ^ 32
    reqBuf := t.reqBuf + UInt32.ofNat (ecx * 512) }

/-- Setting the request up further sends nothing. -/
theorem Xt.Sent.request {s t : Xt δ} {as : List Ata.Access} (h : s.Sent as t) (n lba : ℕ)
    (buf : UInt32) : s.Sent as { t with reqCount := n, reqLba := lba, reqBuf := buf } :=
  ⟨h.log, h.stride, h.activeTransport, h.tryUnit, h.slavePresent, h.geom, h.units, h.reqIsWrite,
    h.inquiry, h.dxSrb, h.dxWakes⟩

theorem Xt.Sent.onward {s t : Xt δ} {as : List Ata.Access} (h : s.Sent as t) (ecx rest : ℕ) :
    s.Sent as (t.onward ecx rest) :=
  h.request rest _ _

/-- A chunk that moved all its sectors, and what was carried out after it. -/
theorem Xt.Transferred.after {s t u : Xt δ} {unit : Bool} {ecx n : ℕ} {as as' : List Ata.Access}
    {blocks : List (List UInt8)} (hcmd : s.Commanded ecx s.reqIsWrite true t as blocks)
    (hg : s.geom.Tracked) (hunit : s.tryUnit = drvHdBase unit) (hne : ecx ≠ 0)
    (hmax : ecx ≤ XT_MAX_CHUNK) (hle : ecx ≤ s.reqCount) (hreach : s.reqLba < s.geom.reach)
    (hfit : 512 * s.reqCount ≤ 2 ^ 32)
    (hnext : (t.onward ecx (s.reqCount - ecx)).Transferred unit n u as') :
    s.Transferred unit (ecx + n) u (as ++ as') := by
  have hlen : blocks.length = ecx := hcmd.all rfl
  have hpast := hcmd.past
  rw [hlen] at hpast
  have hlba : (t.reqLba + ecx) % 2 ^ 32 = s.reqLba + ecx := by
    have := hg.reach_le
    rw [hcmd.reqLba]
    exact Nat.mod_eq_of_lt (by simp only [XT_MAX_CHUNK] at hmax; omega)
  have hn : n ≤ s.reqCount - ecx := hnext.le
  have hsent := hcmd.sent.onward ecx (s.reqCount - ecx)
  have hafter : ∀ j, 512 * n ≤ j → j < 2 ^ 32 →
      u.mem (s.reqBuf + UInt32.ofNat (ecx * 512) + UInt32.ofNat j) =
        t.mem (s.reqBuf + UInt32.ofNat (ecx * 512) + UInt32.ofNat j) := by
    have hpast' := hnext.past
    dsimp only [Xt.onward] at hpast'
    rwa [hcmd.reqBuf] at hpast'
  refine ⟨hsent.trans hnext.sent, fun _ => List.append_ne_nil_of_left_ne_nil hcmd.ne as',
    by omega, fun i hi hlt => ?_, fun hwrite => ?_, fun geom d hgeom hbuf => ?_⟩
  · obtain ⟨j, rfl⟩ : ∃ j, i = ecx * 512 + j := Nat.exists_eq_add_of_le (by omega)
    rw [← hpast (ecx * 512 + j) (by omega) hlt, UInt32.ofNat_add, ← UInt32.add_assoc]
    exact hafter j (by omega) (by omega)
  · exact (hnext.wrote (hcmd.sent.reqIsWrite.trans hwrite)).trans (hcmd.wrote hwrite)
  · have hchunk := hcmd.requested hg hunit hne hmax hreach hgeom hbuf
    rw [hlen] at hchunk
    obtain ⟨cs, m, hadded, -⟩ := id hchunk
    have hrest := hnext.requested geom _
      (hgeom.trans (congrArg XtGeometry.ata hsent.geom.symm)) hadded.buf
    rw [hsent.activeTransport, hsent.reqIsWrite] at hrest
    dsimp only [Xt.onward] at hrest
    rw [hlba, hcmd.reqBuf] at hrest
    have hsplit : s.reqCount = ecx + (s.reqCount - ecx) := (Nat.add_sub_cancel' hle).symm
    rw [hsplit]
    refine Requested.append (hchunk.congr_mem fun i hi => ?_) hrest
    rw [add_ofNat_around s.reqBuf (k := ecx * 512) (by omega) i]
    exact (hafter _ (by omega) (by omega)).symm

/-- `XTIDE_XferRun` moves the sectors of a request in order, and all of them if it clears the
carry. -/
theorem xtXferLoop_spec (s : Xt δ) (unit : Bool) (hg : s.geom.Tracked)
    (hunit : s.tryUnit = drvHdBase unit)
    (hend : lastChunk s.reqLba s.reqCount < s.geom.reach ∨ s.reqCount = 0)
    (hfit : 512 * s.reqCount ≤ 2 ^ 32) :
    ∃ n as, s.Transferred unit n (xtXferLoop D B s).2 as ∧
      ((xtXferLoop D B s).1 = true → n = s.reqCount) := by
  unfold xtXferLoop
  split_ifs with hzero
  · refine ⟨0, [], ⟨⟨by simp, rfl, rfl, rfl, rfl, rfl, rfl, rfl, rfl, rfl, rfl⟩,
      fun h => absurd hzero h, Nat.zero_le _, fun _ _ _ => rfl, fun _ => rfl,
          fun geom d _ hbuf => ?_⟩, fun _ => hzero.symm⟩
    refine ⟨[], 0, ⟨(List.append_nil _).symm, (List.append_nil _).symm, rfl, hbuf⟩, rfl,
      Nat.le_refl 0, Nat.zero_le _, fun c hc => absurd hc List.not_mem_nil⟩
  · dsimp only
    obtain ⟨hne, hle, hmax, hwhole⟩ := chunk_bounds hzero
    generalize min s.reqCount XT_MAX_CHUNK = ecx at hne hle hmax hwhole ⊢
    have hlast := hend.resolve_right hzero
    have hreach := Nat.lt_of_le_of_lt (le_lastChunk s.reqLba s.reqCount) hlast
    obtain ⟨as, blocks, hcmd, -⟩ := xtChunk_spec D B ecx (s.reqCount - ecx) s hne hmax
    generalize xtChunk D B ecx (s.reqCount - ecx) s = r at hcmd ⊢
    obtain ⟨ok, t⟩ := r
    have hfirst {geom : Bool → Ata.Geometry} {d : Device} (hgeom : geom unit = s.geom.ata)
        (hbuf : d.buf = []) :=
      hcmd.requested hg hunit hne hmax hreach hgeom hbuf
    cases ok with
    | false =>
      exact ⟨blocks.length, as,
          ⟨hcmd.sent, fun _ => hcmd.ne, Nat.le_trans hcmd.le hle, hcmd.past, hcmd.wrote,
        fun geom d hgeom hbuf => (hfirst hgeom hbuf).mono hle⟩, nofun⟩
    | true =>
      dsimp only
      split_ifs with hrest
      · have hlen : blocks.length = ecx := hcmd.all rfl
        have hpast := hcmd.past
        rw [hlen] at hpast hfirst
        obtain rfl : ecx = s.reqCount := by omega
        exact ⟨s.reqCount, as, ⟨hcmd.sent.request _ t.reqLba t.reqBuf, fun _ => hcmd.ne,
          Nat.le_refl _, hpast, hcmd.wrote, fun geom d hgeom hbuf => hfirst hgeom hbuf⟩,
          fun _ => rfl⟩
      · have hsent := hcmd.sent.onward ecx (s.reqCount - ecx)
        have hlba : (t.reqLba + ecx) % 2 ^ 32 = s.reqLba + ecx := by
          have := hg.reach_le
          rw [hcmd.reqLba]
          exact Nat.mod_eq_of_lt (by simp only [XT_MAX_CHUNK] at hmax; omega)
        obtain ⟨n, as', hnext, hall⟩ := xtXferLoop_spec (t.onward ecx (s.reqCount - ecx)) unit
          (hsent.geom ▸ hg) (hsent.tryUnit.trans hunit)
          (.inl (by
            dsimp only [Xt.onward]
            rw [hcmd.sent.geom, hlba, lastChunk_rest s.reqLba hrest hwhole]
            exact hlast)) (by dsimp only [Xt.onward]; omega)
        refine ⟨ecx + n, as ++ as', .after hcmd hg hunit hne hmax hle hreach hfit hnext,
          fun h => ?_⟩
        have hn := hall h
        dsimp only [Xt.onward] at hn
        omega
termination_by s.reqCount
decreasing_by
  simp only [Xt.onward]
  omega

/-- `XTIDE_XferRun`. -/
theorem xtideXferRun_spec (s : Xt δ) (unit : Bool) (hg : s.geom.Tracked)
    (hunit : s.tryUnit = drvHdBase unit)
    (hend : lastChunk s.reqLba s.reqCount < s.geom.reach ∨ s.reqCount = 0)
    (hfit : 512 * s.reqCount ≤ 2 ^ 32) :
    ∃ n as, s.Transferred unit n (xtideXferRun D B s).2 as ∧
      ((xtideXferRun D B s).1 = true → n = s.reqCount) := by
  unfold xtideXferRun
  split_ifs
  · obtain ⟨n, as, h, hall⟩ := xtXferLoop_spec D B { s with commitPending := false } unit hg hunit
      hend hfit
    refine ⟨n, as, ⟨?_, h.ne, h.le, h.past, h.wrote, h.requested⟩, hall⟩
    exact ⟨h.sent.log, h.sent.stride, h.sent.activeTransport, h.sent.tryUnit,
      h.sent.slavePresent, h.sent.geom, h.sent.units, h.sent.reqIsWrite, h.sent.inquiry,
      h.sent.dxSrb, h.sent.dxWakes⟩
  · exact xtXferLoop_spec D B s unit hg hunit hend hfit

end Commands

/-! ## A drive that is always ready -/

/-- The drive shows BSY=0, DRQ=1 and ERR=0 at every look. -/
def XtDrive.Ready (D : XtDrive δ) : Prop := ∀ d, (D.inb .altStatus d).1 = 0x58

section Ready

variable {D : XtDrive δ} (hD : D.Ready) (B : XtBuild)

include hD

theorem xtPoll_ready {look : UInt8 → XtLook} (hlook : look 0x58 = .ready) (n : ℕ) (al : UInt8)
    (s : Xt δ) : (xtPoll D look (n + 1) al s).1 = (.ready, 0x58) := by
  have hal : (s.inb D .altStatus).1 = 0x58 := hD s.drive
  unfold xtPoll
  rw [hal, hlook]

theorem xtWait_ready {look : UInt8 → XtLook} (hlook : look 0x58 = .ready) (s : Xt δ) :
    (xtWait D B look s).1 = (.ready, 0x58) := by
  have hfast := xtPoll_ready hD hlook (XT_POLL_FAST - 1) 0 s
  have hslow := xtPoll_ready hD hlook (XT_SPIN - 1) 0 s
  unfold xtWait
  split_ifs
  · split
    · next al s' heq =>
      rw [show XT_POLL_FAST = XT_POLL_FAST - 1 + 1 from rfl, Prod.ext_iff, hfast] at heq
      simp at heq
    · exact hfast
  · exact hslow

theorem xtideWaitNotBusy_ready (s : Xt δ) : ∃ t, xtideWaitNotBusy D B s = (some 0x58, t) := by
  have hwait := xtWait_ready hD B (rfl : lookNotBusy 0x58 = .ready) s
  unfold xtideWaitNotBusy
  generalize xtWait D B lookNotBusy s = r at hwait ⊢
  obtain ⟨⟨look, al⟩, t⟩ := r
  obtain ⟨rfl, rfl⟩ := Prod.mk.inj hwait
  exact ⟨t, rfl⟩

theorem xtideWaitDrq_ready (s : Xt δ) : ∃ t, xtideWaitDrq D B s = (true, t) := by
  have hwait := xtWait_ready hD B (rfl : lookDrq 0x58 = .ready) s
  unfold xtideWaitDrq
  generalize xtWait D B lookDrq s = r at hwait ⊢
  obtain ⟨⟨look, al⟩, t⟩ := r
  obtain ⟨rfl, rfl⟩ := Prod.mk.inj hwait
  exact ⟨t, rfl⟩

theorem xtReadLoop_ready (n : ℕ) (edi : UInt32) (s : Xt δ) : (xtReadLoop D B n edi s).1 = true := by
  induction n generalizing edi s with
  | zero => rfl
  | succ n ih =>
    obtain ⟨t, ht⟩ := xtideWaitDrq_ready hD B s
    rw [xtReadLoop, ht]
    exact ih ..

theorem xtWriteLoop_ready (n : ℕ) (esi : UInt32) (s : Xt δ) :
    (xtWriteLoop D B n esi s).1 = true := by
  induction n generalizing esi s with
  | zero => rfl
  | succ n ih =>
    obtain ⟨t, ht⟩ := xtideWaitDrq_ready hD B s
    rw [xtWriteLoop, ht]
    exact ih ..

theorem xtCommit_ready (s : Xt δ) : (xtCommit D B s).1 = true := by
  have hpoll := xtPoll_ready hD (rfl : lookNotBusy 0x58 = .ready) (XT_COMMIT_POLLS - 1) 0 s
  rw [show XT_COMMIT_POLLS - 1 + 1 = XT_COMMIT_POLLS from rfl] at hpoll
  obtain ⟨t, ht⟩ := xtideWaitNotBusy_ready hD B s
  unfold xtCommit
  rw [ht]
  generalize xtPoll D lookNotBusy XT_COMMIT_POLLS 0 s = r at hpoll ⊢
  obtain ⟨⟨look, al⟩, u⟩ := r
  obtain ⟨rfl, rfl⟩ := Prod.mk.inj hpoll
  split_ifs <;> rfl

theorem xtideProgramTaskfile_ready {s : Xt δ} (haddr : xtAddress s.geom s.tryUnit s.reqLba ≠ none) :
    (xtideProgramTaskfile D B s).1 = true := by
  obtain ⟨d, vs, hwait, -⟩ := xtideWaitNotBusy_spec D B s
  obtain ⟨t, ht⟩ := xtideWaitNotBusy_ready hD B s
  rw [ht] at hwait
  obtain rfl : t = s.looked d vs := hwait
  unfold xtideProgramTaskfile
  rw [ht]
  dsimp only
  split
  · next heq => exact absurd heq haddr
  · next o heq =>
    obtain ⟨u, hu⟩ := xtideWaitNotBusy_ready hD B
      (({ s.looked d vs with o := o } : Xt δ).outb D .drvHd (UInt8.ofNat o.drvHd))
    unfold xtProgram
    rw [hu]

theorem xtideReadSectors_ready {s : Xt δ} (haddr : xtAddress s.geom s.tryUnit s.reqLba ≠ none) :
    (xtideReadSectors D B s).1 = true := by
  have hprogram : (xtideProgramTaskfile D B { s with cmd := Ata.readSectors }).1 = true :=
    xtideProgramTaskfile_ready hD B haddr
  unfold xtideReadSectors
  generalize xtideProgramTaskfile D B { s with cmd := Ata.readSectors } = q at hprogram ⊢
  obtain ⟨ok, t⟩ := q
  obtain rfl : ok = true := hprogram
  exact xtReadLoop_ready hD B ..

theorem xtideWriteSectors_ready {s : Xt δ} (haddr : xtAddress s.geom s.tryUnit s.reqLba ≠ none) :
    (xtideWriteSectors D B s).1 = true := by
  have hprogram : (xtideProgramTaskfile D B { s with cmd := Ata.writeSectors }).1 = true :=
    xtideProgramTaskfile_ready hD B haddr
  unfold xtideWriteSectors
  generalize xtideProgramTaskfile D B { s with cmd := Ata.writeSectors } = q at hprogram ⊢
  obtain ⟨ok, t⟩ := q
  obtain rfl : ok = true := hprogram
  dsimp only
  have hloop := xtWriteLoop_ready hD B (xtLoops t.reqCount) t.reqBuf t
  generalize xtWriteLoop D B (xtLoops t.reqCount) t.reqBuf t = q at hloop ⊢
  obtain ⟨ok, u⟩ := q
  obtain rfl : ok = true := hloop
  exact xtCommit_ready hD B u

theorem xtChunk_ready (ecx rest : ℕ) {s : Xt δ}
    (haddr : xtAddress s.geom s.tryUnit s.reqLba ≠ none) : (xtChunk D B ecx rest s).1 = true := by
  have hread : (xtideReadSectors D B { s with reqCount := ecx }).1 = true :=
    xtideReadSectors_ready hD B haddr
  have hwrite (defer : Bool) :
      (xtideWriteSectors D B { s with reqCount := ecx, deferOk := defer }).1 = true :=
    xtideWriteSectors_ready hD B haddr
  unfold xtChunk
  by_cases hdir : s.reqIsWrite = true
  · rw [if_pos hdir]
    exact hwrite _
  · rw [if_neg hdir]
    exact hread

/-- A drive that is always ready carries out the whole request. -/
theorem xtXferLoop_clears {s : Xt δ} {unit : Bool} (hg : s.geom.Tracked)
    (hunit : s.tryUnit = drvHdBase unit) : (xtXferLoop D B s).1 = true := by
  unfold xtXferLoop
  split_ifs with hzero
  · rfl
  · have haddr := xtAddress_ne_none hg hunit s.reqLba
    dsimp only
    obtain ⟨hne, -, hmax, -⟩ := chunk_bounds hzero
    generalize min s.reqCount XT_MAX_CHUNK = ecx at hne hmax ⊢
    obtain ⟨as, blocks, hcmd, -⟩ := xtChunk_spec D B ecx (s.reqCount - ecx) s hne hmax
    have hready := xtChunk_ready hD B ecx (s.reqCount - ecx) haddr
    generalize xtChunk D B ecx (s.reqCount - ecx) s = r at hcmd hready ⊢
    obtain ⟨ok, t⟩ := r
    obtain rfl : ok = true := hready
    dsimp only
    split_ifs
    · rfl
    · exact xtXferLoop_clears (s := t.onward ecx (s.reqCount - ecx)) (hcmd.sent.geom ▸ hg)
        (hcmd.sent.tryUnit.trans hunit)
termination_by s.reqCount
decreasing_by
  simp only [Xt.onward]
  omega

theorem xtideXferRun_clears {s : Xt δ} (unit : Bool) (hg : s.geom.Tracked)
    (hunit : s.tryUnit = drvHdBase unit) : (xtideXferRun D B s).1 = true := by
  unfold xtideXferRun
  split_ifs
  · exact xtXferLoop_clears hD B (s := { s with commitPending := false }) hg hunit
  · exact xtXferLoop_clears hD B hg hunit

end Ready

/-! ## Requests -/

/-- What `XtFinish` logs. -/
def finishEvents (p : UInt32) (st : SrbStatus) : List XtEvent :=
  [.srbStatus p st, .requestComplete p, .nextRequest]

/-- What `xsi_yield` logs. -/
def yieldEvents : List XtEvent := [.requestTimerCall XT_COMMIT_TIMER_US]

theorem xtFinish_eq (p : UInt32) (st : SrbStatus) (s : Xt δ) :
    xtFinish p st s = { s with log := s.log ++ finishEvents p st } := by
  simp [xtFinish, Xt.say, finishEvents]

/-- `s` with the unit selected and the request in the variables. -/
def Xt.asked (s : Xt δ) (unit : Bool) (r : XtRequest) (buf : UInt32) : Xt δ :=
  { xtideSelectUnit unit s with
    reqIsWrite := r.isWrite
    reqLba := r.lba
    reqCount := r.count
    reqBuf := buf }

/-- The SRB is a READ or WRITE of `r` for a unit that is there. -/
structure Srb.Asks (srb : Srb) (s : Xt δ) (unit : Bool) (r : XtRequest) : Prop where
  function : srb.function = .executeScsi
  lun : srb.lun = 0
  target : srb.targetId = if unit then 1 else 0
  present : unit = true → s.slavePresent = true
  request : cdbRequest srb.cdb = some r

section Drive

variable (D : XtDrive δ) (B : XtBuild)

/-- A READ or WRITE comes to `xsi_transfer` with its unit selected. -/
theorem xtStartIo_eq (p : UInt32) {srb : Srb} {s : Xt δ} {unit : Bool} {r : XtRequest}
    (h : srb.Asks s unit r) : xtStartIo D B p srb s =
      xtTransfer D B p srb ((s.say (.startIo p srb)).asked unit r s.reqBuf) := by
  unfold xtStartIo
  rw [h.function]
  dsimp only
  unfold xtExecute
  have htarget : srb.targetId = 0 ∨
      srb.targetId = 1 ∧ (s.say (.startIo p srb)).slavePresent = true := by
    rw [h.target]
    cases unit with
    | false => exact .inl rfl
    | true => exact .inr ⟨rfl, h.present rfl⟩
  have hunit : (srb.targetId == 1) = unit := by
    rw [h.target]
    cases unit <;> rfl
  rw [if_neg (not_not.2 h.lun), if_pos htarget, hunit]
  unfold xtCommand
  rw [h.request]
  rfl

/-- The count of a READ or WRITE is a word. -/
theorem cdbRequest_count {cdb : ℕ → UInt8} {r : XtRequest} (h : cdbRequest cdb = some r) :
    r.count < 2 ^ 16 := by
  have hten : cdbCount10 cdb < 2 ^ 16 := by
    have := (cdb 7).toNat_lt
    have := (cdb 8).toNat_lt
    unfold cdbCount10
    omega
  have hsix : cdbCount6 cdb < 2 ^ 16 := by
    have := (cdb 4).toNat_lt
    unfold cdbCount6
    split_ifs <;> omega
  unfold cdbRequest at h
  split_ifs at h <;> obtain rfl := Option.some.inj h <;> assumption

/-- How a READ or WRITE is answered from `s` to `t` : the accesses made for its first `n`
sectors, and the end, which is a success or a commit left pending only over all of them ; they
are all if it is `whole`. -/
def Xt.Answered (s : Xt δ) (p : UInt32) (srb : Srb) (unit : Bool) (r : XtRequest) (whole : Prop)
    (t : Xt δ) : Prop :=
  ∃ n as tail, t.log = s.log ++ .startIo p srb :: as.map .access ++ tail ∧ n ≤ r.count ∧
    ((tail = finishEvents p .success ∨ tail = yieldEvents) → n = r.count) ∧
    (whole → n = r.count) ∧ (r.isWrite = true → t.mem = s.mem) ∧
    ∀ (geom : Bool → Ata.Geometry) (d : Device), geom unit = (s.units unit).ata → d.buf = [] →
      Requested s.activeTransport.wiring geom r.isWrite unit r.lba r.count n srb.dataBuffer
        t.mem as d

/-- A request that is finished without the drive. -/
theorem answered_xtFinish (p : UInt32) (srb : Srb) (s : Xt δ) (unit : Bool) (r : XtRequest)
    {whole : Prop} {st : SrbStatus} (hst : whole ∨ st = .success → r.count = 0) :
    s.Answered p srb unit r whole
      (xtFinish p st ((s.say (.startIo p srb)).asked unit r s.reqBuf)) := by
  rw [xtFinish_eq]
  refine ⟨0, [], finishEvents p st, by simp [Xt.asked, Xt.say, xtideSelectUnit], Nat.zero_le _,
    ?_, fun h => (hst (.inl h)).symm, fun _ => rfl, fun geom d _ hbuf => ?_⟩
  · rintro (htail | htail)
    · obtain rfl : st = .success := by simpa [finishEvents] using htail
      exact (hst (.inr rfl)).symm
    · simp [finishEvents, yieldEvents] at htail
  · exact ⟨[], 0, ⟨(List.append_nil _).symm, (List.append_nil _).symm, rfl, hbuf⟩, rfl,
      Nat.le_refl 0, Nat.zero_le _, fun c hc => absurd hc List.not_mem_nil⟩

/-- A request that is run. -/
theorem answered_xtTransferRun (p : UInt32) (srb : Srb) {s : Xt δ} {unit : Bool} {r : XtRequest}
    (hg : (s.units unit).Tracked)
    (hend : lastChunk r.lba r.count < (s.units unit).reach ∨ r.count = 0)
    (hfit : 512 * r.count ≤ 2 ^ 32) {whole : Prop} (hwhole : whole → D.Ready) :
    s.Answered p srb unit r whole
      (xtTransferRun D B p ((s.say (.startIo p srb)).asked unit r srb.dataBuffer)) := by
  obtain ⟨n, as, hmoved, hall⟩ := xtideXferRun_spec D B
    ((s.say (.startIo p srb)).asked unit r srb.dataBuffer) unit hg rfl hend hfit
  have hclears : whole → (xtideXferRun D B
      ((s.say (.startIo p srb)).asked unit r srb.dataBuffer)).1 = true :=
    fun h => xtideXferRun_clears (hwhole h) B unit hg rfl
  unfold xtTransferRun
  generalize xtideXferRun D B ((s.say (.startIo p srb)).asked unit r srb.dataBuffer) = q
    at hmoved hall hclears ⊢
  obtain ⟨ok, t⟩ := q
  have hlog : t.log = s.log ++ .startIo p srb :: as.map .access := by
    rw [hmoved.sent.log]
    simp [Xt.asked, Xt.say, xtideSelectUnit]
  cases ok with
  | false =>
    dsimp only
    rw [xtFinish_eq]
    refine ⟨n, as, finishEvents p .error, congrArg (· ++ _) hlog, hmoved.le, ?_,
      fun h => hall (hclears h), hmoved.wrote, hmoved.requested⟩
    rintro (htail | htail) <;> simp [finishEvents, yieldEvents] at htail
  | true =>
    dsimp only
    split_ifs
    · exact ⟨n, as, yieldEvents, congrArg (· ++ _) hlog, hmoved.le, fun _ => hall rfl,
        fun _ => hall rfl, hmoved.wrote, hmoved.requested⟩
    · rw [xtFinish_eq]
      exact ⟨n, as, finishEvents p .success, congrArg (· ++ _) hlog, hmoved.le,
        fun _ => hall rfl, fun _ => hall rfl, hmoved.wrote, hmoved.requested⟩

/-- A READ or WRITE as far as the registers reach : all of it if the drive is always ready, the
bound lets it by and there is a buffer. -/
theorem xtStartIo_answered (p : UInt32) {srb : Srb} {s : Xt δ} {unit : Bool} {r : XtRequest}
    (h : srb.Asks s unit r) (hg : (s.units unit).Tracked)
    (hend : lastChunk r.lba r.count < (s.units unit).reach ∨ r.count = 0) :
    s.Answered p srb unit r (D.Ready ∧ srb.dataBuffer ≠ 0 ∧
      xtPastEnd (s.asked unit r s.reqBuf) = false) (xtStartIo D B p srb s) := by
  have hcount := cdbRequest_count h.request
  rw [xtStartIo_eq D B p h]
  unfold xtTransfer
  split_ifs with hzero hpast hnull
  · exact answered_xtFinish p srb s unit r fun _ => hzero
  · refine answered_xtFinish p srb s unit r ?_
    rintro (⟨-, -, hin⟩ | hst)
    · exact absurd hpast (hin ▸ Bool.false_ne_true)
    · exact absurd hst (by decide)
  · refine answered_xtFinish p srb s unit r ?_
    rintro (⟨-, hbuf, -⟩ | hst)
    · exact absurd hnull hbuf
    · exact absurd hst (by decide)
  · exact answered_xtTransferRun D B p srb hg hend (by omega) And.left

/-- Read by an ATA device, the commands of a READ or WRITE on the medium name its sectors from
the first on, each once and in order, on its own unit and at most 128 a command ; and the
blocks moved are those of the sectors, the `k`-th at `DataBuffer + 512 * k`. A request that is
not refused or failed has moved them all, as has one with a buffer and inside the bound on a drive
that is always ready, and a WRITE leaves memory alone. -/
theorem xtide_moves_sectors (p : UInt32) {srb : Srb} {s : Xt δ} {unit : Bool} {r : XtRequest}
    (h : srb.Asks s unit r) (hg : (s.units unit).Shaped)
    (hend : r.lba + r.count ≤ (s.units unit).medium) :
    ∃ n as tail,
      (xtStartIo D B p srb s).log = s.log ++ .startIo p srb :: as.map .access ++ tail ∧
      n ≤ r.count ∧ ((tail = finishEvents p .success ∨ tail = yieldEvents) → n = r.count) ∧
      (D.Ready ∧ srb.dataBuffer ≠ 0 ∧ xtPastEnd (s.asked unit r s.reqBuf) = false →
        n = r.count) ∧
      (r.isWrite = true → (xtStartIo D B p srb s).mem = s.mem) ∧
      ∀ (geom : Bool → Ata.Geometry) (d : Device), geom unit = (s.units unit).ata → d.buf = [] →
        ∃ cs m, d.Added (d.run s.activeTransport.wiring geom as) cs
            ((List.range n).map fun k =>
              ⟨r.isWrite, unit, some (r.lba + k),
                xtLoad (xtStartIo D B p srb s).mem (srb.dataBuffer + UInt32.ofNat (512 * k)) 512,
                true⟩) ∧
          cs.flatMap (·.xfer.sectors) = List.range' r.lba m ∧ n ≤ m ∧ m ≤ r.count ∧
          ∀ c ∈ cs, c.xfer.write = r.isWrite ∧ c.xfer.dev = unit ∧ 1 ≤ c.xfer.left ∧
            c.xfer.left ≤ XT_MAX_CHUNK := by
  have hreach : lastChunk r.lba r.count < (s.units unit).reach ∨ r.count = 0 := by
    by_cases hzero : r.count = 0
    · exact .inr hzero
    · have := hg.medium_le
      have := lastChunk_lt r.lba hzero
      exact .inl (by omega)
  obtain ⟨n, as, tail, hlog, hn, hall, hwhole, hwrote, hdevice⟩ :=
    xtStartIo_answered D B p h hg.toTracked hreach
  refine ⟨n, as, tail, hlog, hn, hall, hwhole, hwrote, fun geom d hgeom hbuf => ?_⟩
  obtain ⟨cs, m, hadded, hcs⟩ := hdevice geom d hgeom hbuf
  rw [xtBlocks_eq_map, Ata.Transfer.blocks_map] at hadded
  exact ⟨cs, m, hadded, hcs⟩

end Drive

/-- A drive that is never busy and always ready for data. -/
def readyDrive : XtDrive Unit where
  inb _ _ := (0x58, ())
  outb _ _ _ := ()

theorem readyDrive_ready : readyDrive.Ready := fun _ => rfl

/-- A build without switches. -/
def plainBuild : XtBuild := ⟨false, false, false⟩

/-- A CF card of one cylinder, 16 heads and 63 sectors a track, in LBA. -/
def smallCard : XtGeometry := ⟨1, 16, 63, 1008, true⟩

/-- READ(10) of three sectors from 1005 on. -/
def readTail : Srb where
  function := .executeScsi
  targetId := 0
  lun := 0
  cdb := fun i => [0x28, 0, 0, 0, 0x03, 0xED, 0, 0, 3, 0].getD i 0
  dataBuffer := 0x1000
  dataTransferLength := 1536

theorem readTail_asks (drive : δ) :
    readTail.Asks (Xt.probed drive (fun _ => smallCard) false) false ⟨false, 1005, 3⟩ :=
  ⟨rfl, rfl, rfl, nofun, by decide⟩

theorem smallCard_shaped : smallCard.Shaped := by
  refine ⟨⟨?_, ?_, ?_, ?_⟩, ?_, ?_⟩ <;> decide

/-- The last three sectors of the card. -/
theorem xtide_moves_sectors_readTail : ∃ (as : List Ata.Access) (tail : List XtEvent),
    (xtStartIo readyDrive plainBuild 1 readTail
      (Xt.probed () (fun _ => smallCard) false)).log =
        .startIo 1 readTail :: as.map .access ++ tail ∧
      ((Device.idle ⟨0, 0, 0, 0, 0⟩).run .bytes (fun _ => smallCard.ata) as).moved.length = 3 ∧
      ((Device.idle ⟨0, 0, 0, 0, 0⟩).run .bytes (fun _ => smallCard.ata) as).issued.flatMap
        (·.xfer.sectors) = [1005, 1006, 1007] := by
  obtain ⟨n, as, tail, hlog, -, -, hwhole, -, hdevice⟩ := xtide_moves_sectors readyDrive
    plainBuild 1 (readTail_asks ()) smallCard_shaped (by decide)
  obtain rfl : n = 3 := hwhole ⟨readyDrive_ready, by decide, by decide⟩
  obtain ⟨cs, m, hadded, hsectors, hle, hm, -⟩ := hdevice (fun _ => smallCard.ata)
    (Device.idle ⟨0, 0, 0, 0, 0⟩) rfl rfl
  obtain rfl : m = 3 := Nat.le_antisymm hm hle
  refine ⟨as, tail, hlog, ?_, ?_⟩
  · exact (congrArg List.length hadded.moved).trans (by simp [Device.idle])
  · exact (congrArg (·.flatMap (·.xfer.sectors)) hadded.issued).trans hsectors

end Inboard
