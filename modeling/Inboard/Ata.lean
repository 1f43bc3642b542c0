import Mathlib.Tactic.Common
import Mathlib.Data.List.Basic
import Mathlib.Algebra.Order.Ring.Int
import Mathlib.Algebra.Order.Ring.Nat

/-!
# The task file of an ATA device

What a host's bus accesses say to a device, read from the device's side : the registers
it has been given (`TaskFile`), the sector they name in LBA28 or in CHS
(`TaskFile.sector`), the commands issued and the blocks of 512 bytes moved under them
(`Device`). Each block keeps whether the host had read a status that asks for it, and each
command whether a good status followed the block before it. Data goes a byte at a time
through the data port, or a word at a time with its high byte in a latch (`Wiring`).
-/

set_option linter.unusedSectionVars false

namespace Inboard.Ata

/-! ## Registers -/

/-- The registers of a device, and the high-byte latch of the cards that have one. -/
inductive Reg
  | data
  | error
  | secCnt
  | secNum
  | cylLo
  | cylHi
  | drvHd
  | status
  | altStatus
  | hiLatch
  deriving DecidableEq, Repr

/-- One bus access of the host. -/
inductive Access
  | inb (r : Reg) (val : UInt8)
  | outb (r : Reg) (val : UInt8)
  deriving DecidableEq, Repr

/-- BSY, DRQ and ERR of a status byte. -/
def busy (v : UInt8) : Bool := v &&& 0x80 != 0
def drq (v : UInt8) : Bool := v &&& 0x08 != 0
def err (v : UInt8) : Bool := v &&& 0x01 != 0

/-- BSY=0 and ERR=0. -/
def settledStatus (v : UInt8) : Bool := !busy v && !err v

/-- BSY=0, ERR=0 and DRQ=1. -/
def askingStatus (v : UInt8) : Bool := !busy v && !err v && drq v

/-- The registers that hold a command's parameters. -/
structure TaskFile where
  secCnt : UInt8
  secNum : UInt8
  cylLo : UInt8
  cylHi : UInt8
  drvHd : UInt8

/-- What IDENTIFY says of the shape of a device. -/
structure Geometry where
  heads : ℕ
  spt : ℕ

namespace TaskFile

def write (tf : TaskFile) : Reg → UInt8 → TaskFile
  | .secCnt, v => { tf with secCnt := v }
  | .secNum, v => { tf with secNum := v }
  | .cylLo, v => { tf with cylLo := v }
  | .cylHi, v => { tf with cylHi := v }
  | .drvHd, v => { tf with drvHd := v }
  | _, _ => tf

variable (tf : TaskFile)

/-- The DEV bit. -/
def dev : Bool := tf.drvHd &&& 0x10 != 0

/-- The count register, where 0 stands for 256. -/
def count : ℕ := if tf.secCnt = 0 then 256 else tf.secCnt.toNat

def head : ℕ := (tf.drvHd &&& 0x0F).toNat

def lba28 : ℕ :=
  tf.head * 2 ^ 24 + tf.cylHi.toNat * 2 ^ 16 + tf.cylLo.toNat * 2 ^ 8 + tf.secNum.toNat

/-- A CHS address, which the geometry may not have. -/
def chs (g : Geometry) : Option ℕ :=
  if tf.head < g.heads ∧ 1 ≤ tf.secNum.toNat ∧ tf.secNum.toNat ≤ g.spt then
    some (((tf.cylHi.toNat * 256 + tf.cylLo.toNat) * g.heads + tf.head) * g.spt +
      (tf.secNum.toNat - 1))
  else none

/-- The sector the registers name : LBA28 if the LBA bit is set, else CHS. -/
def sector (g : Geometry) : Option ℕ :=
  if tf.drvHd &&& 0x40 ≠ 0 then some tf.lba28 else tf.chs g

theorem sector_lba {tf : TaskFile} (hmode : tf.drvHd &&& 0x40 ≠ 0) (g : Geometry) :
    tf.sector g = some tf.lba28 :=
  if_pos hmode

theorem sector_chs {tf : TaskFile} {g : Geometry} (hmode : tf.drvHd &&& 0x40 = 0)
    (hhead : tf.head < g.heads) (hpos : 1 ≤ tf.secNum.toNat) (hspt : tf.secNum.toNat ≤ g.spt) :
    tf.sector g = some (((tf.cylHi.toNat * 256 + tf.cylLo.toNat) * g.heads + tf.head) * g.spt +
      (tf.secNum.toNat - 1)) :=
  (if_neg fun h => h hmode).trans (if_pos ⟨hhead, hpos, hspt⟩)

end TaskFile

/-- Reads of the alternate status. -/
def looks (vs : List UInt8) : List Access := vs.map (.inb .altStatus)

/-! ## The device's side of a run -/

def readSectors : UInt8 := 0x20
def writeSectors : UInt8 := 0x30

/-- A whole block moved, and whether the last status read before its first byte had
BSY=0, ERR=0 and DRQ=1. -/
structure Block where
  write : Bool
  dev : Bool
  sector : Option ℕ
  bytes : List UInt8
  asked : Bool

/-- The blocks a command has still to move : the next sector, if the device has it. -/
structure Transfer where
  write : Bool
  dev : Bool
  next : Option ℕ
  left : ℕ

/-- A command issued, and whether the block before it was followed by a status with BSY=0
and ERR=0. -/
structure Command where
  xfer : Transfer
  settled : Bool

/-- The sectors a transfer names. -/
def Transfer.sectors (x : Transfer) : List ℕ :=
  match x.next with
  | some first => List.range' first x.left
  | none => []

/-- What the registers ask for. -/
def TaskFile.transfer (tf : TaskFile) (geom : Bool → Geometry) (write : Bool) : Transfer where
  write := write
  dev := tf.dev
  next := tf.sector (geom tf.dev)
  left := tf.count

/-- After `n` blocks. -/
def Transfer.after (x : Transfer) (n : ℕ) : Transfer :=
  { x with next := x.next.map (· + n), left := x.left - n }

theorem Transfer.after_after (x : Transfer) (m n : ℕ) : (x.after m).after n = x.after (m + n) := by
  simp [after, Function.comp_def, Nat.add_assoc, Nat.sub_sub]

/-- The blocks a transfer moves, each asked for. -/
def Transfer.blocks (x : Transfer) : List (List UInt8) → List Block
  | [] => []
  | b :: bs => ⟨x.write, x.dev, x.next, b, true⟩ :: (x.after 1).blocks bs

theorem Transfer.blocks_append (x : Transfer) : ∀ bs cs : List (List UInt8),
    x.blocks (bs ++ cs) = x.blocks bs ++ (x.after bs.length).blocks cs
  | [], cs => by simp [blocks, after]
  | b :: bs, cs => by
    rw [List.cons_append, blocks, blocks, blocks_append, after_after, List.length_cons,
      Nat.add_comm 1, List.cons_append]

/-- The blocks moved do not depend on how many are left. -/
theorem Transfer.blocks_left (write dev : Bool) (m n : ℕ) :
    ∀ (next : Option ℕ) (bs : List (List UInt8)),
      (Transfer.mk write dev next m).blocks bs = (Transfer.mk write dev next n).blocks bs
  | _, [] => rfl
  | next, _ :: bs => congrArg (_ :: ·) (blocks_left write dev (m - 1) (n - 1) (next.map (· + 1)) bs)

/-- The `k`-th block goes to the `k`-th sector. -/
theorem Transfer.blocks_map (write dev : Bool) (f : ℕ → List UInt8) :
    ∀ (n first left : ℕ), (Transfer.mk write dev (some first) left).blocks ((List.range n).map f) =
      (List.range n).map fun k => ⟨write, dev, some (first + k), f k, true⟩
  | 0, _, _ => rfl
  | n + 1, first, left => by
    have hlen : ((List.range n).map f).length = n := by simp
    rw [List.range_succ, List.map_append, blocks_append, blocks_map write dev f n, hlen,
      List.map_append]
    rfl

structure Device where
  tf : TaskFile
  xfer : Option Transfer
  /-- The high byte staged for the next word. -/
  latch : UInt8
  /-- The block in progress. -/
  buf : List UInt8
  /-- The last status read since the last block and the last command. -/
  last : Option UInt8
  /-- BSY=0 and ERR=0 have been read since the last block. -/
  settled : Bool
  issued : List Command
  moved : List Block
  /-- Data went by that no command had asked for. -/
  stray : Bool

/-- How a card carries data : by bytes, or by words with a latch for the high byte. -/
inductive Wiring
  | bytes
  | latch
  deriving DecidableEq, Repr

namespace Device

def idle (tf : TaskFile) : Device where
  tf := tf
  xfer := none
  latch := 0
  buf := []
  last := none
  settled := true
  issued := []
  moved := []
  stray := false

variable (d : Device)

/-- A block is complete. -/
def block (x : Transfer) (bytes : List UInt8) : Device :=
  { d with
    xfer := some (x.after 1)
    buf := []
    last := none
    settled := false
    moved := d.moved ++ [⟨x.write, x.dev, x.next, bytes, d.last.any askingStatus⟩] }

/-- Bytes of data in the direction `write`. -/
def data (write : Bool) (bytes : List UInt8) : Device :=
  match d.xfer with
  | some x =>
    if x.write = write ∧ x.left ≠ 0 then
      if (d.buf ++ bytes).length < 512 then { d with buf := d.buf ++ bytes }
      else d.block x (d.buf ++ bytes)
    else { d with stray := true }
  | none => { d with stray := true }

/-- A status read between blocks. -/
def sees (v : UInt8) : Device :=
  { d with last := some v, settled := d.settled || settledStatus v }

/-- A command byte. -/
def command (geom : Bool → Geometry) (op : UInt8) : Device :=
  if op = readSectors ∨ op = writeSectors then
    { d with
      xfer := some (d.tf.transfer geom (op == writeSectors))
      buf := []
      last := none
      issued := d.issued ++ [⟨d.tf.transfer geom (op == writeSectors), d.settled⟩] }
  else { d with xfer := none, buf := [], last := none }

/-- What the device makes of one access. -/
def step (w : Wiring) (geom : Bool → Geometry) : Device → Access → Device
  | d, .inb .altStatus v => if d.buf = [] then d.sees v else d
  | d, .inb .status v => if d.buf = [] then d.sees v else d
  | d, .inb .data v => d.data false [v]
  | d, .inb .hiLatch v => if w = .latch then d.data false [v] else d
  | d, .inb _ _ => d
  | d, .outb .data v => d.data true (if w = .latch then [v, d.latch] else [v])
  | d, .outb .hiLatch v => if w = .latch then { d with latch := v } else d
  | d, .outb .status v => d.command geom v
  | d, .outb r v => { d with tf := d.tf.write r v }

/-- The device after the accesses. -/
def run (w : Wiring) (geom : Bool → Geometry) (d : Device) (as : List Access) : Device :=
  as.foldl (step w geom) d

variable (w : Wiring) (geom : Bool → Geometry)

@[simp] theorem run_nil : d.run w geom [] = d := rfl

@[simp] theorem run_cons (a : Access) (as : List Access) :
    d.run w geom (a :: as) = (d.step w geom a).run w geom as := rfl

theorem run_append (as bs : List Access) :
    d.run w geom (as ++ bs) = (d.run w geom as).run w geom bs :=
  List.foldl_append

/-! ## Looks -/

/-- `d` after looks : only what it keeps of the statuses has changed. -/
def looked (last : Option UInt8) (settled : Bool) : Device :=
  { d with last := last, settled := settled }

variable {d}

/-- What looks leave : the last status, and a settled device stays so. -/
theorem run_looks (hbuf : d.buf = []) (vs : List UInt8) :
    ∃ last settled, d.run w geom (looks vs) = d.looked last settled ∧
      (d.settled = true → settled = true) := by
  induction vs generalizing d with
  | nil => exact ⟨d.last, d.settled, rfl, id⟩
  | cons v vs ih =>
    have hstep : d.step w geom (.inb .altStatus v) = d.sees v := if_pos hbuf
    obtain ⟨last, settled, hrun, hsettled⟩ := ih (d := d.sees v) hbuf
    refine ⟨last, settled, ?_, fun h => hsettled ?_⟩
    · rw [looks, List.map_cons, run_cons, hstep]
      exact hrun
    · simp [sees, h]

/-- The look that ends a wait. -/
theorem run_looks_last (hbuf : d.buf = []) (vs : List UInt8) (v : UInt8) :
    ∃ settled, d.run w geom (looks (vs ++ [v])) = d.looked (some v) settled ∧
      (d.settled = true ∨ settledStatus v = true → settled = true) := by
  obtain ⟨last, settled, hrun, hsettled⟩ := run_looks w geom hbuf vs
  have hstep : (d.looked last settled).step w geom (.inb .altStatus v) =
      (d.looked last settled).sees v := if_pos hbuf
  refine ⟨settled || settledStatus v, ?_, ?_⟩
  · have happ : looks (vs ++ [v]) = looks vs ++ [.inb .altStatus v] := List.map_append
    rw [happ, run_append, hrun, run_cons, run_nil, hstep]
    rfl
  · rintro (h | h)
    · rw [hsettled h, Bool.true_or]
    · rw [h, Bool.or_true]

theorem buf_run_looks (d : Device) (vs : List UInt8) : (d.run w geom (looks vs)).buf = d.buf := by
  induction vs generalizing d with
  | nil => rfl
  | cons v vs ih =>
    refine (ih (d.step w geom (.inb .altStatus v))).trans ?_
    rw [step]
    split_ifs <;> rfl

/-- A look at a settled status, between blocks, leaves the device settled. -/
theorem settled_run_looks (d : Device) {as : List Access} {vs : List UInt8} {v : UInt8}
    (hv : settledStatus v = true) (hbuf : (d.run w geom (as ++ looks (vs ++ [v]))).buf = []) :
    (d.run w geom (as ++ looks (vs ++ [v]))).settled = true := by
  rw [run_append] at hbuf ⊢
  rw [buf_run_looks] at hbuf
  obtain ⟨settled, hrun, hsettled⟩ := run_looks_last w geom hbuf vs v
  rw [hrun]
  exact hsettled (.inr hv)

/-! ## Blocks -/

theorem data_lt {x : Transfer} {bs : List UInt8} (hx : d.xfer = some x) (hleft : x.left ≠ 0)
    (h : (d.buf ++ bs).length < 512) : d.data x.write bs = { d with buf := d.buf ++ bs } := by
  unfold data
  rw [hx]
  dsimp only
  rw [if_pos ⟨rfl, hleft⟩, if_pos h]

theorem data_ge {x : Transfer} {bs : List UInt8} (hx : d.xfer = some x) (hleft : x.left ≠ 0)
    (h : ¬(d.buf ++ bs).length < 512) : d.data x.write bs = d.block x (d.buf ++ bs) := by
  unfold data
  rw [hx]
  dsimp only
  rw [if_pos ⟨rfl, hleft⟩, if_neg h]

end Device

/-- The accesses carry the bytes in the direction `write`, some at a time. -/
inductive Carries (w : Wiring) (write : Bool) : List Access → List UInt8 → Prop
  | nil : Carries w write [] []
  | step {c as : List Access} {b bs : List UInt8} (hb : b ≠ [])
      (hc : ∀ (geom : Bool → Geometry) (d : Device), ∃ latch,
        d.run w geom c = { d.data write b with latch := latch })
      (h : Carries w write as bs) : Carries w write (c ++ as) (b ++ bs)

section Carries

variable {w : Wiring} {as : List Access} {bs : List UInt8}

theorem Carries.inData (v : UInt8) (h : Carries w false as bs) :
    Carries w false (.inb .data v :: as) (v :: bs) :=
  .step (c := [.inb .data v]) (b := [v]) (List.cons_ne_nil v [])
    (fun _ d => ⟨(d.data false [v]).latch, rfl⟩) h

theorem Carries.inLatch (v : UInt8) (h : Carries .latch false as bs) :
    Carries .latch false (.inb .hiLatch v :: as) (v :: bs) :=
  .step (c := [.inb .hiLatch v]) (b := [v]) (List.cons_ne_nil v [])
    (fun _ d => ⟨(d.data false [v]).latch, rfl⟩) h

theorem Carries.outData (v : UInt8) (h : Carries .bytes true as bs) :
    Carries .bytes true (.outb .data v :: as) (v :: bs) :=
  .step (c := [.outb .data v]) (b := [v]) (List.cons_ne_nil v [])
    (fun _ d => ⟨(d.data true [v]).latch, rfl⟩) h

/-- The high byte is staged, and goes with the low one. -/
theorem Carries.outLatch (lo hi : UInt8) (h : Carries .latch true as bs) :
    Carries .latch true (.outb .hiLatch hi :: .outb .data lo :: as) (lo :: hi :: bs) := by
  refine .step (c := [.outb .hiLatch hi, .outb .data lo]) (b := [lo, hi])
    (List.cons_ne_nil lo [hi]) (fun _ d => ⟨hi, ?_⟩) h
  simp only [Device.run, List.foldl_cons, List.foldl_nil, Device.step, if_pos, Device.data,
    Device.block]
  split
  · split_ifs <;> rfl
  · rfl

end Carries

theorem Carries.eq_nil {w : Wiring} {write : Bool} {as : List Access} {bs : List UInt8}
    (h : Carries w write as bs) (hbs : bs = []) : as = [] := by
  cases h with
  | nil => rfl
  | step hb _ _ => exact absurd (List.append_eq_nil_iff.1 hbs).1 hb

namespace Device

variable (w : Wiring) (geom : Bool → Geometry) {d : Device}

/-- Accesses that carry the rest of a block complete it. -/
theorem run_carries {x : Transfer} {as : List Access} {bs : List UInt8}
    (h : Carries w x.write as bs) (hx : d.xfer = some x) (hleft : x.left ≠ 0) (hbs : bs ≠ [])
    (hlen : d.buf.length + bs.length = 512) :
    ∃ latch, d.run w geom as = { d.block x (d.buf ++ bs) with latch := latch } := by
  induction h generalizing d with
  | nil => exact absurd rfl hbs
  | @step cs as b bs hb hcs has ih =>
    obtain ⟨latch, hrun⟩ := hcs geom d
    rw [run_append, hrun]
    rw [List.length_append] at hlen
    by_cases hrest : bs = []
    · have hfull : ¬(d.buf ++ b).length < 512 := by
        rw [hrest, List.length_nil] at hlen
        rw [List.length_append]
        omega
      refine ⟨latch, ?_⟩
      rw [has.eq_nil hrest, run_nil, hrest, List.append_nil, data_ge hx hleft hfull]
    · have hpart : (d.buf ++ b).length < 512 := by
        have := List.length_pos_of_ne_nil hrest
        rw [List.length_append]
        omega
      rw [data_lt hx hleft hpart]
      obtain ⟨latch', hrun'⟩ := ih (d := { d with buf := d.buf ++ b, latch := latch }) hx hrest
        (by rw [List.length_append]; omega)
      refine ⟨latch', ?_⟩
      rw [hrun', List.append_assoc]
      rfl

/-- `d` after the blocks, each asked for. -/
def took (d : Device) (x : Transfer) (bs : List (List UInt8)) (last : Option UInt8)
    (settled : Bool) (latch : UInt8) : Device :=
  { d with
    xfer := some (x.after bs.length)
    buf := []
    last := last
    settled := settled
    latch := latch
    moved := d.moved ++ x.blocks bs }

theorem took_nil {x : Transfer} (hx : d.xfer = some x) (hbuf : d.buf = []) (last : Option UInt8)
    (settled : Bool) : d.looked last settled = d.took x [] last settled d.latch := by
  cases d
  simp_all [looked, took, Transfer.after, Transfer.blocks]

/-- A block moved after a status that asks for it, and the blocks after that. -/
theorem run_asked {x : Transfer} {as bs : List Access} {b : List UInt8} {rest : List (List UInt8)}
    {vs : List UInt8} {v : UInt8} (hv : askingStatus v = true) (h : Carries w x.write as b)
    (hlen : b.length = 512) (hx : d.xfer = some x) (hleft : x.left ≠ 0) (hbuf : d.buf = [])
    (hrest : ∀ d' : Device, d'.xfer = some (x.after 1) → d'.buf = [] → ∃ last settled latch,
      d'.run w geom bs = d'.took (x.after 1) rest last settled latch) :
    ∃ last settled latch,
      d.run w geom (looks (vs ++ [v]) ++ as ++ bs) = d.took x (b :: rest) last settled latch := by
  obtain ⟨settled, hlooks, -⟩ := run_looks_last w geom hbuf vs v
  have hne : b ≠ [] := by
    rintro rfl
    exact absurd hlen (by decide)
  obtain ⟨latch, hblock⟩ := run_carries w geom (d := d.looked (some v) settled) h hx hleft hne
    (by rw [looked, hbuf, List.length_nil, Nat.zero_add, hlen])
  obtain ⟨last', settled', latch', hall⟩ := hrest
    { (d.looked (some v) settled).block x ((d.looked (some v) settled).buf ++ b) with
      latch := latch } rfl rfl
  refine ⟨last', settled', latch', ?_⟩
  have hafter : (x.after 1).after rest.length = x.after (b :: rest).length := by
    rw [Transfer.after_after, Nat.add_comm, List.length_cons]
  rw [run_append, run_append, hlooks, hblock, hall]
  simp [took, looked, block, hbuf, Transfer.blocks, hafter, hv]

end Device

/-- The accesses that program a task file and give the command. -/
def programs (tf : TaskFile) (vs : List UInt8) (write : Bool) : List Access :=
  .outb .drvHd tf.drvHd :: (looks vs ++
    [.outb .secCnt tf.secCnt, .outb .secNum tf.secNum, .outb .cylLo tf.cylLo,
      .outb .cylHi tf.cylHi, .outb .status (if write then writeSectors else readSectors)])

namespace Device

/-- `d` after a command. -/
def issue (d : Device) (geom : Bool → Geometry) (tf : TaskFile) (write settled : Bool) : Device :=
  { d with
    tf := tf
    xfer := some (tf.transfer geom write)
    buf := []
    last := none
    settled := settled
    issued := d.issued ++ [⟨tf.transfer geom write, settled⟩] }

theorem run_programs (w : Wiring) (geom : Bool → Geometry) {d : Device} (hbuf : d.buf = [])
    (tf : TaskFile) (vs : List UInt8) (write : Bool) :
    ∃ settled, d.run w geom (programs tf vs write) = d.issue geom tf write settled ∧
      (d.settled = true → settled = true) := by
  obtain ⟨last, settled, hlooks, hsettled⟩ :=
    run_looks w geom (d := d.step w geom (.outb .drvHd tf.drvHd)) hbuf vs
  refine ⟨settled, ?_, hsettled⟩
  rw [programs, run_cons, run_append, hlooks]
  cases write <;> rfl

end Device

/-- The accesses move `blocks`, of the `n` a transfer has left, each asked for ; all of them
if `ok`. -/
structure Moves (w : Wiring) (write : Bool) (n : ℕ) (ok : Bool) (as : List Access)
    (blocks : List (List UInt8)) : Prop where
  le : blocks.length ≤ n
  all : ok = true → blocks.length = n
  length : ∀ b ∈ blocks, b.length = 512
  run : ∀ (geom : Bool → Geometry) (d : Device) (x : Transfer), d.xfer = some x →
    x.write = write → n ≤ x.left → d.buf = [] → ∃ last settled latch,
      d.run w geom as = d.took x blocks last settled latch

theorem Moves.looks (w : Wiring) (write : Bool) {n : ℕ} {ok : Bool} (h : ok = true → n = 0)
    (vs : List UInt8) : Moves w write n ok (looks vs) [] where
  le := Nat.zero_le n
  all hok := (h hok).symm
  length _ hb := absurd hb List.not_mem_nil
  run geom d x hx _ _ hbuf := by
    obtain ⟨last, settled, hrun, -⟩ := Device.run_looks w geom hbuf vs
    exact ⟨last, settled, d.latch, hrun.trans (Device.took_nil hx hbuf last settled)⟩

theorem Moves.cons {w : Wiring} {write : Bool} {n : ℕ} {ok : Bool} {as as' : List Access}
    {b : List UInt8} {bs : List (List UInt8)} {v : UInt8} (vs : List UInt8)
    (hv : askingStatus v = true) (hc : Carries w write as b) (hlen : b.length = 512)
    (h : Moves w write n ok as' bs) :
    Moves w write (n + 1) ok (Ata.looks (vs ++ [v]) ++ as ++ as') (b :: bs) where
  le := Nat.succ_le_succ h.le
  all hok := congrArg (· + 1) (h.all hok)
  length := List.forall_mem_cons.2 ⟨hlen, h.length⟩
  run geom d x hx hwrite hleft hbuf := by
    subst hwrite
    have hpos : x.left ≠ 0 := by omega
    refine Device.run_asked w geom hv hc hlen hx hpos hbuf fun d' hx' hbuf' => ?_
    exact h.run geom d' (x.after 1) hx' rfl (Nat.le_sub_one_of_lt hleft) hbuf'

/-- Looks after the blocks. -/
theorem Moves.append_looks {w : Wiring} {write : Bool} {n : ℕ} {ok ok' : Bool} {as : List Access}
    {blocks : List (List UInt8)} (h : Moves w write n ok as blocks) (hok : ok' = true → ok = true)
    (vs : List UInt8) : Moves w write n ok' (as ++ Ata.looks vs) blocks where
  le := h.le
  all hok' := h.all (hok hok')
  length := h.length
  run geom d x hx hwrite hleft hbuf := by
    obtain ⟨last, settled, latch, hrun⟩ := h.run geom d x hx hwrite hleft hbuf
    obtain ⟨last', settled', hlooks, -⟩ := Device.run_looks w geom
      (d := d.took x blocks last settled latch) rfl vs
    refine ⟨last', settled', latch, ?_⟩
    rw [Device.run_append, hrun, hlooks]
    rfl

/-- From `d` to `d'` the commands and the blocks were added, and nothing is in progress. -/
structure Device.Added (d d' : Device) (cs : List Command) (ms : List Block) : Prop where
  issued : d'.issued = d.issued ++ cs
  moved : d'.moved = d.moved ++ ms
  stray : d'.stray = d.stray
  buf : d'.buf = []

theorem Device.Added.trans {d d' d'' : Device} {cs cs' : List Command} {ms ms' : List Block}
    (h : d.Added d' cs ms) (h' : d'.Added d'' cs' ms') : d.Added d'' (cs ++ cs') (ms ++ ms') where
  issued := by rw [h'.issued, h.issued, List.append_assoc]
  moved := by rw [h'.moved, h.moved, List.append_assoc]
  stray := h'.stray.trans h.stray
  buf := h'.buf

/-- Looks add nothing. -/
theorem Device.added_looks (w : Wiring) (geom : Bool → Geometry) {d : Device} (hbuf : d.buf = [])
    (vs : List UInt8) : d.Added (d.run w geom (Ata.looks vs)) [] [] ∧
      (d.settled = true → (d.run w geom (Ata.looks vs)).settled = true) := by
  obtain ⟨last, settled, hrun, hsettled⟩ := run_looks w geom hbuf vs
  rw [hrun]
  exact ⟨⟨(List.append_nil _).symm, (List.append_nil _).symm, rfl, hbuf⟩, hsettled⟩

/-- Nor does a device that is selected and given no command. -/
theorem Device.added_select (w : Wiring) (geom : Bool → Geometry) {d : Device} (hbuf : d.buf = [])
    (v : UInt8) (vs : List UInt8) :
    d.Added (d.run w geom (.outb .drvHd v :: Ata.looks vs)) [] [] := by
  have hselect : d.Added (d.step w geom (.outb .drvHd v)) [] [] :=
    ⟨(List.append_nil _).symm, (List.append_nil _).symm, rfl, hbuf⟩
  exact hselect.trans (Device.added_looks w geom hselect.buf vs).1

/-- A command and the blocks it moves. -/
theorem Device.added_command (w : Wiring) (geom : Bool → Geometry) {d : Device} (hbuf : d.buf = [])
    (tf : TaskFile) (vs : List UInt8) {write ok : Bool} {as : List Access}
    {blocks : List (List UInt8)} (h : Moves w write tf.count ok as blocks) :
    ∃ settled, d.Added (d.run w geom (programs tf vs write ++ as))
        [⟨tf.transfer geom write, settled⟩] ((tf.transfer geom write).blocks blocks) ∧
      (d.settled = true → settled = true) := by
  obtain ⟨settled, hcmd, hsettled⟩ := run_programs w geom hbuf tf vs write
  obtain ⟨last, settled', latch, hrun⟩ :=
    h.run geom (d.issue geom tf write settled) _ rfl rfl (Nat.le_refl _) rfl
  refine ⟨settled, ?_, hsettled⟩
  rw [run_append, hcmd, hrun]
  exact ⟨rfl, rfl, rfl, rfl⟩

end Inboard.Ata
