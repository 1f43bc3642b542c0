import Inboard.Lz4Compress

/-!
# The swap compressor

`SwapComp_Hook` of SWAPCOMP.ASM, which stands before PageFile_Read_Or_Write, with
`SC_One`, `SC_Transfer` and `SC_IFS_Hook`. PAGEFILE and the codes of its interface are not
in the repository : the codes are the structure `PageSwap`, and each call to PAGEFILE
takes its `Outcome` from a sequence that stands for everything it may do. A call that
succeeds moves the bytes between the buffer and the page's own slot ; one that fails leaves
any bytes in the destination.

`scOne` keeps a log of the pages it was given (`Served`) beside the driver's own data.
SC_Busy, which only counts contention, and the semaphore are left out : a state is what
one caller leaves to the next.
-/

set_option linter.unusedSectionVars false

namespace Inboard

/-! ## PAGEFILE's interface -/

/-- The codes of a PageSwapBufferDesc. -/
structure PageSwap where
  pfWriteData : UInt8
  pfsSuccess : UInt8
  pfsFailure : UInt8
  success_ne_failure : pfsSuccess ≠ pfsFailure

/-- Where a buffer lies : in the caller's memory or in SC_Bounce. -/
inductive Buf where
  | caller
  | bounce
  deriving DecidableEq

/-- `PageSwapBufferDesc`. -/
structure PageSwapBufferDesc where
  cmd : UInt8
  status : UInt8
  priority : UInt8
  nPages : UInt8
  filePage : UInt32
  bufferPtr : Buf × ℕ

/-- What PAGEFILE makes of a call : whether it goes through IFSMgr_Ring0_FileIO, where
SC_IFS_Hook sees it, the status, and what a failed call leaves at the start of the
destination. -/
structure Outcome where
  seen : Bool
  status : UInt8
  junk : List UInt8

/-! ## The driver's data -/

/-- The build switches : SC_FOLD, SC_ZERO, SC_CHECKSUM and SC_SLOTS. -/
structure SwapBuild where
  scFold : Bool
  scZero : Bool
  scChecksum : Bool
  scSlots : ℕ

/-- The counters System Monitor reads. -/
structure SwapCounters where
  cCompWrites : UInt32
  cRawWrites : UInt32
  cCompReads : UInt32
  cRawReads : UInt32
  cSectorsSaved : UInt32
  cErrors : UInt32
  cFallback : UInt32
  cZeroWrites : UInt32
  cZeroReads : UInt32
  cSumErrors : UInt32

/-- One page `SC_One` was given : the command, the page, its SlotTab entry before (0 past
the table), the PAGEFILE calls made before, the page buffer after, and whether it failed. -/
structure Served where
  cmd : UInt8
  page : UInt32
  entry : UInt8
  call : ℕ
  data : List UInt8
  failed : Bool
  deriving DecidableEq

/-- The driver's data, memory, and PAGEFILE's file : a slot of bytes for each page. -/
structure Swap where
  desc : PageSwapBufferDesc
  mem : Mem Buf
  slotTab : UInt32 → UInt8
  sumTab : UInt32 → UInt16
  htab : ℕ → UInt16
  inflight : Bool
  want : ℕ
  seen : Bool
  disabled : Bool
  status : UInt8
  counters : SwapCounters
  file : Mem UInt32
  calls : ℕ
  log : List Served

/-- `SC_MAX_SECTORS`. -/
def scMaxSectors : ℕ := 6

/-- `SC_ZERO_SLOT`. -/
def scZeroSlot : UInt8 := 0xFF

/-! ## A call to PAGEFILE -/

/-- `SC_IFS_Hook` : ECX, shortened when the transfer is ours. -/
def scIfsHook (esi : Buf × ℕ) (ecx : ℕ) (s : Swap) : ℕ × Swap :=
  if s.inflight = false then (ecx, s)
  else if esi ≠ (.bounce, 0) then (ecx, s)
  else (s.want, { s with seen := true })

/-- The move itself, of `ecx` bytes at the page's slot. -/
def pageFileMove (P : PageSwap) (o : Outcome) (ecx : ℕ) (s : Swap) : Swap :=
  if s.desc.cmd = P.pfWriteData then
    { s with file := s.file.blit s.desc.filePage 0 <|
        if o.status = P.pfsSuccess then s.mem.bytes s.desc.bufferPtr.1 s.desc.bufferPtr.2 ecx
        else o.junk.take pageBytes }
  else
    { s with mem := s.mem.blit s.desc.bufferPtr.1 s.desc.bufferPtr.2 <|
        if o.status = P.pfsSuccess then s.file.bytes s.desc.filePage 0 ecx
        else o.junk.take pageBytes }

/-- `SC_Prev` on SC_Desc : PAGEFILE moves a page, or what the hook made of it. -/
def scPrev (P : PageSwap) (io : ℕ → Outcome) (s : Swap) : Swap :=
  let o := io s.calls
  let (ecx, s) := if o.seen then scIfsHook s.desc.bufferPtr pageBytes s else (pageBytes, s)
  pageFileMove P o ecx { s with desc.status := o.status, calls := s.calls + 1 }

/-- `SC_Transfer` : `ecx` bytes between SC_Bounce and the page's slot. Carry is `.error`. -/
def scTransfer (P : PageSwap) (io : ℕ → Outcome) (ecx : ℕ) (s : Swap) : Except Swap Swap :=
  let eax := s.desc.bufferPtr
  let s := { s with want := ecx, seen := false, desc.bufferPtr := (.bounce, 0), inflight := true }
  let s := scPrev P io s
  let s := { s with inflight := false, desc.bufferPtr := eax }
  if s.desc.status ≠ P.pfsSuccess then .error s
  else if s.desc.cmd = P.pfWriteData then .ok s
  else if s.seen = false then .error s
  else .ok s

/-! ## The compressor's view of memory -/

/-- The segments of an LZ4 routine called with ESI = `src` and EDI = `dst`. -/
def lzView (src dst : Buf × ℕ) (mem : Mem Buf) : Mem Seg
  | .src => fun i => mem src.1 (src.2 + i)
  | .dst => fun i => mem dst.1 (dst.2 + i)

/-- Memory after an LZ4 routine : what it left at EDI. -/
def lzReturn (dst : Buf × ℕ) (mem : Mem Buf) (m : Mem Seg) : Mem Buf := fun t i =>
  if t = dst.1 ∧ dst.2 ≤ i then m .dst (i - dst.2) else mem t i

/-- `rol eax, 1`. -/
def rol1 (eax : UInt32) : UInt32 := eax <<< 1 ||| eax >>> 31

/-- `SC_PageSum` : the 16-bit checksum of the page at `esi`. -/
def scPageSum (mem : Mem Buf) (esi : Buf × ℕ) : UInt16 :=
  let eax := (List.range (pageBytes / 4)).foldl
    (fun eax i => rol1 (eax + UInt32.ofNat (mem.dword esi.1 (esi.2 + 4 * i)))) 0
  (eax ^^^ eax >>> 16).toUInt16

/-- `repe scasd` over a page ends with the zero flag. -/
def scIsZero (mem : Mem Buf) (edi : Buf × ℕ) : Bool :=
  (List.range (pageBytes / 4)).all fun i => mem.dword edi.1 (edi.2 + 4 * i) = 0

/-! ## One page -/

section One

variable (B : SwapBuild) (P : PageSwap) (io : ℕ → Outcome)

/-- SC_CHECKSUM, on a read : compare with the sum taken at write time. -/
def scCheckSum (s : Swap) : Swap :=
  if B.scChecksum then
    if scPageSum s.mem s.desc.bufferPtr = s.sumTab s.desc.filePage then s
    else { s with counters.cSumErrors := s.counters.cSumErrors + 1 }
  else s

/-- SC_CHECKSUM, on a write. -/
def scTakeSum (s : Swap) : Swap :=
  if B.scChecksum then
    { s with sumTab := Function.update s.sumTab s.desc.filePage <|
        scPageSum s.mem s.desc.bufferPtr }
  else s

/-- `sco_pass` : the page as it is. -/
def scoPass (s : Swap) : Except Swap Swap :=
  let s := scPrev P io s
  if s.desc.status ≠ P.pfsSuccess then .error s else .ok s

/-- `sco_error`. -/
def scoError (s : Swap) : Except Swap Swap :=
  .error { s with counters.cErrors := s.counters.cErrors + 1 }

/-- `sco_raw_read`. -/
def scoRawRead (s : Swap) : Except Swap Swap :=
  scoPass P io { s with counters.cRawReads := s.counters.cRawReads + 1 }

/-- A page of zeros, without I/O. -/
def scoZeroRead (s : Swap) : Swap :=
  scCheckSum B { s with
    mem := s.mem.blit s.desc.bufferPtr.1 s.desc.bufferPtr.2 (List.replicate pageBytes 0)
    counters.cZeroReads := s.counters.cZeroReads + 1 }

/-- After the transfer of a compressed read : the block SC_Bounce holds, into the page. -/
def scoUnpack (s : Swap) : Except Swap Swap :=
  let ecx := (s.mem .bounce 0).toNat + 256 * (s.mem .bounce 1).toNat
  if (s.slotTab s.desc.filePage).toNat * 512 < ecx + 2 then scoError s
  else
    let r := lz4Decompress ecx (lzView (.bounce, 2) s.desc.bufferPtr s.mem)
    let s := { s with mem := lzReturn s.desc.bufferPtr s.mem r.2.mem }
    if r.1 ≠ pageBytes then scoError s
    else .ok (scCheckSum B { s with counters.cCompReads := s.counters.cCompReads + 1 })

/-- The read half of `SC_One`. -/
def scoRead (s : Swap) : Except Swap Swap :=
  if B.scSlots ≤ s.desc.filePage.toNat then scoRawRead P io s
  else if s.slotTab s.desc.filePage = 0 then scoRawRead P io s
  else if B.scZero ∧ s.slotTab s.desc.filePage = scZeroSlot then .ok (scoZeroRead B s)
  else
    match scTransfer P io ((s.slotTab s.desc.filePage).toNat * 512) s with
    | .error s => .error s
    | .ok s => scoUnpack B s

/-- `sco_raw_write`, and `sco_raw_write_nt`. -/
def scoRawWrite (s : Swap) : Except Swap Swap :=
  scoPass P io { s with counters.cRawWrites := s.counters.cRawWrites + 1 }

/-- A write of zeros : SlotTab alone says so. -/
def scoZeroWrite (s : Swap) : Swap :=
  scTakeSum B { s with
    slotTab := Function.update s.slotTab s.desc.filePage scZeroSlot
    counters.cZeroWrites := s.counters.cZeroWrites + 1
    counters.cSectorsSaved := s.counters.cSectorsSaved + 8 }

/-- The block of the page, with its length, into SC_Bounce, and the sectors it takes. -/
def scoCompress (s : Swap) : ℕ × Swap :=
  let r := lz4Compress B.scFold s.htab (lzView s.desc.bufferPtr (.bounce, 2) s.mem)
  ((r.eax + 2 + 511) / 512, { s with
    htab := r.htab
    mem := (lzReturn (.bounce, 2) s.mem r.m.mem).blit .bounce 0 (Lz4.le16 r.eax) })

/-- After the transfer of a compressed write. If PAGEFILE moved our buffer without the hook,
whatever it wrote is not a page. -/
def scoStored (ecx : ℕ) (s : Swap) : Except Swap Swap :=
  if s.seen = false then
    scoRawWrite P io { s with disabled := true, counters.cFallback := s.counters.cFallback + 1 }
  else
    .ok (scTakeSum B { s with
      slotTab := Function.update s.slotTab s.desc.filePage (UInt8.ofNat ecx)
      counters.cCompWrites := s.counters.cCompWrites + 1
      counters.cSectorsSaved := s.counters.cSectorsSaved + UInt32.ofNat (8 - ecx) })

/-- A page that is written compressed if that saves two sectors. -/
def scoPack (s : Swap) : Except Swap Swap :=
  let (ecx, s) := scoCompress B s
  if scMaxSectors < ecx then scoRawWrite P io s
  else
    match scTransfer P io (ecx * 512) s with
    | .error s => .error s
    | .ok s => scoStored B P io ecx s

/-- The write half of `SC_One`. -/
def scoWrite (s : Swap) : Except Swap Swap :=
  if B.scSlots ≤ s.desc.filePage.toNat then scoRawWrite P io s
  else
    let s := { s with slotTab := Function.update s.slotTab s.desc.filePage 0 }
    if s.disabled then scoRawWrite P io s
    else if B.scZero ∧ scIsZero s.mem s.desc.bufferPtr then .ok (scoZeroWrite B s)
    else scoPack B P io s

/-- `SC_One` up to `sco_fail`, which is `.error`. -/
def scoRun (s : Swap) : Except Swap Swap :=
  if s.desc.cmd = P.pfWriteData then scoWrite B P io s else scoRead B P io s

/-- The SlotTab entry of a page, 0 past the table. -/
def entry (s : Swap) (page : UInt32) : UInt8 :=
  if B.scSlots ≤ page.toNat then 0 else s.slotTab page

/-- What the log says of a page, from the states before and after. -/
def served (s t : Swap) (failed : Bool) : Served where
  cmd := s.desc.cmd
  page := s.desc.filePage
  entry := entry B s s.desc.filePage
  call := s.calls
  data := t.mem.bytes s.desc.bufferPtr.1 s.desc.bufferPtr.2 pageBytes
  failed := failed

/-- `SC_One` : a failure sets SC_Status. -/
def scOne (s : Swap) : Swap :=
  match scoRun B P io s with
  | .ok t => { t with log := t.log ++ [served B s t false] }
  | .error t => { t with status := P.pfsFailure, log := t.log ++ [served B s t true] }

/-! ## Requests -/

/-- `sch_page` : the `edi` pages from `edx`, in the buffers from `esi`. -/
def schPage : ℕ → UInt32 → ℕ → Swap → Swap
  | 0, _, _, s => s
  | edi + 1, edx, esi, s => schPage edi (edx + 1) (esi + pageBytes) <|
      scOne B P io { s with desc.filePage := edx, desc.bufferPtr := (.caller, esi) }

/-- A call to PageFile_Read_Or_Write, and its caller's memory from `PS_BD_Buffer_Ptr`. -/
structure Request where
  cmd : UInt8
  priority : UInt8
  nPages : UInt8
  filePage : UInt32
  buffer : ℕ → UInt8

/-- What the caller gets back : `PS_BD_Status` and its memory. -/
structure Reply where
  status : UInt8
  buffer : ℕ → UInt8

/-- `SwapComp_Hook`. -/
def swapCompHook (r : Request) (s : Swap) : Reply × Swap :=
  let s := { s with
    status := P.pfsSuccess
    desc.cmd := r.cmd
    desc.priority := r.priority
    desc.nPages := 1
    mem := Function.update s.mem .caller r.buffer }
  let s := schPage B P io r.nPages.toNat r.filePage 0 s
  (⟨s.status, s.mem .caller⟩, s)

/-- Requests one after another, as SC_Sem lets them in : what was answered, and the state. -/
def swapRun (s : Swap) (rs : List Request) : List (Request × Reply) × Swap :=
  rs.foldl (fun h r => (h.1 ++ [(r, (swapCompHook B P io r h.2).1)],
    (swapCompHook B P io r h.2).2)) ([], s)

end One

/-- The driver as it is loaded, over a swap file with any content. -/
def swapStart (file : Mem UInt32) : Swap where
  desc := ⟨0, 0, 0, 0, 0, (.caller, 0)⟩
  mem := fun _ _ => 0
  slotTab := fun _ => 0
  sumTab := fun _ => 0
  htab := fun _ => 0
  inflight := false
  want := 0
  seen := false
  disabled := false
  status := 0
  counters := ⟨0, 0, 0, 0, 0, 0, 0, 0, 0, 0⟩
  file := file
  calls := 0
  log := []

end Inboard
