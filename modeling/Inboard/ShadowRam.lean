import Inboard.RamTest

/-!
# SHADRAM.VXD

The driver that gives Windows the card's idle shadow RAM : `ShadRam_Sys_Init`, over whatever
the VMM and the card answer (`ShadowEnv`), and `ShadRam_Map_VM`. The 128 KB at
5E0000-5FFFFF is 32 pages, or 32768 dwords, on the card's cells ; `page n` is physical page
`SR_FIRST_PAGE + n`. The masks are the driver's dwords, `bt`, `bts` and `btr` their bits.
With `SR_DIAG` the I/O channel check is looked at earlier, and refuses the same pages.
-/

set_option linter.unusedSectionVars false

namespace Inboard

/-! ## Data -/

def SR_FIRST_PAGE : ℕ := 0x5E0
def SR_BIOS_PAGE : ℕ := 0x5F0
def SR_PAGES : ℕ := 16
def SR_ALL : ℕ := 32
def PAGE_BYTES : ℕ := 4096
def V86_BIOS_PAGE : ℕ := 0xF0
def BASIC_FIRST : ℕ := 6
def BASIC_LAST : ℕ := 13
def BASIC_SIG0 : UInt32 := 0xE87E8FE9
def BASIC_SIG1 : UInt32 := 0xE8CB6BA7
def KEEP_ALWAYS : ℕ := 0xC000
def INB_NORMAL : ℕ := 0x2AC
def INB_CACHE : ℕ := 0x2BF
def COPY_MAX_DIFF : ℕ := 0x100

/-- Dwords of a page. -/
def pageDwords : ℕ := 1024

/-- `dwStatus`. -/
inductive ShadowStatus
  | ok
  | owned
  | noMap
  | noInb
  | v86
  | noWin
  | parity
  deriving DecidableEq, Repr

/-- What the VMM and the card answer. -/
structure ShadowEnv (κ : Type*) where
  /-- The card's decoding of 5E0000-5FFFFF. -/
  board : Board κ
  /-- The dwords of F0000-FFFFF and of C0000-CFFFF, whatever the cells hold. -/
  bios : (κ → UInt32) → ℕ → UInt32
  video : (κ → UInt32) → ℕ → UInt32
  /-- `_GetPhysPageInfo` answers `PHYSINFO_NONE`. -/
  physInfoNone : Bool
  /-- Bits E0h-FFh that `_Get_Device_V86_Pages_Array` answers, if it does. -/
  v86Pages : Option UInt32
  /-- `_Assign_Device_V86_Pages` succeeds. -/
  assignV86 : Bool
  /-- `_MapPhysToLinear` maps the window, the BIOS and the video BIOS. -/
  mapWin : Bool
  mapBios : Bool
  mapVideo : Bool
  /-- The I/O channel check is set after the tests. -/
  ioCheck : Bool
  /-- `_AddFreePhysPage` adds the page. -/
  addFree : ℕ → Bool

/-- The driver's data, INBRDPC's resident image, port 670h and the card's RAM. -/
structure Shadow (κ : Type*) where
  ram : Ram κ
  inb : ℕ → UInt8
  /-- The last value written to `ROMCACHE_PORT`. -/
  port670 : UInt8
  tested : ℕ
  added : ℕ
  failed : ℕ
  status : ShadowStatus
  biosPage : ℕ
  keepMask : ℕ
  candMask : ℕ
  passMask : ℕ
  diffMask : ℕ
  /-- The pages passed to `_AddFreePhysPage`. -/
  donated : List ℕ

/-- `bts`. -/
def bts (mask n : ℕ) : ℕ := mask ||| 2 ^ n

/-- `btr`. -/
def btr (mask n : ℕ) : ℕ := mask ^^^ (mask &&& 2 ^ n)

@[simp] theorem testBit_bts (mask n k : ℕ) :
    (bts mask n).testBit k = (mask.testBit k || decide (n = k)) := by
  rw [bts, Nat.testBit_or, Nat.testBit_two_pow]

@[simp] theorem testBit_btr (mask n k : ℕ) :
    (btr mask n).testBit k = (mask.testBit k && decide (n ≠ k)) := by
  rw [btr, Nat.testBit_xor, Nat.testBit_and, Nat.testBit_two_pow]
  by_cases h : n = k <;> simp [h]

variable {κ : Type*} [DecidableEq κ] (E : ShadowEnv κ)

/-! ## Routines -/

/-- `f d` to each dword `d` of page `n`. -/
def srFill (f : ℕ → UInt32) (n : ℕ) (s : Shadow κ) : Shadow κ :=
  { s with ram := s.ram.fill E.board f pageDwords (n * pageDwords) }

/-- Whether each dword `d` of page `n` reads as `f d`. -/
def srScan (f : ℕ → UInt32) (n : ℕ) (s : Shadow κ) : Bool × Shadow κ :=
  ((s.ram.scan E.board f pageDwords (n * pageDwords)).1,
    { s with ram := (s.ram.scan E.board f pageDwords (n * pageDwords)).2 })

section Frame

variable (f : ℕ → UInt32) (n : ℕ) (s : Shadow κ)

@[simp] theorem srFill_passMask : (srFill E f n s).passMask = s.passMask := by rw [srFill]
@[simp] theorem srFill_candMask : (srFill E f n s).candMask = s.candMask := by rw [srFill]
@[simp] theorem srFill_keepMask : (srFill E f n s).keepMask = s.keepMask := by rw [srFill]
@[simp] theorem srFill_donated : (srFill E f n s).donated = s.donated := by rw [srFill]
@[simp] theorem srScan_passMask : (srScan E f n s).2.passMask = s.passMask := by rw [srScan]

end Frame

/-- `SR_Write_670`. -/
def srWrite670 (s : Shadow κ) : Shadow κ :=
  { s with port670 := (~~~s.inb INB_NORMAL &&& 0x1E) ||| s.inb INB_CACHE }

/-- `mov byte ptr [esi + INB_CACHE], v`, and `SR_Write_670`. -/
def srSetCache (v : UInt8) (s : Shadow κ) : Shadow κ :=
  srWrite670 { s with inb := Function.update s.inb INB_CACHE v }

/-- `SR_Pattern` on page `n` : CF clear is `true`. -/
def srPattern (n : ℕ) (pattern : UInt32) (s : Shadow κ) : Bool × Shadow κ :=
  match srScan E (fun _ => pattern) n (srFill E (fun _ => pattern) n s) with
  | (false, s) => (false, s)
  | (true, s) =>
    let edx := (n &&& (SR_PAGES - 1)) * pageDwords
    if E.bios s.ram.content edx = pattern then (false, s)
    else if E.video s.ram.content edx = pattern then (false, s)
    else (true, s)

/-- The physical address of a dword, as `SR_Page_Address` and the loops after it count it. -/
def srAddress (d : ℕ) : UInt32 := UInt32.ofNat (SR_FIRST_PAGE * PAGE_BYTES + 4 * d)

/-- A byte of a dword area. -/
def areaByte (area : ℕ → UInt32) (i : ℕ) : UInt8 :=
  UInt8.ofNat ((area (i / 4)).toNat / 2 ^ (8 * (i % 4)))

/-- Cassette BASIC is at F6000. -/
def isBasic (bios : ℕ → UInt32) : Bool :=
  bios (BASIC_FIRST * pageDwords) == BASIC_SIG0 && bios (BASIC_FIRST * pageDwords + 1) == BASIC_SIG1

/-- Page `n` of the BIOS is one repeated byte. -/
def isFiller (bios : ℕ → UInt32) (n : ℕ) : Bool :=
  decide (∀ i < PAGE_BYTES, areaByte bios (n * PAGE_BYTES + i) = areaByte bios (n * PAGE_BYTES))

/-- The BIOS still needs page `n` of its copy. -/
def isKept (bios : ℕ → UInt32) (diffMask n : ℕ) : Bool :=
  KEEP_ALWAYS.testBit n || diffMask.testBit n ||
    !isFiller bios n && !(isBasic bios && BASIC_FIRST ≤ n && n ≤ BASIC_LAST)

/-- `scp_page`. -/
def scpPage (s : Shadow κ) (n : ℕ) : Shadow κ :=
  if isKept (E.bios s.ram.content) s.diffMask n then { s with keepMask := bts s.keepMask n }
  else { s with candMask := bts s.candMask (n + SR_PAGES) }

/-- `SR_Choose_Pages`. -/
def srChoosePages (s : Shadow κ) : Shadow κ :=
  (List.range SR_PAGES).foldl (scpPage E) { s with candMask := 0xFFFF, keepMask := 0 }

/-! ## Sys_Critical_Init -/

/-- A loop over the pages, with EBX from 0. -/
def eachPage (f : ℕ → Shadow κ → Shadow κ) (s : Shadow κ) : Shadow κ :=
  (List.range SR_ALL).foldl (fun s n => f n s) s

/-- `ssi_page`. -/
def ssiPage (n : ℕ) (s : Shadow κ) : Shadow κ :=
  if s.candMask.testBit n then
    match srPattern E n 0x55AA55AA { s with tested := s.tested + 1 } with
    | (false, s) => { s with failed := s.failed + 1 }
    | (true, s) =>
      match srPattern E n 0xAA55AA55 s with
      | (false, s) => { s with failed := s.failed + 1 }
      | (true, s) => { s with passMask := bts s.passMask n }
  else s

/-- `ssi_fill`. -/
def ssiFill (n : ℕ) (s : Shadow κ) : Shadow κ :=
  if s.passMask.testBit n then srFill E srAddress n s else s

/-- `ssi_check`. -/
def ssiCheck (n : ℕ) (s : Shadow κ) : Shadow κ :=
  if s.passMask.testBit n then
    match srScan E srAddress n s with
    | (true, s) => s
    | (false, s) => { s with passMask := btr s.passMask n, failed := s.failed + 1 }
  else s

/-- `ssi_zero`. -/
def ssiZero (n : ℕ) (s : Shadow κ) : Shadow κ :=
  if s.candMask.testBit n then srFill E (fun _ => 0) n s else s

/-- The I/O channel check after the tests. -/
def ssiParity (s : Shadow κ) : Shadow κ :=
  if E.ioCheck then { s with status := .parity, passMask := 0 } else s

/-- `ssi_add`. -/
def ssiAdd (n : ℕ) (s : Shadow κ) : Shadow κ :=
  if s.passMask.testBit n then
    { s with
      donated := s.donated ++ [SR_FIRST_PAGE + n]
      added := if E.addFree (SR_FIRST_PAGE + n) then s.added + 1 else s.added }
  else s

/-- The 64 KB at 5E0000, written before any of it is read. -/
def ssiFirstFill (s : Shadow κ) : Shadow κ :=
  { s with ram := s.ram.fill E.board (fun _ => 0) (SR_PAGES * pageDwords) 0 }

/-- From the first fill to the donation loop. -/
def ssiTests (s : Shadow κ) : Shadow κ :=
  ssiParity E (eachPage (ssiZero E) (eachPage (ssiCheck E) (eachPage (ssiFill E)
    (eachPage (ssiPage E) (ssiFirstFill E s)))))

/-- `ssi_cmp` : the dwords in which the copy differs, counted in EDX. -/
def ssiCmp (edxs : ℕ × Shadow κ) (ecx : ℕ) : ℕ × Shadow κ :=
  match edxs.2.ram.read E.board (SR_PAGES * pageDwords + ecx) with
  | (eax, ram) =>
    if eax = E.bios ram.content ecx then (edxs.1, { edxs.2 with ram := ram })
    else (edxs.1 + 1, { edxs.2 with ram := ram, diffMask := bts edxs.2.diffMask (ecx / 2 ^ 10) })

/-- The comparison of the BIOS with its copy. -/
def ssiCompare (s : Shadow κ) : ℕ × Shadow κ :=
  (List.range (SR_PAGES * pageDwords)).foldl (ssiCmp E) (0, s)

/-- What follows the comparison : `ssi_open`, or INBRDPC's state is put back. -/
def ssiCompared : ℕ × Shadow κ → Shadow κ
  | (edx, s) =>
    if edx < COPY_MAX_DIFF then
      eachPage (ssiAdd E) (ssiTests E (srChoosePages E { s with biosPage := SR_BIOS_PAGE }))
    else { srSetCache 1 s with status := .noWin }

/-- `ssi_have_maps` : open the window, and back out if it stays closed. -/
def ssiHaveMaps (s : Shadow κ) : Shadow κ := ssiCompared E (ssiCompare E (srSetCache 0 s))

/-- The V86 pages F0-FF are free. -/
def ssiV86Free : Bool :=
  match E.v86Pages with
  | some pages => pages &&& 0xFFFF0000 == 0 && E.assignV86
  | none => false

/-- `ShadRam_Sys_Init` ; `inbFound` is the real-mode init's EDX. -/
def shadRamSysInit (inbFound : Bool) (s : Shadow κ) : Shadow κ :=
  if !inbFound then { s with status := .noInb }
  else if !E.physInfoNone then { s with status := .owned }
  else if !ssiV86Free E then { s with status := .v86 }
  else if E.mapWin && E.mapBios && E.mapVideo then
    ssiHaveMaps E { s with biosPage := V86_BIOS_PAGE }
  else { s with biosPage := V86_BIOS_PAGE, status := .noMap }

/-! ## Mapping -/

/-- A call of `_PhysIntoV86`. -/
structure V86Map where
  phys : ℕ
  v86 : ℕ
  deriving DecidableEq, Repr

/-- `smv_page`. -/
def smvPage (s : Shadow κ) (n : ℕ) : V86Map where
  phys := if s.keepMask.testBit n then s.biosPage + n else V86_BIOS_PAGE + n
  v86 := V86_BIOS_PAGE + n

/-- What `ShadRam_Map_VM` maps in a VM. -/
def shadRamMapVm (s : Shadow κ) : List V86Map :=
  if s.biosPage = 0 then [] else (List.range SR_PAGES).map (smvPage s)

/-- The driver as it was loaded ; INBRDPC, the port and the cells are as they may be. -/
structure Shadow.Loaded (s : Shadow κ) : Prop where
  log : s.ram.log = []
  status : s.status = .ok
  biosPage : s.biosPage = 0
  keepMask : s.keepMask = 0
  candMask : s.candMask = 0
  passMask : s.passMask = 0
  diffMask : s.diffMask = 0
  donated : s.donated = []

/-! ## The loops -/

theorem eachPage_induct {P : ℕ → Shadow κ → Prop} {f : ℕ → Shadow κ → Shadow κ} {s : Shadow κ}
    (h : P 0 s) (hstep : ∀ n < SR_ALL, ∀ s, P n s → P (n + 1) (f n s)) :
    P SR_ALL (eachPage f s) := by
  have hall (m : ℕ) (hm : m ≤ SR_ALL) : P m ((List.range m).foldl (fun s n => f n s) s) := by
    induction m with
    | zero => exact h
    | succ m ih =>
      rw [List.range_succ, List.foldl_append]
      exact hstep m hm _ (ih (Nat.le_of_succ_le hm))
  exact hall SR_ALL (Nat.le_refl _)

/-- What every page keeps. -/
theorem eachPage_keeps {P : Shadow κ → Prop} {f : ℕ → Shadow κ → Shadow κ} {s : Shadow κ}
    (h : P s) (hstep : ∀ n < SR_ALL, ∀ s, P s → P (f n s)) : P (eachPage f s) :=
  eachPage_induct (P := fun _ => P) h hstep

end Inboard
