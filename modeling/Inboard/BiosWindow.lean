import Inboard.Steps

/-!
# The BIOS window of the Inboard 386 device

The device keeps two 64 KB buffers behind F0000-FFFFF : the shadow RAM, which takes every
write made through the window or through its alias at 5F0000, and a snapshot of the ROM.
A data read is steered between the two by port 670h ; an instruction fetch goes through
the `exec` pointer that `mem_mapping_add` was given, and is not
(`inboard386_fetch_eq_read_iff`).
-/

set_option linter.unusedSectionVars false

namespace Inboard

/-! ## The device -/

/-- The two buffers of the device. -/
inductive BiosBuffer
  | shadowRam
  | romSnapshot
  deriving DecidableEq, Repr

/-- A `mem_mapping_t` : its addresses, and the buffer its `exec` points to. -/
structure MemMapping where
  base : ℕ
  size : ℕ
  exec : BiosBuffer

/-- `addr` is one of the mapping's. -/
def MemMapping.Covers (map : MemMapping) (addr : ℕ) : Prop :=
  map.base ≤ addr ∧ addr < map.base + map.size

instance MemMapping.decidableCovers (map : MemMapping) (addr : ℕ) : Decidable (map.Covers addr) :=
  inferInstanceAs (Decidable (_ ∧ _))

/-- `bios_shadow_mapping`, as `inboard386_init` adds it. -/
def biosShadowMapping : MemMapping where
  base := 0xf0000
  size := 0x10000
  exec := .shadowRam

/-- `bios_shadow_alias_mapping`, at `INBOARD_SHADOW_ALIAS`. -/
def biosShadowAliasMapping : MemMapping where
  base := 0x5f0000
  size := 0x10000
  exec := .shadowRam

/-- What `inboard386_t` keeps for the window. -/
structure Inboard386 where
  speed : UInt8
  romShadowEnabled : UInt8
  biosShadowRam : ℕ → UInt8
  biosRomSnapshot : ℕ → UInt8

namespace Inboard386

/-- `inboard386_init` and `inboard386_reset` : both buffers hold the ROM, shadowing is off. -/
def init (rom : ℕ → UInt8) : Inboard386 where
  speed := 0
  romShadowEnabled := 0
  biosShadowRam := rom
  biosRomSnapshot := rom

def buffer (dev : Inboard386) : BiosBuffer → ℕ → UInt8
  | .shadowRam => dev.biosShadowRam
  | .romSnapshot => dev.biosRomSnapshot

/-- `inboard386_bios_shadow_read`. -/
def biosShadowRead (dev : Inboard386) (addr : ℕ) : UInt8 :=
  if 0x100000 ≤ addr then dev.biosShadowRam (addr % 0x10000)
  else if dev.romShadowEnabled ≠ 0 then dev.biosShadowRam (addr % 0x10000)
  else dev.biosRomSnapshot (addr % 0x10000)

/-- `inboard386_bios_shadow_write` : writes are never gated. -/
def biosShadowWrite (dev : Inboard386) (addr : ℕ) (val : UInt8) : Inboard386 :=
  { dev with biosShadowRam := Function.update dev.biosShadowRam (addr % 0x10000) val }

/-- `inboard386_write_670`, less the timing it sets. -/
def write670 (dev : Inboard386) (val : UInt8) : Inboard386 :=
  { dev with
    speed := val &&& 0x1F
    romShadowEnabled := (val &&& 0x1F) &&& 1 }

end Inboard386

/-- `_mem_exec[c >> MEM_GRANULARITY_BITS]` for a page of the mapping, as
`mem_mapping_recalc` sets it : `map->exec + (c - map->base)`. -/
def memExec (map : MemMapping) (page : ℕ) : BiosBuffer × ℕ :=
  (map.exec, page * 0x1000 - map.base)

/-- The byte the core fetches at `addr` through the pointer of its page (`getpccache`). -/
def Inboard386.fetch (dev : Inboard386) (map : MemMapping) (addr : ℕ) : UInt8 :=
  dev.buffer (memExec map (addr / 0x1000)).1 ((memExec map (addr / 0x1000)).2 + addr % 0x1000)

/-- What the guest may write : a byte of memory, or port 670h. -/
inductive GuestWrite
  | mem (addr : ℕ) (val : UInt8)
  | port670 (val : UInt8)

/-- A write takes the callback of the mapping that covers it ; other memory is not the
device's. -/
def guestWrite (dev : Inboard386) : GuestWrite → Inboard386
  | .mem addr val =>
    if biosShadowMapping.Covers addr ∨ biosShadowAliasMapping.Covers addr then
      dev.biosShadowWrite addr val
    else dev
  | .port670 val => dev.write670 val

/-! ## Fetches and reads -/

namespace Inboard386

variable (dev : Inboard386)

/-- A fetch takes the shadow RAM's byte, whatever port 670h holds. -/
theorem fetch_eq {addr : ℕ} (h : biosShadowMapping.Covers addr) :
    dev.fetch biosShadowMapping addr = dev.biosShadowRam (addr % 0x10000) := by
  have hoff : addr / 0x1000 * 0x1000 - 0xf0000 + addr % 0x1000 = addr % 0x10000 := by
    obtain ⟨hle, hlt⟩ : 0xf0000 ≤ addr ∧ addr < 0xf0000 + 0x10000 := h
    omega
  exact congrArg dev.biosShadowRam hoff

/-- Every fetch from the window takes what a data read of the same address takes. -/
def FetchEqRead : Prop :=
  ∀ addr, biosShadowMapping.Covers addr →
    dev.fetch biosShadowMapping addr = dev.biosShadowRead addr

/-- The shadow RAM holds the ROM. -/
def ShadowsRom : Prop := ∀ off < 0x10000, dev.biosShadowRam off = dev.biosRomSnapshot off

/-- With shadowing on both see the shadow RAM ; with it off the read sees the ROM. -/
theorem fetchEqRead_iff : dev.FetchEqRead ↔ dev.romShadowEnabled ≠ 0 ∨ dev.ShadowsRom := by
  have hread {addr : ℕ} (hcov : biosShadowMapping.Covers addr) : dev.biosShadowRead addr =
      if dev.romShadowEnabled ≠ 0 then dev.biosShadowRam (addr % 0x10000)
      else dev.biosRomSnapshot (addr % 0x10000) := by
    have hlow : addr < 0x100000 := hcov.2
    rw [biosShadowRead, if_neg (Nat.not_le.2 hlow)]
  constructor
  · intro h
    by_cases hon : dev.romShadowEnabled ≠ 0
    · exact .inl hon
    · refine .inr fun off hoff => ?_
      have hcov : biosShadowMapping.Covers (0xf0000 + off) :=
        ⟨Nat.le_add_right _ _, Nat.add_lt_add_left hoff _⟩
      have hmod : (0xf0000 + off) % 0x10000 = off := by omega
      have hsame := h _ hcov
      rwa [fetch_eq _ hcov, hread hcov, if_neg hon, hmod] at hsame
  · rintro h addr hcov
    rw [fetch_eq _ hcov, hread hcov]
    split_ifs with hon
    · rfl
    · exact h.resolve_left hon _ (Nat.mod_lt _ (by omega))

/-- The writes after which fetches and reads still agree : with shadowing off a byte
written is the ROM's, and shadowing is turned off over a copy of the ROM only. -/
def KeepsRom : GuestWrite → Prop
  | .mem addr val => dev.romShadowEnabled ≠ 0 ∨
      ((biosShadowMapping.Covers addr ∨ biosShadowAliasMapping.Covers addr) →
        val = dev.biosRomSnapshot (addr % 0x10000))
  | .port670 val => val &&& 1 ≠ 0 ∨ dev.ShadowsRom

theorem shadowsRom_write_iff (h : dev.ShadowsRom) (addr : ℕ) (val : UInt8) :
    (dev.biosShadowWrite addr val).ShadowsRom ↔ val = dev.biosRomSnapshot (addr % 0x10000) := by
  have hlt : addr % 0x10000 < 0x10000 := Nat.mod_lt _ (by omega)
  constructor
  · intro hw
    exact (Function.update_self ..).symm.trans (hw _ hlt)
  · rintro rfl off hoff
    by_cases hsame : off = addr % 0x10000
    · subst hsame
      exact Function.update_self ..
    · exact (Function.update_of_ne hsame ..).trans (h off hoff)

theorem guestWrite_fetchEqRead_iff (a : GuestWrite) (h : dev.FetchEqRead) :
    (guestWrite dev a).FetchEqRead ↔ dev.KeepsRom a := by
  have hrom := dev.fetchEqRead_iff.1 h
  rw [fetchEqRead_iff]
  cases a with
  | mem addr val =>
    unfold guestWrite KeepsRom
    dsimp only
    split_ifs with hcov
    · refine or_congr_right' fun hoff => ?_
      rw [shadowsRom_write_iff dev (hrom.resolve_left hoff), forall_prop_of_true hcov]
    · exact iff_of_true hrom (.inr fun hmapped => absurd hmapped hcov)
  | port670 val =>
    have hbit : (val &&& 0x1F) &&& 1 = val &&& 1 := by
      rw [UInt8.and_assoc]
      rfl
    unfold guestWrite KeepsRom
    dsimp only [write670]
    rw [hbit]
    exact Iff.rfl

end Inboard386

/-- From `inboard386_init` a fetch takes what a data read takes in every state, exactly when
every write keeps the ROM's bytes under a window that reads the ROM. -/
theorem inboard386_fetch_eq_read_iff (rom : ℕ → UInt8) (as : List GuestWrite) :
    Steps.Everywhere guestWrite Inboard386.FetchEqRead (.init rom) as ↔
      Steps.EveryStep guestWrite Inboard386.KeepsRom (.init rom) as := by
  refine Steps.everywhere_iff (fun dev a h => dev.guestWrite_fetchEqRead_iff a h) ?_
  exact (Inboard386.fetchEqRead_iff _).2 (.inr fun _ _ => rfl)

/-- One patched byte through the alias, with shadowing off, is fetched and not read. -/
theorem not_inboard386_fetch_eq_read : ¬∀ (rom : ℕ → UInt8) (as : List GuestWrite),
    Steps.Everywhere guestWrite Inboard386.FetchEqRead (.init rom) as := by
  intro h
  have hpatched := (h (fun _ => 0xFA) [.mem 0x5FE05B 0xEA]).2 0xFE05B ⟨by decide, by decide⟩
  exact absurd hpatched (by decide)

end Inboard
