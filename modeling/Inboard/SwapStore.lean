import Inboard.Store
import Inboard.SwapComp

/-!
# The swap compressor is a page store

A slot of the swap file is read as its SlotTab entry says (`SlotHolds`) : whole, as zeros,
or as a block that decodes to the page. `SC_One` keeps that reading of every page
(`scOne_step`), so its log is explained by a run of a store (`Explained`), and a read that
succeeds gives what the last successful write wrote.
-/

set_option linter.unusedSectionVars false

namespace Inboard

/-! ## The reading of a slot -/

/-- The length field of a compressed slot. -/
def blockLen (block : ℕ → UInt8) : ℕ := (block 0).toNat + 256 * (block 1).toNat

/-- `k` sectors hold a block that decodes to `c`, in any buffer they are read into. -/
def Packed (k : ℕ) (slot : ℕ → UInt8) (c : List UInt8) : Prop :=
  c.length = pageBytes ∧ ∀ block, (∀ i < k * 512, block i = slot i) →
    blockLen block + 2 ≤ k * 512 ∧
      ∀ out, ∃ m, lz4Decompress (blockLen block) (decodeMem (fun i => block (2 + i)) out) =
        (pageBytes, m) ∧
          m.mem = (decodeMem (fun i => block (2 + i)) out).blit .dst 0 c

/-- What the slot of `page` holds, as its SlotTab entry says. -/
def SlotHolds (B : SwapBuild) (entry : UInt8) (file : Mem UInt32) (page : UInt32)
    (c : List UInt8) : Prop :=
  if entry = 0 then file.bytes page 0 pageBytes = c
  else if B.scZero ∧ entry = scZeroSlot then List.replicate pageBytes 0 = c
  else Packed entry.toNat (file page) c

theorem slotHolds_zero (B : SwapBuild) (file : Mem UInt32) (page : UInt32) (c : List UInt8) :
    SlotHolds B 0 file page c ↔ file.bytes page 0 pageBytes = c := by
  rw [SlotHolds, if_pos rfl]

theorem SlotHolds.congr {B : SwapBuild} {e : UInt8} {file file' : Mem UInt32} {page : UInt32}
    {c : List UInt8} (h : SlotHolds B e file page c) (hf : file' page = file page) :
    SlotHolds B e file' page c := by
  unfold SlotHolds Mem.bytes at *
  rwa [hf]

theorem SlotHolds.length {B : SwapBuild} {e : UInt8} {file : Mem UInt32} {page : UInt32}
    {c : List UInt8} (h : SlotHolds B e file page c) : c.length = pageBytes := by
  unfold SlotHolds at h
  split_ifs at h
  · rw [← h, Mem.length_bytes]
  · rw [← h, List.length_replicate]
  · exact h.1

/-- The driver between two pages : the store holds `st`. -/
structure Holds (B : SwapBuild) (st : UInt32 → List UInt8) (s : Swap) : Prop where
  slot : ∀ page, SlotHolds B (entry B s page) s.file page (st page)
  idle : s.inflight = false

/-! ## Calls to PAGEFILE -/

section One

variable (B : SwapBuild) (P : PageSwap) (io : ℕ → Outcome)

theorem scPrev_of_idle {s : Swap} (h : s.inflight = false) :
    scPrev P io s = pageFileMove P (io s.calls) pageBytes
      { s with desc.status := (io s.calls).status, calls := s.calls + 1 } := by
  have hhook : scIfsHook s.desc.bufferPtr pageBytes s = (pageBytes, s) := by
    rw [scIfsHook, if_pos h]
  unfold scPrev
  dsimp only
  rw [hhook, ite_self]

/-- What a call of `ecx` bytes to or from `buf` leaves of `s`. -/
def moved (buf : Buf × ℕ) (ecx : ℕ) (s : Swap) : Swap :=
  { s with
    desc.status := (io s.calls).status
    calls := s.calls + 1
    file := if s.desc.cmd = P.pfWriteData then s.file.blit s.desc.filePage 0 <|
        if (io s.calls).status = P.pfsSuccess then s.mem.bytes buf.1 buf.2 ecx
        else (io s.calls).junk.take pageBytes
      else s.file
    mem := if s.desc.cmd = P.pfWriteData then s.mem
      else s.mem.blit buf.1 buf.2 <|
        if (io s.calls).status = P.pfsSuccess then s.file.bytes s.desc.filePage 0 ecx
        else (io s.calls).junk.take pageBytes }

theorem moved_write {s : Swap} (h : s.desc.cmd = P.pfWriteData) (buf : Buf × ℕ) (ecx : ℕ) :
    (moved P io buf ecx s).mem = s.mem ∧
      (moved P io buf ecx s).file = s.file.blit s.desc.filePage 0
        (if (io s.calls).status = P.pfsSuccess then s.mem.bytes buf.1 buf.2 ecx
          else (io s.calls).junk.take pageBytes) := by
  simp only [moved, if_pos h, and_self]

theorem moved_read {s : Swap} (h : s.desc.cmd ≠ P.pfWriteData) (buf : Buf × ℕ) (ecx : ℕ) :
    (moved P io buf ecx s).file = s.file ∧
      (moved P io buf ecx s).mem = s.mem.blit buf.1 buf.2
        (if (io s.calls).status = P.pfsSuccess then s.file.bytes s.desc.filePage 0 ecx
          else (io s.calls).junk.take pageBytes) := by
  simp only [moved, if_neg h, and_self]

/-- `sco_pass` moves the page itself. -/
theorem scoPass_eq {s : Swap} (h : s.inflight = false) :
    scoPass P io s =
      if (io s.calls).status ≠ P.pfsSuccess then .error (moved P io s.desc.bufferPtr pageBytes s)
      else .ok (moved P io s.desc.bufferPtr pageBytes s) := by
  have hprev : scPrev P io s = moved P io s.desc.bufferPtr pageBytes s := by
    rw [scPrev_of_idle P io h]
    unfold moved pageFileMove
    split_ifs <;> rfl
  unfold scoPass
  rw [hprev]
  rfl

/-- `SC_Transfer` moves `ecx` bytes of SC_Bounce if the hook sees it, and 4096 if not. -/
theorem scTransfer_eq (ecx : ℕ) (s : Swap) :
    let t := { moved P io (.bounce, 0) (if (io s.calls).seen then ecx else pageBytes) s with
      want := ecx, seen := (io s.calls).seen, inflight := false }
    scTransfer P io ecx s =
      if (io s.calls).status ≠ P.pfsSuccess then .error t
      else if s.desc.cmd = P.pfWriteData then .ok t
      else if (io s.calls).seen = false then .error t
      else .ok t := by
  intro t
  have hcall : ∀ u : Swap, u.inflight = true → u.desc.bufferPtr = (.bounce, 0) →
      u.seen = false →
      scPrev P io u = { moved P io (.bounce, 0)
        (if (io u.calls).seen then u.want else pageBytes) u with seen := (io u.calls).seen } := by
    intro u hu hbuf hseen
    have hhook : scIfsHook u.desc.bufferPtr pageBytes u = (u.want, { u with seen := true }) := by
      rw [scIfsHook, if_neg (by simp [hu]), if_neg (by simp [hbuf])]
    unfold scPrev
    dsimp only
    rw [hhook]
    cases hio : (io u.calls).seen with
    | true =>
      unfold moved pageFileMove
      simp only [if_true, hbuf]
      split_ifs <;> rfl
    | false =>
      unfold moved pageFileMove
      simp only [Bool.false_eq_true, if_false, hbuf]
      rw [← hseen]
      split_ifs <;> rfl
  unfold scTransfer
  dsimp only
  rw [hcall _ rfl rfl rfl]
  rfl

/-! ## What a page's turn leaves alone -/

/-- Only the page SC_Desc names has changed, and no transfer is under way. -/
structure Frame (s t : Swap) : Prop where
  cmd : t.desc.cmd = s.desc.cmd
  page : t.desc.filePage = s.desc.filePage
  buffer : t.desc.bufferPtr = s.desc.bufferPtr
  idle : t.inflight = false
  slotTab : ∀ q ≠ s.desc.filePage, t.slotTab q = s.slotTab q
  file : ∀ q ≠ s.desc.filePage, t.file q = s.file q
  status : t.status = s.status
  log : t.log = s.log

theorem Frame.trans {s t u : Swap} (h : Frame s t) (h' : Frame t u) : Frame s u where
  cmd := h'.cmd.trans h.cmd
  page := h'.page.trans h.page
  buffer := h'.buffer.trans h.buffer
  idle := h'.idle
  slotTab q hq := (h'.slotTab q (by rwa [h.page])).trans (h.slotTab q hq)
  file q hq := (h'.file q (by rwa [h.page])).trans (h.file q hq)
  status := h'.status.trans h.status
  log := h'.log.trans h.log

theorem moved_file (buf : Buf × ℕ) (ecx : ℕ) (s : Swap) {q : UInt32} (h : q ≠ s.desc.filePage) :
    (moved P io buf ecx s).file q = s.file q := by
  dsimp only [moved]
  split_ifs
  · exact s.file.blit_ne h _ _
  · exact s.file.blit_ne h _ _
  · rfl

theorem moved_frame {s : Swap} (h : s.inflight = false) (buf : Buf × ℕ) (ecx : ℕ) :
    Frame s (moved P io buf ecx s) :=
  ⟨rfl, rfl, rfl, h, fun _ _ => rfl, fun _ hq => moved_file P io buf ecx s hq, rfl, rfl⟩

theorem scCheckSum_eq (s : Swap) :
    ∃ n, scCheckSum B s = { s with counters.cSumErrors := n } := by
  unfold scCheckSum
  split_ifs
  · exact ⟨_, rfl⟩
  · exact ⟨_, rfl⟩
  · exact ⟨_, rfl⟩

theorem scTakeSum_eq (s : Swap) : ∃ f, scTakeSum B s = { s with sumTab := f } := by
  unfold scTakeSum
  split_ifs
  · exact ⟨_, rfl⟩
  · exact ⟨_, rfl⟩

/-! ## Writes -/

/-- A write's turn : the caller's memory is as it was. -/
structure Wrote (s t : Swap) : Prop extends Frame s t where
  mem : t.mem .caller = s.mem .caller

theorem Wrote.trans {s t u : Swap} (h : Wrote s t) (h' : Wrote t u) : Wrote s u :=
  ⟨h.toFrame.trans h'.toFrame, h'.mem.trans h.mem⟩

/-- A write that failed : the entry says a whole page, and the slot is as it was if the
first call failed and left the file alone. -/
structure WriteFailed (s t : Swap) : Prop extends Wrote s t where
  entry : entry B t s.desc.filePage = 0
  kept : (io s.calls).status ≠ P.pfsSuccess → (io s.calls).junk = [] →
    t.file s.desc.filePage = s.file s.desc.filePage

/-- A write that succeeded : the slot holds the page buffer. -/
structure WriteDone (s t : Swap) : Prop extends Wrote s t where
  holds : SlotHolds B (Inboard.entry B t s.desc.filePage) t.file s.desc.filePage
    (s.mem.bytes s.desc.bufferPtr.1 s.desc.bufferPtr.2 pageBytes)

variable {B P io}

/-- A whole page, written where the entry says so. -/
theorem scoRawWrite_ends {s : Swap} (hcmd : s.desc.cmd = P.pfWriteData)
    (hidle : s.inflight = false) (hentry : entry B s s.desc.filePage = 0) :
    Ends (WriteFailed B P io s) (WriteDone B s) (scoRawWrite P io s) := by
  unfold scoRawWrite
  rw [scoPass_eq P io (by exact hidle)]
  set u : Swap := { s with counters.cRawWrites := s.counters.cRawWrites + 1 }
  have hcount : Frame s u := ⟨rfl, rfl, rfl, hidle, fun _ _ => rfl, fun _ _ => rfl, rfl, rfl⟩
  have hframe := hcount.trans (moved_frame (s := u) P io hidle u.desc.bufferPtr pageBytes)
  obtain ⟨hmem, hfile⟩ := moved_write P io (s := u) hcmd u.desc.bufferPtr pageBytes
  have hwrote : Wrote s (moved P io u.desc.bufferPtr pageBytes u) := ⟨hframe, by rw [hmem]⟩
  split_ifs with hst
  · refine ⟨hwrote, hentry, fun _ hjunk => ?_⟩
    rw [hfile, if_neg hst]
    have hj : (io u.calls).junk = [] := hjunk
    rw [hj, List.take_nil, Mem.blit_nil]
  · refine ⟨hwrote, ?_⟩
    have he : entry B (moved P io u.desc.bufferPtr pageBytes u) s.desc.filePage = 0 := hentry
    have hlen := u.mem.length_bytes u.desc.bufferPtr.1 u.desc.bufferPtr.2 pageBytes
    rw [he, SlotHolds, if_pos rfl, hfile, if_pos (not_not.1 hst)]
    have hback := u.file.bytes_blit u.desc.filePage 0
      (u.mem.bytes u.desc.bufferPtr.1 u.desc.bufferPtr.2 pageBytes)
    rwa [hlen] at hback

/-- A write that goes on from `t` ends as it would from `s`. -/
theorem Wrote.ends {s t : Swap} (h : Wrote s t) (hbuf : s.desc.bufferPtr.1 = .caller)
    (hcall : (io s.calls).status = P.pfsSuccess ∨
      t.calls = s.calls ∧ t.file s.desc.filePage = s.file s.desc.filePage)
    {x : Except Swap Swap} (hx : Ends (WriteFailed B P io t) (WriteDone B t) x) :
    Ends (WriteFailed B P io s) (WriteDone B s) x := by
  refine hx.mono (fun u hu => ⟨h.trans hu.toWrote, ?_, fun hne hjunk => ?_⟩)
    fun u hu => ⟨h.trans hu.toWrote, ?_⟩
  · rw [← h.page]
    exact hu.entry
  · obtain hst | ⟨hcalls, hfile⟩ := hcall
    · exact absurd hst hne
    · have hkept := hu.kept
      rw [hcalls, h.page] at hkept
      rw [hkept hne hjunk, hfile]
  · have hholds := hu.holds
    have hcaller : t.mem.bytes .caller s.desc.bufferPtr.2 pageBytes =
        s.mem.bytes .caller s.desc.bufferPtr.2 pageBytes :=
      Mem.bytes_congr fun i _ => by rw [h.mem]
    rw [h.page, h.buffer, hbuf, hcaller] at hholds
    rwa [hbuf]

/-! ### A compressed write -/

theorem scIsZero_bytes {mem : Mem Buf} {edi : Buf × ℕ} (h : scIsZero mem edi = true) :
    List.replicate pageBytes 0 = mem.bytes edi.1 edi.2 pageBytes := by
  have hdword : ∀ i < pageBytes / 4, mem.dword edi.1 (edi.2 + 4 * i) = 0 := by
    intro i hi
    have hall := List.all_eq_true.1 h i (List.mem_range.2 hi)
    exact of_decide_eq_true hall
  refine List.ext_getElem (by simp) fun i hi _ => ?_
  have h4096 : pageBytes = 4096 := rfl
  rw [List.length_replicate] at hi
  have hz := hdword (i / 4) (by omega)
  have hbyte : ∀ k < 4, (mem edi.1 (edi.2 + 4 * (i / 4) + k)).toNat = 0 := by
    unfold Mem.dword at hz
    intro k hk
    obtain rfl | rfl | rfl | rfl : k = 0 ∨ k = 1 ∨ k = 2 ∨ k = 3 := by omega
    all_goals first | omega | (simp only [Nat.add_zero]; omega)
  have hi4 := hbyte (i % 4) (Nat.mod_lt i (by decide))
  rw [Nat.add_assoc, Nat.div_add_mod] at hi4
  rw [List.getElem_replicate, Mem.getElem_bytes]
  exact (UInt8.toNat_inj.1 hi4).symm

theorem lzView_page (src dst : Buf × ℕ) (mem : Mem Buf) :
    (lzView src dst mem).page = mem.bytes src.1 src.2 pageBytes := by
  refine List.ext_getElem (by simp) fun i hi _ => ?_
  rw [getElem_page, Mem.getElem_bytes]
  rfl

theorem scoCompress_frame {s : Swap} (h : s.inflight = false) :
    Wrote s (scoCompress B s).2 := by
  refine ⟨⟨rfl, rfl, rfl, h, fun _ _ => rfl, fun _ _ => rfl, rfl, rfl⟩, ?_⟩
  funext i
  unfold scoCompress
  dsimp only
  rw [Mem.blit_ne _ (by decide : Buf.caller ≠ Buf.bounce)]
  exact if_neg fun hb => absurd hb.1 (by decide)

/-- What `LZ4_Compress` left in SC_Bounce, after the length. -/
theorem scoCompress_bounce (s : Swap) (i : ℕ) :
    (scoCompress B s).2.mem .bounce (2 + i) =
      (lz4Compress B.scFold s.htab (lzView s.desc.bufferPtr (.bounce, 2) s.mem)).m.mem .dst i := by
  unfold scoCompress
  dsimp only
  rw [Mem.blit_apply_of_ge _ _ (by simp), lzReturn, if_pos ⟨rfl, by simp⟩, Nat.add_sub_cancel_left]

theorem scoCompress_len (s : Swap) {block : ℕ → UInt8}
    (h : ∀ i < 2, block i = (scoCompress B s).2.mem .bounce i) :
    blockLen block =
      (lz4Compress B.scFold s.htab (lzView s.desc.bufferPtr (.bounce, 2) s.mem)).eax := by
  have hle := lz4Compress_eax_le B.scFold s.htab (lzView s.desc.bufferPtr (.bounce, 2) s.mem)
  have h0 := h 0 (by decide)
  have h1 := h 1 (by decide)
  unfold scoCompress at h0 h1
  dsimp only at h0 h1
  generalize (lz4Compress B.scFold s.htab (lzView s.desc.bufferPtr (.bounce, 2) s.mem)).eax =
      eax at *
  have hat : ∀ (m : Mem Buf) (i : ℕ) (hi : i < 2), m.blit .bounce 0 (Lz4.le16 eax) .bounce i =
      (Lz4.le16 eax)[i] := fun m i hi => by
    have hget : m.blit .bounce 0 (Lz4.le16 eax) .bounce (0 + i) = (Lz4.le16 eax)[i] :=
      m.blit_apply_add hi
    rwa [Nat.zero_add] at hget
  rw [hat _ _ (by decide)] at h0 h1
  have hb0 : (block 0).toNat = eax % 256 := by
    rw [h0]
    simp [Lz4.le16]
  have hb1 : (block 1).toNat = eax / 256 % 256 := by
    rw [h1]
    simp [Lz4.le16]
  unfold blockLen
  omega

/-- The sectors `SC_One` writes decode to the page buffer. -/
theorem scoCompress_packed (s : Swap) {slot : ℕ → UInt8}
    (h : ∀ i < (scoCompress B s).1 * 512, slot i = (scoCompress B s).2.mem .bounce i) :
    Packed (scoCompress B s).1 slot
      (s.mem.bytes s.desc.bufferPtr.1 s.desc.bufferPtr.2 pageBytes) := by
  set mem := lzView s.desc.bufferPtr (.bounce, 2) s.mem with hmem
  have hsectors : (scoCompress B s).1 =
      ((lz4Compress B.scFold s.htab mem).eax + 2 + 511) / 512 := rfl
  refine ⟨Mem.length_bytes _ _ _ _, fun block hblock => ?_⟩
  have hsame : ∀ i < (scoCompress B s).1 * 512, block i = (scoCompress B s).2.mem .bounce i :=
    fun i hi => (hblock i hi).trans (h i hi)
  have hlen := scoCompress_len s fun i hi => hsame i (by omega)
  rw [← hmem] at hlen
  rw [hlen]
  refine ⟨by omega, fun out => ?_⟩
  have hdec := lz4Decompress_compress B.scFold s.htab mem
      (fun i => block (2 + i)) out fun i hi => by
    rw [hsame (2 + i) (by omega), scoCompress_bounce]
  rwa [hmem, lzView_page] at hdec

/-- A bounce transfer the hook did not see : the page is rewritten whole. -/
theorem scoStored_unseen {s : Swap} (k : ℕ) (hcmd : s.desc.cmd = P.pfWriteData)
    (hidle : s.inflight = false) (hentry : entry B s s.desc.filePage = 0)
    (hbuf : s.desc.bufferPtr.1 = .caller) (hseen : s.seen = false) :
    Ends (WriteFailed B P io s) (WriteDone B s) (scoStored B P io k s) := by
  unfold scoStored
  rw [if_pos hseen]
  have hdis : Wrote s { s with disabled := true, counters.cFallback := s.counters.cFallback + 1 } :=
    ⟨⟨rfl, rfl, rfl, hidle, fun _ _ => rfl, fun _ _ => rfl, rfl, rfl⟩, rfl⟩
  exact hdis.ends hbuf (Or.inr ⟨rfl, rfl⟩) (scoRawWrite_ends hcmd hidle hentry)

/-- A bounce transfer the hook shortened : SlotTab counts its sectors. -/
theorem scoStored_seen {s : Swap} {k : ℕ} (hidle : s.inflight = false)
    (hlt : s.desc.filePage.toNat < B.scSlots) (hk : 0 < k ∧ k ≤ scMaxSectors)
    (hpacked : Packed k (s.file s.desc.filePage)
      (s.mem.bytes s.desc.bufferPtr.1 s.desc.bufferPtr.2 pageBytes)) (hseen : s.seen = true) :
    Ends (WriteFailed B P io s) (WriteDone B s) (scoStored B P io k s) := by
  unfold scoStored
  rw [if_neg (by simp [hseen])]
  obtain ⟨f, hf⟩ := scTakeSum_eq B { s with
    slotTab := Function.update s.slotTab s.desc.filePage (UInt8.ofNat k)
    counters.cCompWrites := s.counters.cCompWrites + 1
    counters.cSectorsSaved := s.counters.cSectorsSaved + UInt32.ofNat (8 - k) }
  rw [hf]
  have h6 : k ≤ 6 := hk.2
  have hkk : (UInt8.ofNat k).toNat = k := by
    rw [UInt8.toNat_ofNat']
    omega
  refine ⟨⟨⟨rfl, rfl, rfl, hidle, fun q hq => Function.update_of_ne hq _ _, fun _ _ => rfl,
    rfl, rfl⟩, rfl⟩, ?_⟩
  unfold entry
  dsimp only
  rw [if_neg (Nat.not_le.2 hlt), Function.update_self, SlotHolds, if_neg, if_neg, hkk]
  · exact hpacked
  · rintro ⟨-, hff⟩
    have hff' := congrArg UInt8.toNat hff
    rw [hkk] at hff'
    have h255 : scZeroSlot.toNat = 255 := rfl
    omega
  · intro h0
    have h0' := congrArg UInt8.toNat h0
    rw [hkk] at h0'
    have hzero : (0 : UInt8).toNat = 0 := rfl
    omega

variable (P io) in
/-- What `SC_Transfer` leaves of a write. -/
theorem scTransfer_write_ends {s : Swap} (hcmd : s.desc.cmd = P.pfWriteData) (ecx : ℕ) :
    Ends
      (fun t => Wrote s t ∧ t.slotTab = s.slotTab ∧ (io s.calls).status ≠ P.pfsSuccess ∧
        ((io s.calls).junk = [] → t.file = s.file))
      (fun t => Wrote s t ∧ t.slotTab = s.slotTab ∧ (io s.calls).status = P.pfsSuccess ∧
        t.mem = s.mem ∧ (t.seen = true →
          t.file = s.file.blit s.desc.filePage 0 (s.mem.bytes .bounce 0 ecx)))
      (scTransfer P io ecx s) := by
  rw [scTransfer_eq]
  dsimp only
  set n := if (io s.calls).seen = true then ecx else pageBytes with hn
  obtain ⟨hmem, hfile⟩ := moved_write P io hcmd (.bounce, 0) n
  have hwrote : Wrote s { moved P io (.bounce, 0) n s with
      want := ecx, seen := (io s.calls).seen, inflight := false } :=
    ⟨⟨rfl, rfl, rfl, rfl, fun _ _ => rfl, fun _ hq => moved_file P io _ n s hq, rfl, rfl⟩,
      congrFun hmem _⟩
  rw [if_pos hcmd]
  split_ifs with hst
  · refine ⟨hwrote, rfl, hst, fun hjunk => ?_⟩
    rw [hfile, if_neg hst, hjunk, List.take_nil, Mem.blit_nil]
  · refine ⟨hwrote, rfl, not_not.1 hst, hmem, fun hseen => ?_⟩
    have hs : (io s.calls).seen = true := hseen
    rw [hfile, if_pos (not_not.1 hst), hn, if_pos hs]

/-- A page given to the compressor, its entry already 0. -/
theorem scoPack_ends {s : Swap} (hcmd : s.desc.cmd = P.pfWriteData) (hidle : s.inflight = false)
    (hlt : s.desc.filePage.toNat < B.scSlots) (hentry : s.slotTab s.desc.filePage = 0)
    (hbuf : s.desc.bufferPtr.1 = .caller) :
    Ends (WriteFailed B P io s) (WriteDone B s) (scoPack B P io s) := by
  have hentry' : ∀ t : Swap, t.slotTab = s.slotTab → entry B t s.desc.filePage = 0 := by
    intro t ht
    rw [entry, if_neg (Nat.not_le.2 hlt), ht, hentry]
  have hcomp := scoCompress_frame (B := B) hidle
  have hpack : ∀ slot : ℕ → UInt8,
      (∀ i < (scoCompress B s).1 * 512, slot i = (scoCompress B s).2.mem .bounce i) →
      Packed (scoCompress B s).1 slot
        (s.mem.bytes s.desc.bufferPtr.1 s.desc.bufferPtr.2 pageBytes) :=
    fun _ h => scoCompress_packed s h
  have hpos : 0 < (scoCompress B s).1 := by
    have h : (scoCompress B s).1 = ((lz4Compress B.scFold s.htab
      (lzView s.desc.bufferPtr (.bounce, 2) s.mem)).eax + 2 + 511) / 512 := rfl
    omega
  have hcalls : (scoCompress B s).2.calls = s.calls := rfl
  have hfile : (scoCompress B s).2.file = s.file := rfl
  have htab : (scoCompress B s).2.slotTab = s.slotTab := rfl
  unfold scoPack
  generalize scoCompress B s = r at *
  obtain ⟨k, u⟩ := r
  dsimp only at *
  have hucmd : u.desc.cmd = P.pfWriteData := hcomp.cmd.trans hcmd
  split_ifs with h6
  · refine hcomp.ends hbuf (Or.inr ⟨hcalls, congrFun hfile _⟩)
      (scoRawWrite_ends hucmd hcomp.idle ?_)
    rw [hcomp.page]
    exact hentry' u htab
  · have hmove := scTransfer_write_ends P io hucmd (k * 512)
    cases ht : scTransfer P io (k * 512) u with
    | error t =>
      rw [ht] at hmove
      obtain ⟨hwrote, htt, hst, hkept⟩ := hmove
      refine ⟨hcomp.trans hwrote, hentry' t (htt.trans htab), fun _ hjunk => ?_⟩
      rw [hkept (by rwa [hcalls]), hfile]
    | ok t =>
      rw [ht] at hmove
      obtain ⟨hwrote, htt, hst, hmem, hseen⟩ := hmove
      have hst' := hcomp.trans hwrote
      refine hst'.ends hbuf (Or.inl (by rwa [← hcalls])) ?_
      have htcmd : t.desc.cmd = P.pfWriteData := hst'.cmd.trans hcmd
      have htbuf : t.desc.bufferPtr.1 = .caller := by rw [hst'.buffer, hbuf]
      cases hs : t.seen with
      | false =>
        refine scoStored_unseen k htcmd hst'.idle ?_ htbuf hs
        rw [hst'.page]
        exact hentry' t (htt.trans htab)
      | true =>
        refine scoStored_seen hst'.idle (by rwa [hst'.page]) ⟨hpos, Nat.le_of_not_lt h6⟩ ?_ hs
        have hcaller : t.mem.bytes s.desc.bufferPtr.1 s.desc.bufferPtr.2 pageBytes =
            s.mem.bytes s.desc.bufferPtr.1 s.desc.bufferPtr.2 pageBytes :=
          Mem.bytes_congr fun i _ => by rw [hbuf, hst'.mem]
        rw [hst'.page, hst'.buffer, hcaller]
        refine hpack _ fun i hi => ?_
        rw [hseen hs, ← hcomp.page, Mem.blit_bytes_apply _ _ hi]

/-- The write half of `SC_One`. -/
theorem scoWrite_ends {s : Swap} (hcmd : s.desc.cmd = P.pfWriteData) (hidle : s.inflight = false)
    (hbuf : s.desc.bufferPtr.1 = .caller) :
    Ends (WriteFailed B P io s) (WriteDone B s) (scoWrite B P io s) := by
  unfold scoWrite
  rcases Nat.lt_or_ge s.desc.filePage.toNat B.scSlots with hlt | hslots
  · rw [if_neg (Nat.not_le.2 hlt)]
    set u : Swap := { s with slotTab := Function.update s.slotTab s.desc.filePage 0 }
    have hclear : Wrote s u :=
      ⟨⟨rfl, rfl, rfl, hidle, fun q hq => Function.update_of_ne hq _ _, fun _ _ => rfl,
        rfl, rfl⟩, rfl⟩
    have hentry : u.slotTab u.desc.filePage = 0 := Function.update_self _ _ _
    refine hclear.ends hbuf (Or.inr ⟨rfl, rfl⟩) ?_
    dsimp only
    split_ifs with hdis hzero
    · refine scoRawWrite_ends hcmd hidle ?_
      rw [entry, if_neg (Nat.not_le.2 hlt)]
      exact hentry
    · obtain ⟨f, hf⟩ := scTakeSum_eq B { u with
        slotTab := Function.update u.slotTab u.desc.filePage scZeroSlot
        counters.cZeroWrites := u.counters.cZeroWrites + 1
        counters.cSectorsSaved := u.counters.cSectorsSaved + 8 }
      unfold scoZeroWrite
      rw [hf]
      refine ⟨⟨⟨rfl, rfl, rfl, hidle, fun q hq => Function.update_of_ne hq _ _, fun _ _ => rfl,
        rfl, rfl⟩, rfl⟩, ?_⟩
      unfold entry
      dsimp only
      rw [if_neg (Nat.not_le.2 hlt), Function.update_self, SlotHolds, if_neg (by decide),
        if_pos ⟨hzero.1, rfl⟩]
      exact scIsZero_bytes hzero.2
    · exact scoPack_ends hcmd hidle hlt hentry hbuf
  · rw [if_pos hslots]
    exact scoRawWrite_ends hcmd hidle (if_pos hslots)

/-! ## Reads -/

/-- A read's turn : the file and the table are as they were. -/
structure ReadFrame (s t : Swap) : Prop extends Frame s t where
  table : t.slotTab = s.slotTab
  kept : t.file = s.file

/-- A read that succeeded : the page buffer, and nothing else of the caller's, is `c`. -/
structure ReadDone (c : List UInt8) (s t : Swap) : Prop extends ReadFrame s t where
  mem : t.mem .caller = s.mem.blit .caller s.desc.bufferPtr.2 c .caller

theorem lzReturn_blit {dst : Buf × ℕ} {mem : Mem Buf} {m : Mem Seg} {c : List UInt8}
    {block : ℕ → UInt8}
    (h : m = (decodeMem block fun i => mem dst.1 (dst.2 + i)).blit .dst 0 c) :
    lzReturn dst mem m = mem.blit dst.1 dst.2 c := by
  funext t i
  unfold lzReturn
  by_cases ht : t = dst.1
  · subst ht
    rcases Nat.lt_or_ge i dst.2 with hi | hi
    · rw [if_neg fun hc => Nat.not_le.2 hi hc.2, Mem.blit_apply_of_lt _ _ hi]
    · obtain ⟨j, rfl⟩ := Nat.exists_eq_add_of_le hi
      rw [if_pos ⟨rfl, hi⟩, Nat.add_sub_cancel_left, h]
      rcases Nat.lt_or_ge j c.length with hj | hj
      · have hget := (decodeMem block fun i => mem dst.1 (dst.2 + i)).blit_apply_add
          (s := .dst) (a := 0) hj
        rw [Nat.zero_add] at hget
        rw [hget, Mem.blit_apply_add _ hj]
      · rw [Mem.blit_apply_of_ge _ _ (by omega), Mem.blit_apply_of_ge _ _ (by omega)]
        rfl
  · rw [if_neg fun hc => ht hc.1, Mem.blit_ne _ ht]

theorem lzView_decodeMem (src dst : Buf × ℕ) (mem : Mem Buf) :
    lzView src dst mem = decodeMem (fun i => mem src.1 (src.2 + i))
      fun i => mem dst.1 (dst.2 + i) := by
  funext t
  cases t <;> rfl

/-- A transferred block decodes into the page buffer. -/
theorem scoUnpack_ends {s : Swap} {c : List UInt8} {slot : ℕ → UInt8} (hidle : s.inflight = false)
    (hbuf : s.desc.bufferPtr.1 = .caller)
    (hpacked : Packed (s.slotTab s.desc.filePage).toNat slot c)
    (hsame : ∀ i < (s.slotTab s.desc.filePage).toNat * 512, s.mem .bounce i = slot i) :
    Ends (ReadFrame s) (ReadDone c s) (scoUnpack B s) := by
  obtain ⟨hfit, hdec⟩ := hpacked.2 (s.mem .bounce) hsame
  obtain ⟨m, hm, hout⟩ := hdec fun i => s.mem s.desc.bufferPtr.1 (s.desc.bufferPtr.2 + i)
  have hrun : lz4Decompress (blockLen (s.mem .bounce))
      (lzView (.bounce, 2) s.desc.bufferPtr s.mem) =
      (pageBytes, m) := by
    rw [lzView_decodeMem]
    exact hm
  have hlen : (s.mem .bounce 0).toNat + 256 * (s.mem .bounce 1).toNat = blockLen (s.mem .bounce) :=
    rfl
  unfold scoUnpack
  dsimp only
  rw [hlen, if_neg (Nat.not_lt.2 hfit), hrun, if_neg (not_not.2 rfl), lzReturn_blit hout]
  obtain ⟨n, hn⟩ := scCheckSum_eq B { s with
    mem := s.mem.blit s.desc.bufferPtr.1 s.desc.bufferPtr.2 c
    counters.cCompReads := s.counters.cCompReads + 1 }
  rw [hn]
  refine ⟨⟨⟨rfl, rfl, rfl, hidle, fun _ _ => rfl, fun _ _ => rfl, rfl, rfl⟩, rfl, rfl⟩, ?_⟩
  dsimp only
  rw [hbuf]

theorem ReadFrame.trans {s t u : Swap} (h : ReadFrame s t) (h' : ReadFrame t u) : ReadFrame s u :=
  ⟨h.toFrame.trans h'.toFrame, h'.table.trans h.table, h'.kept.trans h.kept⟩

/-- The page itself, where the entry says so. -/
theorem scoRawRead_ends {s : Swap} {c : List UInt8} (hcmd : s.desc.cmd ≠ P.pfWriteData)
    (hidle : s.inflight = false) (hbuf : s.desc.bufferPtr.1 = .caller)
    (hc : s.file.bytes s.desc.filePage 0 pageBytes = c) :
    Ends (ReadFrame s) (ReadDone c s) (scoRawRead P io s) := by
  unfold scoRawRead
  rw [scoPass_eq P io (by exact hidle)]
  set u : Swap := { s with counters.cRawReads := s.counters.cRawReads + 1 }
  obtain ⟨hfile, hmem⟩ := moved_read P io (s := u) hcmd u.desc.bufferPtr pageBytes
  have hframe : ReadFrame s (moved P io u.desc.bufferPtr pageBytes u) :=
    ⟨⟨rfl, rfl, rfl, hidle, fun _ _ => rfl, fun _ _ => by rw [hfile], rfl, rfl⟩, rfl, hfile⟩
  split_ifs with hst
  · exact hframe
  · refine ⟨hframe, ?_⟩
    have hbuf' : u.desc.bufferPtr = (.caller, s.desc.bufferPtr.2) := Prod.ext hbuf rfl
    rw [hmem, if_pos (not_not.1 hst), hbuf', ← hc]

variable (P io) in
/-- What `SC_Transfer` leaves of a read. -/
theorem scTransfer_read_ends {s : Swap} (hcmd : s.desc.cmd ≠ P.pfWriteData) (ecx : ℕ) :
    Ends (ReadFrame s)
      (fun t => ReadFrame s t ∧ t.mem = s.mem.blit .bounce 0 (s.file.bytes s.desc.filePage 0 ecx))
      (scTransfer P io ecx s) := by
  rw [scTransfer_eq]
  dsimp only
  set n := if (io s.calls).seen = true then ecx else pageBytes with hn
  obtain ⟨hfile, hmem⟩ := moved_read P io hcmd (.bounce, 0) n
  have hframe : ReadFrame s { moved P io (.bounce, 0) n s with
      want := ecx, seen := (io s.calls).seen, inflight := false } :=
    ⟨⟨rfl, rfl, rfl, rfl, fun _ _ => rfl, fun _ _ => congrFun hfile _, rfl, rfl⟩, rfl, hfile⟩
  rw [if_neg hcmd]
  split_ifs with hst hseen
  · exact hframe
  · exact hframe
  · refine ⟨hframe, ?_⟩
    rw [hmem, if_pos (not_not.1 hst), hn, if_pos (by simpa using hseen)]

/-- The read half of `SC_One` : what the slot holds. -/
theorem scoRead_ends {s : Swap} {c : List UInt8} (hcmd : s.desc.cmd ≠ P.pfWriteData)
    (hidle : s.inflight = false) (hbuf : s.desc.bufferPtr.1 = .caller)
    (hc : SlotHolds B (entry B s s.desc.filePage) s.file s.desc.filePage c) :
    Ends (ReadFrame s) (ReadDone c s) (scoRead B P io s) := by
  unfold scoRead
  by_cases h1 : B.scSlots ≤ s.desc.filePage.toNat
  · rw [entry, if_pos h1, slotHolds_zero] at hc
    rw [if_pos h1]
    exact scoRawRead_ends hcmd hidle hbuf hc
  rw [entry, if_neg h1] at hc
  rw [if_neg h1]
  by_cases h2 : s.slotTab s.desc.filePage = 0
  · rw [h2, slotHolds_zero] at hc
    rw [if_pos h2]
    exact scoRawRead_ends hcmd hidle hbuf hc
  rw [SlotHolds, if_neg h2] at hc
  rw [if_neg h2]
  split_ifs at hc ⊢ with h3
  · unfold scoZeroRead
    obtain ⟨n, hn⟩ := scCheckSum_eq B { s with
      mem := s.mem.blit s.desc.bufferPtr.1 s.desc.bufferPtr.2 (List.replicate pageBytes 0)
      counters.cZeroReads := s.counters.cZeroReads + 1 }
    rw [hn, hc]
    refine ⟨⟨⟨rfl, rfl, rfl, hidle, fun _ _ => rfl, fun _ _ => rfl, rfl, rfl⟩, rfl, rfl⟩, ?_⟩
    dsimp only
    rw [hbuf]
  · have hmove := scTransfer_read_ends P io hcmd
      ((s.slotTab s.desc.filePage).toNat * 512)
    cases ht : scTransfer P io ((s.slotTab s.desc.filePage).toNat * 512) s with
    | error t =>
      rw [ht] at hmove
      exact hmove
    | ok t =>
      rw [ht] at hmove
      obtain ⟨hframe, hmem⟩ := hmove
      have htab : t.slotTab t.desc.filePage = s.slotTab s.desc.filePage := by
        rw [hframe.table, hframe.page]
      have htbuf : t.desc.bufferPtr.1 = .caller := by rw [hframe.buffer, hbuf]
      have hbounce : ∀ i < (t.slotTab t.desc.filePage).toNat * 512,
          t.mem .bounce i = s.file s.desc.filePage i := by
        intro i hi
        rw [htab] at hi
        rw [hmem, Mem.blit_bytes_apply _ _ hi]
      refine (scoUnpack_ends hframe.idle htbuf (by rwa [htab]) hbounce).mono
        (fun u hu => hframe.trans hu) fun u hu => ⟨hframe.trans hu.toReadFrame, ?_⟩
      rw [hu.mem, hframe.buffer]
      refine Mem.blit_congr ?_ _ c
      rw [hmem, Mem.blit_ne _ (by decide)]

end One

end Inboard
