import Inboard.SwapStore

/-!
# Runs of the swap compressor

What `SwapComp_Hook` answers over any run of requests. The log of a run is a run of a
store (`swapRun_explained`), whatever PAGEFILE does at each call. So a read that reports
success returns what the last write of the page wrote, if the writes of it succeeded
(`swapComp_reads_last_write`). A write that fails clears the SlotTab entry of a slot that
may hold a compressed page or none : then a later read returns the slot's bytes as they
are (`not_failedWritesHarmless`), and only a failed write that found the entry 0 is
harmless (`failed_write_harmless`).
-/

set_option linter.unusedSectionVars false

namespace Inboard

section Run

variable (B : SwapBuild) (P : PageSwap) (io : ℕ → Outcome)

/-! ## One page -/

/-- A failed write that leaves the page readable, for sure : the entry said a whole page,
and the first call failed and left the file alone. -/
def Served.Kept (d : Served) : Prop :=
  d.entry = 0 ∧ (io d.call).status ≠ P.pfsSuccess ∧ (io d.call).junk = []

instance (d : Served) : Decidable (d.Kept P io) :=
  inferInstanceAs (Decidable (_ ∧ _ ∧ _))

/-- A page's turn as an event of a store. -/
def Served.event (d : Served) : Store.Event UInt32 (List UInt8) :=
  if d.cmd = P.pfWriteData then
    .write d.page d.data (if d.failed = false then .done else if d.Kept P io then .kept else .lost)
  else if d.failed then .refused d.page else .read d.page d.data

/-- What a page's turn did, as its caller sees it. -/
structure Turn (s t : Swap) (d : Served) : Prop where
  log : t.log = s.log ++ [d]
  cmd : d.cmd = s.desc.cmd
  page : d.page = s.desc.filePage
  desc : t.desc.cmd = s.desc.cmd
  status : t.status = if d.failed then P.pfsFailure else s.status
  write : s.desc.cmd = P.pfWriteData → t.mem .caller = s.mem .caller ∧
    d.data = s.mem.bytes .caller s.desc.bufferPtr.2 pageBytes
  read : s.desc.cmd ≠ P.pfWriteData → d.failed = false → d.data.length = pageBytes ∧
    t.mem .caller = s.mem.blit .caller s.desc.bufferPtr.2 d.data .caller

variable {B P io}

/-- After a page's turn the other slots hold what they held. -/
theorem Frame.holds {st : UInt32 → List UInt8} {s t : Swap} (h : Frame s t) (hst : Holds B st s)
    {c : List UInt8} (hpage : SlotHolds B (entry B t s.desc.filePage) t.file s.desc.filePage c) :
    Holds B (Function.update st s.desc.filePage c) t := by
  refine ⟨fun q => ?_, h.idle⟩
  by_cases hq : q = s.desc.filePage
  · rw [hq, Function.update_self]
    exact hpage
  · have hentry : entry B t q = entry B s q := by
      unfold entry
      rw [h.slotTab q hq]
    rw [Function.update_of_ne hq, hentry]
    exact (hst.slot q).congr (h.file q hq)

theorem ReadFrame.holds {st : UInt32 → List UInt8} {s t : Swap} (h : ReadFrame s t)
    (hst : Holds B st s) : Holds B st t := by
  refine ⟨fun q => ?_, h.idle⟩
  have hentry : entry B t q = entry B s q := by
    unfold entry
    rw [h.table]
  rw [hentry]
  exact (hst.slot q).congr (by rw [h.kept])

/-- A write's turn is a write of the store. -/
theorem scOne_write {st : UInt32 → List UInt8} {s : Swap} (h : Holds B st s)
    (hcmd : s.desc.cmd = P.pfWriteData) (hbuf : s.desc.bufferPtr.1 = .caller) :
    ∃ d st', Turn P s (scOne B P io s) d ∧ Store.Step st (d.event P io) st' ∧
      Holds B st' (scOne B P io s) := by
  have hrun : Ends (WriteFailed B P io s) (WriteDone B s) (scoWrite B P io s) :=
    scoWrite_ends hcmd h.idle hbuf
  have heq : scoRun B P io s = scoWrite B P io s := if_pos hcmd
  have hcaller : ∀ t b, Wrote s t → (served B s t b).data =
      s.mem.bytes .caller s.desc.bufferPtr.2 pageBytes := fun t b ht => by
    unfold served
    dsimp only
    rw [hbuf]
    exact Mem.bytes_congr fun i _ => by rw [ht.mem]
  unfold scOne
  rw [heq]
  cases hw : scoWrite B P io s with
  | ok t =>
    rw [hw] at hrun
    have hdone : WriteDone B s t := hrun
    have hslot := hdone.holds
    rw [hbuf] at hslot
    have hholds := hdone.toFrame.holds h hslot
    refine ⟨served B s t false, _, ⟨congrArg (· ++ _) hdone.log, rfl, rfl, hdone.cmd, hdone.status,
      fun _ => ⟨hdone.mem, hcaller t _ hdone.toWrote⟩, fun hne => absurd hcmd hne⟩, ?_,
      hholds.slot, hholds.idle⟩
    have hevent : (served B s t false).event P io =
        .write s.desc.filePage (s.mem.bytes .caller s.desc.bufferPtr.2 pageBytes) .done := by
      rw [Served.event, if_pos (by exact hcmd), hcaller t _ hdone.toWrote]
      rfl
    rw [hevent]
    exact .done st _ _
  | error t =>
    rw [hw] at hrun
    have hfail : WriteFailed B P io s t := hrun
    refine ⟨served B s t true, ?_⟩
    have hturn : Turn P s { t with
        status := P.pfsFailure, log := t.log ++ [served B s t true] } (served B s t true) :=
      ⟨congrArg (· ++ _) hfail.log, rfl, rfl, hfail.cmd, rfl,
        fun _ => ⟨hfail.mem, hcaller t _ hfail.toWrote⟩, fun hne => absurd hcmd hne⟩
    have hraw : ∀ c, t.file.bytes s.desc.filePage 0 pageBytes = c →
        SlotHolds B (entry B t s.desc.filePage) t.file s.desc.filePage c := fun c hc => by
      rw [hfail.entry]
      exact (slotHolds_zero B _ _ c).2 hc
    have hevent : (served B s t true).event P io = .write s.desc.filePage (served B s t true).data
        (if (served B s t true).Kept P io then .kept else .lost) :=
      if_pos hcmd
    rw [hevent]
    split_ifs with hkept
    · obtain ⟨hentry, hst, hjunk⟩ := hkept
      have hold := h.slot s.desc.filePage
      have hentry0 : entry B s s.desc.filePage = 0 := hentry
      rw [hentry0, slotHolds_zero] at hold
      have hsame : t.file.bytes s.desc.filePage 0 pageBytes = st s.desc.filePage := by
        rw [← hold]
        exact Mem.bytes_congr fun i _ => by rw [hfail.kept hst hjunk]
      have hholds := hfail.toFrame.holds h (hraw _ hsame)
      rw [Function.update_eq_self] at hholds
      exact ⟨st, hturn, .kept st _ _, hholds.slot, hholds.idle⟩
    · have hholds := hfail.toFrame.holds h (hraw _ rfl)
      exact ⟨_, hturn, .lost st _ _ _, hholds.slot, hholds.idle⟩

/-- A read's turn is a read of the store. -/
theorem scOne_read {st : UInt32 → List UInt8} {s : Swap} (h : Holds B st s)
    (hcmd : s.desc.cmd ≠ P.pfWriteData) (hbuf : s.desc.bufferPtr.1 = .caller) :
    ∃ d, Turn P s (scOne B P io s) d ∧ Store.Step st (d.event P io) st ∧
      Holds B st (scOne B P io s) := by
  have hrun : Ends (ReadFrame s) (ReadDone (st s.desc.filePage) s) (scoRead B P io s) :=
    scoRead_ends hcmd h.idle hbuf (h.slot s.desc.filePage)
  have heq : scoRun B P io s = scoRead B P io s := if_neg hcmd
  unfold scOne
  rw [heq]
  cases hr : scoRead B P io s with
  | ok t =>
    rw [hr] at hrun
    have hdone : ReadDone (st s.desc.filePage) s t := hrun
    have hlen := (h.slot s.desc.filePage).length
    have hdata : (served B s t false).data = st s.desc.filePage := by
      have hget := s.mem.bytes_blit .caller s.desc.bufferPtr.2 (st s.desc.filePage)
      rw [hlen] at hget
      rw [← hget]
      unfold served
      dsimp only
      rw [hbuf]
      exact Mem.bytes_congr fun i _ => by rw [hdone.mem]
    have hholds := hdone.toReadFrame.holds h
    refine ⟨served B s t false, ⟨congrArg (· ++ _) hdone.log, rfl, rfl, hdone.cmd, hdone.status,
      fun hw => absurd hw hcmd, fun _ _ => ?_⟩, ?_, hholds.slot, hholds.idle⟩
    · rw [hdata]
      exact ⟨hlen, hdone.mem⟩
    · have hevent : (served B s t false).event P io = .read s.desc.filePage
        (st s.desc.filePage) := by
        rw [Served.event, if_neg (by exact hcmd)]
        exact congrArg (Store.Event.read _) hdata
      rw [hevent]
      exact .read st _
  | error t =>
    rw [hr] at hrun
    have hfail : ReadFrame s t := hrun
    have hholds := hfail.holds h
    refine ⟨served B s t true, ⟨congrArg (· ++ _) hfail.log, rfl, rfl, hfail.cmd, rfl,
      fun hw => absurd hw hcmd, fun _ hf => by cases hf⟩, ?_, hholds.slot, hholds.idle⟩
    have hevent : (served B s t true).event P io = .refused s.desc.filePage := if_neg hcmd
    rw [hevent]
    exact .refused st _

/-- `SC_One` takes one step of the store. -/
theorem scOne_step {st : UInt32 → List UInt8} {s : Swap} (h : Holds B st s)
    (hbuf : s.desc.bufferPtr.1 = .caller) :
    ∃ d st', Turn P s (scOne B P io s) d ∧ Store.Step st (d.event P io) st' ∧
      Holds B st' (scOne B P io s) := by
  by_cases hcmd : s.desc.cmd = P.pfWriteData
  · exact scOne_write h hcmd hbuf
  · exact (scOne_read h hcmd hbuf).imp fun d hd => ⟨st, hd⟩

/-! ## The log of a run -/

variable (B P io) in
/-- The log is a run of a store, which holds what the slots are read as. -/
def Explained (s : Swap) : Prop :=
  ∃ st₀ st, Store.Run st₀ (s.log.map (Served.event P io)) st ∧ Holds B st s

variable (P io) in
/-- What the log says `page` holds. -/
def known (s : Swap) (page : UInt32) : Option (List UInt8) :=
  Store.held page (s.log.map (Served.event P io))

theorem Turn.known {s t : Swap} {d : Served} (h : Turn P s t d) (page : UInt32) :
    known P io t page = Store.heldAfter page (known P io s page) (d.event P io) := by
  unfold Inboard.known
  rw [h.log, List.map_append, List.map_singleton, Store.held_snoc]

/-- A page's turn does not change what is known of the others. -/
theorem Turn.known_of_ne {s t : Swap} {d : Served} (h : Turn P s t d) {page : UInt32}
    (hne : s.desc.filePage ≠ page) : Inboard.known P io t page = Inboard.known P io s page := by
  rw [h.known, Served.event, h.page]
  split_ifs
  · exact if_neg hne
  · rfl
  · exact if_neg hne
  · rfl
  · rfl

/-- A read's turn does not change what is known. -/
theorem Turn.known_of_read {s t : Swap} {d : Served} (h : Turn P s t d)
    (hcmd : s.desc.cmd ≠ P.pfWriteData) (page : UInt32) :
    Inboard.known P io t page = Inboard.known P io s page := by
  rw [h.known, Served.event, h.cmd, if_neg hcmd]
  split_ifs
  · rfl
  · rfl

/-- After a write that succeeded the page is known to hold the page buffer. -/
theorem Turn.known_of_write {s t : Swap} {d : Served} (h : Turn P s t d)
    (hcmd : s.desc.cmd = P.pfWriteData) (hok : d.failed = false) :
    Inboard.known P io t s.desc.filePage =
      some (s.mem.bytes .caller s.desc.bufferPtr.2 pageBytes) := by
  rw [h.known, Served.event, h.cmd, if_pos hcmd, if_pos hok, h.page, Store.heldAfter, if_pos rfl,
    (h.write hcmd).2]

/-- A turn that ends with success in SC_Status did not fail, and none before it did. -/
theorem Turn.of_success {s t : Swap} {d : Served} (h : Turn P s t d)
    (hst : t.status = P.pfsSuccess) : d.failed = false ∧ s.status = P.pfsSuccess := by
  have hstatus := h.status
  rw [hst] at hstatus
  cases hf : d.failed with
  | true =>
    rw [hf, if_pos rfl] at hstatus
    exact absurd hstatus P.success_ne_failure
  | false =>
    rw [hf, if_neg (by decide)] at hstatus
    exact ⟨rfl, hstatus.symm⟩

/-- `SC_One` keeps the log explained. -/
theorem scOne_explained {s : Swap} (h : Explained B P io s) (hbuf : s.desc.bufferPtr.1 = .caller) :
    ∃ d, Turn P s (scOne B P io s) d ∧ Explained B P io (scOne B P io s) := by
  obtain ⟨st₀, st, hrun, hholds⟩ := h
  have hone : ∃ d st', Turn P s (scOne B P io s) d ∧ Store.Step st (d.event P io) st' ∧
      Holds B st' (scOne B P io s) := scOne_step hholds hbuf
  obtain ⟨d, st', hturn, hstep, hholds'⟩ := hone
  refine ⟨d, hturn, st₀, st', ?_, hholds'⟩
  rw [hturn.log, List.map_append, List.map_singleton]
  exact hrun.snoc hstep

/-- A read that succeeded gave what the page was known to hold. -/
theorem Turn.data_eq {s t : Swap} {d : Served} (h : Turn P s t d) (ht : Explained B P io t)
    (hcmd : s.desc.cmd ≠ P.pfWriteData) (hok : d.failed = false) {c : List UInt8}
    (hc : Inboard.known P io s s.desc.filePage = some c) : d.data = c := by
  obtain ⟨st₀, st, hrun, -⟩ := ht
  have hevent : d.event P io = .read s.desc.filePage d.data := by
    rw [Served.event, h.cmd, if_neg hcmd, h.page, hok]
    rfl
  rw [h.log, List.map_append, List.map_singleton, hevent] at hrun
  exact hrun.read_eq hc

theorem schPage_turn {s : Swap} (h : Explained B P io s) (edi : ℕ) (edx : UInt32) (esi : ℕ) :
    ∃ d t, Turn P { s with desc.filePage := edx, desc.bufferPtr := (.caller, esi) } t d ∧
      Explained B P io t ∧
      schPage B P io (edi + 1) edx esi s = schPage B P io edi (edx + 1) (esi + pageBytes) t := by
  obtain ⟨st₀, st, hrun, hholds⟩ := h
  have hexp : Explained B P io { s with desc.filePage := edx, desc.bufferPtr := (.caller, esi) } :=
    ⟨st₀, st, hrun, hholds.slot, hholds.idle⟩
  obtain ⟨d, hturn, hexp⟩ := scOne_explained hexp rfl
  exact ⟨d, _, hturn, hexp, rfl⟩

theorem schPage_explained : ∀ (edi : ℕ) (edx : UInt32) (esi : ℕ) {s : Swap},
    Explained B P io s → Explained B P io (schPage B P io edi edx esi s)
  | 0, _, _, _, h => h
  | edi + 1, edx, esi, _, h => by
    obtain ⟨d, t, -, hexp, heq⟩ := schPage_turn h edi edx esi
    rw [heq]
    exact schPage_explained edi (edx + 1) (esi + pageBytes) hexp

theorem schPage_status : ∀ (edi : ℕ) (edx : UInt32) (esi : ℕ) {s : Swap}, Explained B P io s →
    (schPage B P io edi edx esi s).status = P.pfsSuccess → s.status = P.pfsSuccess
  | 0, _, _, _, _, hst => hst
  | edi + 1, edx, esi, _, h, hst => by
    obtain ⟨d, t, hturn, hexp, heq⟩ := schPage_turn h edi edx esi
    rw [heq] at hst
    exact (hturn.of_success (schPage_status edi _ _ hexp hst)).2

/-! ### The pages of a request -/

theorem page_sub_succ {page edx : UInt32} (h : page ≠ edx) :
    (page - edx).toNat = (page - (edx + 1)).toNat + 1 := by
  have hne : page.toNat ≠ edx.toNat := fun he => h (UInt32.toNat_inj.1 he)
  have hp := page.toNat_lt
  have he := edx.toNat_lt
  rw [UInt32.toNat_sub, UInt32.toNat_sub, UInt32.toNat_add]
  have hone : (1 : UInt32).toNat = 1 := rfl
  rw [hone]
  omega

theorem page_sub_self_succ (edx : UInt32) : (edx - (edx + 1)).toNat = 2 ^ 32 - 1 := by
  have he := edx.toNat_lt
  rw [UInt32.toNat_sub, UInt32.toNat_add]
  have hone : (1 : UInt32).toNat = 1 := rfl
  rw [hone]
  omega

/-- After a write request the pages it names hold their buffers, if it reports success, and
nothing else has changed. -/
theorem schPage_write (page : UInt32) : ∀ (edi : ℕ) (edx : UInt32) (esi : ℕ) {s : Swap},
    Explained B P io s → s.desc.cmd = P.pfWriteData → edi < 2 ^ 32 →
      ((page - edx).toNat < edi →
        (schPage B P io edi edx esi s).status = P.pfsSuccess) →
      known P io (schPage B P io edi edx esi s) page =
        if (page - edx).toNat < edi then
          some (s.mem.bytes .caller (esi + (page - edx).toNat * pageBytes) pageBytes)
        else known P io s page
  | 0, _, _, _, _, _, _, _ => rfl
  | edi + 1, edx, esi, s, h, hcmd, hedi, hok => by
    obtain ⟨d, t, hturn, hexp, heq⟩ := schPage_turn h edi edx esi
    rw [heq] at hok ⊢
    have htcmd : t.desc.cmd = P.pfWriteData := hturn.desc.trans hcmd
    obtain ⟨hmem, hdata⟩ := hturn.write hcmd
    have ih := schPage_write page edi (edx + 1) (esi + pageBytes) hexp htcmd
      (Nat.lt_of_succ_lt hedi)
    by_cases hpage : page = edx
    · subst hpage
      have hfirst : (page - page).toNat = 0 := by rw [UInt32.sub_self]; rfl
      have hlast := page_sub_self_succ page
      have hst := schPage_status _ _ _ hexp (hok (by omega))
      rw [ih fun hlt => absurd hlt (by omega), if_neg (by omega), if_pos (by omega), hfirst,
        Nat.zero_mul, Nat.add_zero]
      exact hturn.known_of_write hcmd (hturn.of_success hst).1
    · have hsucc := page_sub_succ hpage
      rw [ih fun hlt => hok (by omega), hturn.known_of_ne (Ne.symm hpage), hsucc]
      by_cases hlt : (page - (edx + 1)).toNat < edi
      · rw [if_pos hlt, if_pos (by omega), Nat.succ_mul]
        refine congrArg some (Mem.bytes_congr fun i _ => ?_)
        rw [hmem]
        exact congrArg _ (by omega)
      · rw [if_neg hlt, if_neg (by omega)]
        rfl

theorem schPage_read_known (page : UInt32) : ∀ (edi : ℕ) (edx : UInt32) (esi : ℕ) {s : Swap},
    Explained B P io s → s.desc.cmd ≠ P.pfWriteData →
      known P io (schPage B P io edi edx esi s) page = known P io s page
  | 0, _, _, _, _, _ => rfl
  | edi + 1, edx, esi, s, h, hcmd => by
    obtain ⟨d, t, hturn, hexp, heq⟩ := schPage_turn h edi edx esi
    have htcmd : t.desc.cmd ≠ P.pfWriteData := fun ht => hcmd (hturn.desc.symm.trans ht)
    rw [heq, schPage_read_known page edi _ _ hexp htcmd, hturn.known_of_read hcmd]
    rfl

/-- The rest of a read that succeeds leaves the buffers before it alone. -/
theorem schPage_read_below : ∀ (edi : ℕ) (edx : UInt32) (esi : ℕ) {s : Swap},
    Explained B P io s → s.desc.cmd ≠ P.pfWriteData →
      (schPage B P io edi edx esi s).status = P.pfsSuccess →
      ∀ i < esi, (schPage B P io edi edx esi s).mem .caller i = s.mem .caller i
  | 0, _, _, _, _, _, _, _, _ => rfl
  | edi + 1, edx, esi, s, h, hcmd, hok, i, hi => by
    obtain ⟨d, t, hturn, hexp, heq⟩ := schPage_turn h edi edx esi
    have htcmd : t.desc.cmd ≠ P.pfWriteData := fun ht => hcmd (hturn.desc.symm.trans ht)
    rw [heq] at hok ⊢
    obtain ⟨hfail, -⟩ := hturn.of_success (schPage_status _ _ _ hexp hok)
    rw [schPage_read_below edi _ _ hexp htcmd hok i (by omega), (hturn.read hcmd hfail).2]
    exact Mem.blit_apply_of_lt _ _ hi

/-- A read request that reports success fills each buffer with what its page is known to
hold. -/
theorem schPage_read {page : UInt32} {c : List UInt8} :
    ∀ (edi : ℕ) (edx : UInt32) (esi : ℕ) {s : Swap},
      Explained B P io s → s.desc.cmd ≠ P.pfWriteData →
      (schPage B P io edi edx esi s).status = P.pfsSuccess → (page - edx).toNat < edi →
      known P io s page = some c →
      (schPage B P io edi edx esi s).mem.bytes .caller
        (esi + (page - edx).toNat * pageBytes) pageBytes = c
  | edi + 1, edx, esi, s, h, hcmd, hok, hlt, hc => by
    obtain ⟨d, t, hturn, hexp, heq⟩ := schPage_turn h edi edx esi
    have htcmd : t.desc.cmd ≠ P.pfWriteData := fun ht => hcmd (hturn.desc.symm.trans ht)
    rw [heq] at hok ⊢
    obtain ⟨hfail, -⟩ := hturn.of_success (schPage_status _ _ _ hexp hok)
    obtain ⟨hlen, hmem⟩ := hturn.read hcmd hfail
    by_cases hpage : page = edx
    · subst hpage
      have hfirst : (page - page).toNat = 0 := by rw [UInt32.sub_self]; rfl
      have hdata : d.data = c := hturn.data_eq hexp hcmd hfail hc
      rw [hfirst, Nat.zero_mul, Nat.add_zero, ← hdata]
      have hback := s.mem.bytes_blit .caller esi d.data
      rw [hlen] at hback
      refine Eq.trans (Mem.bytes_congr fun i hi => ?_) hback
      rw [schPage_read_below edi _ _ hexp htcmd hok _ (by omega), hmem]
    · have hsucc := page_sub_succ hpage
      have hrest := schPage_read edi (edx + 1) (esi + pageBytes) hexp htcmd hok
        (by omega) ((hturn.known_of_read hcmd page).trans hc)
      have hat : esi + (page - edx).toNat * pageBytes =
          esi + pageBytes + (page - (edx + 1)).toNat * pageBytes := by
        rw [hsucc, Nat.succ_mul]
        omega
      rw [hat]
      exact hrest

/-! ## Requests -/

/-- Which page of the request `page` is. -/
def Request.index (r : Request) (page : UInt32) : ℕ := (page - r.filePage).toNat

/-- `page` is one of the request's. -/
def Request.Covers (r : Request) (page : UInt32) : Prop := r.index page < r.nPages.toNat

instance (r : Request) (page : UInt32) : Decidable (r.Covers page) :=
  inferInstanceAs (Decidable (_ < _))

/-- The `k`-th page of a caller's buffer. -/
def bufferPage (buffer : ℕ → UInt8) (k : ℕ) : List UInt8 :=
  (List.range pageBytes).map fun i => buffer (k * pageBytes + i)

theorem bufferPage_eq (mem : Mem Buf) (k : ℕ) :
    bufferPage (mem .caller) k = mem.bytes .caller (0 + k * pageBytes) pageBytes := by
  unfold bufferPage Mem.bytes
  rw [Nat.zero_add]

variable (P) in
/-- The state a request's pages start from. -/
def Request.opened (r : Request) (s : Swap) : Swap :=
  { s with
    status := P.pfsSuccess
    desc.cmd := r.cmd
    desc.priority := r.priority
    desc.nPages := 1
    mem := Function.update s.mem .caller r.buffer }

theorem Request.opened_mem (r : Request) (s : Swap) : (r.opened P s).mem .caller = r.buffer := by
  unfold Request.opened
  dsimp only
  rw [Function.update_self]

theorem explained_request {s : Swap} (h : Explained B P io s) (r : Request) :
    Explained B P io (r.opened P s) := by
  obtain ⟨st₀, st, hrun, hholds⟩ := h
  exact ⟨st₀, st, hrun, hholds.slot, hholds.idle⟩

theorem swapCompHook_explained {s : Swap} (h : Explained B P io s) (r : Request) :
    Explained B P io (swapCompHook B P io r s).2 :=
  schPage_explained _ _ _ (explained_request h r)

/-- What a write request makes known. -/
theorem swapCompHook_write {s : Swap} (h : Explained B P io s) {r : Request}
    (hcmd : r.cmd = P.pfWriteData) (page : UInt32)
    (hok : r.Covers page → (swapCompHook B P io r s).1.status = P.pfsSuccess) :
    known P io (swapCompHook B P io r s).2 page =
      if r.Covers page then some (bufferPage r.buffer (r.index page)) else known P io s page := by
  have hlt : r.nPages.toNat < 2 ^ 32 := Nat.lt_trans r.nPages.toNat_lt (by decide)
  have hpages := schPage_write page r.nPages.toNat r.filePage 0 (explained_request h r) hcmd hlt hok
  refine hpages.trans ?_
  have hbuf := bufferPage_eq (Function.update s.mem .caller r.buffer) (r.index page)
  rw [Function.update_self] at hbuf
  rw [hbuf]
  rfl

theorem swapCompHook_known_of_read {s : Swap} (h : Explained B P io s) {r : Request}
    (hcmd : r.cmd ≠ P.pfWriteData) (page : UInt32) :
    known P io (swapCompHook B P io r s).2 page = known P io s page :=
  schPage_read_known page _ _ _ (explained_request h r) hcmd

/-- What a read request that reports success returns. -/
theorem swapCompHook_read {s : Swap} (h : Explained B P io s) {r : Request}
    (hcmd : r.cmd ≠ P.pfWriteData) {page : UInt32} (hpage : r.Covers page)
    (hok : (swapCompHook B P io r s).1.status = P.pfsSuccess) {c : List UInt8}
    (hc : known P io s page = some c) :
    bufferPage (swapCompHook B P io r s).1.buffer (r.index page) = c := by
  refine Eq.trans (bufferPage_eq _ _) ?_
  exact schPage_read _ _ _ (explained_request h r) hcmd hok hpage hc

/-! ## Runs -/

theorem swapRun_snoc (s : Swap) (rs : List Request) (r : Request) :
    swapRun B P io s (rs ++ [r]) =
      ((swapRun B P io s rs).1 ++ [(r, (swapCompHook B P io r (swapRun B P io s rs).2).1)],
        (swapCompHook B P io r (swapRun B P io s rs).2).2) := by
  rw [swapRun, List.foldl_append]
  rfl

theorem swapStart_explained (file : Mem UInt32) : Explained B P io (swapStart file) := by
  refine ⟨fun page => file.bytes page 0 pageBytes, _, .nil _, fun page => ?_, rfl⟩
  have hentry : entry B (swapStart file) page = 0 := by
    unfold entry
    split_ifs <;> rfl
  rw [hentry]
  exact (slotHolds_zero B _ _ _).2 rfl

/-- Over any run the driver is a store. -/
theorem swapRun_explained (file : Mem UInt32) (rs : List Request) :
    Explained B P io (swapRun B P io (swapStart file) rs).2 := by
  induction rs using List.reverseRecOn with
  | nil => exact swapStart_explained file
  | append_singleton rs r ih =>
    rw [swapRun_snoc]
    exact swapCompHook_explained ih r

variable (P) in
/-- What the last write request that names `page` wrote there. -/
def lastWrite (page : UInt32) (history : List (Request × Reply)) : Option (List UInt8) :=
  history.foldl (fun last h =>
    if h.1.cmd = P.pfWriteData ∧ h.1.Covers page then some (bufferPage h.1.buffer (h.1.index page))
    else last) none

theorem lastWrite_snoc (page : UInt32) (history : List (Request × Reply)) (h : Request × Reply) :
    lastWrite P page (history ++ [h]) =
      if h.1.cmd = P.pfWriteData ∧ h.1.Covers page then
        some (bufferPage h.1.buffer (h.1.index page))
      else lastWrite P page history := by
  rw [lastWrite, List.foldl_append]
  rfl

theorem lastWrite_append {page : UInt32} (past : List (Request × Reply))
    {later : List (Request × Reply)}
    (h : ∀ d ∈ later, ¬(d.1.cmd = P.pfWriteData ∧ d.1.Covers page)) :
    lastWrite P page (past ++ later) = lastWrite P page past := by
  induction later using List.reverseRecOn with
  | nil => rw [List.append_nil]
  | append_singleton later d ih =>
    rw [← List.append_assoc, lastWrite_snoc, if_neg (h d (by simp))]
    exact ih fun e he => h e (List.mem_append_left _ he)

/-- What is known of a page is what the last write of it wrote, if the writes of it
succeeded. -/
theorem swapRun_known (file : Mem UInt32) (rs : List Request) {page : UInt32}
    (h : ∀ d ∈ (swapRun B P io (swapStart file) rs).1,
      d.1.cmd = P.pfWriteData → d.1.Covers page → d.2.status = P.pfsSuccess) :
    known P io (swapRun B P io (swapStart file) rs).2 page =
      lastWrite P page (swapRun B P io (swapStart file) rs).1 := by
  induction rs using List.reverseRecOn with
  | nil => rfl
  | append_singleton rs r ih =>
    rw [swapRun_snoc] at h ⊢
    have hpast := ih fun d hd => h d (List.mem_append_left _ hd)
    have hexp : Explained B P io (swapRun B P io (swapStart file) rs).2 :=
      swapRun_explained file rs
    rw [lastWrite_snoc, ← hpast]
    by_cases hcmd : r.cmd = P.pfWriteData
    · have hlast := h _ (List.mem_append_right _ (List.mem_singleton_self _)) hcmd
      rw [swapCompHook_write hexp hcmd page hlast]
      exact if_congr (by simp [hcmd]) rfl rfl
    · rw [swapCompHook_known_of_read hexp hcmd, if_neg fun hw => hcmd hw.1]

/-- In every run, whatever PAGEFILE does at each call, a read that reports success returns
in the buffer of each page what the last write of it wrote, if the writes of it reported
success. -/
theorem swapComp_reads_last_write (B : SwapBuild) (P : PageSwap) (io : ℕ → Outcome)
    (file : Mem UInt32) (rs : List Request) (r : Request) (page : UInt32)
    (hread : r.cmd ≠ P.pfWriteData) (hpage : r.Covers page)
    (hok : (swapCompHook B P io r (swapRun B P io (swapStart file) rs).2).1.status = P.pfsSuccess)
    (hwrites : ∀ d ∈ (swapRun B P io (swapStart file) rs).1,
      d.1.cmd = P.pfWriteData → d.1.Covers page → d.2.status = P.pfsSuccess)
    (past later : List (Request × Reply)) (w : Request × Reply)
    (hhist : (swapRun B P io (swapStart file) rs).1 = past ++ w :: later)
    (hw : w.1.cmd = P.pfWriteData ∧ w.1.Covers page)
    (hlast : ∀ d ∈ later, ¬(d.1.cmd = P.pfWriteData ∧ d.1.Covers page)) :
    bufferPage (swapCompHook B P io r (swapRun B P io (swapStart file) rs).2).1.buffer
      (r.index page) = bufferPage w.1.buffer (w.1.index page) := by
  refine swapCompHook_read (swapRun_explained file rs) hread hpage hok ?_
  rw [swapRun_known file rs hwrites, hhist, List.append_cons, lastWrite_append _ hlast,
    lastWrite_snoc, if_pos hw]

/-- Codes to run examples with. -/
def swapCodes : PageSwap := ⟨1, 0, 1, by decide⟩

/-- A write of a page of one byte. -/
def writePage (page : UInt32) (byte : UInt8) : Request := ⟨1, 0, 1, page, fun _ => byte⟩

/-- A read of a page. -/
def readPage (page : UInt32) : Request := ⟨0, 0, 1, page, fun _ => 0⟩

/-- PAGEFILE fails its second call, and leaves the file alone. -/
def failsSecond (n : ℕ) : Outcome := if n = 1 then ⟨true, 1, []⟩ else ⟨true, 0, []⟩

/-- SWAPZ.VXD, the build with SC_ZERO. -/
def swapz : SwapBuild := ⟨false, true, false, 8192⟩

/-- A page past SlotTab and one in it are written, the second with zeros, and a write of the first
fails before the second is read. -/
theorem swapComp_reads_last_write_zeros :
    bufferPage (swapCompHook swapz swapCodes failsSecond (readPage 5)
      (swapRun swapz swapCodes failsSecond (swapStart fun _ _ => 0xAA)
        [writePage 9000 7, writePage 5 0, writePage 9000 9]).2).1.buffer ((readPage 5).index 5) =
      bufferPage (writePage 5 0).buffer ((writePage 5 0).index 5) := by
  have hstatus : ((swapRun swapz swapCodes failsSecond (swapStart fun _ _ => 0xAA)
      [writePage 9000 7, writePage 5 0, writePage 9000 9]).1.all fun d =>
        decide (d.1.Covers 5 → d.2.status = swapCodes.pfsSuccess)) = true := by decide +kernel
  refine swapComp_reads_last_write swapz swapCodes failsSecond (fun _ _ => 0xAA)
    [writePage 9000 7, writePage 5 0, writePage 9000 9] (readPage 5) 5 (by decide) (by decide)
    (by decide +kernel) (fun d hd _ => of_decide_eq_true (List.all_eq_true.1 hstatus d hd))
    [(writePage 9000 7, _)] [(writePage 9000 9, _)] (writePage 5 0, _) rfl ⟨rfl, by decide⟩
    fun d hd hw => ?_
  obtain rfl := List.mem_singleton.1 hd
  exact absurd hw.2 (by decide)

/-! ## Failed writes -/

/-- A page's turn that wrote it. -/
def Served.Wrote (P : PageSwap) (page : UInt32) (d : Served) : Prop :=
  d.cmd = P.pfWriteData ∧ d.page = page ∧ d.failed = false

/-- A page's turn that failed to write it. -/
def Served.FailedToWrite (P : PageSwap) (page : UInt32) (d : Served) : Prop :=
  d.cmd = P.pfWriteData ∧ d.page = page ∧ d.failed = true

/-- Of the calls a turn makes, a second one if the first succeeds, those PAGEFILE failed left the
file alone. -/
def Served.FailsCleanly (P : PageSwap) (io : ℕ → Outcome) (d : Served) : Prop :=
  ∀ n, n = d.call ∨ n = d.call + 1 ∧ (io d.call).status = P.pfsSuccess →
    (io n).status ≠ P.pfsSuccess → (io n).junk = []

/-- What a failed write must not do : in a run where the writes of a page that fail leave
the file alone, a read of it that succeeds gives what the last successful write wrote. -/
def FailedWritesHarmless (B : SwapBuild) (P : PageSwap) : Prop :=
  ∀ (io : ℕ → Outcome) (file : Mem UInt32) (rs : List Request) (past mid later : List Served)
    (w d : Served), (swapRun B P io (swapStart file) rs).2.log = past ++ w :: mid ++ d :: later →
    w.Wrote P d.page → (∀ e ∈ mid, ¬e.Wrote P d.page) →
    (∀ e ∈ mid, e.FailedToWrite P d.page → e.FailsCleanly P io) →
    d.cmd ≠ P.pfWriteData → d.failed = false → d.data = w.data

/-- Between two writes of a page that succeed, what changes what is known of it. -/
theorem Served.heldAfter_event {P : PageSwap} {io : ℕ → Outcome} {e : Served} {page : UInt32}
    (hwrote : ¬e.Wrote P page) (hkept : e.FailedToWrite P page → e.Kept P io)
    (last : Option (List UInt8)) : Store.heldAfter page last (e.event P io) = last := by
  unfold event
  by_cases hcmd : e.cmd = P.pfWriteData
  · rw [if_pos hcmd]
    by_cases hpage : e.page = page
    · cases hf : e.failed with
      | false => exact absurd ⟨hcmd, hpage, hf⟩ hwrote
      | true =>
        rw [if_neg (by decide), if_pos (hkept ⟨hcmd, hpage, hf⟩)]
        rfl
    · split_ifs
      · exact if_neg hpage
      · rfl
      · exact if_neg hpage
  · rw [if_neg hcmd]
    split_ifs
    · rfl
    · rfl

/-- A failed write is harmless if it found the SlotTab entry 0 and its first call was the
one that failed. -/
theorem failed_write_harmless (B : SwapBuild) (P : PageSwap) (io : ℕ → Outcome)
    (file : Mem UInt32) (rs : List Request) (past mid later : List Served) (w d : Served)
    (hlog : (swapRun B P io (swapStart file) rs).2.log = past ++ w :: mid ++ d :: later)
    (hw : w.Wrote P d.page) (hmid : ∀ e ∈ mid, ¬e.Wrote P d.page)
    (hclean : ∀ e ∈ mid, e.FailedToWrite P d.page → e.FailsCleanly P io)
    (hraw : ∀ e ∈ mid, e.FailedToWrite P d.page →
      e.entry = 0 ∧ (io e.call).status ≠ P.pfsSuccess)
    (hread : d.cmd ≠ P.pfWriteData) (hok : d.failed = false) : d.data = w.data := by
  have hexp : Explained B P io (swapRun B P io (swapStart file) rs).2 := swapRun_explained file rs
  obtain ⟨st₀, st, hrun, -⟩ := hexp
  obtain ⟨hwcmd, hwpage, hwok⟩ := hw
  have hwevent : w.event P io = .write d.page w.data .done := by
    rw [Served.event, if_pos hwcmd, if_pos hwok, hwpage]
  have hdevent : d.event P io = .read d.page d.data := by
    rw [Served.event, if_neg hread, hok]
    rfl
  rw [hlog, List.map_append, List.map_cons, hdevent] at hrun
  refine hrun.read_eq ?_
  rw [List.map_append, List.map_cons, hwevent]
  refine Store.held_of_done _ fun e he last => ?_
  obtain ⟨e, hmem, rfl⟩ := List.mem_map.1 he
  refine Served.heldAfter_event (hmid e hmem) (fun hfail => ?_) last
  obtain ⟨hentry, hst⟩ := hraw e hmem hfail
  exact ⟨hentry, hst, hclean e hmem hfail e.call (Or.inl rfl) hst⟩

/-- A page in SlotTab is written with zeros, a page past it with others, a write of that one fails,
and reads give what was written first. -/
theorem failed_write_harmless_zeros :
    ∃ w v e d f, (swapRun swapz swapCodes failsSecond (swapStart fun _ _ => 0xAA)
      [writePage 5 0, writePage 9000 7, writePage 9000 9, readPage 5, readPage 9000]).2.log =
        [w, v, e, d, f] ∧ e.failed = true ∧ d.data = w.data ∧ f.data = v.data := by
  have hfive : (swapRun swapz swapCodes failsSecond (swapStart fun _ _ => 0xAA)
      [writePage 5 0, writePage 9000 7, writePage 9000 9, readPage 5, readPage 9000]).2.log.map
        (fun x => (x.cmd, x.page, x.failed, x.entry, x.call)) =
      [(1, 5, false, 0, 0), (1, 9000, false, 0, 0), (1, 9000, true, 0, 1), (0, 5, false, 0xFF, 2),
        (0, 9000, false, 0, 2)] := by decide +kernel
  generalize hlog : (swapRun swapz swapCodes failsSecond (swapStart fun _ _ => 0xAA)
      [writePage 5 0, writePage 9000 7, writePage 9000 9, readPage 5, readPage 9000]).2.log =
    log at hfive
  obtain ⟨w, l, rfl, hw, hl⟩ := List.map_eq_cons_iff.1 hfive
  obtain ⟨v, l, rfl, hv, hl⟩ := List.map_eq_cons_iff.1 hl
  obtain ⟨e, l, rfl, he, hl⟩ := List.map_eq_cons_iff.1 hl
  obtain ⟨d, l, rfl, hd, hl⟩ := List.map_eq_cons_iff.1 hl
  obtain ⟨f, l, rfl, hf, hl⟩ := List.map_eq_cons_iff.1 hl
  obtain rfl := List.map_eq_nil_iff.1 hl
  simp only [Prod.mk.injEq] at hw hv he hd hf
  obtain ⟨hwcmd, hwpage, hwok, -, -⟩ := hw
  obtain ⟨hvcmd, hvpage, hvok, -, -⟩ := hv
  obtain ⟨-, hepage, hefail, heentry, hecall⟩ := he
  obtain ⟨hdcmd, hdpage, hdok, -, -⟩ := hd
  obtain ⟨hfcmd, hfpage, hfok, -, -⟩ := hf
  have hclean (x : Served) : x.FailsCleanly swapCodes failsSecond := fun n _ _ => by
    unfold failsSecond
    split_ifs <;> rfl
  refine ⟨w, v, e, d, f, rfl, hefail, ?_, ?_⟩
  · have hother : ∀ x ∈ [v, e], x.page ≠ d.page := by
      rw [hdpage]
      exact List.forall_mem_cons.2 ⟨by rw [hvpage]; decide, List.forall_mem_singleton.2
        (by rw [hepage]; decide)⟩
    exact failed_write_harmless swapz swapCodes failsSecond (fun _ _ => 0xAA) _ [] [v, e] [f] w d
      hlog ⟨hwcmd, hwpage.trans hdpage.symm, hwok⟩ (fun x hx hw => hother x hx hw.2.1)
      (fun x _ _ => hclean x) (fun x hx hfail => absurd hfail.2.1 (hother x hx))
      (by rw [hdcmd]; decide) hdok
  · have hread : ∀ x ∈ [e, d], x.cmd = swapCodes.pfWriteData → x = e :=
      List.forall_mem_cons.2 ⟨fun _ => rfl, List.forall_mem_singleton.2
        fun hcmd => absurd (hcmd.symm.trans hdcmd) (by decide)⟩
    refine failed_write_harmless swapz swapCodes failsSecond (fun _ _ => 0xAA) _ [w] [e, d] [] v f
      hlog ⟨hvcmd, hvpage.trans hfpage.symm, hvok⟩ (fun x hx hw => ?_) (fun x _ _ => hclean x)
      (fun x hx hfail => ?_) (by rw [hfcmd]; decide) hfok
    · obtain rfl := hread x hx hw.1
      exact absurd (hefail.symm.trans hw.2.2) (by decide)
    · obtain rfl := hread x hx hfail.1
      exact ⟨heentry, by rw [hecall]; decide⟩

/-! ### A slot read as what it is not -/

theorem scoRawWrite_fails {s : Swap} (hidle : s.inflight = false)
    (hst : (io s.calls).status ≠ P.pfsSuccess) :
    ∃ t, scoRawWrite P io s = .error t ∧ t.calls = s.calls + 1 := by
  set u : Swap := { s with counters.cRawWrites := s.counters.cRawWrites + 1 }
  have hpass : scoRawWrite P io s = .error (moved P io u.desc.bufferPtr pageBytes u) := by
    unfold scoRawWrite
    rw [scoPass_eq P io (by exact hidle)]
    exact if_pos hst
  exact ⟨_, hpass, rfl⟩

/-- A write of a page that is not zeros fails if its first call does. -/
theorem scoWrite_fails {s : Swap} (hidle : s.inflight = false)
    (hst : (io s.calls).status ≠ P.pfsSuccess)
    (hzero : ¬(B.scZero ∧ scIsZero s.mem s.desc.bufferPtr)) :
    ∃ t, scoWrite B P io s = .error t ∧ t.calls = s.calls + 1 := by
  unfold scoWrite
  dsimp only
  rw [if_neg hzero]
  split_ifs with hslots hdis
  · exact scoRawWrite_fails hidle hst
  · exact scoRawWrite_fails hidle hst
  · set u : Swap := { s with slotTab := Function.update s.slotTab s.desc.filePage 0 }
    have hcomp := scoCompress_frame (B := B) (s := u) hidle
    have hcalls : (scoCompress B u).2.calls = s.calls := rfl
    unfold scoPack
    generalize scoCompress B u = r at *
    obtain ⟨k, v⟩ := r
    dsimp only at *
    split_ifs with h6
    · rw [← hcalls] at hst ⊢
      exact scoRawWrite_fails hcomp.idle hst
    · rw [scTransfer_eq, hcalls, if_pos hst]
      exact ⟨_, rfl, congrArg (· + 1) hcalls⟩

/-- A read of a slot whose entry says a whole page succeeds if its call does. -/
theorem scoRead_succeeds {s : Swap} (hidle : s.inflight = false)
    (hentry : entry B s s.desc.filePage = 0) (hst : (io s.calls).status = P.pfsSuccess) :
    ∃ t, scoRead B P io s = .ok t := by
  have hraw : scoRead B P io s = scoRawRead P io s := by
    unfold entry at hentry
    unfold scoRead
    split_ifs at hentry ⊢
    · rfl
    · rfl
  have hpass : scoRawRead P io s = .ok (moved P io s.desc.bufferPtr pageBytes
      { s with counters.cRawReads := s.counters.cRawReads + 1 }) := by
    unfold scoRawRead
    rw [scoPass_eq P io (by exact hidle)]
    exact if_neg (not_not.2 hst)
  exact ⟨_, hraw.trans hpass⟩

theorem swapCompHook_one {r : Request} (h : r.nPages = 1) (s : Swap) :
    (swapCompHook B P io r s).2 = scOne B P io { r.opened P s with
      desc.filePage := r.filePage, desc.bufferPtr := (.caller, 0) } := by
  unfold swapCompHook
  rw [h]
  rfl

/-- After a write of a page that is not zeros whose first call fails and leaves the file
alone, a read of it whose call succeeds gives what the slot holds, whatever that is. -/
theorem read_after_failed_write {s : Swap} (h : Explained B P io s) {w r : Request}
    (hw : w.cmd = P.pfWriteData ∧ w.nPages = 1) (hr : r.cmd ≠ P.pfWriteData ∧ r.nPages = 1)
    (hpage : r.filePage = w.filePage)
    (hzero : ¬(B.scZero ∧ scIsZero (w.opened P s).mem (.caller, 0)))
    (hst : (io s.calls).status ≠ P.pfsSuccess) (hjunk : (io s.calls).junk = [])
    (hok : (io (s.calls + 1)).status = P.pfsSuccess) :
    ∃ e d, (swapCompHook B P io r (swapCompHook B P io w s).2).2.log = s.log ++ [e, d] ∧
      e.FailedToWrite P w.filePage ∧ e.FailsCleanly P io ∧ d.cmd = r.cmd ∧ d.page = w.filePage ∧
      d.failed = false ∧ d.data = s.file.bytes w.filePage 0 pageBytes := by
  obtain ⟨hwcmd, hwone⟩ := hw
  obtain ⟨hrcmd, hrone⟩ := hr
  have hidle : s.inflight = false := by
    obtain ⟨_, _, _, hholds⟩ := h
    exact hholds.idle
  rw [swapCompHook_one hwone, swapCompHook_one hrone]
  set u : Swap := { w.opened P s with desc.filePage := w.filePage, desc.bufferPtr := (.caller, 0) }
  have hwrite : ∃ t, scoWrite B P io u = .error t ∧ t.calls = u.calls + 1 :=
    scoWrite_fails hidle hst hzero
  obtain ⟨t, ht, hcalls⟩ := hwrite
  have hfail : Ends (WriteFailed B P io u) (WriteDone B u) (scoWrite B P io u) :=
    scoWrite_ends hwcmd hidle rfl
  rw [ht] at hfail
  have hfail' : WriteFailed B P io u t := hfail
  have hone : scOne B P io u = { t with
      status := P.pfsFailure, log := t.log ++ [served B u t true] } := by
    unfold scOne scoRun
    rw [if_pos (by exact hwcmd), ht]
  rw [hone]
  set v : Swap := { r.opened P { t with
      status := P.pfsFailure, log := t.log ++ [served B u t true] } with
    desc.filePage := r.filePage, desc.bufferPtr := (.caller, 0) }
  have hentry : entry B v v.desc.filePage = 0 := by
    have hv : v.desc.filePage = u.desc.filePage := hpage
    rw [hv]
    exact hfail'.entry
  have hvst : (io v.calls).status = P.pfsSuccess := by
    have hv : v.calls = s.calls + 1 := hcalls
    rwa [hv]
  have hvidle : v.inflight = false := hfail'.idle
  obtain ⟨x, hx⟩ := scoRead_succeeds (P := P) hvidle hentry hvst
  have hread : Ends (ReadFrame v) (ReadDone (v.file.bytes v.desc.filePage 0 pageBytes) v)
      (scoRead B P io v) :=
    scoRead_ends hrcmd hvidle rfl (by rw [hentry]; exact (slotHolds_zero B _ _ _).2 rfl)
  rw [hx] at hread
  have hdone : ReadDone _ v x := hread
  have hone' : scOne B P io v = { x with log := x.log ++ [served B v x false] } := by
    unfold scOne scoRun
    rw [if_neg (by exact hrcmd), hx]
  have hslot : v.file.bytes v.desc.filePage 0 pageBytes = s.file.bytes w.filePage 0 pageBytes := by
    have hv : v.desc.filePage = w.filePage := hpage
    rw [hv]
    exact Mem.bytes_congr fun i _ => congrFun (hfail'.kept hst hjunk) _
  refine ⟨served B u t true, served B v x false, ?_, ⟨hwcmd, rfl, rfl⟩, ?_, rfl, hpage, rfl, ?_⟩
  · have hlog : x.log = s.log ++ [served B u t true] :=
      hdone.log.trans (congrArg (· ++ _) hfail'.log)
    rw [hone']
    dsimp only
    rw [hlog, List.append_assoc]
    rfl
  · rintro n (rfl | ⟨rfl, -⟩) hn
    · exact hjunk
    · exact absurd hok hn
  · rw [← hslot]
    have hback := v.mem.bytes_blit .caller 0 (v.file.bytes v.desc.filePage 0 pageBytes)
    rw [Mem.length_bytes] at hback
    unfold served
    dsimp only
    refine Eq.trans (Mem.bytes_congr fun i _ => ?_) hback
    exact congrFun hdone.mem _

end Run

/-- A page of zeros is written, a write of the page over it fails, and a read of it gives
what the slot held before both. -/
theorem not_failedWritesHarmless : ¬FailedWritesHarmless swapz swapCodes := by
  intro h
  set io : ℕ → Outcome := fun n => if n = 0 then ⟨true, 1, []⟩ else ⟨true, 0, []⟩
  set file : Mem UInt32 := fun _ _ => 0xAA
  set zeros : Request := writePage 0 0
  set sevens : Request := writePage 0 7
  set r : Request := readPage 0
  set u : Swap := { zeros.opened swapCodes (swapStart file) with
    desc.filePage := zeros.filePage, desc.bufferPtr := (.caller, 0) }
  have hzero : scIsZero u.mem (.caller, 0) = true :=
    List.all_eq_true.2 fun i _ => decide_eq_true (by rfl)
  have hrun : scoRun swapz swapCodes io u = .ok (scoZeroWrite swapz
      { u with slotTab := Function.update u.slotTab u.desc.filePage 0 }) := by
    unfold scoRun scoWrite
    rw [if_pos (by rfl), if_neg (by decide)]
    dsimp only
    rw [if_neg (by decide), if_pos ⟨rfl, hzero⟩]
  have hs : (swapCompHook swapz swapCodes io zeros (swapStart file)).2 =
      scOne swapz swapCodes io u :=
    swapCompHook_one rfl _
  unfold scOne at hs
  rw [hrun] at hs
  set s : Swap := (swapCompHook swapz swapCodes io zeros (swapStart file)).2
  set t := scoZeroWrite swapz { u with slotTab := Function.update u.slotTab u.desc.filePage 0 }
  have hlog : s.log = [served swapz u t false] := by
    have ht : t.log = [] := rfl
    rw [hs]
    dsimp only
    rw [ht, List.nil_append]
  have hcalls : s.calls = 0 := by
    rw [hs]
    rfl
  have hfile : s.file = file := by
    rw [hs]
    rfl
  have hexp : Explained swapz swapCodes io s :=
    swapCompHook_explained (swapStart_explained file) zeros
  have hseven : ¬(swapz.scZero ∧ scIsZero (sevens.opened swapCodes s).mem (.caller, 0)) := by
    rintro ⟨-, hz⟩
    have hdword := of_decide_eq_true (List.all_eq_true.1 hz 0 (List.mem_range.2 (by decide)))
    have hmem : (sevens.opened swapCodes s).mem .caller = fun _ => 7 := sevens.opened_mem s
    unfold Mem.dword at hdword
    dsimp only at hdword
    rw [hmem] at hdword
    exact absurd hdword (by decide)
  obtain ⟨e, d, hlog', hfail, hclean, hdcmd, hdpage, hdok, hdata⟩ :=
    read_after_failed_write hexp (w := sevens) (r := r) ⟨rfl, rfl⟩
      ⟨by decide, rfl⟩ rfl hseven (by rw [hcalls]; decide) (by rw [hcalls]; rfl)
      (by rw [hcalls]; rfl)
  rw [hlog] at hlog'
  have hruns : (swapRun swapz swapCodes io (swapStart file) [zeros, sevens, r]).2 =
      (swapCompHook swapz swapCodes io r (swapCompHook swapz swapCodes io sevens s).2).2 := by
    unfold swapRun
    simp only [List.foldl_cons, List.foldl_nil]
    rfl
  have hfailed : ∀ x ∈ [e], x = e := fun x hx => List.mem_singleton.1 hx
  have hd : d.data = (served swapz u t false).data := by
    refine h io file [zeros, sevens, r] [] [e] [] _ d (by rw [hruns]; exact hlog') ?_
      (fun x hx hw => ?_) (fun x hx _ => ?_) (by rw [hdcmd]; decide) hdok
    · rw [hdpage]
      exact ⟨rfl, rfl, rfl⟩
    · rw [hfailed x hx] at hw
      exact Bool.false_ne_true (hw.2.2.symm.trans hfail.2.2)
    · rw [hfailed x hx]
      exact hclean
  rw [hdata, hfile] at hd
  unfold served at hd
  dsimp only at hd
  have hpos : 0 < pageBytes := by decide
  have hbyte := Mem.eq_of_bytes_eq hd hpos
  have hzeros : t.mem u.desc.bufferPtr.1 = fun _ => 0 := rfl
  rw [hzeros] at hbyte
  exact absurd hbyte (by decide)

end Inboard
