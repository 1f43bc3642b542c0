import Inboard.ShadowWindow

/-!
# The BIOS in its copy

What becomes of 5F0000 : a page in `dwKeepMask` is neither written nor passed to the VMM, the
V86 pages of the BIOS are mapped to the ROM or to pages that were never donated, and a page
that INBRDPC has changed is kept (`shadRam_keeps_bios`).
-/

set_option linter.unusedSectionVars false

namespace Inboard

variable {κ : Type*} [DecidableEq κ] (E : ShadowEnv κ) {s t : Shadow κ}

/-- `t` gave nothing of the pages in its `dwKeepMask` away. -/
structure Shadow.KeptSafe (t : Shadow κ) : Prop where
  page : ∀ n, t.keepMask.testBit n = true → n < SR_PAGES
  unwritten : ∀ n, t.keepMask.testBit n = true →
    ∀ d v, .write d v ∈ t.ram.log → d / pageDwords ≠ n + SR_PAGES
  owned : ∀ n, t.keepMask.testBit n = true → SR_BIOS_PAGE + n ∉ t.donated
  donated : ∀ p ∈ t.donated, ∃ n < SR_ALL, p = SR_FIRST_PAGE + n
  biosPage : t.biosPage = 0 ∨ t.biosPage = V86_BIOS_PAGE ∨ t.biosPage = SR_BIOS_PAGE

/-- Nothing was written or given away. -/
structure Shadow.Untouched (t : Shadow κ) : Prop where
  unwritten : ∀ d, Unwritten d t.ram.log
  donated : t.donated = []
  keepMask : t.keepMask = 0
  biosPage : t.biosPage = 0 ∨ t.biosPage = V86_BIOS_PAGE

theorem Shadow.Untouched.keptSafe (h : t.Untouched) : t.KeptSafe := by
  have hno (n : ℕ) (hn : t.keepMask.testBit n = true) : False := by
    rw [h.keepMask] at hn
    simp at hn
  refine ⟨fun n hn => (hno n hn).elim, fun n hn => (hno n hn).elim, fun n hn => (hno n hn).elim,
    fun p hp => ?_, h.biosPage.imp_right .inl⟩
  rw [h.donated] at hp
  exact absurd hp List.not_mem_nil

/-- Where the window is open the choice rules the tests and the donation. -/
theorem Shadow.KeptSafe.of_open {u : Shadow κ} (hpass : u.passMask = 0) (hdonated : u.donated = [])
    (hlog : ∀ d, Unwritten d u.ram.log) :
    (eachPage (ssiAdd E) (ssiTests E
      (srChoosePages E { u with biosPage := SR_BIOS_PAGE }))).KeptSafe ∧
    ∀ n < SR_PAGES, u.diffMask.testBit n = true → (eachPage (ssiAdd E) (ssiTests E
      (srChoosePages E { u with biosPage := SR_BIOS_PAGE }))).keepMask.testBit n = true := by
  obtain ⟨v, htesting, a, ps, heq, hps⟩ := shadRamSysInit_open E hpass
  obtain ⟨hchosen, keep, cand, hchoose⟩ := srChoosePages_spec E { u with biosPage := SR_BIOS_PAGE }
  have hdisjoint (n : ℕ) (hn : v.keepMask.testBit n = true) :=
    hchosen.disjoint E (htesting.keepMask ▸ hn)
  have hv : v.donated = [] := by
    rw [htesting.donated, hchoose]
    exact hdonated
  rw [heq]
  refine ⟨⟨fun n hn => (hdisjoint n hn).1, fun n hn d w hmem hpage => ?_, fun n hn hp => ?_,
    fun p hp => ?_, .inr (.inr ?_)⟩, fun n hlt hdiff => ?_⟩
  · obtain ⟨es, hes, hcand⟩ := htesting.log
    have hmem' : .write d w ∈ (srChoosePages E { u with biosPage := SR_BIOS_PAGE }).ram.log ++ es :=
      hes ▸ hmem
    rcases List.mem_append.1 hmem' with hmem' | hmem'
    · rw [hchoose] at hmem'
      exact hlog d w hmem'
    · have hpass := hcand d w hmem'
      rw [hpage, (hdisjoint n hn).2] at hpass
      exact absurd hpass (by decide)
  · rw [hv] at hp
    obtain ⟨m, -, hm, hmarked⟩ := hps _ hp
    have hcand := htesting.passed m hmarked
    obtain rfl : m = n + SR_PAGES := by
      unfold SR_BIOS_PAGE SR_FIRST_PAGE at hm
      unfold SR_PAGES
      omega
    rw [(hdisjoint n hn).2] at hcand
    exact absurd hcand (by decide)
  · rw [hv] at hp
    obtain ⟨m, hlt, hm, -⟩ := hps _ hp
    exact ⟨m, hlt, hm⟩
  · rw [show v.biosPage = _ from htesting.biosPage, hchoose]
  · rw [show v.keepMask = _ from htesting.keepMask]
    refine (hchosen.keep n).2 ⟨hlt, ?_⟩
    have hkept : (srChoosePages E { u with biosPage := SR_BIOS_PAGE }).diffMask.testBit n =
        true := by
      rw [hchoose]
      exact hdiff
    rw [Shadow.Keeps, isKept, hkept]
    simp

/-- The pages of `ShadRam_Map_VM` are the ROM's or were not donated. -/
theorem Shadow.KeptSafe.map (h : t.KeptSafe) : ∀ m ∈ shadRamMapVm t, ∃ n < SR_PAGES,
    m.v86 = V86_BIOS_PAGE + n ∧ (m.phys ∉ t.donated ∨ m.phys = V86_BIOS_PAGE + n) := by
  intro m hm
  unfold shadRamMapVm at hm
  split_ifs at hm with hpage
  · exact absurd hm List.not_mem_nil
  · obtain ⟨n, hn, rfl⟩ := List.mem_map.1 hm
    refine ⟨n, List.mem_range.1 hn, rfl, ?_⟩
    unfold smvPage
    split_ifs with hkeep
    · rcases h.biosPage with hbios | hbios | hbios
      · exact absurd hbios hpage
      · exact .inr (by rw [hbios])
      · exact .inl (hbios ▸ h.owned n hkeep)
    · exact .inr rfl

/-- A run that donates ends with the window open ; else nothing was touched. -/
theorem shadRamSysInit_keptSafe (inbFound : Bool) (h : s.Loaded) :
    (shadRamSysInit E inbFound s).Untouched ∨ (shadRamSysInit E inbFound s).KeptSafe ∧
      ∀ n < SR_PAGES, (∃ i < pageDwords, s.Differs E (n * pageDwords + i)) →
        (shadRamSysInit E inbFound s).keepMask.testBit n = true := by
  rcases shadRamSysInit_cases E inbFound s with ⟨-, page, status, hpage, heq⟩ | ⟨-, heq⟩
  · rw [heq]
    refine .inl ⟨fun d v hmem => ?_, h.donated, h.keepMask, hpage.imp_left (·.trans h.biosPage)⟩
    rw [show s.ram.log = [] from h.log] at hmem
    exact List.not_mem_nil hmem
  · obtain ⟨u, hcompared, hcases⟩ := ssiHaveMaps_cases E s
    obtain ⟨ram, diff, hu⟩ := hcompared.rest
    have hlog : ∀ d, Unwritten d u.ram.log := by
      obtain ⟨es, hes, hreads⟩ := hcompared.log
      rw [hes, ssiOpened_ram, h.log]
      exact hreads
    have hdonated : u.donated = [] := by rw [hu]; exact h.donated
    rcases hcases with ⟨-, hclosed⟩ | ⟨-, hopen⟩
    · rw [heq, hclosed]
      refine .inl ⟨hlog, hdonated, ?_, .inr ?_⟩
      · rw [hu]
        exact h.keepMask
      · rw [hu]
        rfl
    · have hpass : u.passMask = 0 := by rw [hu]; exact h.passMask
      obtain ⟨hsafe, hkept⟩ := Shadow.KeptSafe.of_open E hpass hdonated hlog
      rw [heq, hopen]
      refine .inr ⟨hsafe, fun n hn ⟨i, hi, hdiffers⟩ => hkept n hn ?_⟩
      refine (hcompared.diffMask n).2 (.inr ⟨n * pageDwords + i, ?_, ?_, ?_⟩)
      · unfold SR_PAGES pageDwords at *
        omega
      · exact (ssiOpened_differs E s _).2 hdiffers
      · exact div_pageDwords (Nat.le_add_right _ _) (Nat.add_lt_add_left hi _)

/-- With a page for the BIOS each of its pages is mapped, once and in order. -/
theorem shadRamMapVm_v86 (hbios : s.biosPage ≠ 0) :
    (shadRamMapVm s).map (·.v86) = List.range' V86_BIOS_PAGE SR_PAGES := by
  rw [shadRamMapVm, if_neg hbios, List.map_map, List.range'_eq_map_range]
  rfl

/-- Whatever the BIOS and its copy hold and however the tests come out, no page in `dwKeepMask`
is written or donated, the BIOS is mapped to pages that are not donated, all of it if anything is,
and the pages of the copy that differ from it are in `dwKeepMask`, unless all is left as it was. -/
theorem shadRam_keeps_bios (inbFound : Bool) (h : s.Loaded) :
    (∀ n, (shadRamSysInit E inbFound s).keepMask.testBit n = true →
      (∀ d v, .write d v ∈ (shadRamSysInit E inbFound s).ram.log →
        SR_FIRST_PAGE + d / pageDwords ≠ SR_BIOS_PAGE + n) ∧
      SR_BIOS_PAGE + n ∉ (shadRamSysInit E inbFound s).donated) ∧
    (∀ m ∈ shadRamMapVm (shadRamSysInit E inbFound s), ∃ n < SR_PAGES, m.v86 = V86_BIOS_PAGE + n ∧
      (m.phys ∉ (shadRamSysInit E inbFound s).donated ∨ m.phys = V86_BIOS_PAGE + n)) ∧
    ((shadRamSysInit E inbFound s).biosPage ≠ 0 →
      (shadRamMapVm (shadRamSysInit E inbFound s)).map (·.v86) =
        List.range' V86_BIOS_PAGE SR_PAGES) ∧
    ∀ n < SR_PAGES, (∃ i < pageDwords, s.Differs E (n * pageDwords + i)) →
      (shadRamSysInit E inbFound s).keepMask.testBit n = true ∨
        (shadRamSysInit E inbFound s).Untouched := by
  have hsafe := shadRamSysInit_keptSafe E inbFound h
  have hkept : (shadRamSysInit E inbFound s).KeptSafe := hsafe.elim (·.keptSafe) (·.1)
  refine ⟨fun n hn => ⟨fun d v hmem hpage => hkept.unwritten n hn d v hmem ?_, hkept.owned n hn⟩,
    hkept.map, shadRamMapVm_v86, fun n hn hdiffers => ?_⟩
  · unfold SR_FIRST_PAGE SR_BIOS_PAGE at hpage
    unfold SR_PAGES
    omega
  · exact hsafe.elim .inr fun hopen => .inl (hopen.2 n hn hdiffers)

theorem shadRam_keeps_bios_off :
    (∀ n, (shadRamSysInit openEnv true offShadow).keepMask.testBit n = true →
      (∀ d v, .write d v ∈ (shadRamSysInit openEnv true offShadow).ram.log →
        SR_FIRST_PAGE + d / pageDwords ≠ SR_BIOS_PAGE + n) ∧
      SR_BIOS_PAGE + n ∉ (shadRamSysInit openEnv true offShadow).donated) ∧
    (∀ m ∈ shadRamMapVm (shadRamSysInit openEnv true offShadow), ∃ n < SR_PAGES,
      m.v86 = V86_BIOS_PAGE + n ∧
        (m.phys ∉ (shadRamSysInit openEnv true offShadow).donated ∨
          m.phys = V86_BIOS_PAGE + n)) ∧
    ((shadRamSysInit openEnv true offShadow).biosPage ≠ 0 →
      (shadRamMapVm (shadRamSysInit openEnv true offShadow)).map (·.v86) =
        List.range' V86_BIOS_PAGE SR_PAGES) ∧
    ∀ n < SR_PAGES, (∃ i < pageDwords, offShadow.Differs openEnv (n * pageDwords + i)) →
      (shadRamSysInit openEnv true offShadow).keepMask.testBit n = true ∨
        (shadRamSysInit openEnv true offShadow).Untouched :=
  shadRam_keeps_bios openEnv true offShadow_loaded

end Inboard
