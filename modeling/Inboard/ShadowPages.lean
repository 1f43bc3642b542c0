import Inboard.ShadowRam

/-!
# The pages the BIOS keeps

`SR_Choose_Pages` splits the pages of the BIOS copy in two : bit `n` of `dwKeepMask` or bit
`n + 16` of `CandMask` (`Shadow.Chosen`). The tests write candidates only, and only candidates
come to be marked in `PassMask` (`Shadow.Testing`).
-/

set_option linter.unusedSectionVars false

namespace Inboard

variable {κ : Type*} [DecidableEq κ] (E : ShadowEnv κ) {s t u : Shadow κ}

/-! ## The choice -/

/-- Pages of the BIOS that it still needs, as `scp_page` sees them in `s`. -/
def Shadow.Keeps (s : Shadow κ) (n : ℕ) : Prop :=
  isKept (E.bios s.ram.content) s.diffMask n = true

/-- `CandMask` and `dwKeepMask` after `m` rounds of `scp_page`. -/
structure Shadow.Chosen (s : Shadow κ) (m : ℕ) : Prop where
  keep : ∀ n, s.keepMask.testBit n = true ↔ n < m ∧ s.Keeps E n
  cand : ∀ n, s.candMask.testBit n = true ↔ n < SR_PAGES ∨ ∃ i < m, n = i + SR_PAGES ∧ ¬ s.Keeps E i

theorem testBit_candFirst (n : ℕ) : (0xFFFF : ℕ).testBit n = true ↔ n < SR_PAGES := by
  rw [show (0xFFFF : ℕ) = 2 ^ SR_PAGES - 1 from rfl, Nat.testBit_two_pow_sub_one,
      decide_eq_true_iff]

theorem scpPage_chosen {m : ℕ} (h : s.Chosen E m) : (scpPage E s m).Chosen E (m + 1) := by
  unfold scpPage
  split_ifs with hkept
  · refine ⟨fun n => ?_, fun n => (h.cand n).trans (or_congr_right ?_)⟩
    · rw [testBit_bts, Bool.or_eq_true, h.keep, decide_eq_true_iff, Nat.lt_succ_iff_lt_or_eq]
      constructor
      · rintro (⟨hlt, hn⟩ | rfl)
        · exact ⟨.inl hlt, hn⟩
        · exact ⟨.inr rfl, hkept⟩
      · rintro ⟨hlt | rfl, hn⟩
        · exact .inl ⟨hlt, hn⟩
        · exact .inr rfl
    · constructor
      · rintro ⟨i, hi, hn⟩
        exact ⟨i, Nat.lt_succ_of_lt hi, hn⟩
      · rintro ⟨i, hi, hn, hnot⟩
        refine ⟨i, Nat.lt_of_le_of_ne (Nat.le_of_lt_succ hi) ?_, hn, hnot⟩
        rintro rfl
        exact hnot hkept
  · refine ⟨fun n => (h.keep n).trans ?_, fun n => ?_⟩
    · constructor
      · rintro ⟨hlt, hn⟩
        exact ⟨Nat.lt_succ_of_lt hlt, hn⟩
      · rintro ⟨hlt, hn⟩
        refine ⟨Nat.lt_of_le_of_ne (Nat.le_of_lt_succ hlt) ?_, hn⟩
        rintro rfl
        exact hkept hn
    · rw [testBit_bts, Bool.or_eq_true, h.cand, decide_eq_true_iff]
      constructor
      · rintro ((hn | ⟨i, hi, hn⟩) | rfl)
        · exact .inl hn
        · exact .inr ⟨i, Nat.lt_succ_of_lt hi, hn⟩
        · exact .inr ⟨m, Nat.lt_succ_self m, rfl, hkept⟩
      · rintro (hn | ⟨i, hi, rfl, hnot⟩)
        · exact .inl (.inl hn)
        · rcases Nat.lt_succ_iff_lt_or_eq.1 hi with hi | rfl
          · exact .inl (.inr ⟨i, hi, rfl, hnot⟩)
          · exact .inr rfl

/-- What a choice leaves alone. -/
theorem scpPage_masks (s : Shadow κ) (n : ℕ) :
    ∃ keep cand, scpPage E s n = { s with keepMask := keep, candMask := cand } := by
  unfold scpPage
  split_ifs
  · exact ⟨bts s.keepMask n, s.candMask, rfl⟩
  · exact ⟨s.keepMask, bts s.candMask (n + SR_PAGES), rfl⟩

theorem srChoosePages_spec (s : Shadow κ) : (srChoosePages E s).Chosen E SR_PAGES ∧
    ∃ keep cand, srChoosePages E s = { s with keepMask := keep, candMask := cand } := by
  have hall (m : ℕ) : ((List.range m).foldl (scpPage E)
      { s with candMask := 0xFFFF, keepMask := 0 }).Chosen E m ∧ ∃ keep cand,
        (List.range m).foldl (scpPage E) { s with candMask := 0xFFFF, keepMask := 0 } =
          { s with keepMask := keep, candMask := cand } := by
    induction m with
    | zero =>
      refine ⟨⟨fun n => ?_, fun n => ?_⟩, 0, 0xFFFF, rfl⟩
      · simp [Nat.zero_testBit]
      · simpa using testBit_candFirst n
    | succ m ih =>
      obtain ⟨hchosen, keep, cand, heq⟩ := ih
      rw [List.range_succ, List.foldl_append]
      refine ⟨scpPage_chosen E hchosen, ?_⟩
      rw [heq]
      exact scpPage_masks E _ m
  exact hall SR_PAGES

/-- A page that is kept is no candidate. -/
theorem Shadow.Chosen.disjoint (h : s.Chosen E SR_PAGES) {n : ℕ}
    (hn : s.keepMask.testBit n = true) : n < SR_PAGES ∧ s.candMask.testBit (n + SR_PAGES) =
        false := by
  obtain ⟨hlt, hkeep⟩ := (h.keep n).1 hn
  refine ⟨hlt, Bool.eq_false_iff.2 fun hcand => ?_⟩
  rcases (h.cand _).1 hcand with hcand | ⟨i, -, heq, hnot⟩
  · omega
  · obtain rfl := Nat.add_right_cancel heq
    exact hnot hkeep

/-! ## The tests -/

/-- `s` is in the tests of the pages chosen in `s₀`. -/
structure Shadow.Testing (s₀ s : Shadow κ) : Prop where
  candMask : s.candMask = s₀.candMask
  keepMask : s.keepMask = s₀.keepMask
  biosPage : s.biosPage = s₀.biosPage
  donated : s.donated = s₀.donated
  status : s.status = s₀.status ∨ s.status = .parity
  log : ∃ es, s.ram.log = s₀.ram.log ++ es ∧
    ∀ d v, .write d v ∈ es → s₀.candMask.testBit (d / pageDwords) = true
  passed : ∀ n, s.passMask.testBit n = true → s₀.candMask.testBit n = true

/-- Changes to what the tests count. -/
theorem Shadow.Testing.counts {s₀ : Shadow κ} (h : s₀.Testing s) (a b c : ℕ) :
    s₀.Testing { s with tested := a, added := b, failed := c } :=
  ⟨h.candMask, h.keepMask, h.biosPage, h.donated, h.status, h.log, h.passed⟩

theorem Shadow.Testing.mark {s₀ : Shadow κ} (h : s₀.Testing s) {mask : ℕ}
    (hmask : ∀ n, mask.testBit n = true → s₀.candMask.testBit n = true) :
    s₀.Testing { s with passMask := mask } :=
  ⟨h.candMask, h.keepMask, h.biosPage, h.donated, h.status, h.log, hmask⟩

theorem div_pageDwords {n d : ℕ} (hd : n * pageDwords ≤ d) (hn : d < n * pageDwords + pageDwords) :
    d / pageDwords = n := by
  unfold pageDwords at hd hn ⊢
  omega

theorem Shadow.Testing.fill {s₀ : Shadow κ} (h : s₀.Testing s) (f : ℕ → UInt32) {n : ℕ}
    (hn : s₀.candMask.testBit n = true) : s₀.Testing (srFill E f n s) := by
  obtain ⟨es, hlog, hes⟩ := h.log
  have hfill : (srFill E f n s).ram.log = s.ram.log ++ fillLog f pageDwords (n * pageDwords) :=
    Ram.fill_log E.board f pageDwords (n * pageDwords) s.ram
  rw [srFill] at hfill ⊢
  refine ⟨h.candMask, h.keepMask, h.biosPage, h.donated, h.status,
    ⟨_, by rw [hfill, hlog, List.append_assoc], fun d v hmem => ?_⟩, h.passed⟩
  · rcases List.mem_append.1 hmem with hmem | hmem
    · exact hes d v hmem
    · obtain ⟨i, hi, heq⟩ := List.mem_map.1 hmem
      obtain ⟨rfl, -⟩ := RamAccess.write.inj heq
      obtain ⟨hlo, hhi⟩ := List.mem_range'_1.1 hi
      rw [div_pageDwords hlo hhi]
      exact hn

theorem Shadow.Testing.scan {s₀ : Shadow κ} (h : s₀.Testing s) (f : ℕ → UInt32) (n : ℕ) :
    s₀.Testing (srScan E f n s).2 := by
  obtain ⟨es, hlog, hes⟩ := h.log
  obtain ⟨fs, hscan, hfs⟩ := Ram.scan_log E.board f pageDwords (n * pageDwords) s.ram
  rw [srScan]
  refine ⟨h.candMask, h.keepMask, h.biosPage, h.donated, h.status,
    ⟨es ++ fs, ?_, fun d v hmem => ?_⟩, h.passed⟩
  · rw [← List.append_assoc, ← hlog]
    exact hscan
  · rcases List.mem_append.1 hmem with hmem | hmem
    · exact hes d v hmem
    · exact absurd hmem (hfs d v)

theorem Shadow.Testing.pattern {s₀ : Shadow κ} (h : s₀.Testing s) {n : ℕ} (pattern : UInt32)
    (hn : s₀.candMask.testBit n = true) : s₀.Testing (srPattern E n pattern s).2 := by
  have hscan := (h.fill E (fun _ => pattern) hn).scan E (fun _ => pattern) n
  unfold srPattern
  generalize srScan E (fun _ => pattern) n (srFill E (fun _ => pattern) n s) = q at hscan ⊢
  obtain ⟨ok, t⟩ := q
  cases ok with
  | false => exact hscan
  | true =>
    dsimp only
    split_ifs <;> exact hscan

theorem Shadow.Testing.page {s₀ : Shadow κ} (h : s₀.Testing s) (n : ℕ) :
    s₀.Testing (ssiPage E n s) := by
  unfold ssiPage
  split_ifs with hn
  · rw [h.candMask] at hn
    have hfirst := (h.counts (s.tested + 1) s.added s.failed).pattern E 0x55AA55AA hn
    generalize srPattern E n 0x55AA55AA { s with tested := s.tested + 1 } = q at hfirst ⊢
    obtain ⟨ok, t⟩ := q
    cases ok with
    | false => exact hfirst.counts t.tested t.added (t.failed + 1)
    | true =>
      have hsecond := hfirst.pattern E 0xAA55AA55 hn
      dsimp only at hsecond ⊢
      generalize srPattern E n 0xAA55AA55 t = q at hsecond ⊢
      obtain ⟨ok, u⟩ := q
      cases ok with
      | false => exact hsecond.counts u.tested u.added (u.failed + 1)
      | true =>
        refine hsecond.mark fun m hm => ?_
        rw [testBit_bts, Bool.or_eq_true, decide_eq_true_iff] at hm
        rcases hm with hm | rfl
        · exact hsecond.passed m hm
        · exact hn
  · exact h

theorem Shadow.Testing.fillPage {s₀ : Shadow κ} (h : s₀.Testing s) (n : ℕ) :
    s₀.Testing (ssiFill E n s) := by
  unfold ssiFill
  split_ifs with hn
  · exact h.fill E srAddress (h.passed n hn)
  · exact h

theorem Shadow.Testing.check {s₀ : Shadow κ} (h : s₀.Testing s) (n : ℕ) :
    s₀.Testing (ssiCheck E n s) := by
  unfold ssiCheck
  split_ifs
  · have hscan := h.scan E srAddress n
    generalize srScan E srAddress n s = q at hscan ⊢
    obtain ⟨ok, t⟩ := q
    cases ok with
    | true => exact hscan
    | false =>
      refine (hscan.counts t.tested t.added (t.failed + 1)).mark fun m hm => ?_
      rw [testBit_btr, Bool.and_eq_true] at hm
      exact hscan.passed m hm.1
  · exact h

theorem Shadow.Testing.zero {s₀ : Shadow κ} (h : s₀.Testing s) (n : ℕ) :
    s₀.Testing (ssiZero E n s) := by
  unfold ssiZero
  split_ifs with hn
  · rw [h.candMask] at hn
    exact h.fill E (fun _ => 0) hn
  · exact h

theorem Shadow.Testing.parity {s₀ : Shadow κ} (h : s₀.Testing s) : s₀.Testing (ssiParity E s) := by
  unfold ssiParity
  split_ifs
  · refine ⟨h.candMask, h.keepMask, h.biosPage, h.donated, .inr rfl, h.log, fun m hm => ?_⟩
    simp at hm
  · exact h

/-- The first fill is of the first sixteen pages, which are all candidates. -/
theorem ssiFirstFill_testing (hcand : ∀ n < SR_PAGES, s.candMask.testBit n = true)
    (hpass : s.passMask = 0) : s.Testing (ssiFirstFill E s) := by
  rw [ssiFirstFill]
  refine ⟨rfl, rfl, rfl, rfl, .inl rfl, ⟨_, Ram.fill_log E.board _ _ _ _, fun d v hmem => ?_⟩,
      fun n hn => ?_⟩
  · obtain ⟨i, hi, heq⟩ := List.mem_map.1 hmem
    obtain ⟨rfl, -⟩ := RamAccess.write.inj heq
    obtain ⟨-, hhi⟩ := List.mem_range'_1.1 hi
    refine hcand _ ?_
    unfold pageDwords SR_PAGES at hhi ⊢
    omega
  · rw [show s.passMask = 0 from hpass, Nat.zero_testBit] at hn
    exact absurd hn (by simp)

theorem ssiTests_testing (hcand : ∀ n < SR_PAGES, s.candMask.testBit n = true)
    (hpass : s.passMask = 0) : s.Testing (ssiTests E s) := by
  have hfirst := ssiFirstFill_testing E hcand hpass
  have hpages : s.Testing (eachPage (ssiPage E) (ssiFirstFill E s)) :=
    eachPage_keeps (P := s.Testing) hfirst fun n _ _ ht => ht.page E n
  have hfill : s.Testing (eachPage (ssiFill E) (eachPage (ssiPage E) (ssiFirstFill E s))) :=
    eachPage_keeps (P := s.Testing) hpages fun n _ _ ht => ht.fillPage E n
  have hcheck := eachPage_keeps (P := s.Testing) hfill fun n _ _ ht => ht.check E n
  have hzero := eachPage_keeps (P := s.Testing) hcheck fun n _ _ ht => ht.zero E n
  exact hzero.parity E

/-! ## The donation -/

/-- `ssi_add` passes on what is marked in `PassMask`. -/
theorem ssiAdd_fold (s : Shadow κ) : ∃ a ps, eachPage (ssiAdd E) s =
    { s with added := a, donated := s.donated ++ ps } ∧
      ∀ p ∈ ps, ∃ n < SR_ALL, p = SR_FIRST_PAGE + n ∧ s.passMask.testBit n = true := by
  refine eachPage_keeps
      (P := fun t => ∃ a ps, t = { s with added := a, donated := s.donated ++ ps } ∧
      ∀ p ∈ ps, ∃ n < SR_ALL, p = SR_FIRST_PAGE + n ∧ s.passMask.testBit n = true)
    ⟨s.added, [], by simp, by simp⟩ ?_
  rintro n hn t ⟨a, ps, rfl, hps⟩
  unfold ssiAdd
  by_cases hpass : s.passMask.testBit n = true
  · rw [if_pos hpass]
    refine ⟨_, ps ++ [SR_FIRST_PAGE + n], by rw [List.append_assoc], fun p hp => ?_⟩
    rcases List.mem_append.1 hp with hp | hp
    · exact hps p hp
    · exact ⟨n, hn, List.mem_singleton.1 hp, hpass⟩
  · rw [if_neg hpass]
    exact ⟨a, ps, rfl, hps⟩

end Inboard
