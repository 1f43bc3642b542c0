import Inboard.ShadowWindow

/-!
# The pages that are donated

Three tests stand between a page and the VMM : two patterns, page by page, and an address in
every dword of every page that is left, put there before any is read back. A dword that is
read back as its own address while all the others hold theirs shares its cell with none
(`shadRam_donates_distinct`).
-/

set_option linter.unusedSectionVars false

namespace Inboard

variable {κ : Type*} [DecidableEq κ] (E : ShadowEnv κ) {s t : Shadow κ}

/-! ## Tests passed -/

/-- From `s` to `t` accesses were made. -/
def Shadow.Grown (s t : Shadow κ) : Prop := ∃ es, t.ram.log = s.ram.log ++ es

theorem Shadow.Grown.refl (s : Shadow κ) : s.Grown s := ⟨[], (List.append_nil _).symm⟩

theorem Shadow.Grown.trans {u : Shadow κ} (h : s.Grown t) (h' : t.Grown u) : s.Grown u := by
  obtain ⟨es, hes⟩ := h
  obtain ⟨fs, hfs⟩ := h'
  exact ⟨es ++ fs, by rw [hfs, hes, List.append_assoc]⟩

/-- Each dword `d` of page `n` was read back as `f d`. -/
def Shadow.Returns (s : Shadow κ) (f : ℕ → UInt32) (n : ℕ) : Prop :=
  ∀ d, n * pageDwords ≤ d → d < n * pageDwords + pageDwords → Returned s.ram.log d (f d)

theorem Shadow.Returns.grown {f : ℕ → UInt32} {n : ℕ} (h : s.Returns f n) (hgrown : s.Grown t) :
    t.Returns f n := by
  intro d hd hn
  obtain ⟨es, hes⟩ := hgrown
  rw [hes]
  exact (h d hd hn).append es

/-- Each dword `d` of page `n` was written as `f d`, and not since. -/
def Shadow.Filled (s : Shadow κ) (f : ℕ → UInt32) (n : ℕ) : Prop :=
  ∀ d, n * pageDwords ≤ d → d < n * pageDwords + pageDwords → LastWrite s.ram.log d (f d)

theorem srFill_grown (f : ℕ → UInt32) (n : ℕ) (s : Shadow κ) : s.Grown (srFill E f n s) :=
  ⟨_, Ram.fill_log E.board f pageDwords (n * pageDwords) s.ram⟩

theorem srScan_grown (f : ℕ → UInt32) (n : ℕ) (s : Shadow κ) : s.Grown (srScan E f n s).2 := by
  obtain ⟨es, hlog, -⟩ := Ram.scan_log E.board f pageDwords (n * pageDwords) s.ram
  exact ⟨es, hlog⟩

theorem srFill_filled (f : ℕ → UInt32) (n : ℕ) (s : Shadow κ) : (srFill E f n s).Filled f n := by
  intro d hd hn
  have hlog : (srFill E f n s).ram.log = s.ram.log ++ fillLog f pageDwords (n * pageDwords) :=
    Ram.fill_log E.board f pageDwords (n * pageDwords) s.ram
  rw [hlog]
  exact lastWrite_fillLog s.ram.log f hd hn

/-- Filling another page leaves a page filled. -/
theorem Shadow.Filled.fill {f g : ℕ → UInt32} {m n : ℕ} (h : s.Filled f m) (hmn : m ≠ n) :
    (srFill E g n s).Filled f m := by
  intro d hd hm
  have hlog : (srFill E g n s).ram.log = s.ram.log ++ fillLog g pageDwords (n * pageDwords) :=
    Ram.fill_log E.board g pageDwords (n * pageDwords) s.ram
  rw [hlog]
  refine (h d hd hm).append (unwritten_fillLog ?_)
  unfold pageDwords at hd hm ⊢
  omega

theorem Shadow.Filled.scan {f g : ℕ → UInt32} {m : ℕ} (h : s.Filled f m) (n : ℕ) :
    (srScan E g n s).2.Filled f m := by
  intro d hd hm
  obtain ⟨es, hlog, hes⟩ := Ram.scan_log E.board g pageDwords (n * pageDwords) s.ram
  have hlog' : (srScan E g n s).2.ram.log = s.ram.log ++ es := hlog
  rw [hlog']
  exact (h d hd hm).append (hes d)

theorem Shadow.Filled.returns {f : ℕ → UInt32} {n : ℕ} (h : s.Filled f n)
    (hscan : (srScan E f n s).1 = true) : (srScan E f n s).2.Returns f n :=
  fun d hd hn => Ram.returned_scan E.board hscan hd hn (h d hd hn)

/-! ## The passes -/

/-- A fill and a scan change memory. -/
theorem srScan_fill (f : ℕ → UInt32) (n : ℕ) (s : Shadow κ) :
    ∃ ram, (srScan E f n (srFill E f n s)).2 = { s with ram := ram } :=
  ⟨(srScan E f n (srFill E f n s)).2.ram, by rw [srScan, srFill]⟩

/-- `SR_Pattern` changes nothing but memory, and passes a page it has read back. -/
theorem srPattern_spec (n : ℕ) (pattern : UInt32) (s : Shadow κ) :
    ∃ ram, (srPattern E n pattern s).2 = { s with ram := ram } ∧
      s.Grown { s with ram := ram } ∧ ((srPattern E n pattern s).1 = true →
        ({ s with ram := ram } : Shadow κ).Returns (fun _ => pattern) n) := by
  have hgrown := (srFill_grown E (fun _ => pattern) n s).trans
      (srScan_grown E (fun _ => pattern) n _)
  have hreturns := (srFill_filled E (fun _ => pattern) n s).returns E
  have hrest := srScan_fill E (fun _ => pattern) n s
  unfold srPattern
  generalize srScan E (fun _ => pattern) n (srFill E (fun _ => pattern) n s) = q
    at hgrown hreturns hrest ⊢
  obtain ⟨ok, u⟩ := q
  obtain ⟨ram, rfl⟩ : ∃ ram, u = { s with ram := ram } := hrest
  refine ⟨ram, ?_, hgrown, ?_⟩
  · cases ok with
    | false => rfl
    | true =>
      dsimp only
      split_ifs <;> rfl
  · cases ok with
    | false => exact nofun
    | true => exact fun _ => hreturns rfl

/-- The pages that pass have been read back in each of the tests `fs`. -/
def Shadow.Passed (s : Shadow κ) (fs : List (ℕ → UInt32)) : Prop :=
  ∀ m, s.passMask.testBit m = true → m < SR_ALL ∧ ∀ f ∈ fs, s.Returns f m

/-- The two patterns. -/
def patternTests : List (ℕ → UInt32) := [fun _ => 0x55AA55AA, fun _ => 0xAA55AA55]

theorem Shadow.Passed.grown {fs : List (ℕ → UInt32)} (h : s.Passed fs) (hgrown : s.Grown t)
    (hpass : ∀ m, t.passMask.testBit m = true → s.passMask.testBit m = true) : t.Passed fs :=
  fun m hm => ⟨(h m (hpass m hm)).1, fun f hf => ((h m (hpass m hm)).2 f hf).grown hgrown⟩

theorem ssiPage_passed {n : ℕ} (hn : n < SR_ALL) (h : s.Passed patternTests) :
    (ssiPage E n s).Passed patternTests := by
  unfold ssiPage
  split_ifs
  · obtain ⟨ram, hfirst, hgrown, hreturns⟩ :=
      srPattern_spec E n 0x55AA55AA { s with tested := s.tested + 1 }
    generalize srPattern E n 0x55AA55AA { s with tested := s.tested + 1 } = q at hfirst hreturns ⊢
    obtain ⟨ok, u⟩ := q
    obtain rfl : u = _ := hfirst
    cases ok with
    | false => exact h.grown hgrown fun _ hm => hm
    | true =>
      dsimp only
      obtain ⟨ram', hsecond, hgrown', hreturns'⟩ := srPattern_spec E n 0xAA55AA55
        { s with tested := s.tested + 1, ram := ram }
      generalize srPattern E n 0xAA55AA55 { s with tested := s.tested + 1, ram := ram } = q
        at hsecond hreturns' ⊢
      obtain ⟨ok, u⟩ := q
      obtain rfl : u = _ := hsecond
      have hall : s.Grown { s with tested := s.tested + 1, ram := ram' } := hgrown.trans hgrown'
      cases ok with
      | false => exact h.grown hall fun _ hm => hm
      | true =>
        intro m hm
        rw [testBit_bts, Bool.or_eq_true, decide_eq_true_iff] at hm
        rcases hm with hm | rfl
        · exact h.grown (t := { s with tested := s.tested + 1, ram := ram' }) hall (fun _ hm => hm)
            m hm
        · refine ⟨hn, fun f hf => ?_⟩
          rcases List.mem_cons.1 hf with rfl | hf
          · exact (hreturns rfl).grown hgrown'
          · obtain rfl := List.mem_singleton.1 hf
            exact hreturns' rfl
  · exact h

/-- Before page `n` of the address fill. -/
structure Shadow.Filling (s : Shadow κ) (n : ℕ) : Prop where
  passed : s.Passed patternTests
  filled : ∀ m, s.passMask.testBit m = true → m < n → s.Filled srAddress m

theorem ssiFill_filling {n : ℕ} (h : s.Filling n) : (ssiFill E n s).Filling (n + 1) := by
  unfold ssiFill
  split_ifs with hn
  · refine ⟨h.passed.grown (srFill_grown E srAddress n s) (by simp), fun m hm hlt => ?_⟩
    rw [srFill_passMask] at hm
    by_cases hmn : m = n
    · rw [hmn]
      exact srFill_filled E srAddress n s
    · exact (h.filled m hm (by omega)).fill E hmn
  · refine ⟨h.passed, fun m hm hlt => h.filled m hm ?_⟩
    have hmn : m ≠ n := fun heq => hn (heq ▸ hm)
    omega

/-- Before page `n` of the address check, over the cells as the fill left them. -/
structure Shadow.Checking (cells : κ → UInt32) (s : Shadow κ) (n : ℕ) : Prop where
  passed : s.Passed patternTests
  content : s.ram.content = cells
  filled : ∀ m, s.passMask.testBit m = true → s.Filled srAddress m
  returns : ∀ m, s.passMask.testBit m = true → m < n → s.Returns srAddress m
  holds : ∀ m, s.passMask.testBit m = true → m < n → ∀ d, m * pageDwords ≤ d →
    d < m * pageDwords + pageDwords → cells (E.board.decode d) = srAddress d

theorem ssiCheck_checking {cells : κ → UInt32} {n : ℕ} (h : s.Checking E cells n) :
    (ssiCheck E n s).Checking E cells (n + 1) := by
  have hgrown := srScan_grown E srAddress n s
  have hkeep (m : ℕ) (hm : s.passMask.testBit m = true) := (h.filled m hm).scan E (g := srAddress) n
  have hcontent : (srScan E srAddress n s).2.ram.content = cells :=
    (Ram.scan_content E.board srAddress pageDwords (n * pageDwords) s.ram).trans h.content
  have hholds := Ram.scan_true E.board srAddress pageDwords (n * pageDwords) s.ram
  have hret (hn : s.passMask.testBit n = true) := (h.filled n hn).returns E
  have hmask := srScan_passMask E srAddress n s
  have hok : (srScan E srAddress n s).1 =
      (s.ram.scan E.board srAddress pageDwords (n * pageDwords)).1 := by
    rw [srScan]
  rw [← hok, h.content] at hholds
  unfold ssiCheck
  split_ifs with hn
  · generalize srScan E srAddress n s = q at hgrown hkeep hcontent hholds hret hmask ⊢
    obtain ⟨ok, t⟩ := q
    cases ok with
    | true =>
      dsimp only at hmask hkeep hcontent hgrown ⊢
      refine ⟨h.passed.grown hgrown (hmask ▸ fun _ hm => hm), hcontent, ?_, ?_, ?_⟩
      · rw [hmask]
        exact hkeep
      · rw [hmask]
        intro m hm hlt
        rcases Nat.lt_succ_iff_lt_or_eq.1 hlt with hlt | rfl
        · exact (h.returns m hm hlt).grown hgrown
        · exact hret hm rfl
      · rw [hmask]
        intro m hm hlt
        rcases Nat.lt_succ_iff_lt_or_eq.1 hlt with hlt | rfl
        · exact h.holds m hm hlt
        · exact hholds rfl
    | false =>
      have hpass (m : ℕ) (hm : (btr t.passMask n).testBit m = true) :
          s.passMask.testBit m = true ∧ m ≠ n := by
        rw [testBit_btr, Bool.and_eq_true, decide_eq_true_iff] at hm
        exact ⟨hmask ▸ hm.1, hm.2.symm⟩
      refine ⟨h.passed.grown hgrown fun m hm => (hpass m hm).1, hcontent,
        fun m hm => hkeep m (hpass m hm).1, fun m hm hlt => ?_, fun m hm hlt => ?_⟩
      · obtain ⟨hm, hne⟩ := hpass m hm
        exact (h.returns m hm (by omega)).grown hgrown
      · obtain ⟨hm, hne⟩ := hpass m hm
        exact h.holds m hm (by omega)
  · have hne (m : ℕ) (hm : s.passMask.testBit m = true) (hlt : m < n + 1) : m < n := by
      have hmn : m ≠ n := fun heq => hn (heq ▸ hm)
      omega
    exact ⟨h.passed, h.content, h.filled, fun m hm hlt => h.returns m hm (hne m hm hlt),
      fun m hm hlt => h.holds m hm (hne m hm hlt)⟩

/-! ## What is left -/

/-- The three tests. -/
def allTests : List (ℕ → UInt32) := srAddress :: patternTests

/-- The pages left have passed the tests, and their dwords are on different cells. -/
structure Shadow.Sound (s : Shadow κ) : Prop where
  passed : s.Passed allTests
  distinct : ∀ d e, s.passMask.testBit (d / pageDwords) = true →
    s.passMask.testBit (e / pageDwords) = true → d ≠ e → E.board.decode d ≠ E.board.decode e

theorem srAddress_inj {d e : ℕ} (hd : d / pageDwords < SR_ALL) (he : e / pageDwords < SR_ALL)
    (h : srAddress d = srAddress e) : d = e := by
  have hnat := congrArg UInt32.toNat h
  unfold pageDwords SR_ALL at hd he
  unfold srAddress SR_FIRST_PAGE PAGE_BYTES at hnat
  rw [UInt32.toNat_ofNat', UInt32.toNat_ofNat'] at hnat
  omega

theorem Shadow.Checking.sound {cells : κ → UInt32} (h : s.Checking E cells SR_ALL) :
    s.Sound E := by
  have hholds (d : ℕ) (hd : s.passMask.testBit (d / pageDwords) = true) :
      cells (E.board.decode d) = srAddress d := by
    refine h.holds _ hd (h.passed _ hd).1 d (Nat.div_mul_le_self d pageDwords) ?_
    have := Nat.lt_div_mul_add (a := d) (b := pageDwords) (by decide)
    omega
  refine ⟨fun m hm => ⟨(h.passed m hm).1, fun f hf => ?_⟩, fun d e hd he hne => ?_⟩
  · rcases List.mem_cons.1 hf with rfl | hf
    · exact h.returns m hm (h.passed m hm).1
    · exact (h.passed m hm).2 f hf
  · refine E.board.decode_ne (hholds d hd) (hholds e he) fun heq => hne ?_
    exact srAddress_inj (h.passed _ hd).1 (h.passed _ he).1 heq

theorem Shadow.Sound.grown (h : s.Sound E) (hgrown : s.Grown t)
    (hpass : ∀ m, t.passMask.testBit m = true → s.passMask.testBit m = true) : t.Sound E :=
  ⟨h.passed.grown hgrown hpass, fun d e hd he => h.distinct d e (hpass _ hd) (hpass _ he)⟩

theorem ssiZero_sound {n : ℕ} (h : s.Sound E) : (ssiZero E n s).Sound E := by
  unfold ssiZero
  split_ifs
  · exact h.grown E (srFill_grown E (fun _ => 0) n s) (by simp)
  · exact h

theorem ssiParity_sound (h : s.Sound E) : (ssiParity E s).Sound E := by
  unfold ssiParity
  split_ifs
  · exact h.grown E (.refl s) fun m hm => by simp at hm
  · exact h

/-- No page is marked before the tests. -/
theorem Shadow.Passed.of_zero {fs : List (ℕ → UInt32)} (h : s.passMask = 0) : s.Passed fs := by
  intro m hm
  rw [h, Nat.zero_testBit] at hm
  exact absurd hm (by simp)

/-- Where the fill ends the check begins. -/
theorem Shadow.Filling.checking (h : s.Filling SR_ALL) : s.Checking E s.ram.content 0 where
  passed := h.passed
  content := rfl
  filled m hm := h.filled m hm (h.passed m hm).1
  returns m _ hlt := absurd hlt (Nat.not_lt_zero m)
  holds m _ hlt := absurd hlt (Nat.not_lt_zero m)

theorem Shadow.Filling.sound (h : s.Filling SR_ALL) : (eachPage (ssiCheck E) s).Sound E := by
  refine (eachPage_induct (P := fun n t => t.Checking E s.ram.content n) (h.checking E) ?_).sound
  exact fun n _ t ht => ssiCheck_checking E ht

theorem Shadow.Passed.filling (h : s.Passed patternTests) :
    (eachPage (ssiFill E) s).Filling SR_ALL := by
  refine eachPage_induct (P := fun n t => t.Filling n) ⟨h, fun m _ hlt => ?_⟩ ?_
  · exact absurd hlt (Nat.not_lt_zero m)
  · exact fun n _ t ht => ssiFill_filling E ht

theorem Shadow.Passed.pages (h : s.Passed patternTests) :
    (eachPage (ssiPage E) s).Passed patternTests :=
  eachPage_keeps (P := fun t => t.Passed patternTests) h fun _ hn _ ht => ssiPage_passed E hn ht

theorem Shadow.Sound.zero (h : s.Sound E) : (eachPage (ssiZero E) s).Sound E :=
  eachPage_keeps (P := fun t => t.Sound E) h fun _ _ _ ht => ssiZero_sound E ht

theorem ssiTests_sound (h : s.passMask = 0) : (ssiTests E s).Sound E := by
  have hstart : (ssiFirstFill E s).Passed patternTests := .of_zero (by rw [ssiFirstFill, h])
  exact ssiParity_sound E (((hstart.pages E).filling E).sound E).zero

/-! ## The pages donated -/

/-- What is marked at the donation is sound, and what is donated is marked. -/
theorem shadRamSysInit_sound (inbFound : Bool) (h : s.Loaded) :
    (shadRamSysInit E inbFound s).Sound E ∧ ∀ p ∈ (shadRamSysInit E inbFound s).donated,
      ∃ n, p = SR_FIRST_PAGE + n ∧ (shadRamSysInit E inbFound s).passMask.testBit n = true := by
  have hnone {t : Shadow κ} (hpass : t.passMask = 0) (hdonated : t.donated = []) :
      t.Sound E ∧ ∀ p ∈ t.donated, ∃ n, p = SR_FIRST_PAGE + n ∧ t.passMask.testBit n = true := by
    refine ⟨⟨.of_zero hpass, fun d e hd => ?_⟩, fun p hp => ?_⟩
    · simp [hpass] at hd
    · rw [hdonated] at hp
      exact absurd hp List.not_mem_nil
  rcases shadRamSysInit_cases E inbFound s with ⟨-, page, status, -, heq⟩ | ⟨-, heq⟩
  · rw [heq]
    exact hnone h.passMask h.donated
  · obtain ⟨u, hcompared, hcases⟩ := ssiHaveMaps_cases E s
    obtain ⟨ram, diff, hu⟩ := hcompared.rest
    have hpass : u.passMask = 0 := by rw [hu]; exact h.passMask
    have hdonated : u.donated = [] := by rw [hu]; exact h.donated
    rcases hcases with ⟨-, hclosed⟩ | ⟨-, hopen⟩
    · rw [heq, hclosed]
      exact hnone hpass hdonated
    · obtain ⟨-, keep, cand, hchoose⟩ := srChoosePages_spec E { u with biosPage := SR_BIOS_PAGE }
      have hmask : (srChoosePages E { u with biosPage := SR_BIOS_PAGE }).passMask = 0 := by
        rw [hchoose]
        exact hpass
      have hsound := ssiTests_sound E hmask
      have hbase : (ssiTests E (srChoosePages E { u with biosPage := SR_BIOS_PAGE })).donated =
          [] := by
        obtain ⟨hchosen, -⟩ := srChoosePages_spec E { u with biosPage := SR_BIOS_PAGE }
        rw [(ssiTests_testing E (fun n hn => (hchosen.cand n).2 (.inl hn)) hmask).donated, hchoose]
        exact hdonated
      obtain ⟨a, ps, hadd, hps⟩ :=
        ssiAdd_fold E (ssiTests E (srChoosePages E { u with biosPage := SR_BIOS_PAGE }))
      rw [heq, hopen, hadd]
      refine ⟨hsound.grown E (.refl _) fun _ hm => hm, fun p hp => ?_⟩
      rw [hbase] at hp
      obtain ⟨n, -, hn, hmarked⟩ := hps p hp
      exact ⟨n, hn, hmarked⟩

/-- However the card decodes the dwords of 5E0000-5FFFFF, those of the pages marked at the
donation are on cells of their own, and each was read back in each test as it was written last ;
no other page is donated. -/
theorem shadRam_donates_distinct (inbFound : Bool) (h : s.Loaded) :
    (∀ d e, (shadRamSysInit E inbFound s).passMask.testBit (d / pageDwords) = true →
      (shadRamSysInit E inbFound s).passMask.testBit (e / pageDwords) = true → d ≠ e →
        E.board.decode d ≠ E.board.decode e) ∧
    (∀ d, (shadRamSysInit E inbFound s).passMask.testBit (d / pageDwords) = true →
      ∀ f ∈ allTests, Returned (shadRamSysInit E inbFound s).ram.log d (f d)) ∧
    ∀ p ∈ (shadRamSysInit E inbFound s).donated,
      ∃ n, p = SR_FIRST_PAGE + n ∧ (shadRamSysInit E inbFound s).passMask.testBit n = true := by
  obtain ⟨hsound, hdonated⟩ := shadRamSysInit_sound E inbFound h
  refine ⟨hsound.distinct, fun d hd f hf => ?_, hdonated⟩
  refine (hsound.passed _ hd).2 f hf d (Nat.div_mul_le_self d pageDwords) ?_
  have := Nat.lt_div_mul_add (a := d) (b := pageDwords) (by decide)
  omega

theorem shadRam_donates_distinct_off :
    (∀ d e, (shadRamSysInit openEnv true offShadow).passMask.testBit (d / pageDwords) = true →
      (shadRamSysInit openEnv true offShadow).passMask.testBit (e / pageDwords) = true → d ≠ e →
        openEnv.board.decode d ≠ openEnv.board.decode e) ∧
    (∀ d, (shadRamSysInit openEnv true offShadow).passMask.testBit (d / pageDwords) = true →
      ∀ f ∈ allTests, Returned (shadRamSysInit openEnv true offShadow).ram.log d (f d)) ∧
    ∀ p ∈ (shadRamSysInit openEnv true offShadow).donated,
      ∃ n, p = SR_FIRST_PAGE + n ∧
        (shadRamSysInit openEnv true offShadow).passMask.testBit n = true :=
  shadRam_donates_distinct openEnv true offShadow_loaded

end Inboard
