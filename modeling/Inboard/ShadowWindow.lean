import Inboard.ShadowPages
import Mathlib.Data.List.Count

/-!
# The window

`ShadRam_Sys_Init` up to where it goes on or backs out. The loop that compares the BIOS with
its copy counts the dwords in which they differ, and notes their pages (`ssiCmp_fold`) ; what
the routine does is one of three things (`shadRamSysInit_cases`). Backing out of a closed
window writes `[02BF]` = 1 and its port value, whatever they were before
(`shadRam_refusal_unchanged`).
-/

set_option linter.unusedSectionVars false

namespace Inboard

variable {κ : Type*} [DecidableEq κ] (E : ShadowEnv κ) {s t : Shadow κ}

/-! ## The comparison -/

/-- The copy differs from the BIOS in dword `i`. -/
def Shadow.Differs (s : Shadow κ) (i : ℕ) : Prop :=
  s.ram.content (E.board.decode (SR_PAGES * pageDwords + i)) ≠ E.bios s.ram.content i

instance (s : Shadow κ) (i : ℕ) : Decidable (s.Differs E i) := inferInstanceAs (Decidable (_ ≠ _))

/-- Dwords in which the copy differs from the BIOS. -/
def Shadow.diffs (s : Shadow κ) : ℕ :=
  (List.range (SR_PAGES * pageDwords)).countP fun i => decide (s.Differs E i)

/-- After a comparison : the cells are as they were, and were only read. -/
structure Shadow.Compared (s t : Shadow κ) (m : ℕ) : Prop where
  rest : ∃ ram diff, t = { s with ram := ram, diffMask := diff }
  content : t.ram.content = s.ram.content
  log : ∃ es, t.ram.log = s.ram.log ++ es ∧ ∀ d, Unwritten d es
  diffMask : ∀ n, t.diffMask.testBit n = true ↔
    s.diffMask.testBit n = true ∨ ∃ i < m, s.Differs E i ∧ i / pageDwords = n

theorem ssiCmp_compared {m : ℕ} (edx : ℕ) (h : s.Compared E t m) :
    (ssiCmp E (edx, t) m).1 = edx + (if s.Differs E m then 1 else 0) ∧
      s.Compared E (ssiCmp E (edx, t) m).2 (m + 1) := by
  obtain ⟨⟨ram, diff, rfl⟩, hcontent, ⟨es, hlog, hes⟩, hdiff⟩ := h
  have hnew (v : UInt32) : ∀ d, Unwritten d (es ++ [.read (SR_PAGES * pageDwords + m) v]) := by
    intro d
    rw [unwritten_append]
    exact ⟨hes d, by simp [Unwritten]⟩
  dsimp only at hcontent hlog
  unfold ssiCmp Ram.read
  dsimp only
  by_cases hm : s.Differs E m
  · have hne : ram.content (E.board.decode (SR_PAGES * pageDwords + m)) ≠ E.bios ram.content m := by
      rw [hcontent]
      exact hm
    rw [if_neg hne, if_pos hm]
    refine ⟨rfl, ⟨_, _, rfl⟩, hcontent, ⟨_, by rw [hlog, List.append_assoc], hnew _⟩, fun n => ?_⟩
    rw [testBit_bts, Bool.or_eq_true, decide_eq_true_iff, hdiff, or_assoc]
    refine or_congr_right ⟨?_, ?_⟩
    · rintro (⟨i, hi, hdiffers, hn⟩ | hn)
      · exact ⟨i, Nat.lt_succ_of_lt hi, hdiffers, hn⟩
      · exact ⟨m, Nat.lt_succ_self m, hm, hn⟩
    · rintro ⟨i, hi, hdiffers, hn⟩
      rcases Nat.lt_succ_iff_lt_or_eq.1 hi with hi | rfl
      · exact .inl ⟨i, hi, hdiffers, hn⟩
      · exact .inr hn
  · have heq : ram.content (E.board.decode (SR_PAGES * pageDwords + m)) = E.bios ram.content m := by
      rw [hcontent]
      exact not_not.1 hm
    rw [if_pos heq, if_neg hm]
    refine ⟨rfl, ⟨_, _, rfl⟩, hcontent, ⟨_, by rw [hlog, List.append_assoc], hnew _⟩, fun n => ?_⟩
    refine (hdiff n).trans (or_congr_right ⟨?_, ?_⟩)
    · rintro ⟨i, hi, hn⟩
      exact ⟨i, Nat.lt_succ_of_lt hi, hn⟩
    · rintro ⟨i, hi, hdiffers, hn⟩
      refine ⟨i, Nat.lt_of_le_of_ne (Nat.le_of_lt_succ hi) ?_, hdiffers, hn⟩
      rintro rfl
      exact hm hdiffers

theorem ssiCmp_fold (s : Shadow κ) : ∀ m,
    ((List.range m).foldl (ssiCmp E) (0, s)).1 =
      (List.range m).countP (fun i => decide (s.Differs E i)) ∧
    s.Compared E ((List.range m).foldl (ssiCmp E) (0, s)).2 m
  | 0 => ⟨rfl, ⟨_, _, rfl⟩, rfl, ⟨[], (List.append_nil _).symm, fun _ _ => List.not_mem_nil⟩,
      fun n => by simp⟩
  | m + 1 => by
    obtain ⟨hcount, hcompared⟩ := ssiCmp_fold s m
    rw [List.range_succ, List.foldl_append, List.countP_append, List.foldl_cons, List.foldl_nil]
    generalize (List.range m).foldl (ssiCmp E) (0, s) = q at hcount hcompared ⊢
    obtain ⟨edx, t⟩ := q
    obtain ⟨hedx, hnext⟩ := ssiCmp_compared E edx hcompared
    refine ⟨?_, hnext⟩
    rw [hedx, ← hcount, List.countP_singleton]
    simp

/-! ## The routine -/

/-- The window is looked at. -/
def ssiReached (inbFound : Bool) : Bool :=
  inbFound && E.physInfoNone && ssiV86Free E && (E.mapWin && E.mapBios && E.mapVideo)

/-- The state in which the window is looked at. -/
def ssiOpened (s : Shadow κ) : Shadow κ := srSetCache 0 { s with biosPage := V86_BIOS_PAGE }

theorem ssiOpened_ram (s : Shadow κ) : (ssiOpened s).ram = s.ram := by
  rw [ssiOpened, srSetCache, srWrite670]

theorem ssiOpened_differs (s : Shadow κ) (i : ℕ) : (ssiOpened s).Differs E i ↔ s.Differs E i := by
  rw [Shadow.Differs, Shadow.Differs, ssiOpened_ram]

theorem ssiCompare_spec (s : Shadow κ) : (ssiCompare E s).1 = s.diffs E ∧
    s.Compared E (ssiCompare E s).2 (SR_PAGES * pageDwords) :=
  ssiCmp_fold E s (SR_PAGES * pageDwords)

theorem ssiOpened_diffs (s : Shadow κ) : (ssiOpened s).diffs E = s.diffs E :=
  List.countP_congr fun i _ => by
    rw [decide_eq_true_iff, decide_eq_true_iff, ssiOpened_differs]

/-- The comparison, and what it decides. -/
theorem ssiHaveMaps_cases (s : Shadow κ) :
    ∃ u, (ssiOpened s).Compared E u (SR_PAGES * pageDwords) ∧
      ((COPY_MAX_DIFF ≤ s.diffs E ∧ ssiHaveMaps E { s with biosPage := V86_BIOS_PAGE } =
          { srSetCache 1 u with status := .noWin }) ∨
        (s.diffs E < COPY_MAX_DIFF ∧ ssiHaveMaps E { s with biosPage := V86_BIOS_PAGE } =
          eachPage (ssiAdd E)
              (ssiTests E (srChoosePages E { u with biosPage := SR_BIOS_PAGE })))) := by
  obtain ⟨hcount, hcompared⟩ := ssiCompare_spec E (ssiOpened s)
  rw [ssiOpened_diffs] at hcount
  rw [ssiHaveMaps, ← ssiOpened]
  generalize ssiCompare E (ssiOpened s) = q at hcount hcompared ⊢
  obtain ⟨edx, u⟩ := q
  dsimp only at hcount hcompared
  refine ⟨u, hcompared, ?_⟩
  rw [ssiCompared, hcount]
  by_cases hlt : s.diffs E < COPY_MAX_DIFF
  · exact .inr ⟨hlt, if_pos hlt⟩
  · exact .inl ⟨Nat.le_of_not_lt hlt, if_neg hlt⟩

/-- The window stays closed, a refusal before it, or the pages are tested and donated. -/
theorem shadRamSysInit_cases (inbFound : Bool) (s : Shadow κ) :
    (ssiReached E inbFound = false ∧
      ∃ page status, (page = s.biosPage ∨ page = V86_BIOS_PAGE) ∧
        shadRamSysInit E inbFound s = { s with biosPage := page, status := status }) ∨
    (ssiReached E inbFound = true ∧
      shadRamSysInit E inbFound s = ssiHaveMaps E { s with biosPage := V86_BIOS_PAGE }) := by
  unfold shadRamSysInit ssiReached
  cases inbFound with
  | false => exact .inl ⟨rfl, s.biosPage, .noInb, .inl rfl, rfl⟩
  | true =>
    cases E.physInfoNone with
    | false => exact .inl ⟨rfl, s.biosPage, .owned, .inl rfl, rfl⟩
    | true =>
      cases ssiV86Free E with
      | false => exact .inl ⟨rfl, s.biosPage, .v86, .inl rfl, rfl⟩
      | true =>
        cases E.mapWin && E.mapBios && E.mapVideo with
        | false => exact .inl ⟨rfl, V86_BIOS_PAGE, .noMap, .inr rfl, rfl⟩
        | true => exact .inr ⟨rfl, by simp⟩

/-- What the tests and the donation leave as the choice made it. -/
theorem shadRamSysInit_open {u : Shadow κ} (hpass : u.passMask = 0) :
    ∃ v, (srChoosePages E { u with biosPage := SR_BIOS_PAGE }).Testing v ∧
      ∃ a ps, eachPage (ssiAdd E)
          (ssiTests E (srChoosePages E { u with biosPage := SR_BIOS_PAGE })) =
        { v with added := a, donated := v.donated ++ ps } ∧
          ∀ p ∈ ps, ∃ n < SR_ALL, p = SR_FIRST_PAGE + n ∧ v.passMask.testBit n = true := by
  obtain ⟨hchosen, keep, cand, heq⟩ := srChoosePages_spec E { u with biosPage := SR_BIOS_PAGE }
  have hmask : (srChoosePages E { u with biosPage := SR_BIOS_PAGE }).passMask = 0 := by
    rw [heq]
    exact hpass
  exact ⟨_, ssiTests_testing E (fun n hn => (hchosen.cand n).2 (.inl hn)) hmask, ssiAdd_fold E _⟩

/-! ## Refusals -/

/-- Windows owns the pages, V86 pages are taken, a mapping is refused or the window did not open. -/
def ShadowStatus.refuses : ShadowStatus → Bool
  | .owned | .v86 | .noMap | .noWin => true
  | .ok | .noInb | .parity => false

/-- A run that goes on does not refuse. -/
theorem shadRamSysInit_open_status {u : Shadow κ} (hpass : u.passMask = 0)
    (hstatus : u.status = .ok) :
    (eachPage (ssiAdd E) (ssiTests E
      (srChoosePages E { u with biosPage := SR_BIOS_PAGE }))).status.refuses = false := by
  obtain ⟨v, htesting, a, ps, heq, -⟩ := shadRamSysInit_open E hpass
  obtain ⟨-, keep, cand, hchoose⟩ := srChoosePages_spec E { u with biosPage := SR_BIOS_PAGE }
  rw [heq]
  rcases htesting.status with hv | hv
  · rw [hchoose] at hv
    rw [show v.status = .ok from hv.trans hstatus]
    rfl
  · rw [show v.status = .parity from hv]
    rfl

/-- A refusal leaves `[02BF]` and port 670h as they were just when the window was not tried, or
opened, or they already were what backing out writes. -/
theorem shadRam_refusal_unchanged (inbFound : Bool) (h : s.Loaded) :
    ((shadRamSysInit E inbFound s).status.refuses = true →
      (shadRamSysInit E inbFound s).inb INB_CACHE = s.inb INB_CACHE ∧
        (shadRamSysInit E inbFound s).port670 = s.port670) ↔
    (ssiReached E inbFound = true → COPY_MAX_DIFF ≤ s.diffs E →
      s.inb INB_CACHE = 1 ∧ s.port670 = (~~~s.inb INB_NORMAL &&& 0x1E) ||| 1) := by
  rcases shadRamSysInit_cases E inbFound s with ⟨hreached, page, status, -, heq⟩ | ⟨hreached, heq⟩
  · rw [heq, hreached]
    exact ⟨fun _ => nofun, fun _ _ => ⟨rfl, rfl⟩⟩
  · obtain ⟨u, hcompared, ⟨hdiffs, hclosed⟩ | ⟨hdiffs, hopen⟩⟩ := ssiHaveMaps_cases E s
    · obtain ⟨ram, diff, hu⟩ := hcompared.rest
      have hcache : (srSetCache 1 u).inb INB_CACHE = 1 := by
        simp [srSetCache, srWrite670]
      have hport : (srSetCache 1 u).port670 = (~~~s.inb INB_NORMAL &&& 0x1E) ||| 1 := by
        simp [srSetCache, srWrite670, hu, ssiOpened, INB_CACHE, INB_NORMAL]
      rw [heq, hclosed]
      constructor
      · intro hkept _ _
        obtain ⟨hinb, hp⟩ := hkept rfl
        exact ⟨hinb.symm.trans hcache, hp.symm.trans hport⟩
      · intro hcond _
        obtain ⟨hinb, hp⟩ := hcond hreached hdiffs
        exact ⟨hcache.trans hinb.symm, hport.trans hp.symm⟩
    · obtain ⟨ram, diff, hu⟩ := hcompared.rest
      have hpass : u.passMask = 0 := by rw [hu]; exact h.passMask
      have hstatus : u.status = .ok := by rw [hu]; exact h.status
      rw [heq, hopen, shadRamSysInit_open_status E hpass hstatus]
      exact ⟨fun _ _ hle => absurd hle (Nat.not_le_of_lt hdiffs), fun _ => nofun⟩

/-- A card whose 5F0000 holds no copy of the BIOS. -/
def closedEnv : ShadowEnv ℕ where
  board := ⟨id, fun _ _ v => v⟩
  bios _ _ := 1
  video _ _ := 1
  physInfoNone := true
  v86Pages := some 0
  assignV86 := true
  mapWin := true
  mapBios := true
  mapVideo := true
  ioCheck := false
  addFree _ := true

/-- A card whose 5F0000 holds the copy of a BIOS of zeros. -/
def openEnv : ShadowEnv ℕ := { closedEnv with bios := fun _ _ => 0, video := fun _ _ => 0 }

/-- ROMCACHE was off when the driver was loaded. -/
def offShadow : Shadow ℕ where
  ram := ⟨fun _ => 0, []⟩
  inb _ := 0
  port670 := 0
  tested := 0
  added := 0
  failed := 0
  status := .ok
  biosPage := 0
  keepMask := 0
  candMask := 0
  passMask := 0
  diffMask := 0
  donated := []

theorem offShadow_loaded : offShadow.Loaded := by constructor <;> rfl

theorem offShadow_diffs : offShadow.diffs closedEnv = SR_PAGES * pageDwords := by
  have hall : (List.range (SR_PAGES * pageDwords)).countP
      (fun i => decide (offShadow.Differs closedEnv i)) =
        (List.range (SR_PAGES * pageDwords)).length :=
    List.countP_eq_length.2 fun i _ =>
      decide_eq_true (show (0 : UInt32) ≠ 1 by decide)
  rw [Shadow.diffs, hall, List.length_range]

theorem shadRam_refusal_unchanged_off :
    ((shadRamSysInit closedEnv true offShadow).status.refuses = true →
      (shadRamSysInit closedEnv true offShadow).inb INB_CACHE = offShadow.inb INB_CACHE ∧
        (shadRamSysInit closedEnv true offShadow).port670 = offShadow.port670) ↔
    (ssiReached closedEnv true = true → COPY_MAX_DIFF ≤ offShadow.diffs closedEnv →
      offShadow.inb INB_CACHE = 1 ∧
        offShadow.port670 = (~~~offShadow.inb INB_NORMAL &&& 0x1E) ||| 1) :=
  shadRam_refusal_unchanged closedEnv true offShadow_loaded

/-- Backing out turns ROMCACHE on where it was off. -/
theorem shadRam_refusal_turns_on : offShadow.Loaded ∧
    (shadRamSysInit closedEnv true offShadow).status = .noWin ∧
    (shadRamSysInit closedEnv true offShadow).inb INB_CACHE ≠ offShadow.inb INB_CACHE ∧
    (shadRamSysInit closedEnv true offShadow).port670 ≠ offShadow.port670 := by
  refine ⟨offShadow_loaded, ?_⟩
  rcases shadRamSysInit_cases closedEnv true offShadow with ⟨hreached, -⟩ | ⟨-, heq⟩
  · exact absurd hreached (by decide)
  · obtain ⟨u, hcompared, ⟨-, hclosed⟩ | ⟨hlt, -⟩⟩ := ssiHaveMaps_cases closedEnv offShadow
    · obtain ⟨ram, diff, rfl⟩ := hcompared.rest
      rw [heq, hclosed]
      refine ⟨rfl, ?_, ?_⟩
      · simp [srSetCache, srWrite670, offShadow]
      · simp [srSetCache, srWrite670, ssiOpened, offShadow, INB_CACHE, INB_NORMAL]
    · rw [offShadow_diffs] at hlt
      exact absurd hlt (by decide)

end Inboard
