import Inboard.M8FifoLines
import Inboard.M8Short

/-!
# The command FIFO over any run

Span lists, reads and the assembly paths within the ledger, then every sequence of the drawing
primitives : while no wait runs out, no register is written with sixteen writes outstanding.
-/

set_option linter.unusedSectionVars false

namespace Inboard

variable (env : EngineEnv) {s : Hw} {ok : Bool} {k a : ℤ}

/-! ## The solid walk -/

/-- A drain leaves the room as counted as it found it. -/
theorem drain_owes (h : Counted s) : Owes true 0 15 (s.m8HwDrain env) := by
  rcases h with h | ⟨h, ho⟩
  · exact Or.inl (ranOut_fifoNeed env (by decide) h)
  · have h1 := (fifoNeed_owes env (n := 15) le_rfl (Or.inr h.never) h.path).1
    rwa [ho] at h1

theorem drain_ranOut (h : Counted s) :
    (s.m8FifoDrain env).1 = false → RanOut (s.m8FifoDrain env).2.trace := by
  rcases h with h | ⟨h, -⟩
  · exact fun _ => ranOut_fifoNeed env (by decide) h
  · exact (fifoNeed_owes env (n := 15) le_rfl (Or.inr h.never) h.path).2

theorem drainBelow_owes {n : ℤ} (hn : n ≤ 15) (h : Counted s) :
    Owes true 0 n (s.drainBelow env n) := by
  unfold Hw.drainBelow
  split_ifs with hr
  · exact (drain_owes env h).mono le_rfl hn
  · exact h.owes.mono le_rfl (by omega)

variable (c : Rect)

theorem roomSpans_counted : ∀ (ps : List (ℤ × ℤ)) (s : Hw),
    Owes true (-(2 * ps.length : ℕ)) 0 s → Counted (s.roomSpans c ps)
  | [], _, h => h.counted (by simp)
  | p :: ps, s, h => by
    simp only [List.length_cons] at h
    refine roomSpans_counted ps _ (Owes.ite _ ?_ (h.mono (by push_cast; omega) le_rfl))
    exact (h.outs (scanPair (cutPair c p)) (by simp [scanPair]; omega)).mono
      (by simp [scanPair]; omega) le_rfl

theorem slowSpans_counted : ∀ (ps : List (ℤ × ℤ)) (s : Hw), Counted s →
    Counted (s.slowSpans env c ps)
  | [], _, h => h
  | p :: ps, s, h => by
    have h1 := drainBelow_owes env (n := 2) (by decide) h
    refine slowSpans_counted ps _ (Owes.counted (k := 0) (a := 0) (Owes.ite _ ?_
      (h1.mono le_rfl (by decide))) le_rfl)
    exact ((h1.outs (scanPair (cutPair c p)) (by simp [scanPair])).spend 2).mono
      (by simp [scanPair]) (by decide)

theorem bandSpans_counted (y0 y1 : ℤ) : ∀ (ps : List (ℤ × ℤ)) (s : Hw), Counted s →
    Counted (s.bandSpans env c y0 y1 ps)
  | [], _, h => h
  | p :: ps, s, h => by
    have h1 := drainBelow_owes env (n := 5) (by decide) h
    unfold Hw.bandSpans
    dsimp only
    split_ifs
    · refine bandSpans_counted y0 y1 ps _ (Counted.place ?_ (-1) _)
      have h2 := h1.outs [(M8_CUR_X, (cutPair c p).1), (M8_CUR_Y, y0),
        (M8_MAJ_AXIS_PCNT, (cutPair c p).2 - (cutPair c p).1 - 1),
        (M8_MULTIFUNC_CNTL, y1 - y0 - 1), (M8_CMD, M8_CMD_FILL)] (by simp)
      exact (h2.spend 5).counted (by simp)
    · exact bandSpans_counted y0 y1 ps _ (h1.counted le_rfl)

theorem rowSpans_counted (y : ℤ) (ps : List (ℤ × ℤ))
    (h : Owes true 0 (2 * ps.length + 1 : ℕ) s) :
    Counted ((s.spend (2 * ps.length + 1 : ℕ)).rowSpans c y ps) := by
  have h1 := h.spend (2 * ps.length + 1 : ℕ)
  refine roomSpans_counted c ps _ (Owes.ite _ ?_ ?_)
  · exact (h1.spend (-1)).mono (by omega) (by omega)
  · exact ((h1.outpw (by omega) M8_CUR_Y y).mono (by omega) (by omega)).congr rfl rfl rfl rfl

theorem rowRec_counted (y : ℤ) (r : SpanRec) (h : Counted s) :
    Counted (s.rowRec env c y r) := by
  have hrow : ∀ t : Hw, Counted t → r.entries ≤ t.room →
      Counted ((t.spend r.entries).rowSpans c y r.pairs) := fun t ht hr => by
    rw [r.entries_eq] at hr ⊢
    exact rowSpans_counted c y r.pairs (ht.owes.mono le_rfl (by push_cast; omega))
  unfold Hw.rowRec
  dsimp only
  split_ifs with h1 h2
  · exact hrow s h h1
  · exact hrow _ ((drain_owes env h).counted le_rfl) h2
  · exact slowSpans_counted env c _ _
      (((drain_owes env h).scanRow (a := 14) (by decide) y).counted le_rfl)

theorem solidRec_counted (r : SpanRec) (h : Counted s) : Counted (s.solidRec env c r) := by
  unfold Hw.solidRec
  dsimp only
  split_ifs
  exacts [h, rowRec_counted env c _ r h, bandSpans_counted env c _ _ _ _ h]

/-- A walk of records, each of which leaves its room counted. -/
theorem recs_counted {f : Hw → SpanRec → Hw} (hf : ∀ t r, Counted t → Counted (f t r))
    (recs : List SpanRec) (h : Counted s) : Counted (recs.foldl f s) :=
  List.foldlRecOn recs f h fun t ht r _ => hf t r ht

/-! ## The pattern walks -/

theorem rotSpans_counted (y : ℤ) (rot : ℕ) : ∀ (ps : List (ℤ × ℤ)) (s : Hw), Counted s →
    Counted (s.rotSpans env c y rot ps)
  | [], _, h => h
  | p :: ps, s, h => by
    have h1 := drainBelow_owes env (n := 4) (by decide) h
    refine rotSpans_counted y rot ps _ (Owes.counted (k := 0) (a := 0) (Owes.ite _ ?_
      (h1.mono le_rfl (by decide))) le_rfl)
    have h2 := (h1.scanRow (a := 3) (by decide) y).outs [(M8_CUR_X, (cutPair c p).1),
      (M8_PATT_INDEX, ((cutPair c p).1 + rot) % 8), (M8_SCAN_TO_X, (cutPair c p).2)] (by simp)
    exact (h2.spend 3).mono (by simp) (by simp)

theorem rotRows_counted (rot : ℕ → ℕ) (ps : List (ℤ × ℤ)) : ∀ (y : ℤ) (n : ℕ) (s : Hw),
    Counted s → Counted (s.rotRows env c rot ps y n)
  | _, 0, _, h => h
  | y, n + 1, _, h => rotRows_counted rot ps (y + 1) n _ (rotSpans_counted env c y _ ps _ h)

theorem rotRec_counted (rot : ℕ → ℕ) (r : SpanRec) (h : Counted s) :
    Counted (s.rotRec env c rot r) := by
  unfold Hw.rotRec
  dsimp only
  split_ifs
  exacts [h, rotRows_counted env c rot _ _ _ _ h]

theorem pattSpans_counted (pat : Pat) (y0 y1 : ℤ) : ∀ (ps : List (ℤ × ℤ)) (s : Hw), Counted s →
    Counted (s.pattSpans env c pat y0 y1 ps)
  | [], _, h => h
  | p :: ps, s, h => by
    refine pattSpans_counted pat y0 y1 ps _ ?_
    dsimp only
    split_ifs
    · exact h
    · exact patternSpan_counted env _ _ _ _ pat h
    · have h1 := (drainBelow_owes env (n := 6) (by decide) h).scanRow (a := 5) (by decide) y0
      have h2 := ((h1.outpw (by decide) M8_CUR_X (cutPair c p).1).scanPatt (a := 3) (by decide)
        (pat.row y0)).outpw (by decide) M8_PATT_INDEX ((cutPair c p).1 % 8)
      exact ((h2.outMM (by decide) M8_SCAN_TO_X (cutPair c p).2).spend 3).counted (by decide)

theorem pattRec_counted (pat : Pat) (r : SpanRec) (h : Counted s) :
    Counted (s.pattRec env c pat r) := by
  unfold Hw.pattRec
  dsimp only
  split_ifs
  exacts [h, pattSpans_counted env c pat _ _ _ _ h]

theorem scanSpans_counted (recs : List SpanRec) (pat : Option Pat) (h : Counted s) :
    Counted (s.m8HwScanSpans env c recs pat) := by
  have hmm : ∀ t : Hw, Counted t → Counted t.mmForget := fun t ht => ht.congr rfl rfl rfl
  unfold Hw.m8HwScanSpans
  split
  · exact h
  cases pat with
  | none =>
    dsimp only
    split_ifs
    exacts [h, recs_counted (fun t r ht => solidRec_counted env c r ht) recs (hmm s h)]
  | some pat =>
    dsimp only
    cases m8PatRotations pat with
    | none => exact recs_counted (fun t r ht => pattRec_counted env c pat r ht) recs h
    | some rot =>
      refine Counted.congr (recs_counted (s := Hw.mmForget _)
        (fun t r ht => rotRec_counted env c rot r ht) recs (hmm _ ?_)) rfl rfl rfl
      split_ifs
      · exact ((drainBelow_owes env (n := 2) (by decide) h).pattData (a := 0) (by decide) _).counted
          le_rfl
      · exact h

theorem scanSpans_off (recs : List SpanRec) (pat : Option Pat) (h : s.hwOff = true) :
    s.m8HwScanSpans env c recs pat = s := by
  unfold Hw.m8HwScanSpans
  rw [if_pos h]

/-! ## Scanline calls -/

theorem fillSpansFull_kept (color mix : ℕ) (recs : List SpanRec) (h : Kept s) :
    Kept (s.fillSpansFull env c color mix recs) := by
  unfold Hw.fillSpansFull
  by_cases ho : s.hwOff = true
  · rw [Hw.m8HwFillBegin, if_pos ho, scanSpans_off env c recs none ho]
    exact h
  · exact (scanSpans_counted env c recs none (fillBegin_counted env color mix h ho)).kept

theorem fillSpans_kept (color mix : ℕ) (recs : List SpanRec) (h : Kept s) :
    Kept (s.fillSpans env c color mix recs) := by
  obtain ⟨h1, h2⟩ := fillBeginFast_kept env color mix h
  unfold Hw.fillSpans
  generalize s.m8HwFillBeginFast env color mix = r at h1 h2
  obtain ⟨_ | _, t⟩ := r
  · exact fillSpansFull_kept env c color mix recs h1
  · exact (scanSpans_counted env c recs none (h2 rfl)).kept

theorem patternSpans_kept (fg bg fgFn bgFn : ℕ) (pat : Pat) (recs : List SpanRec) (h : Kept s) :
    Kept (s.patternSpans env c fg bg fgFn bgFn pat recs) := by
  unfold Hw.patternSpans
  by_cases ho : s.hwOff = true
  · rw [Hw.m8HwPatternBegin, if_pos ho, scanSpans_off env c recs _ ho]
    exact h
  · exact (scanSpans_counted env c recs _ (patternBegin_counted env fg bg fgFn bgFn h ho)).kept

/-! ## Reads -/

theorem Owes.readWrites (h : Owes ok k a s) (hk : k + 2 ≤ a) (x y last : ℤ) :
    Owes ok (k + 3) a (s.readWrites x y last) :=
  have hlen : [(M8_CUR_Y, y), (M8_CUR_X, x)].length = 2 := rfl
  ((h.outs [(M8_CUR_Y, y), (M8_CUR_X, x)] (by rw [hlen]; omega)).outMM (by rw [hlen]; omega)
    M8_SCAN_TO_X last).mono (by rw [hlen]; omega) le_rfl

/-- A read's data leaves a whole FIFO of room. -/
theorem Owes.emptied (h : RanOut s.trace ∨ Ledger ok k a s ∧ outstanding false s.trace = 0) :
    Counted { s with room := M8_FIFO_DEPTH - 1, roomOk := true } :=
  h.imp_right fun h => ⟨⟨h.1.never, fun _ => rfl, fun _ => by simp [h.2, M8_FIFO_DEPTH]⟩, rfl⟩

theorem readWait_sentWell (h : Owes ok k a s) : SentWell (s.readWait env) := by
  have h1 := dataPoll_owes env M8_WAIT_LIMIT h
  unfold Hw.readWait
  generalize s.dataPoll env M8_WAIT_LIMIT = r at h1
  obtain ⟨_ | _, t⟩ := r
  · exact ⟨nofun, fun _ => h1.2 rfl⟩
  · exact ⟨fun _ => Owes.emptied (h1.1 rfl), nofun⟩

theorem readSetup_owes (x y last : ℤ) (h : Kept s) : Owes true 0 0 (s.readSetup env x y last) := by
  have h0 : Kept { s.mmForget with dpOk := false } :=
    h.imp_right fun h => ⟨h.never, nofun, h.owed⟩
  have h1 := set_counted env .RD_MASK 0x00FF (a := 10) (by decide)
    (set_counted env .WRT_MASK 0x00FF (a := 11) (by decide)
      (roomCounted_owes env (n := 12) (by decide) h0))
  have h2 := openScissors_counted env (a := 5) (by decide)
    (put_counted env .PIX_CNTL M8_MF_PIX_CNTL (a := 9) (by decide) h1)
  have h3 := put_counted env .DP_CONFIG M8_DP_READ_SCAN (a := 4) (by decide) h2
  have h4 := (roomFor_of_le env (n := 4) le_rfl ((h3.shForget .FRGD_MIX).shForget
    .BKGD_MIX)).outpw (by decide) M8_ALU_FG_FN M8_MIX_REPLACE
  exact (((h4.readWrites (by decide) x y last).spend 4).mono (by decide) (by decide)).congr rfl rfl
    rfl rfl

/-- A room for three writes, or the full set-up's turn. -/
theorem readRoom_owes (h : Kept s) :
    ((s.readRoom env).1 = true → Owes true 0 3 (s.readRoom env).2) ∧ Kept (s.readRoom env).2 := by
  unfold Hw.readRoom
  split_ifs with ho hr
  · exact ⟨fun _ => (h.counted ho.2).owes.mono le_rfl hr, h⟩
  · have h1 := drain_owes env (h.counted ho.2)
    exact ⟨fun _ => h1.mono le_rfl (by decide), h1.kept_counted le_rfl⟩
  · exact ⟨nofun, h⟩

theorem readScan_sentWell (x y last : ℤ) (h : Kept s) :
    SentWell (s.m8ReadScan env x y last) := by
  obtain ⟨h1, h2⟩ := readRoom_owes env h
  unfold Hw.m8ReadScan
  generalize s.readRoom env = r at h1 h2
  obtain ⟨_ | _, t⟩ := r
  · exact readWait_sentWell env (readSetup_owes env x y last h2)
  · exact readWait_sentWell env ((h1 rfl).readWrites (by decide) x y last)

/-- The reads of PIX_TRANS are no part of the ledger. -/
theorem inpPix_kept (h : Kept s) : Kept (s.inpPix env).2 :=
  Queued.kept (s := s) ⟨rfl, rfl, rfl, rfl⟩ h

theorem getpixel_kept (x y : ℤ) (h : Kept s) : Kept (s.m8HwGetpixel env x y).2 := by
  have h1 := readScan_sentWell env x y (x + 1) h
  unfold Hw.m8HwGetpixel
  split_ifs
  · exact h
  · generalize s.m8ReadScan env x y (x + 1) = r at h1
    obtain ⟨_ | _, t⟩ := r
    exacts [h1.kept, inpPix_kept env h1.kept]

/-- A short read, its three writes and what its data leaves. -/
theorem shortRead_kept {β : Type} {n : ℕ} {f g : Hw → β} (x y : ℤ) {r : Bool × Hw} :
    ((r.1 = true → Owes true 0 3 r.2) ∧ (r.1 = false → RanOut r.2.trace)) →
    Kept (match r with
      | (false, s) => (g s, s)
      | (true, s) =>
        match (s.readWrites x y (x + 1)).dataPoll env n with
        | (true, s) =>
          let s := { s with room := (M8_FIFO_DEPTH : ℤ) - 1 }
          (f s, (s.inpPix env).2)
        | (false, s) => (g s, s)).2 := by
  obtain ⟨_ | _, t⟩ := r
  · exact fun hr => Or.inl (hr.2 rfl)
  · intro hr
    have h1 := dataPoll_owes env n ((hr.1 rfl).readWrites (by decide) x y (x + 1))
    dsimp only
    generalize (t.readWrites x y (x + 1)).dataPoll env n = r at h1
    obtain ⟨_ | _, u⟩ := r
    · exact Or.inl (h1.2 rfl)
    · refine inpPix_kept env ((h1.1 rfl).imp_right fun h2 => ?_)
      exact ⟨h2.1.never, fun _ => h2.1.flag, fun _ => by simp [h2.2, M8_FIFO_DEPTH]⟩

theorem getpixelFast_kept (x y : ℤ) (h : Kept s) : Kept (s.m8HwGetpixelFast env x y).2 := by
  unfold Hw.m8HwGetpixelFast
  split
  · exact h
  · rename_i ho
    simp only [not_or, Bool.not_eq_false] at ho
    have hc := h.counted ho.2.2
    refine shortRead_kept env (f := fun s => (((s.inpPix env).1 % 256 : ℕ) : ℤ)) (g := fun _ => -1)
      x y ?_
    split_ifs
    · exact ⟨fun _ => (drain_owes env hc).mono le_rfl (by decide), drain_ranOut env hc⟩
    · exact ⟨fun _ => hc.owes.mono le_rfl (by omega), nofun⟩

theorem m8Insw_queued : ∀ (n : ℕ) (s : Hw), Queued s (Hw.m8Insw env n s).2
  | 0, s => Queued.refl s
  | n + 1, s => Queued.trans (t := (s.inpPix env).2) ⟨rfl, rfl, rfl, rfl⟩ (m8Insw_queued n _)

theorem scanWords_kept (colour : ℕ) (want : Bool) (step : ℤ) : ∀ (fuel words : ℕ) (pos : ℤ)
    (count : ℕ) (s : Hw), Kept s → Kept (s.scanWords env colour want step fuel words pos count).2
  | 0, _, _, _, _, h => h
  | fuel + 1, words, pos, count, s, h => by
    have h1 := (m8Insw_queued env (min words 4) s).kept h
    unfold Hw.scanWords
    split_ifs
    · exact h
    · dsimp only
      rcases scanPixels colour want step (Hw.m8Insw env (min words 4) s).1 pos count with
        ⟨_ | x, pos', count'⟩
      · exact scanWords_kept colour want step fuel _ pos' count' _ h1
      · dsimp only
        split_ifs
        · refine h1.imp (·.cons _) fun h1 => ⟨h1.never, fun _ => rfl, fun _ => ?_⟩
          simp [Hw.m8ScanAbort, outstanding, M8_FIFO_DEPTH]
        · exact h1

theorem scanlr_kept (x y : ℤ) (colour : ℕ) (left want : Bool) (width : ℤ) (h : Kept s) :
    Kept (s.m8HwScanlr env x y colour left want width).2 := by
  unfold Hw.m8HwScanlr
  generalize (if left = true then x + 1 else width - x) = count,
    (if left = true then x + 1 else x) = start, (if left = true then 0 else width) = last
  dsimp only
  split
  · exact h
  · have h1 := readScan_sentWell env start y last h
    generalize s.m8ReadScan env start y last = r at h1
    obtain ⟨_ | _, t⟩ := r
    exacts [h1.kept, scanWords_kept env _ _ _ _ _ _ _ _ h1.kept]

/-! ## The assembly paths -/

/-- An assembly wait ends with as many entries free as its bit shows, or gives up. -/
theorem asmPoll_owes {n : ℕ} {bit : ℕ} (hb : ∀ occ : Fin 17, fifoWord occ &&& bit = 0 →
    (occ : ℕ) + n ≤ 15) : ∀ (i : ℕ) (s : Hw),
    RanOut s.trace ∨ NeverOverrun false s.trace ∧ s.roomOk = true →
      ((s.asmPoll env bit n i).1 = true → Owes true 0 n (s.asmPoll env bit n i).2) ∧
        ((s.asmPoll env bit n i).1 = false → RanOut (s.asmPoll env bit n i).2.trace)
  | 0, s, _ => ⟨nofun, fun _ => Or.inr (by simp [Hw.asmPoll])⟩
  | i + 1, s, hs => by
    have hs' : RanOut (s.inpFifo env).2.trace ∨
        NeverOverrun false (s.inpFifo env).2.trace ∧ (s.inpFifo env).2.roomOk = true :=
      hs.imp_left (·.cons _)
    unfold Hw.asmPoll
    dsimp only
    split_ifs with h
    · refine ⟨fun _ => hs'.imp_right fun hs => ⟨hs.1, hs.2, fun _ => rfl, ?_, le_rfl⟩, nofun⟩
      have := hb _ h
      show ((env.fifo s.reads : ℕ) : ℤ) + n ≤ _
      omega
    · exact asmPoll_owes hb i _ hs'

theorem asmRoom_owes {n : ℕ} {bit : ℕ} (hb : ∀ occ : Fin 17, fifoWord occ &&& bit = 0 →
    (occ : ℕ) + n ≤ 15) (h : Counted s) :
    ((s.asmRoom env n bit).1 = true → Owes true 0 n (s.asmRoom env n bit).2) ∧
      ((s.asmRoom env n bit).1 = false → RanOut (s.asmRoom env n bit).2.trace) := by
  unfold Hw.asmRoom
  split_ifs
  · exact asmPoll_owes env hb 65536 s (h.imp_right fun h => ⟨h.1.never, h.2⟩)
  · exact ⟨fun _ => h.owes.mono le_rfl (by omega), nofun⟩

theorem pixelSet_kept (x y : ℤ) (color mix : ℕ) (h : Kept s) :
    Kept (s.pixelSet env x y color mix).2 := by
  unfold Hw.pixelSet
  split_ifs with hp
  · exact h
  · rw [not_or, not_not] at hp
    exact short_kept (fun t ht => (ht.fillWrites x y 1 1 color).counted le_rfl)
      (asmRoom_owes env (n := 6) (by decide) (holdsPath_counted h hp.1))

theorem pixelGet_kept (x y : ℤ) (h : Kept s) : Kept (s.pixelGet env x y).2 := by
  unfold Hw.pixelGet
  split
  · exact h
  · rename_i ho
    simp only [not_or, Bool.not_eq_false] at ho
    exact shortRead_kept env (f := fun s => some ((s.inpPix env).1 % 256)) (g := fun _ => none)
      x y (asmRoom_owes env (n := 3) (by decide) (h.counted ho.2.2))

theorem bitbltFill_kept (x y w h : ℤ) (color mix : ℕ) (hs : Kept s) :
    Kept (s.bitbltFill env x y w h color mix).2 := by
  unfold Hw.bitbltFill
  split_ifs with hp
  · exact hs
  · rw [not_or, not_not] at hp
    exact short_kept (fun t ht => (ht.fillWrites x y w h color).counted le_rfl)
      (asmRoom_owes env (n := 6) (by decide) (holdsPath_counted hs hp.1))

theorem bitbltCopy_kept (sx sy dx dy w h : ℤ) (hs : Kept s) :
    Kept (s.bitbltCopy env sx sy dx dy w h).2 := by
  unfold Hw.bitbltCopy
  split_ifs with hp
  · exact short_kept (fun t ht => (ht.copyWrites _ w h).counted le_rfl)
      (asmRoom_owes env (n := 7) (by decide) (holdsPath_counted hs hp))
  · exact hs

/-! ## Runs -/

/-- A drawing primitive, or the switch that takes the engine away. A span list comes with the set-up
that it needs. -/
inductive EngineOp
  | off (b : Bool)
  | waitIdle
  | forget
  | fillMix (x y w h : ℤ) (color mix : ℕ)
  | fillFast (x y w h : ℤ) (color mix : ℕ)
  | copyMix (sx sy dx dy w h : ℤ) (mix : ℕ)
  | copyFast (sx sy dx dy w h : ℤ) (mix : ℕ)
  | spread (x y : ℤ) (sw sh kx ky : ℕ)
  | copyKeyed (sx sy dx dy w h : ℤ) (key : ℕ)
  | cursorMove (ox oy nx ny w h svx svy mx my : ℤ) (key : ℕ)
  | readRect (x y w h : ℤ)
  | writeRect (x y : ℤ) (w h : ℕ) (src : ℕ → ℕ → ℤ)
  | writeXlat (x y : ℤ) (w h : ℕ) (clipL clipR : ℤ) (src : ℕ → ℕ → ℤ)
  | mono (x y : ℤ) (widthBytes height : ℕ) (bits : List ℤ) (fgMix fg bgMix bg : ℕ) (clip : Rect)
  | monoPlane (x y : ℤ) (widthBytes height : ℕ) (bits : List ℤ) (plane : ℕ)
  | planeBlit (sx sy dx dy w h : ℤ) (plane fg bg : ℕ) (transparent : Bool)
  | planeMix (sx sy dx dy w h : ℤ) (plane fg fgMix : ℕ)
  | planeMixes (sx sy dx dy w h : ℤ) (plane fgMix fg bgMix bg : ℕ)
  | lineFast (pts : List Pt) (color mix : ℕ)
  | dashFast (p : Pt) (pts : List Pt) (color fn style : ℕ) (opaq : Bool) (bg : ℕ)
  | polylinePlain (pts : List Pt) (color mix : ℕ)
  | polyline (pts : List Pt) (color mix style : ℕ) (opaq : Bool) (bg : ℕ) (l t r b : ℤ)
  | patternBegin (fg bg fgFn bgFn : ℕ)
  | patternSpan (x y w h : ℤ) (pat : Pat)
  | fillBegin (color mix : ℕ)
  | fillBeginFast (color mix : ℕ)
  | fillSpan (x y w h : ℤ)
  | fillSpans (c : Rect) (color mix : ℕ) (recs : List SpanRec)
  | fillSpansFull (c : Rect) (color mix : ℕ) (recs : List SpanRec)
  | patternSpans (c : Rect) (fg bg fgFn bgFn : ℕ) (pat : Pat) (recs : List SpanRec)
  | polyBegin
  | poly (dx dy sx sy : ℤ) (p : Pt) (v : List Pt) (plane color : ℕ)
  | polyEnd
  | getpixel (x y : ℤ)
  | getpixelFast (x y : ℤ)
  | scanlr (x y : ℤ) (colour : ℕ) (left want : Bool) (width : ℤ)
  | pixelSet (x y : ℤ) (color mix : ℕ)
  | pixelGet (x y : ℤ)
  | bitbltFill (x y w h : ℤ) (color mix : ℕ)
  | bitbltCopy (sx sy dx dy w h : ℤ)

/-- One primitive. -/
def EngineOp.run (s : Hw) : EngineOp → Hw
  | off b => { s with hwOff := b }
  | waitIdle => s.m8HwWaitIdle env
  | forget => s.m8HwForget env
  | fillMix x y w h color mix => s.m8HwFillMix env x y w h color mix
  | fillFast x y w h color mix => (s.m8HwFillFast env x y w h color mix).2
  | copyMix sx sy dx dy w h mix => s.m8HwCopyMix env sx sy dx dy w h mix
  | copyFast sx sy dx dy w h mix => (s.m8HwCopyFast env sx sy dx dy w h mix).2
  | spread x y sw sh kx ky => s.m8HwSpread env x y sw sh kx ky
  | copyKeyed sx sy dx dy w h key => s.m8HwCopyKeyed env sx sy dx dy w h key
  | cursorMove ox oy nx ny w h svx svy mx my key =>
    s.m8HwCursorMove env ox oy nx ny w h svx svy mx my key
  | readRect x y w h => s.m8HwReadRect env x y w h
  | writeRect x y w h src => s.m8HwWriteRect env x y w h src
  | writeXlat x y w h clipL clipR src => s.m8HwWriteXlat env x y w h clipL clipR src
  | mono x y wb h bits fgMix fg bgMix bg clip => s.m8HwMono env x y wb h bits fgMix fg bgMix bg clip
  | monoPlane x y wb h bits plane => s.m8HwMonoPlane env x y wb h bits plane
  | planeBlit sx sy dx dy w h plane fg bg tr => s.m8HwPlaneBlit env sx sy dx dy w h plane fg bg tr
  | planeMix sx sy dx dy w h plane fg fgMix => s.m8HwPlaneMix env sx sy dx dy w h plane fg fgMix
  | planeMixes sx sy dx dy w h plane fgMix fg bgMix bg =>
    s.m8HwPlaneMixes env sx sy dx dy w h plane fgMix fg bgMix bg
  | lineFast pts color mix => (s.m8HwLineFast env pts color mix).2
  | dashFast p pts color fn style opaq bg => (s.m8HwDashFast env p pts color fn style opaq bg).2
  | polylinePlain pts color mix => s.m8HwPolylinePlain env pts color mix
  | polyline pts color mix style opaq bg l t r b =>
    s.m8HwPolyline env pts color mix style opaq bg l t r b
  | patternBegin fg bg fgFn bgFn => s.m8HwPatternBegin env fg bg fgFn bgFn
  | patternSpan x y w h pat => s.m8HwPatternSpan env x y w h pat
  | fillBegin color mix => s.m8HwFillBegin env color mix
  | fillBeginFast color mix => (s.m8HwFillBeginFast env color mix).2
  | fillSpan x y w h => s.m8HwFillSpan env x y w h
  | fillSpans c color mix recs => s.fillSpans env c color mix recs
  | fillSpansFull c color mix recs => s.fillSpansFull env c color mix recs
  | patternSpans c fg bg fgFn bgFn pat recs => s.patternSpans env c fg bg fgFn bgFn pat recs
  | polyBegin => (s.m8HwPolyBegin env).2
  | poly dx dy sx sy p v plane color => (s.m8HwPoly env dx dy sx sy p v plane color).2
  | polyEnd => s.m8HwPolyEnd
  | getpixel x y => (s.m8HwGetpixel env x y).2
  | getpixelFast x y => (s.m8HwGetpixelFast env x y).2
  | scanlr x y colour left want width => (s.m8HwScanlr env x y colour left want width).2
  | pixelSet x y color mix => (s.pixelSet env x y color mix).2
  | pixelGet x y => (s.pixelGet env x y).2
  | bitbltFill x y w h color mix => (s.bitbltFill env x y w h color mix).2
  | bitbltCopy sx sy dx dy w h => (s.bitbltCopy env sx sy dx dy w h).2

theorem EngineOp.run_kept (op : EngineOp) (h : Kept s) : Kept (op.run env s) := by
  cases op with
  | off b => exact Queued.kept (s := s) ⟨rfl, rfl, rfl, rfl⟩ h
  | waitIdle => exact waitIdle_kept env h
  | forget => exact shClear_kept (waitIdle_kept env h).safe
  | fillMix => exact fillMix_kept env _ _ _ _ _ _ h
  | fillFast => exact fillFast_kept env _ _ _ _ _ _ h
  | copyMix => exact copyMix_kept env _ _ _ _ _ _ _ h
  | copyFast => exact copyFast_kept env _ _ _ _ _ _ _ h
  | spread => exact spread_kept env _ _ _ _ _ _ h
  | copyKeyed => exact copyKeyed_kept env _ _ _ _ _ _ _ h
  | cursorMove => exact cursorMove_kept env _ _ _ _ _ _ _ _ _ _ _ h
  | readRect => exact readRect_kept env _ _ _ _ h
  | writeRect => exact writeRect_kept env _ _ _ _ _ h
  | writeXlat => exact writeXlat_kept env _ _ _ _ _ _ _ h
  | mono => exact hwMono_kept env _ _ _ _ _ _ _ _ _ _ h
  | monoPlane => exact monoPlane_kept env _ _ _ _ _ _ h
  | planeBlit => exact planeBlit_kept env _ _ _ _ _ _ _ _ _ _ h
  | planeMix => exact planeMix_kept env _ _ _ _ _ _ _ _ _ h
  | planeMixes => exact planeMixes_kept env _ _ _ _ _ _ _ _ _ _ _ h
  | lineFast => exact lineFast_kept env _ _ _ h
  | dashFast => exact dashFast_kept env _ _ _ _ _ _ _ h
  | polylinePlain => exact polylinePlain_kept env _ _ _ h
  | polyline => exact polyline_kept env _ _ _ _ _ _ _ _ _ _ h
  | patternBegin => exact patternBegin_kept env _ _ _ _ h
  | patternSpan => exact patternSpan_kept env _ _ _ _ _ h
  | fillBegin => exact fillBegin_kept env _ _ h
  | fillBeginFast => exact (fillBeginFast_kept env _ _ h).1
  | fillSpan => exact fillSpan_kept env _ _ _ _ h
  | fillSpans => exact fillSpans_kept env _ _ _ _ h
  | fillSpansFull => exact fillSpansFull_kept env _ _ _ _ h
  | patternSpans => exact patternSpans_kept env _ _ _ _ _ _ _ h
  | polyBegin => exact polyBegin_kept env h
  | poly => exact poly_kept env _ _ _ _ _ _ _ _ h
  | polyEnd => exact polyEnd_kept h
  | getpixel => exact getpixel_kept env _ _ h
  | getpixelFast => exact getpixelFast_kept env _ _ h
  | scanlr => exact scanlr_kept env _ _ _ _ _ _ h
  | pixelSet => exact pixelSet_kept env _ _ _ _ h
  | pixelGet => exact pixelGet_kept env _ _ h
  | bitbltFill => exact bitbltFill_kept env _ _ _ _ _ _ h
  | bitbltCopy => exact bitbltCopy_kept env _ _ _ _ _ _ h

/-- A run of the driver, after its shadows have been cleared and with nothing written yet. -/
def engineRun (s : Hw) (ops : List EngineOp) : Hw :=
  ops.foldl (EngineOp.run env) { s.m8ShClear with q := [], trace := [] }

theorem engineRun_kept (ops : List EngineOp) : Kept (engineRun env s ops) := by
  refine List.foldlRecOn ops (EngineOp.run env) ?_ fun t ht op _ => op.run_kept env ht
  exact Or.inr ⟨trivial, nofun, nofun⟩

/-- The command FIFO is never overrun : in a run of the primitives in any order, whatever the
engine's status reads, a write that does not carry host data is made with fewer than sixteen
outstanding, until a wait runs out. A read's data and an abort show the FIFO empty. -/
theorem m8_fifo_never_overrun (s : Hw) (ops : List EngineOp)
    (hreset : .reset ∉ (engineRun env s ops).trace) (hlate : .late ∉ (engineRun env s ops).trace) :
    NeverOverrun false (engineRun env s ops).trace :=
  (engineRun_kept env ops).elim (fun h => absurd h (by simp [RanOut, hreset, hlate])) Quiet.never

/-! ### Runs on an idle engine -/

/-- An engine that is always idle, its data always ready. -/
def idlePorts : EngineEnv where
  fifo _ := 0
  busy _ := false
  ready _ := true
  data _ := 0

/-- The driver as it is loaded. -/
def loadedHw : Hw where
  room := 0
  dpMix := 0
  roomOk := false
  dpOk := false
  dpPlain := false
  rdOk := false
  hwOff := false
  mmW := 0
  mmH := 0
  shOk _ := false
  shVal _ := 0
  scanY := -1
  scanByte := 0xFFFF
  q := []
  reads := 0
  trace := []

/-- A fill and a read of its pixel. -/
def fillAndRead : List EngineOp :=
  [.fillMix 10 20 30 40 5 (M8_MIX_SRC_FRGD ||| M8_MIX_REPLACE), .getpixel 12 22]

theorem m8_fifo_never_overrun_fill :
    NeverOverrun false (engineRun idlePorts loadedHw fillAndRead).trace :=
  m8_fifo_never_overrun idlePorts loadedHw fillAndRead (by decide +kernel) (by decide +kernel)

/-- Counting from the last read of the FIFO's own status, pixel after pixel overruns it : a read's
data is all that the driver waits for. And so do the words of one row of host data, where nothing
was read. -/
theorem m8_fifo_overrun_by_status :
    (let t := (engineRun idlePorts loadedHw [.getpixel 0 0, .getpixelFast 1 0,
        .getpixelFast 2 0]).trace
     EngineEv.reset ∉ t ∧ EngineEv.late ∉ t ∧ ¬ NeverOverrun true t) ∧
    (let t := (engineRun idlePorts loadedHw [.writeRect 0 0 40 1 fun _ _ => 0]).trace
     EngineEv.reset ∉ t ∧ EngineEv.late ∉ t ∧ EngineEv.ready ∉ t ∧ EngineEv.abort ∉ t ∧
       ¬ NeverOverrun true t) := by
  constructor <;> decide +kernel

end Inboard
