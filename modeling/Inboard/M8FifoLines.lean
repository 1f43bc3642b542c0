import Inboard.M8FifoDraw
import Inboard.M8Spans

/-!
# The ledger of lines, patterns and span lists

The primitives whose writes come from a list : the points of a line, the rows of a pattern, the
records of a scanline call, the vertices of a polygon. Each list is walked with room taken a step at
a time, so the ledger's step is an induction's.
-/

set_option linter.unusedSectionVars false

namespace Inboard

variable (env : EngineEnv) {s : Hw} {ok : Bool} {k a : ℤ}

/-- The engine's place on the screen is no part of the ledger. -/
theorem Kept.place (h : Kept s) (y b : ℤ) : Kept { s with scanY := y, scanByte := b } :=
  Queued.kept (s := s) ⟨rfl, rfl, rfl, rfl⟩ h

/-- Where the row read last is does not count. -/
theorem Counted.place (h : Counted s) (y b : ℤ) : Counted { s with scanY := y, scanByte := b } :=
  h.congr rfl rfl rfl

/-! ## Lines -/

/-- Both branches keep to the ledger. -/
theorem Owes.ite (p : Prop) [Decidable p] {t u : Hw} (ht : Owes ok k a t) (hu : Owes ok k a u) :
    Owes ok k a (if p then t else u) := by
  split_ifs
  exacts [ht, hu]

/-- Two words a point. -/
theorem length_linePts : ∀ pts : List Pt, (pts.flatMap linePt).length = 2 * pts.length
  | [] => rfl
  | p :: pts => by
    simp only [List.flatMap_cons, List.length_append, length_linePts pts, List.length_cons, linePt,
      List.length_nil]
    omega

/-- And three a point of a dashed line, its phase among them. -/
theorem length_dashWrites : ∀ (phase : ℕ) (p : Pt) (pts : List Pt),
    (dashWrites phase p pts).length = 3 * pts.length
  | _, _, [] => rfl
  | phase, p, q :: pts => by
    simp only [dashWrites, linePt, List.length_cons, List.length_append, List.length_nil,
      length_dashWrites _ q pts]
    omega

/-- A colour of a dash is one write, or none. -/
theorem Owes.dashColor (h : Owes ok k a s) (hk : k ≤ a) (r : ShReg) (color : ℕ) :
    Owes ok (k + 1) a (s.dashColor r color) := by
  unfold Hw.dashColor
  split_ifs
  · exact ((h.congr rfl rfl rfl rfl).outpw hk _ _).congr rfl rfl rfl rfl
  · exact h.mono (by omega) le_rfl

/-- `m8_hw_line_fast` keeps to the ledger, or leaves the line undone. -/
theorem lineFast_kept (pts : List Pt) (color mix : ℕ) (hs : Kept s) :
    Kept (s.m8HwLineFast env pts color mix).2 := by
  unfold Hw.m8HwLineFast
  split_ifs with hp
  · exact hs
  · simp only [not_or, not_not, not_lt] at hp
    refine short_kept (n := 3 + 2 * pts.length) (fun t ht => ?_)
      (roomOrNeed_owes env (by omega) (holdsPath_counted hs hp.1))
    have h1 := ((ht.spend (3 + 2 * pts.length)).dashColor (by push_cast; omega) .FRGD_COLOR
      color).outs lineHead (by simp [lineHead]; omega)
    refine (h1.outs (pts.flatMap linePt) ?_).counted ?_ <;>
      simp only [length_linePts, lineHead, List.length_cons, List.length_nil] <;> omega

theorem dashFast_kept (p : Pt) (pts : List Pt) (color fn style : ℕ) (opaq : Bool) (bg : ℕ)
    (hs : Kept s) : Kept (s.m8HwDashFast env p pts color fn style opaq bg).2 := by
  unfold Hw.m8HwDashFast
  split
  · exact hs
  · rename_i hp
    simp only [not_or, not_not, not_lt] at hp
    refine short_kept (n := 4 + 3 * (pts.length + 1) - 1) (fun t ht => ?_)
      (roomOrNeed_owes env (by omega) (holdsPath_counted hs hp.1))
    have h1 := (ht.spend (4 + 3 * (pts.length + 1) - 1 : ℕ)).dashColor (by omega) .FRGD_COLOR color
    have h2 := Owes.ite (opaq = true) (h1.dashColor (by omega) .BKGD_COLOR bg)
      (h1.mono (by omega) le_rfl)
    have h3 := h2.outs (lineHead ++ linePt p) (by simp [lineHead, linePt]; omega)
    refine (h3.outs (dashWrites 0 p pts) ?_).counted ?_ <;>
      simp only [length_dashWrites, lineHead, linePt, List.length_append, List.length_cons,
        List.length_nil] <;> omega

/-! ## Queued lines -/

/-- The queue is sent before it is full, so that its points are within the room. -/
theorem linePts_kept (mix : ℕ) (plain : Bool) : ∀ (first : Bool) (pts : List Pt) (s : Hw),
    Kept s → s.q ≠ [] → Kept (s.linePts env mix plain first pts)
  | first, [], s, hs, hq => by
    have h1 := m8QSend_sentWell env hs (Or.inl hq)
    unfold Hw.linePts
    generalize s.m8QSend env = r at h1
    obtain ⟨_ | _, t⟩ := r
    · exact h1.kept
    · dsimp only
      split_ifs
      exacts [(dpSent_counted mix plain (h1.1 rfl)).kept, h1.kept]
  | first, p :: pts, s, hs, hq => by
    unfold Hw.linePts
    split
    · have h1 := m8QSend_sentWell env hs (Or.inl hq)
      generalize s.m8QSend env = r at h1
      obtain ⟨_ | _, t⟩ := r
      · exact h1.kept
      · refine linePts_kept mix plain false pts _ (((Queued.refl _).qs _).kept ?_)
          (by simp [Hw.m8Qs, linePt])
        split_ifs
        exacts [(dpSent_counted mix plain (h1.1 rfl)).kept, h1.kept]
    · exact linePts_kept mix plain first pts _ (((Queued.refl s).qs _).kept hs)
        (by simp [Hw.m8Qs, linePt])

theorem lineSolid_kept (pts : List Pt) (color mix : ℕ) (l t r b : ℤ) (plain : Bool) (hs : Kept s) :
    Kept (s.m8LineSolid env pts color mix l t r b plain) :=
  linePts_kept env _ plain true pts _
    ((((Queued.dpQ _ l t r b).qSet .FRGD_COLOR color).qs lineHead).kept hs)
    (by simp [Hw.m8Qs, lineHead])

/-- `m8_hw_polyline_plain` draws by way of the queue. -/
theorem polylinePlain_kept (pts : List Pt) (color mix : ℕ) (hs : Kept s) :
    Kept (s.m8HwPolylinePlain env pts color mix) := by
  unfold Hw.m8HwPolylinePlain
  split_ifs
  exacts [hs, lineSolid_kept env _ _ _ _ _ _ _ _ hs]

/-! ## Styled lines -/

/-- The last writes of a set-up, with the room they ask for. -/
theorem Owes.counted_outs (n : ℕ) (hn : n ≤ 15) (h : Owes false 0 0 s) (ws : List (ℕ × ℤ))
    (hw : ws.length = n) : Owes false 0 0 (((s.m8RoomFor env n).outs ws).spend n) := by
  have h1 := (roomFor_owes env hn le_rfl h).outs ws (by omega)
  exact (h1.spend n).mono (by omega) (by omega)

theorem dashSetup_owes (color mix style : ℕ) (opaq : Bool) (bg : ℕ) (l t r b : ℤ) (hs : Kept s) :
    Owes false 0 0 (s.dashSetup env color mix style opaq bg l t r b) := by
  have h1 := put_owes env .PIX_CNTL M8_MF_PIX_CNTL
    (set_owes env .RD_MASK 0x00FF (set_owes env .WRT_MASK 0x00FF (drained_owes env hs)))
  have h2 := set_owes env .FRGD_COLOR color
    (put_owes env .DP_CONFIG M8_DP_MONO_PATT (scissors_owes env l t r b h1))
  have h3 := Owes.ite (opaq = true) (set_owes env .BKGD_COLOR bg h2) h2
  refine Owes.counted_outs env 2 (by decide) (Owes.counted_outs env 7 (by decide) ?_ _ rfl) _ rfl
  exact (h3.shForget .FRGD_MIX).shForget .BKGD_MIX

/-- Each point of a dashed line asks for its own entries. -/
theorem dashPts_owes : ∀ (prev : Option Pt) (phase : ℕ) (pts : List Pt) (s : Hw),
    Owes false 0 0 s → Owes false 0 0 (s.dashPts env prev phase pts)
  | _, _, [], _, h => h
  | none, phase, p :: pts, s, h => by
    refine dashPts_owes (some p) phase pts _ ?_
    have h1 := (roomFor_owes env (n := 3) (by decide) le_rfl h).outs (linePt p) (by simp [linePt])
    exact (h1.spend 2).mono (by simp [linePt]) (by simp)
  | some q, phase, p :: pts, s, h =>
    dashPts_owes (some p) _ pts _ (Owes.counted_outs env 3 (by decide) h
      ((M8_PATT_INDEX, (phase : ℤ)) :: linePt p) rfl)

/-- Writes that are all spent may be counted across calls again. -/
theorem Owes.recount (h : Owes ok k a s) (hk : k ≤ 0) : Counted { s with roomOk := true } :=
  h.imp_right fun h => ⟨⟨h.never, fun _ => rfl, fun _ => h.owed.trans (by omega)⟩, rfl⟩

theorem polyline_kept (pts : List Pt) (color mix style : ℕ) (opaq : Bool) (bg : ℕ) (l t r b : ℤ)
    (hs : Kept s) : Kept (s.m8HwPolyline env pts color mix style opaq bg l t r b) := by
  unfold Hw.m8HwPolyline
  split_ifs
  · exact hs
  · exact lineSolid_kept env _ _ _ _ _ _ _ _ hs
  · exact (dpSent_counted _ _ ((dashPts_owes env none 0 pts _
      (dashSetup_owes env color mix style opaq bg l t r b hs)).recount le_rfl)).kept

/-! ## Patterns -/

/-- The set-up of a pattern leaves the room as it is remembered. -/
theorem patternBegin_counted (fg bg fgFn bgFn : ℕ) (hs : Kept s) (ho : s.hwOff ≠ true) :
    Counted (s.m8HwPatternBegin env fg bg fgFn bgFn) := by
  unfold Hw.m8HwPatternBegin
  rw [if_neg ho]
  split_ifs
  · have h1 := roomCounted_owes env (n := 2) (by decide) hs
    have h2 := set_counted env .BKGD_COLOR bg le_rfl
      (set_counted env (a := 1) .FRGD_COLOR fg (by decide) h1)
    exact (h2.counted le_rfl).congr rfl rfl rfl
  all_goals
    have h1 := put_owes env .PIX_CNTL M8_MF_PIX_CNTL
      (set_owes env .RD_MASK 0x00FF (set_owes env .WRT_MASK 0x00FF (drained_owes env hs)))
    have h2 := put_owes env .DP_CONFIG M8_DP_MONO_PATT (scissors_owes env M8_EXT_SCISSOR_MIN
      M8_EXT_SCISSOR_MIN M8_EXT_SCISSOR_MAX M8_EXT_SCISSOR_MAX h1)
    have h3 := set_owes env .BKGD_COLOR bg (set_owes env .FRGD_COLOR fg h2)
    have h4 := Owes.counted_outs env 3 (by decide) ((h3.shForget .FRGD_MIX).shForget .BKGD_MIX)
      [(M8_ALU_FG_FN, (fgFn : ℤ)), (M8_ALU_BG_FN, bgFn), (M8_PATT_LENGTH, 7)] rfl
  · exact dpSent_counted _ _ ((h4.recount le_rfl).congr rfl rfl rfl)
  · exact (h4.recount le_rfl).congr rfl rfl rfl

theorem patternBegin_kept (fg bg fgFn bgFn : ℕ) (hs : Kept s) :
    Kept (s.m8HwPatternBegin env fg bg fgFn bgFn) := by
  by_cases ho : s.hwOff = true
  · rw [Hw.m8HwPatternBegin, if_pos ho]
    exact hs
  · exact (patternBegin_counted env fg bg fgFn bgFn hs ho).kept

/-- A row is set by one write, unless it is the last one that was. -/
theorem Owes.scanRow (ha : 0 ≤ a) (h : Owes ok 0 (a + 1) s) (y : ℤ) :
    Owes ok 0 a (s.scanRow y) := by
  unfold Hw.scanRow
  split_ifs
  · exact (((h.outpw (by omega) M8_CUR_Y y).spend 1).mono (by omega) (by omega)).congr rfl rfl rfl
      rfl
  · exact h.mono le_rfl (by omega)

/-- A row of a pattern is two writes, spent at once. -/
theorem Owes.pattData (h : Owes ok k (a + 2) s) (hk : k ≤ a + 1) (v : ℤ) :
    Owes ok k a ((s.outs (pattData v)).spend 2) :=
  ((h.outs (Inboard.pattData v) (by simp [Inboard.pattData]; omega)).spend 2).mono
    (by simp [Inboard.pattData]) (by omega)

theorem Owes.scanPatt (h : Owes ok k (a + 2) s) (hk : k ≤ a + 1) (v : ℤ) :
    Owes ok k a (s.scanPatt v) := by
  unfold Hw.scanPatt
  split_ifs
  · exact (h.pattData hk v).congr rfl rfl rfl rfl
  · exact h.mono le_rfl (by omega)

/-- Each row of a pattern asks for its own three entries. -/
theorem patternRows_counted (pat : Pat) : ∀ (y : ℤ) (h : ℕ) (s : Hw), Counted s →
    Counted (s.patternRows env pat y h)
  | _, 0, _, hs => hs
  | y, h + 1, s, hs => by
    refine patternRows_counted pat (y + 1) h _ ?_
    have h1 := (roomCounted_owes env (n := 3) (by decide) hs.kept).outs (pattData (pat.row y))
      (by simp [pattData])
    exact (((h1.outMM (by simp [pattData]) M8_DEST_Y_END (y + 1)).spend 3)).counted
      (by simp [pattData])

/-- A pattern's rectangle is not drawn, or leaves its room counted. -/
theorem patternSpan_cases (x y w h : ℤ) (pat : Pat) (hs : Kept s) :
    s.m8HwPatternSpan env x y w h pat = s ∨ Counted (s.m8HwPatternSpan env x y w h pat) := by
  unfold Hw.m8HwPatternSpan
  split_ifs
  · exact Or.inl rfl
  · have h1 := (roomCounted_owes env (n := 9) (by decide) hs).outs [(M8_PATT_DATA_INDEX, 0x10),
      (M8_PATT_DATA, pat.column x), (M8_LINEDRAW_OPT, M8_LINEDRAW_LAST_OFF), (M8_LINEDRAW_INDEX, 0),
      (M8_LINEDRAW, x), (M8_LINEDRAW, y), (M8_PATT_INDEX, y % 8), (M8_LINEDRAW, x),
      (M8_LINEDRAW, y + h)] (by simp)
    exact Or.inr (((h1.spend 9).counted (by simp)).place _ _)
  · have h1 := ((((roomCounted_owes env (n := 6) (by decide) hs).scanRow (a := 5) (by decide)
      y).scanPatt (a := 3) (by decide) (pat.row y)).outs [(M8_CUR_X, x), (M8_PATT_INDEX, x % 8)]
      (by simp)).outMM (by simp) M8_SCAN_TO_X (x + w)
    exact Or.inr ((h1.spend 3).counted (by simp))
  · refine Or.inr (patternRows_counted env pat y h.toNat _ ?_)
    have h1 := (roomCounted_owes env (n := 5) (by decide) (hs.place (-1) 0xFFFF)).outs
      [(M8_PATT_INDEX, x % 8), (M8_CUR_X, x), (M8_DEST_X_START, x), (M8_DEST_X_END, x + w),
        (M8_CUR_Y, y)] (by simp)
    exact (h1.spend 5).counted (by simp)

theorem patternSpan_kept (x y w h : ℤ) (pat : Pat) (hs : Kept s) :
    Kept (s.m8HwPatternSpan env x y w h pat) := by
  rcases patternSpan_cases env x y w h pat hs with h1 | h1
  exacts [h1.symm ▸ hs, h1.kept]

theorem patternSpan_counted (x y w h : ℤ) (pat : Pat) (hs : Counted s) :
    Counted (s.m8HwPatternSpan env x y w h pat) := by
  rcases patternSpan_cases env x y w h pat hs.kept with h1 | h1
  exacts [h1.symm ▸ hs, h1]

/-! ## Solid spans -/

/-- The short set-up is done within the room, or not at all. -/
theorem fillBeginFast_kept (color mix : ℕ) (hs : Kept s) :
    Kept (s.m8HwFillBeginFast env color mix).2 ∧
      ((s.m8HwFillBeginFast env color mix).1 = true →
        Counted (s.m8HwFillBeginFast env color mix).2) := by
  unfold Hw.m8HwFillBeginFast
  split_ifs with hp hv
  · exact ⟨hs, nofun⟩
  · simp only [not_or, not_not] at hp
    have h1 := roomOrNeed_owes env (n := 1) (by decide) (holdsPath_counted hs hp.1)
    generalize s.roomOrNeed env 1 = r at h1
    obtain ⟨_ | _, t⟩ := r
    · exact ⟨Or.inl (h1.2 rfl), nofun⟩
    · have h2 := ((h1.1 rfl).fastColor (by decide) .FRGD_COLOR color).counted le_rfl
      exact ⟨(h2.place (-1) _).kept, fun _ => h2.place (-1) _⟩
  · simp only [not_or, not_not] at hp
    have h1 := holdsPath_counted hs hp.1
    exact ⟨(h1.place (-1) s.scanByte).kept, fun _ => h1.place (-1) s.scanByte⟩

/-- The set-up of a fill leaves the room as it is remembered. -/
theorem fillBegin_counted (color mix : ℕ) (hs : Kept s) (ho : s.hwOff ≠ true) :
    Counted (s.m8HwFillBegin env color mix) := by
  have h1 : SentWell (s.sendTwice env fun s => (s.m8PlainQ mix).m8QSet .FRGD_COLOR color) :=
    sendTwice_sentWell env (fun s => (Queued.plainQ mix).qSet _ _)
      (fun s => (plainQ_ne_nil mix s).imp_left (qSet_ne_nil _ _)) hs
  unfold Hw.m8HwFillBegin
  rw [if_neg ho]
  generalize s.sendTwice env (fun s => (s.m8PlainQ mix).m8QSet .FRGD_COLOR color) = r at h1
  obtain ⟨_ | _, t⟩ := r
  · exact Or.inl (h1.2 rfl)
  · exact (dpSent_counted mix true (h1.1 rfl)).place (-1) _

theorem fillBegin_kept (color mix : ℕ) (hs : Kept s) : Kept (s.m8HwFillBegin env color mix) := by
  by_cases ho : s.hwOff = true
  · rw [Hw.m8HwFillBegin, if_pos ho]
    exact hs
  · exact (fillBegin_counted env color mix hs ho).kept

theorem fillSpan_kept (x y w h : ℤ) (hs : Kept s) : Kept (s.m8HwFillSpan env x y w h) := by
  unfold Hw.m8HwFillSpan
  split_ifs
  · exact hs
  · have h1 := (((roomCounted_owes env (n := 3) (by decide) hs).scanRow (a := 2) (by decide)
      y).outpw (by decide) M8_CUR_X x).outMM (by decide) M8_SCAN_TO_X (x + w)
    exact (h1.spend 2).kept_counted (by decide)
  · have h1 := (roomCounted_owes env (n := 5) (by decide) (hs.place (-1) s.scanByte)).outs
      [(M8_CUR_X, x), (M8_CUR_Y, y)] (by simp)
    have h2 := (h1.outSize (by simp) w h).outpw (by simp) M8_CMD M8_CMD_FILL
    exact (h2.spend 5).kept_counted (by simp)

/-! ## Polygons -/

/-- What is queued and sent at once is within the ledger. -/
theorem qsSend_sentWell (ws : List (ℕ × ℤ)) (hw : ws ≠ []) (hs : Kept s) :
    SentWell ((s.m8Qs ws).m8QSend env) :=
  m8QSend_sentWell env (((Queued.refl s).qs ws).kept hs) (Or.inl (by simp [Hw.m8Qs, hw]))

/-- What goes on after a send that was not cut short. -/
theorem send_then {r : Bool × Hw} {f : Hw → Bool × Hw} :
    SentWell r → (∀ t, Kept t → Kept (f t).2) → Kept (match r with
      | (false, s) => (false, s)
      | (true, s) => f s).2 := by
  obtain ⟨_ | _, t⟩ := r
  exacts [fun hr _ => hr.kept, fun hr hf => hf t hr.kept]

theorem polyBegin_kept (hs : Kept s) : Kept (s.m8HwPolyBegin env).2 := by
  unfold Hw.m8HwPolyBegin
  split_ifs
  exacts [hs, (qsSend_sentWell env _ (by simp) (hs.place (-1) s.scanByte)).kept]

/-- A polygon's outline and its fill are queued, and sent in the room they ask for. -/
theorem poly_kept (dx dy sx sy : ℤ) (p : Pt) (v : List Pt) (plane color : ℕ) (hs : Kept s) :
    Kept (s.m8HwPoly env dx dy sx sy p v plane color).2 := by
  unfold Hw.m8HwPoly
  split
  · exact hs
  dsimp only
  split_ifs
  · exact hs
  · refine send_then (m8QSend_sentWell env ((((Queued.refl s).qs _).qs _).kept hs)
      (Or.inl (by simp [Hw.m8Qs]))) fun t ht => ?_
    refine send_then (qsSend_sentWell env _ (by simp) ht) fun u hu => ?_
    exact (qsSend_sentWell env _ (by simp) hu).kept

theorem polyEnd_kept (hs : Kept s) : Kept s.m8HwPolyEnd :=
  Queued.kept (s := s.m8ShClear) ⟨rfl, rfl, rfl, rfl⟩ (shClear_kept hs.safe)

end Inboard
