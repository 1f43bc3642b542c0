import Inboard.D3dStamps

/-!
# Where stamps are, and what is copied

The boxes of live stamps are on shelves behind the cursor, apart from each other, and outside the
mask strip and the scratch (`Shelves`). `m8d3d_stamp_place` looks for a stamp that would cross the
strip's first row, but not for a shelf that starts on it : a run keeps to this where no stamp is
placed there (`ReplayStep.Safe`), and then each copy is of what was built for its key
(`m8d3d_stamps_apart`).
-/

set_option linter.unusedSectionVars false

namespace Inboard

/-! ## Shelves -/

/-- A stamp that is in use. -/
def M8d3dStamp.Live (s : M8d3dStamp) : Prop := s.used ≠ 0

/-- A box in the column's stamp rows : above the strip, or between the strip and the scratch. -/
def M8d3dContext.InRows (c : M8d3dContext) (r : Rect) : Prop :=
  c.mx ≤ r.left ∧ r.right ≤ c.mx + c.tw ∧ 0 ≤ r.top ∧
    (r.bottom ≤ c.my ∨ c.my + c.mh ≤ r.top ∧ r.bottom ≤ c.my + c.mh + M8D3D_STAMP_ROWS)

/-- A box on an earlier shelf, or before the cursor on its shelf. -/
def M8d3dContext.Behind (c : M8d3dContext) (r : Rect) : Prop :=
  r.bottom ≤ c.stampY ∨
    r.top = c.stampY ∧ r.right ≤ c.stampX ∧ r.bottom ≤ c.stampY + c.stampShelf

/-- The stamps in use, and the cursor. -/
structure Shelves (c : M8d3dContext) : Prop where
  rows : ∀ k, (c.stamp k).Live → c.InRows (c.stamp k).box
  apart : ∀ j k, (c.stamp j).Live → (c.stamp k).Live → j ≠ k →
    (c.stamp j).box.Apart (c.stamp k).box
  behind : ∀ k, (c.stamp k).Live → c.Behind (c.stamp k).box
  left : c.mx ≤ c.stampX
  top : 0 ≤ c.stampY
  shelf : 0 ≤ c.stampShelf
  cursor : c.stampY + c.stampShelf ≤ c.my ∨
    c.my + c.mh ≤ c.stampY ∧ c.stampY + c.stampShelf ≤ c.my + c.mh + M8D3D_STAMP_ROWS

/-- The strip has rows, and there are rows above it. -/
structure M8d3dContext.Layout (c : M8d3dContext) : Prop where
  above : 0 < c.my
  strip : 0 ≤ c.mh
  width : 0 ≤ c.tw
  scratchX : c.sx = c.mx
  scratchY : c.sy = c.my + c.mh + M8D3D_STAMP_ROWS

/-- The cursor's row is not one of the strip's. -/
def M8d3dContext.OffStrip (c : M8d3dContext) : Prop :=
  c.stampY < c.my ∨ c.my + c.mh ≤ c.stampY

/-- A new shelf does not start on the strip's first row, for a stamp that fits there. -/
def M8d3dContext.ShelfSafe (c : M8d3dContext) (w h : ℤ) : Prop :=
  ¬ (w ≤ c.tw ∧ c.mx + c.tw < c.stampX + w ∧ c.stampY + c.stampShelf = c.my ∧
    h ≤ c.mh + M8D3D_STAMP_ROWS)

section Place

variable {c c' : M8d3dContext} {w h : ℤ}

theorem Shelves.wrap (hs : Shelves c) (hw : w ≤ c.tw) :
    Shelves (c.wrap w) ∧ (c.wrap w).stampX + w ≤ c.mx + c.tw := by
  unfold M8d3dContext.wrap
  split_ifs with hwrap
  · refine ⟨⟨hs.rows, hs.apart, fun k hk => ?_, Int.le_refl _, ?_, Int.le_refl _, ?_⟩, ?_⟩
    · have hbehind := hs.behind k hk
      have hshelf := hs.shelf
      unfold M8d3dContext.Behind at hbehind ⊢
      dsimp only
      omega
    · have := hs.top
      have := hs.shelf
      dsimp only
      omega
    · have := hs.cursor
      have := hs.shelf
      dsimp only
      omega
    · dsimp only
      omega
  · exact ⟨hs, by omega⟩

theorem Shelves.pastStrip (hs : Shelves c) (hl : c.Layout) (hx : c.stampX + w ≤ c.mx + c.tw)
    (hw : w ≤ c.tw) :
    Shelves (c.pastStrip h) ∧ (c.pastStrip h).stampX + w ≤ c.mx + c.tw := by
  unfold M8d3dContext.pastStrip
  split_ifs with hcross
  · have habove := hl.above
    have hstrip := hl.strip
    refine ⟨⟨hs.rows, hs.apart, fun k hk => ?_, Int.le_refl _, ?_, Int.le_refl _, ?_⟩, ?_⟩
    · have hbehind := hs.behind k hk
      have hcursor := hs.cursor
      unfold M8d3dContext.Behind at hbehind ⊢
      dsimp only
      omega
    · dsimp only
      omega
    · unfold M8D3D_STAMP_ROWS
      dsimp only
      omega
    · dsimp only
      omega
  · exact ⟨hs, hx⟩

theorem Shelves.dropStamps (hl : c.Layout) : Shelves c.dropStamps := by
  refine ⟨?_, ?_, ?_, Int.le_refl _, Int.le_refl _, Int.le_refl _, .inl ?_⟩
  · exact fun k hk => absurd rfl hk
  · exact fun j k hj _ _ => absurd rfl hj
  · exact fun k hk => absurd rfl hk
  · have := hl.above
    simp only [M8d3dContext.dropStamps]
    omega

/-- The cursor past a place that fits. -/
theorem Shelves.take (hs : Shelves c) (hw : 0 ≤ w) (hh : 0 ≤ h)
    (hfit : c.stampY + h ≤ c.my ∨
      c.my + c.mh ≤ c.stampY ∧ c.stampY + h ≤ c.my + c.mh + M8D3D_STAMP_ROWS) :
    Shelves (c.take w h).2 := by
  refine ⟨hs.rows, hs.apart, fun k hk => ?_, ?_, hs.top, ?_, ?_⟩
  · have hbehind := hs.behind k hk
    unfold M8d3dContext.Behind at hbehind ⊢
    simp only [M8d3dContext.take]
    split_ifs <;> omega
  · have := hs.left
    simp only [M8d3dContext.take]
    omega
  · have := hs.shelf
    simp only [M8d3dContext.take]
    split_ifs <;> omega
  · have := hs.cursor
    simp only [M8d3dContext.take]
    split_ifs <;> omega

/-- A place : in the stamp rows, behind the cursor, and apart from the stamps in use. -/
structure Placed (c : M8d3dContext) (w h : ℤ) (p : Pixel) : Prop where
  rows : c.InRows ⟨p.1, p.2, p.1 + w, p.2 + h⟩
  behind : c.Behind ⟨p.1, p.2, p.1 + w, p.2 + h⟩
  apart : ∀ k, (c.stamp k).Live → (c.stamp k).box.Apart ⟨p.1, p.2, p.1 + w, p.2 + h⟩

theorem Shelves.placed (hs : Shelves c) (hx : c.stampX + w ≤ c.mx + c.tw)
    (hfit : c.stampY + h ≤ c.my ∨
      c.my + c.mh ≤ c.stampY ∧ c.stampY + h ≤ c.my + c.mh + M8D3D_STAMP_ROWS) :
    Placed (c.take w h).2 w h (c.stampX, c.stampY) := by
  refine ⟨⟨hs.left, hx, hs.top, hfit⟩, .inr ⟨rfl, Int.le_refl _, ?_⟩, fun k hk p hp hq => ?_⟩
  · simp only [M8d3dContext.take]
    split_ifs <;> omega
  · have hbehind := hs.behind k hk
    unfold M8d3dContext.Behind at hbehind
    rw [Rect.mem_iff] at hp hq
    simp only [M8d3dContext.take] at hp
    dsimp only at hq
    omega

/-- Only stamps and the cursor differ, and a stamp in use is the same as before. -/
structure PlaceFrame (c c' : M8d3dContext) : Prop where
  eq : c' = { c with
    stamp := c'.stamp
    stampX := c'.stampX
    stampY := c'.stampY
    stampShelf := c'.stampShelf }
  live : ∀ k, (c'.stamp k).Live → c'.stamp k = c.stamp k

theorem PlaceFrame.refl (c : M8d3dContext) : PlaceFrame c c := ⟨rfl, fun _ _ => rfl⟩

theorem PlaceFrame.trans {c'' : M8d3dContext} (h : PlaceFrame c c') (h' : PlaceFrame c' c'') :
    PlaceFrame c c'' := by
  refine ⟨?_, fun k hk => ?_⟩
  · rw [h'.eq, h.eq]
  · have heq := h'.live k hk
    rw [heq] at hk ⊢
    exact h.live k hk

theorem wrap_frame (c : M8d3dContext) (w : ℤ) : PlaceFrame c (c.wrap w) := by
  unfold M8d3dContext.wrap
  split_ifs <;> exact ⟨rfl, fun _ _ => rfl⟩

theorem pastStrip_frame (c : M8d3dContext) (h : ℤ) : PlaceFrame c (c.pastStrip h) := by
  unfold M8d3dContext.pastStrip
  split_ifs <;> exact ⟨rfl, fun _ _ => rfl⟩

theorem dropStamps_frame (c : M8d3dContext) : PlaceFrame c c.dropStamps :=
  ⟨rfl, fun _ hk => absurd rfl hk⟩

theorem take_frame (c : M8d3dContext) (w h : ℤ) : PlaceFrame c (c.take w h).2 :=
  ⟨rfl, fun _ _ => rfl⟩

theorem m8d3dStampPlace_frame (w h : ℤ) (c : M8d3dContext) :
    PlaceFrame c (m8d3dStampPlace w h c).2 := by
  have hmoved := (wrap_frame c w).trans (pastStrip_frame (c.wrap w) h)
  unfold m8d3dStampPlace
  dsimp only
  split_ifs
  · exact .refl c
  · exact hmoved.trans (dropStamps_frame _)
  · exact hmoved.trans ((dropStamps_frame _).trans (take_frame _ w h))
  · exact hmoved.trans (take_frame _ w h)

theorem PlaceFrame.layout (hf : PlaceFrame c c') (hl : c.Layout) : c'.Layout := by
  rw [hf.eq]
  exact ⟨hl.above, hl.strip, hl.width, hl.scratchX, hl.scratchY⟩

/-- A safe cursor is off the strip after the two moves, or the stamp does not fit at all. -/
theorem offStrip_moves (hs : Shelves c) (hl : c.Layout) (hoff : c.OffStrip) (hw : w ≤ c.tw)
    (hsafe : c.ShelfSafe w h) :
    ((c.wrap w).pastStrip h).OffStrip ∨ ((c.wrap w).pastStrip h).full h = true := by
  have hcursor := hs.cursor
  have hshelf := hs.shelf
  have hstrip := hl.strip
  unfold M8d3dContext.OffStrip at hoff ⊢
  unfold M8d3dContext.ShelfSafe at hsafe
  unfold M8d3dContext.full M8d3dContext.pastStrip M8d3dContext.wrap
  unfold M8D3D_STAMP_ROWS at *
  simp only [Bool.and_eq_true, decide_eq_true_iff]
  split_ifs <;> (try dsimp only at *) <;> omega

theorem m8d3dStampPlace_spec (hs : Shelves c) (hl : c.Layout) (hoff : c.OffStrip) (hw : 0 ≤ w)
    (hh : 0 ≤ h) (hsafe : c.ShelfSafe w h) :
    Shelves (m8d3dStampPlace w h c).2 ∧ (m8d3dStampPlace w h c).2.OffStrip ∧
      PlaceFrame c (m8d3dStampPlace w h c).2 ∧
      ∀ p, (m8d3dStampPlace w h c).1 = some p → Placed (m8d3dStampPlace w h c).2 w h p := by
  unfold m8d3dStampPlace
  by_cases hwide : c.tw < w
  · rw [if_pos hwide]
    exact ⟨hs, hoff, .refl c, nofun⟩
  rw [if_neg hwide]
  have hmoves := offStrip_moves hs hl hoff (Int.not_lt.1 hwide) hsafe
  obtain ⟨hs1, hx1⟩ := hs.wrap (Int.not_lt.1 hwide)
  have hf1 := wrap_frame c w
  have hl1 := hf1.layout hl
  have hmx : (c.wrap w).mx = c.mx := by rw [hf1.eq]
  have htw : (c.wrap w).tw = c.tw := by rw [hf1.eq]
  obtain ⟨hs2, hx2⟩ := hs1.pastStrip (h := h) (w := w) hl1 (by rw [hmx, htw]; exact hx1)
    (by rw [htw]; exact Int.not_lt.1 hwide)
  have hf2 := hf1.trans (pastStrip_frame (c.wrap w) h)
  have hl2 := hf2.layout hl
  have hcross : ¬ (((c.wrap w).pastStrip h).stampY < ((c.wrap w).pastStrip h).my ∧
      ((c.wrap w).pastStrip h).my < ((c.wrap w).pastStrip h).stampY + h) := by
    have hstrip := hl1.strip
    unfold M8d3dContext.pastStrip
    split_ifs with hc
    · dsimp only
      omega
    · exact hc
  have hmx2 : ((c.wrap w).pastStrip h).mx = (c.wrap w).mx := by
    rw [(pastStrip_frame (c.wrap w) h).eq]
  have htw2 : ((c.wrap w).pastStrip h).tw = (c.wrap w).tw := by
    rw [(pastStrip_frame (c.wrap w) h).eq]
  rw [← hmx2, ← htw2] at hx2
  dsimp only
  generalize (c.wrap w).pastStrip h = c2 at *
  by_cases hfull : c2.full h = true
  · rw [if_pos hfull]
    have hs3 := Shelves.dropStamps hl2
    have hf3 := hf2.trans (dropStamps_frame c2)
    have hoff3 : c2.dropStamps.OffStrip := .inl hl2.above
    split_ifs with htall
    · exact ⟨hs3, hoff3, hf3, nofun⟩
    · have hfit : c2.dropStamps.stampY + h ≤ c2.dropStamps.my := by
        simp only [M8d3dContext.dropStamps] at htall ⊢
        omega
      refine ⟨hs3.take hw hh (.inl hfit), hoff3, hf3.trans (take_frame _ w h), fun p hp => ?_⟩
      obtain rfl := Option.some.inj hp
      refine hs3.placed ?_ (.inl hfit)
      simp only [M8d3dContext.dropStamps]
      omega
  · rw [if_neg hfull]
    have hoff2 := hmoves.resolve_right hfull
    have hfit : c2.stampY + h ≤ c2.my ∨
        c2.my + c2.mh ≤ c2.stampY ∧ c2.stampY + h ≤ c2.my + c2.mh + M8D3D_STAMP_ROWS := by
      unfold M8d3dContext.OffStrip at hoff2
      simp only [M8d3dContext.full, Bool.and_eq_true, decide_eq_true_iff] at hfull
      have := hl2.strip
      omega
    refine ⟨hs2.take hw hh hfit, hoff2, hf2.trans (take_frame c2 w h), fun p hp => ?_⟩
    obtain rfl := Option.some.inj hp
    exact hs2.placed hx2 hfit

end Place

end Inboard
