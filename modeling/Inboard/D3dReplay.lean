import Inboard.D3dShelves

/-!
# Replayed frames

Every step of a replay keeps the stamps on their shelves, whatever the engine does. While the engine
does all it is asked, each plane of the mask strip holds the shape of the mask in use there and
nothing else : a mask's box is cleared before its entry is built again. That rests on `used`, so it
holds while the clock that marks the entries does not wrap to 0. Then each copy is of what was
built for its key (`m8d3d_stamps_apart`).
-/

set_option linter.unusedSectionVars false

namespace Inboard

/-! ## What a replay keeps -/

/-- A mask that is in use. -/
def M8d3dMask.Live (m : M8d3dMask) : Prop := m.used ≠ 0

/-- Stamps on their shelves, with the cursor off the strip. -/
structure M8d3dContext.Inv (c : M8d3dContext) : Prop where
  layout : c.Layout
  shelves : Shelves c
  off : c.OffStrip

/-- Pixel `p` of a box of `w` x `h`. -/
def InBox (w h : ℤ) (p : Pixel) : Prop := 0 ≤ p.1 ∧ p.1 < w ∧ 0 ≤ p.2 ∧ p.2 < h

/-- A copy of what was built for its key. -/
def Hit.Exact (g : ReplayShapes) : Hit → Prop
  | .stamp key w h read => ∀ p, InBox w h p → ∀ k, read p k = g.stampPixel key p
  | .mask v w h read => ∀ p, InBox w h p → read p = g.maskPixel v p

/-- Pixel `p` of the strip in plane `k` : its mask's, or nothing's. -/
def M8d3dContext.stripPixel (g : ReplayShapes) (c : M8d3dContext) (k : Fin 8) (p : Pixel) : Built :=
  if (c.mask k).used ≠ 0 then g.maskPixel (c.mask k).v p else .clear

/-- The column holds what the stamps and masks in use were built as, and the strip nothing else. -/
structure M8d3dCard.Drawn (g : ReplayShapes) (s : M8d3dCard) : Prop where
  stamp : ∀ k, (s.c.stamp k).Live → ∀ p, InBox (s.c.stamp k).w (s.c.stamp k).h p → ∀ j,
    s.col ((s.c.stamp k).x + p.1, (s.c.stamp k).y + p.2) j = g.stampPixel (s.c.stamp k).key p
  strip : s.c.fresh = false → ∀ k p, InBox s.c.tw s.c.mh p →
    s.col (s.c.mx + p.1, s.c.my + p.2) k = s.c.stripPixel g k p
  size : ∀ k, (s.c.mask k).Live → (s.c.mask k).w ≤ s.c.tw ∧ (s.c.mask k).h ≤ s.c.mh
  shape : ∀ k, (s.c.mask k).Live → ∀ p, g.mask (s.c.mask k).v p = true →
    InBox (s.c.mask k).w (s.c.mask k).h p
  fresh : s.c.fresh = true → ∀ k, ¬ (s.c.mask k).Live
  hits : ∀ x ∈ s.hits, x.Exact g

/-- No stamp moves, and no new one is in use. -/
structure M8d3dContext.Fewer (c c' : M8d3dContext) : Prop where
  mx : c'.mx = c.mx
  my : c'.my = c.my
  mh : c'.mh = c.mh
  tw : c'.tw = c.tw
  stamp : ∀ k, (c'.stamp k).Live → (c.stamp k).Live ∧
    ∃ u, c'.stamp k = { c.stamp k with used := u }
  fresh : c'.fresh = c.fresh

/-- The same masks are in use. -/
def M8d3dContext.SameMasks (c c' : M8d3dContext) : Prop :=
  ∀ k, ∃ u, c'.mask k = { c.mask k with used := u } ∧ (u ≠ 0 ↔ (c.mask k).Live)

/-- Neither does the cursor. -/
structure M8d3dContext.Keeps (c c' : M8d3dContext) : Prop extends c.Fewer c' where
  sx : c'.sx = c.sx
  sy : c'.sy = c.sy
  stampX : c'.stampX = c.stampX
  stampY : c'.stampY = c.stampY
  stampShelf : c'.stampShelf = c.stampShelf

section Keeps

variable {c c' : M8d3dContext} {s : M8d3dCard}

theorem M8d3dContext.Fewer.box (h : c.Fewer c') {k : Fin 32} (hk : (c'.stamp k).Live) :
    (c'.stamp k).box = (c.stamp k).box := by
  obtain ⟨-, u, hu⟩ := h.stamp k hk
  rw [hu]
  rfl

theorem M8d3dContext.Keeps.inv (h : c.Keeps c') (hi : c.Inv) : c'.Inv := by
  obtain ⟨hl, hs, hoff⟩ := hi
  refine ⟨⟨?_, ?_, ?_, ?_, ?_⟩,
      ⟨fun k hk => ?_, fun j k hj hk hne => ?_, fun k hk => ?_, ?_, ?_, ?_,
    ?_⟩, ?_⟩
  · rw [h.my]
    exact hl.above
  · rw [h.mh]
    exact hl.strip
  · rw [h.tw]
    exact hl.width
  · rw [h.sx, h.mx]
    exact hl.scratchX
  · rw [h.sy, h.my, h.mh]
    exact hl.scratchY
  · rw [h.box hk, M8d3dContext.InRows, h.mx, h.my, h.mh, h.tw]
    exact hs.rows k (h.stamp k hk).1
  · rw [h.box hj, h.box hk]
    exact hs.apart j k (h.stamp j hj).1 (h.stamp k hk).1 hne
  · rw [h.box hk, M8d3dContext.Behind, h.stampX, h.stampY, h.stampShelf]
    exact hs.behind k (h.stamp k hk).1
  · rw [h.mx, h.stampX]
    exact hs.left
  · rw [h.stampY]
    exact hs.top
  · rw [h.stampShelf]
    exact hs.shelf
  · rw [h.stampY, h.stampShelf, h.my, h.mh]
    exact hs.cursor
  · rw [M8d3dContext.OffStrip, h.stampY, h.my, h.mh]
    exact hoff

theorem M8d3dContext.SameMasks.of_eq (h : c'.mask = c.mask) : c.SameMasks c' := by
  intro k
  rw [h]
  exact ⟨(c.mask k).used, rfl, Iff.rfl⟩

theorem M8d3dContext.SameMasks.stripPixel {g : ReplayShapes} (h : c.SameMasks c') (k : Fin 8)
    (p : Pixel) : c'.stripPixel g k p = c.stripPixel g k p := by
  obtain ⟨u, hu, hlive⟩ := h k
  unfold M8d3dContext.stripPixel
  rw [hu]
  exact if_congr hlive rfl rfl

theorem M8d3dContext.Fewer.drawn {g : ReplayShapes} (h : s.c.Fewer c') (hm : s.c.SameMasks c')
    (hd : s.Drawn g) : M8d3dCard.Drawn g { s with c := c' } := by
  have hmask : ∀ k, (c'.mask k).Live → (s.c.mask k).Live ∧ (c'.mask k).v = (s.c.mask k).v ∧
      (c'.mask k).w = (s.c.mask k).w ∧ (c'.mask k).h = (s.c.mask k).h := by
    intro k hk
    obtain ⟨u, hu, hlive⟩ := hm k
    rw [hu] at hk ⊢
    exact ⟨hlive.1 hk, rfl, rfl, rfl⟩
  refine ⟨fun k hk p hp j => ?_, fun hf k p hp => ?_, fun k hk => ?_, fun k hk => ?_,
    fun hf k hk => ?_, hd.hits⟩
  · obtain ⟨hlive, u, hu⟩ := h.stamp k hk
    dsimp only at hp ⊢
    rw [hu] at hp ⊢
    exact hd.stamp k hlive p hp j
  · dsimp only at hf hp ⊢
    rw [h.mx, h.my, hm.stripPixel]
    rw [h.tw, h.mh] at hp
    exact hd.strip (h.fresh.symm.trans hf) k p hp
  · obtain ⟨hlive, -, hw, hh⟩ := hmask k hk
    dsimp only
    rw [hw, hh, h.tw, h.mh]
    exact hd.size k hlive
  · obtain ⟨hlive, hv, hw, hh⟩ := hmask k hk
    dsimp only
    rw [hv, hw, hh]
    exact hd.shape k hlive
  · exact hd.fresh (h.fresh.symm.trans hf) k (hmask k hk).1

theorem PlaceFrame.fewer (h : PlaceFrame c c') : c.Fewer c' := by
  have heq := h.eq
  refine ⟨?_, ?_, ?_, ?_, fun k hk => ?_, ?_⟩
  · rw [heq]
  · rw [heq]
  · rw [heq]
  · rw [heq]
  · have hsame := h.live k hk
    rw [hsame] at hk ⊢
    exact ⟨hk, _, rfl⟩
  · rw [heq]

theorem PlaceFrame.sameMasks (h : PlaceFrame c c') : c.SameMasks c' := by
  refine .of_eq ?_
  rw [h.eq]

/-- A stamp is marked, as used if it was in use. -/
theorem M8d3dContext.keeps_stampUsed (c : M8d3dContext) {k : Fin 32} (u clock : UInt32)
    (hu : u ≠ 0 → (c.stamp k).Live) :
    c.Keeps { c with
      stamp := Function.update c.stamp k { c.stamp k with used := u }
      clock := clock } := by
  refine ⟨⟨rfl, rfl, rfl, rfl, fun j hj => ?_, rfl⟩, rfl, rfl, rfl, rfl, rfl⟩
  dsimp only at hj ⊢
  rcases eq_or_ne j k with rfl | hne
  · rw [Function.update_self] at hj ⊢
    exact ⟨hu hj, u, rfl⟩
  · rw [Function.update_of_ne hne] at hj ⊢
    exact ⟨hj, _, rfl⟩

/-- Masks, and what is remembered of shapes seen once, move no stamp. -/
theorem M8d3dContext.keeps_masks (c : M8d3dContext) (stampSeen : Fin 32 → M8d3dShaded)
    (stampSeenNext : Fin 32) (mask : Fin 8 → M8d3dMask) (seen : Fin 16 → Corners)
    (seenNext : Fin 16) (clock : UInt32) (credit : ℤ) :
    c.Keeps { c with
      stampSeen := stampSeen
      stampSeenNext := stampSeenNext
      mask := mask
      seen := seen
      seenNext := seenNext
      clock := clock
      credit := credit } :=
  ⟨⟨rfl, rfl, rfl, rfl, fun _ hk => ⟨hk, _, rfl⟩, rfl⟩, rfl, rfl, rfl, rfl, rfl⟩

/-- A mask in use is used again, while the clock is not at its end. -/
theorem M8d3dContext.sameMasks_used {k : Fin 8} {u clock : UInt32} {credit : ℤ}
    (hk : (c.mask k).Live) (hu : u ≠ 0) :
    c.SameMasks { c with
      mask := Function.update c.mask k { c.mask k with used := u }
      clock := clock
      credit := credit } := by
  intro j
  dsimp only
  rcases eq_or_ne j k with rfl | hne
  · rw [Function.update_self]
    exact ⟨u, rfl, iff_of_true hu hk⟩
  · rw [Function.update_of_ne hne]
    exact ⟨(c.mask j).used, rfl, Iff.rfl⟩

/-- A stamp's pixels are in its box. -/
theorem mem_box {st : M8d3dStamp} {p : Pixel} (hp : InBox st.w st.h p) :
    (st.x + p.1, st.y + p.2) ∈ st.box := by
  rw [M8d3dStamp.box, Rect.mem_iff]
  unfold InBox at hp
  dsimp only
  omega

theorem mem_strip {p : Pixel} (hp : InBox c.tw c.mh p) : (c.mx + p.1, c.my + p.2) ∈ c.strip := by
  rw [M8d3dContext.strip, Rect.mem_iff]
  unfold InBox at hp
  dsimp only
  omega

/-- What is drawn beside the stamps and the strip changes none of them. -/
theorem M8d3dCard.Drawn.beside {g : ReplayShapes} (hd : s.Drawn g) {r : Rect}
    {col : Pixel → Fin 8 → Built} (hcol : ∀ p, p ∉ r → col p = s.col p)
    (hstamp : ∀ k, (s.c.stamp k).Live → (s.c.stamp k).box.Apart r)
    (hstrip : s.c.fresh = false → s.c.strip.Apart r) :
    M8d3dCard.Drawn g { s with col := col } := by
  refine ⟨fun k hk p hp j => ?_, fun hf k p hp => ?_, hd.size, hd.shape, hd.fresh, hd.hits⟩
  · dsimp only
    rw [hcol _ (hstamp k hk _ (mem_box hp))]
    exact hd.stamp k hk p hp j
  · dsimp only
    rw [hcol _ (hstrip hf _ (mem_strip hp))]
    exact hd.strip hf k p hp

theorem M8d3dContext.InRows.apart_strip {r : Rect} (h : c.InRows r) : c.strip.Apart r := by
  intro p hp hr
  rw [M8d3dContext.strip, Rect.mem_iff] at hp
  rw [Rect.mem_iff] at hr
  unfold InRows at h
  dsimp only at hp
  omega

theorem M8d3dContext.InRows.apart_scratch {r : Rect} (h : c.InRows r) (hl : c.Layout) :
    r.Apart c.scratch := by
  intro p hr hp
  rw [M8d3dContext.scratch, Rect.mem_iff] at hp
  rw [Rect.mem_iff] at hr
  have := hl.scratchY
  have := hl.strip
  unfold InRows at h
  unfold M8D3D_STAMP_ROWS at *
  dsimp only at hp
  omega

theorem M8d3dContext.Layout.strip_apart_scratch (hl : c.Layout) : c.strip.Apart c.scratch := by
  intro p hs hp
  rw [M8d3dContext.scratch, Rect.mem_iff] at hp
  rw [M8d3dContext.strip, Rect.mem_iff] at hs
  have := hl.scratchY
  unfold M8D3D_STAMP_ROWS at *
  dsimp only at hp hs
  omega

theorem M8d3dCard.Drawn.spoilScratch {g : ReplayShapes} (hd : s.Drawn g) (hi : s.c.Inv) :
    (s.spoil s.c.scratch).Drawn g :=
  hd.beside (fun _ hp => Rect.paint_not_mem hp)
    (fun k hk => (hi.shelves.rows k hk).apart_scratch hi.layout)
    fun _ => hi.layout.strip_apart_scratch

end Keeps

/-! ## New stamps and masks -/

section Build

variable {g : ReplayShapes} {s : M8d3dCard} {c : M8d3dContext}

/-- A copy of stamp `k`, as it was built. -/
theorem M8d3dCard.Drawn.stampCopy {k : Fin 32} (hd : s.Drawn g)
    (hbuilt : ∀ p, InBox (s.c.stamp k).w (s.c.stamp k).h p → ∀ j,
      s.col ((s.c.stamp k).x + p.1, (s.c.stamp k).y + p.2) j = g.stampPixel (s.c.stamp k).key p) :
    (s.stampCopy k).Drawn g := by
  refine ⟨hd.stamp, hd.strip, hd.size, hd.shape, hd.fresh, fun x hx => ?_⟩
  rcases List.mem_append.1 hx with hx | hx
  · exact hd.hits x hx
  · obtain rfl := List.mem_singleton.1 hx
    exact hbuilt

/-- What is drawn through mask `k` is its shape. -/
theorem M8d3dCard.Drawn.maskDraw {k : Fin 8} (hd : s.Drawn g) (hfresh : s.c.fresh = false)
    (hk : (s.c.mask k).Live) : (s.maskDraw k).Drawn g := by
  refine ⟨hd.stamp, hd.strip, hd.size, hd.shape, hd.fresh, fun x hx => ?_⟩
  rcases List.mem_append.1 hx with hx | hx
  · exact hd.hits x hx
  · obtain rfl := List.mem_singleton.1 hx
    intro p hp
    obtain ⟨hw, hh⟩ := hd.size k hk
    have hin : InBox s.c.tw s.c.mh p := by
      unfold InBox at hp ⊢
      omega
    exact (hd.strip hfresh k p hin).trans (if_pos hk)

/-- A new stamp in a free entry. -/
def M8d3dContext.addStamp (c : M8d3dContext) (o : Fin 32) (st : M8d3dStamp) : M8d3dContext :=
  { c with stamp := Function.update c.stamp o st, clock := st.used }

theorem M8d3dContext.Inv.addStamp {o : Fin 32} (st : M8d3dStamp) (hi : c.Inv)
    (ho : ¬ (c.stamp o).Live) (hp : Placed c (st.w + 1) (st.h + 1) (st.x, st.y)) :
    (c.addStamp o st).Inv := by
  have hbox : st.box = ⟨st.x, st.y, st.x + (st.w + 1), st.y + (st.h + 1)⟩ := by
    rw [M8d3dStamp.box, Int.add_assoc, Int.add_assoc]
  have hself : (c.addStamp o st).stamp o = st := Function.update_self ..
  have hother : ∀ k, k ≠ o → (c.addStamp o st).stamp k = c.stamp k := fun k hk =>
    Function.update_of_ne hk ..
  have hs := hi.shelves
  refine ⟨⟨hi.layout.above, hi.layout.strip, hi.layout.width, hi.layout.scratchX,
    hi.layout.scratchY⟩, ⟨fun k hk => ?_, fun j k hj hk hne => ?_, fun k hk => ?_, hs.left, hs.top,
    hs.shelf, hs.cursor⟩, hi.off⟩
  · rcases eq_or_ne k o with rfl | hko
    · rw [hself, hbox]
      exact hp.rows
    · rw [hother k hko] at hk ⊢
      exact hs.rows k hk
  · rcases eq_or_ne j o with rfl | hjo
    · rw [hother k hne.symm] at hk
      rw [hself, hother k hne.symm, hbox]
      exact (hp.apart k hk).symm
    · rw [hother j hjo] at hj ⊢
      rcases eq_or_ne k o with rfl | hko
      · rw [hself, hbox]
        exact hp.apart j hj
      · rw [hother k hko] at hk ⊢
        exact hs.apart j k hj hk hne
  · rcases eq_or_ne k o with rfl | hko
    · rw [hself, hbox]
      exact hp.behind
    · rw [hother k hko] at hk ⊢
      exact hs.behind k hk

theorem M8d3dCard.Drawn.addStamp {o : Fin 32} (st : M8d3dStamp) (hd : s.Drawn g)
    (hbuilt : ∀ p, InBox st.w st.h p → ∀ j,
      s.col (st.x + p.1, st.y + p.2) j = g.stampPixel st.key p) :
    M8d3dCard.Drawn g { s with c := s.c.addStamp o st } := by
  refine ⟨fun k hk => ?_, hd.strip, hd.size, hd.shape, hd.fresh, hd.hits⟩
  have hother : k ≠ o → (s.c.addStamp o st).stamp k = s.c.stamp k := fun hk =>
    Function.update_of_ne hk ..
  dsimp only at hk ⊢
  rcases eq_or_ne k o with rfl | hko
  · rw [show (s.c.addStamp k st).stamp k = st from Function.update_self ..]
    exact hbuilt
  · rw [hother hko] at hk ⊢
    exact hd.stamp k hk

/-- Masks are no matter of the shelves'. -/
theorem M8d3dContext.Inv.withMasks (hi : c.Inv) (mask : Fin 8 → M8d3dMask) (clock : UInt32) :
    M8d3dContext.Inv { c with mask := mask, clock := clock } :=
  have hl := hi.layout
  have hs := hi.shelves
  ⟨⟨hl.above, hl.strip, hl.width, hl.scratchX, hl.scratchY⟩,
    ⟨hs.rows, hs.apart, hs.behind, hs.left, hs.top, hs.shelf, hs.cursor⟩, hi.off⟩

/-- A mask in entry `o`, drawn in its plane of the strip, and the others as they were. -/
theorem M8d3dCard.Drawn.addMask {o : Fin 8} {mask : Fin 8 → M8d3dMask} {clock : UInt32}
    {col : Pixel → Fin 8 → Built} (hd : s.Drawn g) (hi : s.c.Inv) (hfresh : s.c.fresh = false)
    (hlive : (mask o).Live) (hother : ∀ k, k ≠ o → mask k = s.c.mask k)
    (hw : (mask o).w ≤ s.c.tw) (hh : (mask o).h ≤ s.c.mh)
    (hshape : ∀ p, g.mask (mask o).v p = true → InBox (mask o).w (mask o).h p)
    (hcol : ∀ p k, p ∉ s.c.scratch → k ≠ o ∨ p ∉ s.c.strip → col p k = s.col p k)
    (hnew : ∀ p, InBox s.c.tw s.c.mh p →
      col (s.c.mx + p.1, s.c.my + p.2) o = g.maskPixel (mask o).v p) :
    M8d3dCard.Drawn g { s with c := { s.c with mask := mask, clock := clock }, col := col } := by
  refine ⟨fun k hk p hp j => ?_, fun _ k p hp => ?_, fun k hk => ?_, fun k hk => ?_, fun hf => ?_,
    hd.hits⟩
  · have hrows := hi.shelves.rows k hk
    have hbox := mem_box hp
    dsimp only
    rw [hcol _ j (hrows.apart_scratch hi.layout _ hbox)
      (.inr fun hstrip => hrows.apart_strip _ hstrip hbox)]
    exact hd.stamp k hk p hp j
  · have hoff := hi.layout.strip_apart_scratch _ (mem_strip hp)
    rcases eq_or_ne k o with rfl | hko
    · exact (hnew p hp).trans (if_pos hlive).symm
    · refine (hcol _ k hoff (.inl hko)).trans ((hd.strip hfresh k p hp).trans ?_)
      simp only [M8d3dContext.stripPixel, hother k hko]
  · dsimp only at hk ⊢
    rcases eq_or_ne k o with rfl | hko
    · exact ⟨hw, hh⟩
    · rw [hother k hko] at hk ⊢
      exact hd.size k hk
  · dsimp only at hk ⊢
    rcases eq_or_ne k o with rfl | hko
    · exact hshape
    · rw [hother k hko] at hk ⊢
      exact hd.shape k hk
  · exact absurd (hfresh.symm.trans hf) Bool.false_ne_true

end Build

/-! ## Triangles -/

/-- The engine does all it is asked. -/
def EngineIo.Works (io : EngineIo) : Prop :=
  io.clear = true ∧ io.bands = true ∧ io.copy = true ∧ io.build = true ∧ io.draw = true ∧
    io.fit = true

/-- A card that triangles are replayed to. `W` is that the engine did all it was asked, and that the
clock did not wrap. -/
structure M8d3dCard.Replaying (g : ReplayShapes) (W : Prop) (s : M8d3dCard) : Prop where
  inv : s.c.Inv
  fresh : s.c.fresh = false
  drawn : W → s.Drawn g

section Triangles

variable {g : ReplayShapes} {W : Prop} {s : M8d3dCard} {c : M8d3dContext} {io : EngineIo}
  {v : Corners} {rgb : CornerRgb} {q : M8d3dReplay}

theorem M8d3dCard.Replaying.keeps (h : s.Replaying g W) (hk : s.c.Keeps c)
    (hm : W → s.c.SameMasks c) : M8d3dCard.Replaying g W { s with c := c } :=
  ⟨hk.inv h.inv, hk.fresh.trans h.fresh, fun hw => hk.drawn (hm hw) (h.drawn hw)⟩

theorem M8d3dCard.Replaying.beside (h : s.Replaying g W) {r : Rect} {col : Pixel → Fin 8 → Built}
    (hcol : ∀ p, p ∉ r → col p = s.col p)
    (hstamp : ∀ k, (s.c.stamp k).Live → (s.c.stamp k).box.Apart r) (hstrip : s.c.strip.Apart r) :
    M8d3dCard.Replaying g W { s with col := col } :=
  ⟨h.inv, h.fresh, fun hw => (h.drawn hw).beside hcol hstamp fun _ => hstrip⟩

theorem M8d3dCard.Replaying.spoilScratch (h : s.Replaying g W) :
    (s.spoil s.c.scratch).Replaying g W :=
  ⟨h.inv, h.fresh, fun hw => (h.drawn hw).spoilScratch h.inv⟩

/-- The corners relative to their box start at 0. -/
theorem Corners.rel_l (v : Corners) : v.rel.l = 0 := by
  unfold Corners.rel
  simp only [Corners.l]
  omega

theorem Corners.rel_t (v : Corners) : v.rel.t = 0 := by
  unfold Corners.rel
  simp only [Corners.t]
  omega

theorem Corners.rel_r (v : Corners) : v.rel.r = v.r - v.l := by
  unfold Corners.rel
  simp only [Corners.r]
  omega

theorem Corners.rel_b (v : Corners) : v.rel.b = v.b - v.t := by
  unfold Corners.rel
  simp only [Corners.b]
  omega

/-- The bands of a stamp are in the box that was cleared for it. -/
theorem bands_mem_box {x y : ℤ} {p : Pixel} (h : g.bands v.rel (p.1 - x, p.2 - y) = true) :
    p ∈ (⟨x, y, x + (v.r - v.l + 2), y + (v.b - v.t + 2)⟩ : Rect) := by
  have hbox := g.bands_box h
  rw [v.rel_l, v.rel_t, v.rel_r, v.rel_b] at hbox
  rw [Rect.mem_iff]
  dsimp only at hbox ⊢
  omega

/-- What was drawn where it was cleared first. -/
theorem drawStamp_built {x y : ℤ} {key : M8d3dShaded} {p : Pixel} {j : Fin 8}
    (hclear : s.col (x + p.1, y + p.2) j = .clear) :
    (s.drawStamp g key x y).col (x + p.1, y + p.2) j = g.stampPixel key p := by
  have hp : (x + p.1 - x, y + p.2 - y) = p := Prod.ext (by dsimp only; omega) (by dsimp only; omega)
  unfold M8d3dCard.drawStamp ReplayShapes.stampPixel
  dsimp only
  rw [hp]
  split_ifs
  · rfl
  · exact hclear

/-- A stamp drawn on a box that is its own. -/
theorem M8d3dCard.Replaying.drawStamp (h : s.Replaying g W) (rgb : CornerRgb) {x y : ℤ}
    (hstamp : ∀ k, (s.c.stamp k).Live → (s.c.stamp k).box.Apart
      ⟨x, y, x + (v.r - v.l + 2), y + (v.b - v.t + 2)⟩)
    (hstrip : s.c.strip.Apart ⟨x, y, x + (v.r - v.l + 2), y + (v.b - v.t + 2)⟩) :
    (s.drawStamp g ⟨v.rel, rgb⟩ x y).Replaying g W :=
  h.beside (fun _ hp => if_neg fun hb => hp (bands_mem_box hb)) hstamp hstrip

/-- A place keeps apart from the stamps in use when one of them is given up. -/
theorem Placed.unused {w h : ℤ} {p : Pixel} (hp : Placed c w h p) (o : Fin 32) :
    Placed { c with stamp := Function.update c.stamp o { c.stamp o with used := 0 } } w h p := by
  have hkeeps := c.keeps_stampUsed (k := o) 0 c.clock fun h => absurd rfl h
  refine ⟨hp.rows, hp.behind, fun k hk => ?_⟩
  rw [hkeeps.box hk]
  exact hp.apart k (hkeeps.stamp k hk).1

/-- What was cleared there is clear after the scratch was drawn in. -/
theorem Placed.cleared {w h x y : ℤ} (hp : Placed c (w + 1) (h + 1) (x, y)) (hc : c.Layout)
    (col : Pixel → Fin 8 → Built) {p : Pixel} (hin : InBox w h p) (j : Fin 8) :
    c.scratch.paint (fun _ _ => Built.other)
      (Rect.paint ⟨x, y, x + (w + 1), y + (h + 1)⟩ (fun _ _ => .clear) col)
      (x + p.1, y + p.2) j = .clear := by
  have hmem : (x + p.1, y + p.2) ∈ (⟨x, y, x + (w + 1), y + (h + 1)⟩ : Rect) := by
    unfold InBox at hin
    rw [Rect.mem_iff]
    dsimp only
    omega
  rw [Rect.paint_not_mem (hp.rows.apart_scratch hc _ hmem), Rect.paint_mem hmem]

theorem m8d3dStampBuild_replaying {o : Fin 32} {x y : ℤ} (hq : q.s.Replaying g W)
    (hp : Placed q.s.c (v.r - v.l + 2) (v.b - v.t + 2) (x, y)) :
    (m8d3dStampBuild g io v rgb o x y q).2.s.Replaying g W := by
  have hbox : (⟨x, y, x + v.r - v.l + 2, y + v.b - v.t + 2⟩ : Rect) =
      ⟨x, y, x + (v.r - v.l + 2), y + (v.b - v.t + 2)⟩ := by
    rw [Rect.mk.injEq]
    omega
  have hkeeps := q.s.c.keeps_stampUsed (k := o) 0 q.s.c.clock
    fun h => absurd rfl h
  have h1 := hq.keeps hkeeps fun _ => .of_eq rfl
  have ho : ¬ (Function.update q.s.c.stamp o { q.s.c.stamp o with used := 0 } o).Live := by
    rw [Function.update_self]
    exact fun h => h rfl
  have hstrip := hp.rows.apart_strip
  have hspoil : ∀ (t : M8d3dCard) (f : Pixel → Fin 8 → Built), t.Replaying g W → t.c = { q.s.c with
      stamp := Function.update q.s.c.stamp o { q.s.c.stamp o with used := 0 } } →
      M8d3dCard.Replaying g W { t with
        col := Rect.paint ⟨x, y, x + (v.r - v.l + 2), y + (v.b - v.t + 2)⟩ f t.col } :=
    fun t f ht heq => ht.beside (fun _ hp => Rect.paint_not_mem hp)
      (by rw [heq]; exact (hp.unused o).apart) (by rw [heq]; exact hstrip)
  have h2 := hspoil _ (fun _ _ => .clear) h1 rfl
  unfold m8d3dStampBuild M8d3dCard.spoil M8d3dCard.qClear
  dsimp only
  rw [hbox]
  split_ifs
  · exact hspoil _ _ h1 rfl
  · exact h2
  · exact hspoil _ _ h2.spoilScratch rfl
  · have h3 := h2.spoilScratch
    have h4 := h3.drawStamp (v := v) rgb (hp.unused o).apart hstrip
    have hw : v.r - v.l + 1 + 1 = v.r - v.l + 2 := by omega
    have hh : v.b - v.t + 1 + 1 = v.b - v.t + 2 := by omega
    rw [← hw, ← hh] at hp h4 ⊢
    have hclear {p : Pixel} (hin : InBox (v.r - v.l + 1) (v.b - v.t + 1) p) (j : Fin 8) :=
      hp.cleared hq.inv.layout q.s.col hin j
    let st : M8d3dStamp := ⟨⟨v.rel, rgb⟩, x, y, v.r - v.l + 1, v.b - v.t + 1, q.s.c.clock + 1⟩
    refine ⟨h4.inv.addStamp st ho (hp.unused o), h4.fresh, fun hw => ?_⟩
    refine M8d3dCard.Drawn.stampCopy ((h4.drawn hw).addStamp (o := o) st
      fun p hp' j => drawStamp_built (hclear hp' j)) ?_
    dsimp only
    rw [Function.update_self]
    exact fun p hp' j => drawStamp_built (hclear hp' j)

/-- A box from the strip's corner, of a mask's size, is in the strip. -/
theorem mem_strip_of_size {w h : ℤ} (hw : w ≤ c.tw) (hh : h ≤ c.mh) {p : Pixel}
    (hp : p ∈ (⟨c.mx, c.my, c.mx + w, c.my + h⟩ : Rect)) : p ∈ c.strip := by
  rw [Rect.mem_iff] at hp
  rw [M8d3dContext.strip, Rect.mem_iff]
  dsimp only at hp ⊢
  omega

@[simp] theorem eraseMask_c (o : Fin 8) : (s.eraseMask o).c = s.c := by
  unfold M8d3dCard.eraseMask
  dsimp only
  split_ifs <;> rfl

@[simp] theorem eraseMask_hits (o : Fin 8) : (s.eraseMask o).hits = s.hits := by
  unfold M8d3dCard.eraseMask
  dsimp only
  split_ifs <;> rfl

/-- Plane `o` of the strip once the box of the mask in use there is cleared : nothing is left. -/
theorem M8d3dCard.Drawn.eraseMask_clear {o : Fin 8} {p : Pixel} (hd : s.Drawn g)
    (hfresh : s.c.fresh = false) (hp : InBox s.c.tw s.c.mh p) :
    (s.eraseMask o).col (s.c.mx + p.1, s.c.my + p.2) o = .clear := by
  have hold := hd.strip hfresh o p hp
  unfold M8d3dContext.stripPixel at hold
  unfold M8d3dCard.eraseMask
  dsimp only
  by_cases hused : (s.c.mask o).used ≠ 0
  · rw [if_pos hused] at hold ⊢
    unfold M8d3dCard.clearPlane
    dsimp only
    by_cases hin : (s.c.mx + p.1, s.c.my + p.2) ∈
        (⟨s.c.mx, s.c.my, s.c.mx + (s.c.mask o).w, s.c.my + (s.c.mask o).h⟩ : Rect)
    · rw [Rect.paint_mem hin, Function.update_self]
    · rw [Rect.paint_not_mem hin, hold]
      refine if_neg fun hmask => hin ?_
      have hbox := hd.shape o hused p hmask
      rw [Rect.mem_iff]
      unfold InBox at hbox
      dsimp only
      omega
  · rw [if_neg hused] at hold ⊢
    exact hold

/-- Nothing but plane `o` of the strip is cleared. -/
theorem M8d3dCard.Drawn.eraseMask_other {o k : Fin 8} {p : Pixel} (hd : s.Drawn g)
    (hk : k ≠ o ∨ p ∉ s.c.strip) : (s.eraseMask o).col p k = s.col p k := by
  unfold M8d3dCard.eraseMask
  dsimp only
  split_ifs with hused
  · unfold M8d3dCard.clearPlane
    dsimp only
    by_cases hin : p ∈
        (⟨s.c.mx, s.c.my, s.c.mx + (s.c.mask o).w, s.c.my + (s.c.mask o).h⟩ : Rect)
    · rw [Rect.paint_mem hin]
      rcases hk with hk | hk
      · exact Function.update_of_ne hk ..
      · obtain ⟨hw, hh⟩ := hd.size o hused
        exact absurd (mem_strip_of_size hw hh hin) hk
    · rw [Rect.paint_not_mem hin]
  · rfl

/-- A mask's shape is in the box that is taken for it. -/
theorem mask_inBox {p : Pixel} (h : g.mask v.rel p = true) :
    InBox (v.r - v.l + 1) (v.b - v.t + 1) p := by
  have hbox := g.mask_box h
  rw [v.rel_l, v.rel_t, v.rel_r, v.rel_b] at hbox
  unfold InBox
  omega

/-- Entry `o` takes its mask : what is left of its last one goes first. -/
theorem m8d3dMaskBuild_drawn {o : Fin 8} {u : UInt32} (hd : s.Drawn g) (hi : s.c.Inv)
    (hfresh : s.c.fresh = false) (hw : v.r - v.l + 1 ≤ s.c.tw) (hh : v.b - v.t + 1 ≤ s.c.mh)
    (hu : u ≠ 0) :
    M8d3dCard.Drawn g { s with
      c := { s.c with
        mask := Function.update s.c.mask o ⟨v.rel, v.r - v.l + 1, v.b - v.t + 1, u⟩
        clock := u }
      col := (((s.eraseMask o).spoil s.c.scratch).drawMask g v.rel o).col } := by
  have hself : Function.update s.c.mask o ⟨v.rel, v.r - v.l + 1, v.b - v.t + 1, u⟩ o =
      ⟨v.rel, v.r - v.l + 1, v.b - v.t + 1, u⟩ := Function.update_self ..
  have hstrip : ∀ p : Pixel, g.mask v.rel (p.1 - s.c.mx, p.2 - s.c.my) = true → p ∈ s.c.strip := by
    intro p hp
    have hin := mask_inBox hp
    rw [M8d3dContext.strip, Rect.mem_iff]
    unfold InBox at hin
    dsimp only at hin ⊢
    omega
  refine hd.addMask (o := o) hi hfresh ?_ (fun k hk => Function.update_of_ne hk ..) ?_ ?_
    (fun p hp => ?_) (fun p k hp hk => ?_) fun p hp => ?_
  · rw [hself]
    exact hu
  · rw [hself]
    exact hw
  · rw [hself]
    exact hh
  · rw [hself] at hp ⊢
    exact mask_inBox hp
  · unfold M8d3dCard.drawMask M8d3dCard.spoil
    dsimp only
    rw [eraseMask_c, Rect.paint_not_mem hp]
    split_ifs with hmask
    · rw [Function.update_of_ne (hk.resolve_right fun h => h (hstrip p hmask))]
      exact hd.eraseMask_other hk
    · exact hd.eraseMask_other hk
  · have hat : (s.c.mx + p.1 - s.c.mx, s.c.my + p.2 - s.c.my) = p :=
      Prod.ext (by dsimp only; omega) (by dsimp only; omega)
    rw [hself]
    unfold M8d3dCard.drawMask M8d3dCard.spoil ReplayShapes.maskPixel
    dsimp only
    rw [eraseMask_c, hat, Rect.paint_not_mem (hi.layout.strip_apart_scratch _ (mem_strip hp))]
    split_ifs
    · exact Function.update_self ..
    · exact hd.eraseMask_clear hfresh hp

theorem m8d3dTriFit_replaying (hq : q.s.Replaying g W) : (m8d3dTriFit io q).s.Replaying g W :=
  hq.spoilScratch

theorem findStamp_some {key : M8d3dShaded} {k : Fin 32} (h : c.findStamp key = some k) :
    (c.stamp k).Live ∧ (c.stamp k).key = key := by
  have hfound := List.find?_some h
  simp only [decide_eq_true_iff] at hfound
  exact hfound

theorem findMask_some {n : Corners} {k : Fin 8} (h : c.findMask n = some k) :
    (c.mask k).Live ∧ (c.mask k).v = n := by
  have hfound := List.find?_some h
  simp only [decide_eq_true_iff] at hfound
  exact hfound

/-- The card once entry `o` has its mask. -/
theorem m8d3dMaskBuild_eq (o : Fin 8) (n : Corners) (w h : ℤ) (u : UInt32) (s : M8d3dCard) :
    ({ m8d3dMaskBuild g o n w h s with
      c := { (m8d3dMaskBuild g o n w h s).c with
        mask := Function.update (m8d3dMaskBuild g o n w h s).c.mask o
          { (m8d3dMaskBuild g o n w h s).c.mask o with used := u }
        clock := u } } : M8d3dCard) =
      { s with
        c := { s.c with mask := Function.update s.c.mask o ⟨n, w, h, u⟩, clock := u }
        col := (((s.eraseMask o).spoil s.c.scratch).drawMask g n o).col } := by
  unfold m8d3dMaskBuild M8d3dCard.drawMask M8d3dCard.spoil
  simp only [eraseMask_c, eraseMask_hits, Function.update_self, Function.update_idem]

theorem m8d3dMaskBuild_clock (o : Fin 8) (n : Corners) (w h : ℤ) (s : M8d3dCard) :
    (m8d3dMaskBuild g o n w h s).c.clock = s.c.clock := by
  unfold m8d3dMaskBuild M8d3dCard.drawMask M8d3dCard.spoil
  rw [eraseMask_c]

theorem m8d3dMaskBuild_replaying {o : Fin 8} {u : UInt32} (hs : s.Replaying g W)
    (hw : v.r - v.l + 1 ≤ s.c.tw) (hh : v.b - v.t + 1 ≤ s.c.mh) (hu : W → u ≠ 0) :
    M8d3dCard.Replaying g W (M8d3dCard.maskDraw o { s with
      c := { s.c with
        mask := Function.update s.c.mask o ⟨v.rel, v.r - v.l + 1, v.b - v.t + 1, u⟩
        clock := u }
      col := (((s.eraseMask o).spoil s.c.scratch).drawMask g v.rel o).col }) := by
  refine ⟨hs.inv.withMasks _ _, hs.fresh, fun hW => ?_⟩
  refine (m8d3dMaskBuild_drawn (hs.drawn hW) hs.inv hs.fresh hw hh (hu hW)).maskDraw hs.fresh ?_
  unfold M8d3dMask.Live
  dsimp only
  rw [Function.update_self]
  exact hu hW

/-- A place is looked for, for a triangle's stamp. -/
def M8d3dReplay.Places (q : M8d3dReplay) (v : Corners) (rgb : CornerRgb) : Prop :=
  q.s.c.stampOn = true ∧ ¬ v.b - v.t - 1 < 2 * M8D3D_BAND_ROWS ∧
    q.s.c.findStamp ⟨v.rel, rgb⟩ = none ∧ q.s.c.stampWasSeen ⟨v.rel, rgb⟩ = true ∧ 0 < q.build

/-- A triangle has a mask, or gets one. -/
def M8d3dReplay.UsesMask (q : M8d3dReplay) (v : Corners) : Prop :=
  (q.s.c.mh ≠ 0 ∧ v.b - v.t + 1 < q.s.c.mh ∧ v.r - v.l + 1 ≤ q.s.c.tw) ∧
    (q.s.c.findMask v.rel ≠ none ∨
      q.s.c.wasSeen v.rel = true ∧ 0 < q.build ∧ M8D3D_BUILD_COST ≤ q.s.c.credit)

/-- A triangle that has no stamp yet changes nothing that masks go by. -/
structure SameCached (q q' : M8d3dReplay) : Prop where
  c : q'.s.c = { q.s.c with
    stamp := q'.s.c.stamp
    stampSeen := q'.s.c.stampSeen
    stampSeenNext := q'.s.c.stampSeenNext
    stampX := q'.s.c.stampX
    stampY := q'.s.c.stampY
    stampShelf := q'.s.c.stampShelf }
  build : q'.build = q.build

theorem SameCached.refl (q : M8d3dReplay) : SameCached q q := ⟨rfl, rfl⟩

theorem SameCached.trans {q' q'' : M8d3dReplay} (h : SameCached q q') (h' : SameCached q' q'') :
    SameCached q q'' := by
  refine ⟨?_, h'.build.trans h.build⟩
  rw [h'.c, h.c]

theorem SameCached.usesMask {q' : M8d3dReplay} (h : SameCached q q') :
    (q'.UsesMask v ↔ q.UsesMask v) ∧ q'.s.c.clock = q.s.c.clock := by
  unfold M8d3dReplay.UsesMask
  rw [h.c, h.build]
  exact ⟨Iff.rfl, rfl⟩

theorem m8d3dStampBuild_flat {o : Fin 32} {x y : ℤ}
    (hflat : (m8d3dStampBuild g io v rgb o x y q).1 = false) :
    SameCached q (m8d3dStampBuild g io v rgb o x y q).2 := by
  unfold m8d3dStampBuild at hflat ⊢
  dsimp only at hflat ⊢
  split_ifs at hflat ⊢ <;> exact ⟨rfl, rfl⟩

theorem m8d3dTriStamped_flat (hflat : (m8d3dTriStamped g io v rgb q).1 = false) :
    SameCached q (m8d3dTriStamped g io v rgb q).2 := by
  unfold m8d3dTriStamped at hflat ⊢
  dsimp only at hflat ⊢
  by_cases hon : (!q.s.c.stampOn) = true
  · rw [if_pos hon]
    exact .refl q
  rw [if_neg hon] at hflat ⊢
  by_cases hlow : v.b - v.t - 1 < 2 * M8D3D_BAND_ROWS
  · rw [if_pos hlow]
    exact .refl q
  rw [if_neg hlow] at hflat ⊢
  cases hfind : q.s.c.findStamp ⟨v.rel, rgb⟩ with
  | some k =>
    rw [hfind] at hflat
    exact absurd hflat Bool.noConfusion
  | none =>
    rw [hfind] at hflat
    dsimp only at hflat ⊢
    by_cases hseen : (!q.s.c.stampWasSeen ⟨v.rel, rgb⟩) = true
    · rw [if_pos hseen]
      exact ⟨rfl, rfl⟩
    rw [if_neg hseen] at hflat ⊢
    by_cases hbuild : q.build ≤ 0
    · rw [if_pos hbuild]
      exact .refl q
    rw [if_neg hbuild] at hflat ⊢
    have hframe := m8d3dStampPlace_frame (v.r - v.l + 2) (v.b - v.t + 2) q.s.c
    generalize m8d3dStampPlace (v.r - v.l + 2) (v.b - v.t + 2) q.s.c = r at *
    obtain ⟨o, c⟩ := r
    have hplace : SameCached q { q with s := { q.s with c := c } } := by
      refine ⟨?_, rfl⟩
      dsimp only at hframe ⊢
      rw [hframe.eq]
    cases o with
    | none => exact hplace
    | some p => exact hplace.trans (m8d3dStampBuild_flat hflat)

theorem m8d3dTriShaded_flat (hflat : (m8d3dTriShaded g io v rgb q).1 = false) :
    SameCached q (m8d3dTriShaded g io v rgb q).2 := by
  unfold m8d3dTriShaded m8d3dPageBands at hflat ⊢
  dsimp only at hflat ⊢
  by_cases hon : ((m8d3dTriStamped g io v rgb q).2.ok && !(m8d3dTriStamped g io v rgb q).1) = true
  · rw [if_pos hon] at hflat ⊢
    split_ifs at hflat ⊢
    simp only [Bool.and_eq_true, Bool.not_eq_true'] at hon
    exact m8d3dTriStamped_flat hon.2
  · rw [if_neg hon] at hflat ⊢
    exact m8d3dTriStamped_flat hflat

theorem m8d3dTriStamped_replaying (io : EngineIo) (hq : q.s.Replaying g W)
    (hsafe : q.Places v rgb → q.s.c.ShelfSafe (v.r - v.l + 2) (v.b - v.t + 2)) :
    (m8d3dTriStamped g io v rgb q).2.s.Replaying g W := by
  unfold m8d3dTriStamped
  dsimp only
  by_cases hon : q.s.c.stampOn = true
  swap
  · rw [if_pos (by simpa using hon)]
    exact hq
  rw [if_neg (by simpa using hon)]
  by_cases hlow : v.b - v.t - 1 < 2 * M8D3D_BAND_ROWS
  · rw [if_pos hlow]
    exact hq
  rw [if_neg hlow]
  cases hfind : q.s.c.findStamp ⟨v.rel, rgb⟩ with
  | some k =>
    have hk := (findStamp_some hfind).1
    have hs := hq.keeps (q.s.c.keeps_stampUsed (q.s.c.clock + 1) (q.s.c.clock + 1)
      fun _ => hk) fun _ => .of_eq rfl
    refine ⟨hs.inv, hs.fresh, fun hW => (hs.drawn hW).stampCopy ?_⟩
    dsimp only
    rw [Function.update_self]
    exact (hq.drawn hW).stamp k hk
  | none =>
    dsimp only
    by_cases hseen : q.s.c.stampWasSeen ⟨v.rel, rgb⟩ = true
    swap
    · rw [if_pos (by simpa using hseen)]
      exact hq.keeps (q.s.c.keeps_masks _ _ _ _ _ _ _) fun _ => .of_eq rfl
    rw [if_neg (by simpa using hseen)]
    by_cases hbuild : q.build ≤ 0
    · rw [if_pos hbuild]
      exact hq
    rw [if_neg hbuild]
    have hl := v.l_le_r
    have ht := v.t_le_b
    obtain ⟨hshelves, hoff, hframe, hplaced⟩ := m8d3dStampPlace_spec hq.inv.shelves hq.inv.layout
      hq.inv.off (w := v.r - v.l + 2) (h := v.b - v.t + 2) (by omega) (by omega)
      (hsafe ⟨hon, hlow, hfind, hseen, by omega⟩)
    have hplace : M8d3dCard.Replaying g W { q.s with
        c := (m8d3dStampPlace (v.r - v.l + 2) (v.b - v.t + 2) q.s.c).2 } :=
      ⟨⟨hframe.layout hq.inv.layout, hshelves, hoff⟩, hframe.fewer.fresh.trans hq.fresh,
        fun hW => hframe.fewer.drawn hframe.sameMasks (hq.drawn hW)⟩
    generalize m8d3dStampPlace (v.r - v.l + 2) (v.b - v.t + 2) q.s.c = r at *
    match r with
    | (none, c) => exact hplace
    | (some (x, y), c) => exact m8d3dStampBuild_replaying hplace (hplaced _ rfl)

theorem m8d3dTriCached_replaying (hq : q.s.Replaying g W) (hio : W → io.Works)
    (hclock : W → q.UsesMask v → q.s.c.clock + 1 ≠ 0) :
    (m8d3dTriCached g io v q).s.Replaying g W := by
  unfold m8d3dTriCached
  dsimp only
  by_cases hsize : q.s.c.mh ≠ 0 ∧ v.b - v.t + 1 < q.s.c.mh ∧ v.r - v.l + 1 ≤ q.s.c.tw
  swap
  · rw [if_neg hsize]
    exact m8d3dTriFit_replaying hq
  rw [if_pos hsize]
  cases hfind : q.s.c.findMask v.rel with
  | some k =>
    have hk := (findMask_some hfind).1
    have hnext := fun hW => hclock hW ⟨hsize, .inl (by rw [hfind]; exact nofun)⟩
    have hs := hq.keeps (q.s.c.keeps_masks q.s.c.stampSeen q.s.c.stampSeenNext
      (Function.update q.s.c.mask k { q.s.c.mask k with used := q.s.c.clock + 1 }) q.s.c.seen
      q.s.c.seenNext (q.s.c.clock + 1)
      (if q.s.c.credit < M8D3D_CREDIT_MAX then q.s.c.credit + 1 else q.s.c.credit))
      fun hW => M8d3dContext.sameMasks_used hk (hnext hW)
    refine ⟨hs.inv, hs.fresh, fun hW => (hs.drawn hW).maskDraw hs.fresh ?_⟩
    unfold M8d3dMask.Live
    dsimp only
    rw [Function.update_self]
    exact hnext hW
  | none =>
    dsimp only
    by_cases hseen : q.s.c.wasSeen v.rel = true
    swap
    · rw [if_pos (by simpa using hseen)]
      exact m8d3dTriFit_replaying
        (hq.keeps (q.s.c.keeps_masks _ _ _ _ _ _ _) fun _ => .of_eq rfl)
    rw [if_neg (by simpa using hseen)]
    by_cases hpaid : 0 < q.build ∧ M8D3D_BUILD_COST ≤ q.s.c.credit
    swap
    · rw [if_neg hpaid]
      exact m8d3dTriFit_replaying hq
    rw [if_pos hpaid]
    have hs := hq.keeps (q.s.c.keeps_masks q.s.c.stampSeen q.s.c.stampSeenNext q.s.c.mask q.s.c.seen
      q.s.c.seenNext q.s.c.clock (q.s.c.credit - M8D3D_BUILD_COST)) fun _ => .of_eq rfl
    by_cases hbuilt : io.build = true
    · rw [if_neg (by simpa using hbuilt)]
      rw [m8d3dMaskBuild_eq, m8d3dMaskBuild_clock]
      exact m8d3dMaskBuild_replaying hs hsize.2.2 (by dsimp only; omega)
        fun hW => hclock hW ⟨hsize, .inr ⟨hseen, hpaid⟩⟩
    · rw [if_pos (by simpa using hbuilt)]
      exact ⟨hs.inv, hs.fresh, fun hW => absurd (hio hW).2.2.2.1 hbuilt⟩

theorem m8d3dReplayTri_replaying (hq : q.s.Replaying g W) (hio : W → io.Works)
    (hsafe : q.ok = true → rgb.c0 ≠ rgb.c1 ∨ rgb.c1 ≠ rgb.c2 → q.Places v rgb →
      q.s.c.ShelfSafe (v.r - v.l + 2) (v.b - v.t + 2))
    (hclock : W → q.ok = true → q.UsesMask v → q.s.c.clock + 1 ≠ 0) :
    (m8d3dReplayTri g io v rgb q).s.Replaying g W := by
  unfold m8d3dReplayTri
  by_cases hok : q.ok = true
  swap
  · rw [if_pos (by simpa using hok)]
    exact hq
  rw [if_neg (by simpa using hok)]
  dsimp only
  have hshaded : (if rgb.c0 ≠ rgb.c1 ∨ rgb.c1 ≠ rgb.c2 then m8d3dTriShaded g io v rgb q
      else (false, q)).2.s.Replaying g W := by
    split_ifs with hrgb
    · have hstamped := m8d3dTriStamped_replaying io hq (hsafe hok hrgb)
      unfold m8d3dTriShaded m8d3dPageBands
      dsimp only
      split_ifs
      · exact hstamped.spoilScratch
      · exact hstamped
      · exact hstamped
    · exact hq
  have hflat : (if rgb.c0 ≠ rgb.c1 ∨ rgb.c1 ≠ rgb.c2 then m8d3dTriShaded g io v rgb q
      else (false, q)).1 = false → SameCached q (if rgb.c0 ≠ rgb.c1 ∨ rgb.c1 ≠ rgb.c2 then
        m8d3dTriShaded g io v rgb q else (false, q)).2 := by
    split_ifs with hrgb
    · exact m8d3dTriShaded_flat
    · exact fun _ => ⟨rfl, rfl⟩
  generalize (if rgb.c0 ≠ rgb.c1 ∨ rgb.c1 ≠ rgb.c2 then m8d3dTriShaded g io v rgb q
    else (false, q)) = r at hshaded hflat ⊢
  split_ifs with hcached
  · simp only [Bool.and_eq_true, Bool.not_eq_true'] at hcached
    obtain ⟨huses, htick⟩ := (hflat hcached.2).usesMask (v := v)
    refine m8d3dTriCached_replaying hshaded hio fun hW h => ?_
    rw [htick]
    exact hclock hW hok (huses.1 h)
  · exact hshaded

end Triangles

/-! ## Runs -/

/-- A replay between its triangles. -/
structure M8d3dReplay.Sound (g : ReplayShapes) (W : Prop) (q : M8d3dReplay) : Prop where
  inv : q.s.c.Inv
  fresh : q.ok = true → q.s.c.fresh = false
  drawn : W → q.s.Drawn g

/-- The engine does what the step asks of it. -/
def ReplayStep.Works : ReplayStep → Prop
  | .start starts clears erases => starts = true ∧ clears = true ∧ erases = true
  | .tri io _ _ => io.Works
  | .finish => True

instance (io : EngineIo) : Decidable io.Works := by unfold EngineIo.Works; infer_instance

instance : (step : ReplayStep) → Decidable step.Works
  | .start .. => by unfold ReplayStep.Works; infer_instance
  | .tri io _ _ => inferInstanceAs (Decidable io.Works)
  | .finish => .isTrue trivial

/-- The clock does not wrap to 0 where a mask is used. -/
def ReplayStep.Ticks (q : M8d3dReplay) : ReplayStep → Prop
  | .tri _ v _ => q.ok = true → q.UsesMask v → q.s.c.clock + 1 ≠ 0
  | _ => True

instance ReplayStep.decidableTicks (q : M8d3dReplay) :
    (step : ReplayStep) → Decidable (step.Ticks q)
  | .start .. => .isTrue trivial
  | .tri _ v _ => by
    unfold ReplayStep.Ticks M8d3dReplay.UsesMask
    infer_instance
  | .finish => .isTrue trivial

/-- No stamp is placed on the strip's first row. -/
def ReplayStep.Safe (q : M8d3dReplay) : ReplayStep → Prop
  | .tri _ v rgb => q.ok = true → rgb.c0 ≠ rgb.c1 ∨ rgb.c1 ≠ rgb.c2 → q.Places v rgb →
      q.s.c.ShelfSafe (v.r - v.l + 2) (v.b - v.t + 2)
  | _ => True

/-- Every step of a run is safe where it is taken. -/
def SafeRun (g : ReplayShapes) : M8d3dReplay → List ReplayStep → Prop
  | _, [] => True
  | q, step :: steps => step.Safe q ∧ SafeRun g (replayStep g q step) steps

/-- The clock does not wrap to 0 where a mask is used in a run. -/
def TicksRun (g : ReplayShapes) : M8d3dReplay → List ReplayStep → Prop
  | _, [] => True
  | q, step :: steps => step.Ticks q ∧ TicksRun g (replayStep g q step) steps

instance ReplayStep.decidableSafe (q : M8d3dReplay) :
    (step : ReplayStep) → Decidable (step.Safe q)
  | .start .. => .isTrue trivial
  | .tri _ v rgb => by
    unfold ReplayStep.Safe M8d3dReplay.Places M8d3dContext.ShelfSafe
    infer_instance
  | .finish => .isTrue trivial

instance SafeRun.decidable (g : ReplayShapes) :
    (q : M8d3dReplay) → (steps : List ReplayStep) → Decidable (SafeRun g q steps)
  | _, [] => .isTrue trivial
  | q, step :: steps =>
    have := SafeRun.decidable g (replayStep g q step) steps
    inferInstanceAs (Decidable (step.Safe q ∧ SafeRun g (replayStep g q step) steps))

instance TicksRun.decidable (g : ReplayShapes) :
    (q : M8d3dReplay) → (steps : List ReplayStep) → Decidable (TicksRun g q steps)
  | _, [] => .isTrue trivial
  | q, step :: steps =>
    have := TicksRun.decidable g (replayStep g q step) steps
    inferInstanceAs (Decidable (step.Ticks q ∧ TicksRun g (replayStep g q step) steps))

section Runs

variable {g : ReplayShapes} {W : Prop} {q : M8d3dReplay} {c old : M8d3dContext} {fb16 : Bool}
  {sx sy tw sh : ℤ}

theorem M8d3dContext.Inv.withFresh (hi : c.Inv) (fresh : Bool) :
    M8d3dContext.Inv { c with fresh := fresh } :=
  have hl := hi.layout
  have hs := hi.shelves
  ⟨⟨hl.above, hl.strip, hl.width, hl.scratchX, hl.scratchY⟩,
    ⟨hs.rows, hs.apart, hs.behind, hs.left, hs.top, hs.shelf, hs.cursor⟩, hi.off⟩

@[simp] theorem freshen_c (clears : Bool) (s : M8d3dCard) :
    (s.freshen clears).c = { s.c with fresh := false } := by
  unfold M8d3dCard.freshen
  dsimp only
  split_ifs <;> rfl

/-- The first clearing : no mask is in use yet, and nothing is left on the strip. -/
theorem freshen_drawn {s : M8d3dCard} (hi : s.c.Inv) (hd : s.Drawn g) (hfresh : s.c.fresh = true) :
    (s.freshen true).Drawn g := by
  have hspoiled := hd.spoilScratch hi
  have hcleared : M8d3dCard.Drawn g ((s.spoil s.c.scratch).qClear s.c.strip) :=
    hspoiled.beside (fun _ hp => Rect.paint_not_mem hp)
      (fun k hk p hp hq => (hi.shelves.rows k hk).apart_strip p hq hp)
      fun hf => absurd (hfresh.symm.trans hf) nofun
  have hmask := hd.fresh hfresh
  have hnone : ∀ k p, s.c.stripPixel g k p = .clear := fun k p => if_neg (hmask k)
  have hcol : ∀ k p, InBox s.c.tw s.c.mh p → ((s.spoil s.c.scratch).qClear s.c.strip).col
      (s.c.mx + p.1, s.c.my + p.2) k = .clear := by
    intro k p hp
    unfold M8d3dCard.qClear
    dsimp only
    rw [Rect.paint_mem (mem_strip hp)]
  unfold M8d3dCard.freshen
  dsimp only
  split_ifs with hmh
  · refine ⟨hspoiled.stamp, fun _ k p hp => ?_, hd.size, hd.shape, nofun, hd.hits⟩
    obtain ⟨-, -, h1, h2⟩ := hp
    exact absurd (hmh ▸ h2 : p.2 < 0) (by omega)
  · exact ⟨hcleared.stamp, fun _ k p hp => (hcol k p hp).trans (hnone k p).symm, hd.size, hd.shape,
      nofun, hd.hits⟩
  · contradiction

theorem replayStep_sound {step : ReplayStep} (hq : q.Sound g W) (hworks : W → step.Works)
    (hticks : W → step.Ticks q) (hsafe : step.Safe q) : (replayStep g q step).Sound g W := by
  cases step with
  | start starts clears erases =>
    dsimp only [replayStep]
    split_ifs with hstarts hfresh
    · exact ⟨hq.inv, nofun, hq.drawn⟩
    · refine ⟨?_, fun _ => ?_, fun hW => ?_⟩
      · dsimp only
        rw [freshen_c]
        exact hq.inv.withFresh false
      · dsimp only
        rw [freshen_c]
      · obtain ⟨-, rfl, -⟩ := hworks hW
        exact freshen_drawn hq.inv (hq.drawn hW) hfresh
    · exact ⟨hq.inv, fun _ => Bool.eq_false_iff.2 hfresh, hq.drawn⟩
  | tri io v rgb =>
    by_cases hok : q.ok = true
    · have htri := m8d3dReplayTri_replaying ⟨hq.inv, hq.fresh hok, hq.drawn⟩ hworks hsafe hticks
      exact ⟨htri.inv, fun _ => htri.fresh, htri.drawn⟩
    · have hsame : replayStep g q (.tri io v rgb) = q := if_pos (by simpa using hok)
      rw [hsame]
      exact hq
  | finish =>
    dsimp only [replayStep]
    split_ifs
    · exact ⟨hq.inv, hq.fresh, fun hW => (hq.drawn hW).spoilScratch hq.inv⟩
    · exact hq

theorem replayRun_sound : ∀ {steps : List ReplayStep} {q : M8d3dReplay}, q.Sound g W →
    (W → ∀ step ∈ steps, step.Works) → (W → TicksRun g q steps) → SafeRun g q steps →
    (replayRun g q steps).Sound g W
  | [], _, hq, _, _, _ => hq
  | step :: _, _, hq, hworks, hticks, hsafe => by
    rw [replayRun, List.foldl_cons]
    exact replayRun_sound
      (replayStep_sound hq (fun hW => hworks hW step (List.mem_cons_self ..))
        (fun hW => (hticks hW).1) hsafe.1)
      (fun hW s hs => hworks hW s (List.mem_cons_of_mem _ hs)) (fun hW => (hticks hW).2) hsafe.2

/-- A context that takes stamps starts with none, at the top of the column. -/
theorem m8d3dContextCreate_inv (hon : (m8d3dContextCreate fb16 sx sy tw sh old).stampOn = true) :
    (m8d3dContextCreate fb16 sx sy tw sh old).Inv := by
  unfold m8d3dContextCreate at hon ⊢
  dsimp only at hon ⊢
  split_ifs at hon ⊢ with hstrip hstamps
  obtain ⟨-, -, hwide⟩ := hstrip
  obtain ⟨rfl, rfl, -⟩ := hstamps
  refine ⟨⟨?_, ?_, ?_, rfl, rfl⟩, ⟨?_, ?_, ?_, Int.le_refl _, Int.le_refl _, Int.le_refl _,
    .inl ?_⟩, .inl ?_⟩
  · exact show (0 : ℤ) < 512 by omega
  · exact show (0 : ℤ) ≤ 128 by omega
  · exact show 0 ≤ tw by omega
  · exact fun _ hk => absurd rfl hk
  · exact fun _ _ hk => absurd rfl hk
  · exact fun _ hk => absurd rfl hk
  · exact show (0 : ℤ) + 0 ≤ 512 by omega
  · exact show (0 : ℤ) < 512 by omega

theorem m8d3dContextCreate_stamp (k : Fin 32) :
    ¬ ((m8d3dContextCreate fb16 sx sy tw sh old).stamp k).Live := by
  unfold m8d3dContextCreate
  dsimp only
  split_ifs <;> exact fun h => h rfl

theorem m8d3dContextCreate_mask (k : Fin 8) :
    ¬ ((m8d3dContextCreate fb16 sx sy tw sh old).mask k).Live := by
  unfold m8d3dContextCreate
  dsimp only
  split_ifs <;> exact fun h => h rfl

theorem m8d3dContextCreate_fresh (fb16 : Bool) (sx sy tw sh : ℤ) (old : M8d3dContext) :
    (m8d3dContextCreate fb16 sx sy tw sh old).fresh = true := by
  unfold m8d3dContextCreate
  dsimp only
  split_ifs <;> rfl

/-- A new context, before its first frame. -/
def M8d3dReplay.create (fb16 : Bool) (sx sy tw sh : ℤ) (old : M8d3dContext)
    (col : Pixel → Fin 8 → Built) : M8d3dReplay :=
  ⟨false, 0, m8d3dContextCreate fb16 sx sy tw sh old, col, []⟩

theorem M8d3dReplay.create_sound (col : Pixel → Fin 8 → Built)
    (hon : (m8d3dContextCreate fb16 sx sy tw sh old).stampOn = true) :
    (create fb16 sx sy tw sh old col).Sound g W :=
  ⟨m8d3dContextCreate_inv hon, nofun, fun _ =>
    ⟨fun k hk => absurd hk (m8d3dContextCreate_stamp k), fun hf =>
      absurd ((m8d3dContextCreate_fresh fb16 sx sy tw sh old).symm.trans hf) nofun,
      fun k hk => absurd hk (m8d3dContextCreate_mask k),
      fun k hk => absurd hk (m8d3dContextCreate_mask k), fun _ k => m8d3dContextCreate_mask k,
      nofun⟩⟩

/-- Every stamp in use is in the column, outside the mask strip and outside the scratch, and no two
share a pixel. -/
structure M8d3dContext.StampsApart (c : M8d3dContext) : Prop where
  column : ∀ k, (c.stamp k).Live → ∀ p ∈ (c.stamp k).box, c.mx ≤ p.1 ∧ p.1 < c.mx + c.tw ∧ 0 ≤ p.2
  strip : ∀ k, (c.stamp k).Live → (c.stamp k).box.Apart c.strip
  scratch : ∀ k, (c.stamp k).Live → (c.stamp k).box.Apart c.scratch
  apart : ∀ j k, (c.stamp j).Live → (c.stamp k).Live → j ≠ k →
    (c.stamp j).box.Apart (c.stamp k).box

theorem M8d3dContext.Inv.stampsApart (hi : c.Inv) : c.StampsApart := by
  refine ⟨fun k hk p hp => ?_, fun k hk => (hi.shelves.rows k hk).apart_strip.symm,
    fun k hk => (hi.shelves.rows k hk).apart_scratch hi.layout, hi.shelves.apart⟩
  have hrows := hi.shelves.rows k hk
  rw [Rect.mem_iff] at hp
  unfold M8d3dContext.InRows at hrows
  omega

/-- In every run of frames that never places a stamp on the strip's first row, in each state
reached, stamps share no pixel with each other, the strip or the scratch. When the engine did all
it was asked and the clock did not wrap, each copy so far was of what was built for its key. -/
theorem m8d3d_stamps_apart (g : ReplayShapes) (col : Pixel → Fin 8 → Built)
    (frames : List ReplayFrame) (n : ℕ)
    (hon : (m8d3dContextCreate fb16 sx sy tw sh old).stampOn = true)
    (hsafe : SafeRun g (.create fb16 sx sy tw sh old col)
      ((frames.flatMap ReplayFrame.steps).take n)) :
    (replayRun g (.create fb16 sx sy tw sh old col)
        ((frames.flatMap ReplayFrame.steps).take n)).s.c.StampsApart ∧
      ((∀ step ∈ (frames.flatMap ReplayFrame.steps).take n, step.Works) →
        TicksRun g (.create fb16 sx sy tw sh old col)
          ((frames.flatMap ReplayFrame.steps).take n) →
        ∀ x ∈ (replayRun g (.create fb16 sx sy tw sh old col)
          ((frames.flatMap ReplayFrame.steps).take n)).s.hits, x.Exact g) := by
  have hrun := replayRun_sound
    (W := (∀ step ∈ (frames.flatMap ReplayFrame.steps).take n, step.Works) ∧
      TicksRun g (.create fb16 sx sy tw sh old col) ((frames.flatMap ReplayFrame.steps).take n))
    (M8d3dReplay.create_sound col hon) And.left And.right hsafe
  exact ⟨hrun.inv.stampsApart, fun hworks hticks => (hrun.drawn ⟨hworks, hticks⟩).hits⟩

end Runs

/-! ## A shelf that ends on the strip -/

/-- A context that was never created. -/
def m8d3dCtx : M8d3dContext where
  stamp := fun _ => ⟨⟨⟨(0, 0), (0, 0), (0, 0)⟩, ⟨0, 0, 0⟩⟩, 0, 0, 0, 0, 0⟩
  stampSeen := fun _ => ⟨⟨(0, 0), (0, 0), (0, 0)⟩, ⟨0, 0, 0⟩⟩
  stampSeenNext := 0
  stampOn := false
  stampX := 0
  stampY := 0
  stampShelf := 0
  mx := 0
  my := 0
  mh := 0
  mask := fun _ => ⟨⟨(0, 0), (0, 0), (0, 0)⟩, 0, 0, 0⟩
  seen := fun _ => ⟨(0, 0), (0, 0), (0, 0)⟩
  seenNext := 0
  clock := 0
  credit := 0
  sx := 0
  sy := 0
  tw := 0
  sh := 0
  fresh := false

/-- The pixels of a triangle : those that no side has on its outer side. -/
def inCorners (v : Corners) (p : Pixel) : Bool :=
  let side := fun a b : Pixel => (b.1 - a.1) * (p.2 - a.2) - (b.2 - a.2) * (p.1 - a.1)
  decide (v.l ≤ p.1 ∧ p.1 ≤ v.r ∧ v.t ≤ p.2 ∧ p.2 ≤ v.b) &&
    (decide (0 ≤ side v.v0 v.v1 ∧ 0 ≤ side v.v1 v.v2 ∧ 0 ≤ side v.v2 v.v0) ||
      decide (side v.v0 v.v1 ≤ 0 ∧ side v.v1 v.v2 ≤ 0 ∧ side v.v2 v.v0 ≤ 0))

theorem inCorners_box {v : Corners} {p : Pixel} (h : inCorners v p = true) :
    (v.l ≤ p.1 ∧ p.1 ≤ v.r) ∧ v.t ≤ p.2 ∧ p.2 ≤ v.b := by
  unfold inCorners at h
  simp only [Bool.and_eq_true, decide_eq_true_iff] at h
  exact ⟨⟨h.1.1, h.1.2.1⟩, h.1.2.2.1, h.1.2.2.2⟩

def filled : ReplayShapes where
  bands := inCorners
  mask := inCorners
  bands_box h := by
    have := inCorners_box h
    omega
  mask_box := inCorners_box

/-- A frame of right triangles with these legs, red at the right angle, and an engine that works. -/
def legFrame (legs : List Pixel) : ReplayFrame :=
  ⟨true, true, true, legs.map fun d => (⟨true, true, true, true, true, true⟩,
    ⟨(0, 0), (d.1, 0), (0, d.2)⟩, ⟨0xFF0000, 0, 0⟩)⟩

/-- A frame of right triangles in one colour. -/
def flatFrame (legs : List Pixel) : ReplayFrame :=
  ⟨true, true, true, legs.map fun d => (⟨true, true, true, true, true, true⟩,
    ⟨(0, 0), (d.1, 0), (0, d.2)⟩, ⟨0xFF0000, 0xFF0000, 0xFF0000⟩)⟩

/-- Two shaded triangles and one in one colour, each seen, built and copied again. -/
def legFrames : List ReplayFrame :=
  [legFrame [(200, 20), (90, 40)], legFrame [(200, 20)], legFrame [(90, 40)],
    legFrame [(200, 20), (90, 40)], flatFrame [(50, 30)], flatFrame [(50, 30)],
    flatFrame [(50, 30)]]

/-- What each copy was made from. -/
def Hit.ofStamp : Hit → Bool
  | .stamp .. => true
  | .mask .. => false

/-- Two stamps are in use, and after four copies of them a mask is drawn from twice. -/
theorem m8d3d_stamps_apart_leg :
    ((replayRun filled (.create true 640 512 352 480 m8d3dCtx fun _ _ => .other)
        ((legFrames.flatMap ReplayFrame.steps).take 23)).s.c.StampsApart ∧
      ∀ x ∈ (replayRun filled (.create true 640 512 352 480 m8d3dCtx fun _ _ => .other)
        ((legFrames.flatMap ReplayFrame.steps).take 23)).s.hits, x.Exact filled) ∧
      (List.finRange 32).countP (fun k => decide (((replayRun filled
        (.create true 640 512 352 480 m8d3dCtx fun _ _ => .other)
          ((legFrames.flatMap ReplayFrame.steps).take 23)).s.c.stamp k).used ≠ 0)) = 2 ∧
      (replayRun filled (.create true 640 512 352 480 m8d3dCtx fun _ _ => .other)
        ((legFrames.flatMap ReplayFrame.steps).take 23)).s.hits.map Hit.ofStamp =
          [true, true, true, true, false, false] := by
  refine ⟨⟨(m8d3d_stamps_apart filled (fun _ _ => .other) legFrames 23 (by decide)
    (by decide +kernel)).1, (m8d3d_stamps_apart filled (fun _ _ => .other) legFrames 23 (by decide)
    (by decide +kernel)).2 ?_ ?_⟩, ?_, ?_⟩
  all_goals decide +kernel

/-- Shelves of 171, 171 and 170 rows end on row 512, where the strip starts. -/
def shelfFrames : List ReplayFrame :=
  [legFrame [(200, 169), (201, 169), (200, 168), (200, 20)], legFrame [(200, 169)],
    legFrame [(201, 169)], legFrame [(200, 168)], legFrame [(200, 20)]]

/-- The fourth stamp lies on the mask strip. -/
theorem m8d3d_stamp_on_strip :
    ¬ (replayRun filled (.create true 640 512 352 480 m8d3dCtx fun _ _ => .other)
      (shelfFrames.flatMap ReplayFrame.steps)).s.c.StampsApart := by
  intro h
  have hlive : ((replayRun filled (.create true 640 512 352 480 m8d3dCtx fun _ _ => .other)
      (shelfFrames.flatMap ReplayFrame.steps)).s.c.stamp 3).used ≠ 0 := by decide +kernel
  have hbox : ((replayRun filled (.create true 640 512 352 480 m8d3dCtx fun _ _ => .other)
      (shelfFrames.flatMap ReplayFrame.steps)).s.c.stamp 3).box = ⟨640, 512, 842, 534⟩ := by
    decide +kernel
  have hstrip : (replayRun filled (.create true 640 512 352 480 m8d3dCtx fun _ _ => .other)
      (shelfFrames.flatMap ReplayFrame.steps)).s.c.strip = ⟨640, 512, 992, 640⟩ := by
    decide +kernel
  have hapart := h.strip 3 hlive
  rw [hbox, hstrip] at hapart
  exact hapart (640, 512) (by decide) (by decide)

end Inboard
