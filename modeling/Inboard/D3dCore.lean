import Inboard.D3dReplay
import Inboard.D3dSpans

/-!
# A mask's core and parts

The core's rows are bounded by spans that hold only pixels of the shape, and what is left of the
shape by spans that hold all of it. On each of its rows the core is between two pixels of the edges
(`core_left`, `core_right`), as the triangle is convex ; the parts are bounded by the rows that they
end on and the corners' rows, where an edge reaches furthest (`exists_partRow`).
-/

set_option linter.unusedSectionVars false

namespace Inboard

/-! ## The core -/

section Core

variable {n : Corners} {L : Fin 3 → Set Pixel} {w h a b y : ℤ}

/-- An inner span is in the box, if it is not empty. -/
theorem rowSpan_bounds (hin : ∀ p ∈ n.points, InBox w h p) (hw : w ≤ 0x8000) (y : ℤ) :
    0 ≤ (m8d3dRowSpan n y true).1 ∧ (m8d3dRowSpan n y true).2 ≤ 0x7FFF := by
  have hcross : ∀ e ∈ n.edges, OnRow y e → (topDown e).1.2 < (topDown e).2.2 →
      0 ≤ edgeX (topDown e).1 (topDown e).2 y ∧ edgeX (topDown e).1 (topDown e).2 y ≤ 0x7FFF := by
    intro e he hon hslope
    obtain ⟨ha, hb⟩ := Corners.topDown_mem_points he
    have hx := edgeX_between hslope hon.1 hon.2
    have h1 := hin _ ha
    have h2 := hin _ hb
    unfold Between at hx
    unfold InBox at h1 h2
    omega
  have hends : ∀ e ∈ n.edges, 0 ≤ (topDown e).1.1 ∧ (topDown e).1.1 ≤ 0x7FFF ∧
      0 ≤ (topDown e).2.1 ∧ (topDown e).2.1 ≤ 0x7FFF := by
    intro e he
    obtain ⟨ha, hb⟩ := Corners.topDown_mem_points he
    have h1 := hin _ ha
    have h2 := hin _ hb
    unfold InBox at h1 h2
    omega
  refine ⟨?_, ?_⟩
  · rcases foldl_edgeSpan_left y n.edges noSpan with h | ⟨e, he, hon, ⟨hslope, h⟩ | ⟨-, h⟩⟩
    · exact Int.le_trans (by decide) (Int.le_of_eq h.symm)
    · have hx := hcross e he hon hslope
      have hrun := edgeRun_nonneg hslope
      unfold m8d3dRowSpan
      omega
    · have hx := hends e he
      unfold m8d3dRowSpan
      omega
  · rcases foldl_edgeSpan_right y n.edges noSpan with h | ⟨e, he, hon, ⟨hslope, h⟩ | ⟨-, h⟩⟩
    · exact Int.le_trans (Int.le_of_eq h) (by decide)
    · have hx := hcross e he hon hslope
      have hrun := edgeRun_nonneg hslope
      unfold m8d3dRowSpan
      omega
    · have hx := hends e he
      unfold m8d3dRowSpan
      omega

/-- No two corners are on different rows. -/
def Flat (n : Corners) : Prop := ∀ u ∈ n.points, ∀ w ∈ n.points, u.2 = w.2

/-- Of a flat triangle one of two rows is empty. -/
theorem rowSpan_of_flat (hflat : Flat n) (hab : a < b) :
    m8d3dRowSpan n a true = noSpan ∨ m8d3dRowSpan n b true = noSpan := by
  have hempty : ∀ y, y ≠ n.v0.2 → m8d3dRowSpan n y true = noSpan := by
    intro y hne
    have hoff : ∀ e ∈ n.edges, ∀ s, edgeSpan y true s e = s := by
      intro e he s
      refine edgeSpan_off true s fun hon => hne ?_
      obtain ⟨h1, h2⟩ := Corners.topDown_mem_points he
      have e1 := hflat _ h1 n.v0 (Corners.mem_points.mpr (.inl rfl))
      have e2 := hflat _ h2 n.v0 (Corners.mem_points.mpr (.inl rfl))
      unfold OnRow at hon
      omega
    unfold m8d3dRowSpan Corners.edges
    rw [List.foldl_cons, List.foldl_cons, List.foldl_cons, List.foldl_nil,
      hoff _ (Corners.mem_edges.mpr (.inl rfl)), hoff _ (Corners.mem_edges.mpr (.inr (.inl rfl))),
      hoff _ (Corners.mem_edges.mpr (.inr (.inr rfl)))]
  by_cases ha : a = n.v0.2
  · exact .inr (hempty b (by omega))
  · exact .inl (hempty a ha)

theorem exists_off_row (hflat : ¬ Flat n) (y : ℤ) : ∃ w ∈ n.points, w.2 ≠ y := by
  by_contra hall
  refine hflat fun u hu w hw => ?_
  have h1 : u.2 = y := not_not.mp fun h => hall ⟨u, hu, h⟩
  have h2 : w.2 = y := not_not.mp fun h => hall ⟨w, hw, h⟩
  exact h1.trans h2.symm

/-- An inner span that has an end on the left has it where the triangle reaches. -/
theorem rowSpan_left (hflat : ¬ Flat n) (hne : (m8d3dRowSpan n y true).1 ≠ 0x7FFF) :
    ∃ u ∈ n.points, ∃ w ∈ n.points, CrossesLeft (m8d3dRowSpan n y true).1 y u w := by
  have hoff := exists_off_row hflat y
  rcases foldl_edgeSpan_left y n.edges noSpan with h | ⟨e, he, hon, ⟨hslope, h⟩ | ⟨heq, h⟩⟩
  · exact absurd h hne
  · obtain ⟨h1, h2⟩ := Corners.topDown_mem_points he
    have hcross := (edge_crosses hslope hon.1 hon.2).1
    rw [← h] at hcross
    exact ⟨_, h1, _, h2, hcross⟩
  · obtain ⟨h1, h2⟩ := Corners.topDown_mem_points he
    unfold OnRow at hon
    rcases h with h | h
    · exact exists_crossesLeft h1 (by omega) (Int.le_of_eq h.symm) hoff
    · exact exists_crossesLeft h2 (by omega) (Int.le_of_eq h.symm) hoff

theorem rowSpan_right (hflat : ¬ Flat n) (hne : (m8d3dRowSpan n y true).2 ≠ -0x7FFF) :
    ∃ u ∈ n.points.image mirror, ∃ w ∈ n.points.image mirror,
      CrossesLeft (-(m8d3dRowSpan n y true).2) y u w := by
  have hoff : ∃ w ∈ n.points.image mirror, w.2 ≠ y := by
    obtain ⟨w, hw, hwy⟩ := exists_off_row hflat y
    exact ⟨mirror w, Finset.mem_image_of_mem _ hw, hwy⟩
  rcases foldl_edgeSpan_right y n.edges noSpan with h | ⟨e, he, hon, ⟨hslope, h⟩ | ⟨heq, h⟩⟩
  · exact absurd h hne
  · obtain ⟨h1, h2⟩ := Corners.topDown_mem_points he
    have hcross := (edge_crosses hslope hon.1 hon.2).2
    rw [← h] at hcross
    exact ⟨_, Finset.mem_image_of_mem _ h1, _, Finset.mem_image_of_mem _ h2, hcross⟩
  · obtain ⟨h1, h2⟩ := Corners.topDown_mem_points he
    unfold OnRow at hon
    rcases h with h | h
    · exact exists_crossesLeft (Finset.mem_image_of_mem mirror h1)
        (show (topDown e).1.2 = y by omega)
        (Int.neg_le_neg (Int.le_of_eq h)) hoff
    · exact exists_crossesLeft (Finset.mem_image_of_mem mirror h2)
        (show (topDown e).2.2 = y by omega)
        (Int.neg_le_neg (Int.le_of_eq h)) hoff

/-- A core that has columns is of rows that the triangle has. -/
theorem coreOf_spans (hin : ∀ p ∈ n.points, InBox w h p) (hw : w ≤ 0x8000) (hab : a < b)
    (hlr : (coreOf n a b).l < (coreOf n a b).r) : ¬ Flat n ∧
      ((m8d3dRowSpan n a true).1 ≠ 0x7FFF ∧ (m8d3dRowSpan n a true).2 ≠ -0x7FFF) ∧
        (m8d3dRowSpan n b true).1 ≠ 0x7FFF ∧ (m8d3dRowSpan n b true).2 ≠ -0x7FFF := by
  have ha := rowSpan_bounds hin hw a
  have hb := rowSpan_bounds hin hw b
  unfold coreOf at hlr
  dsimp only at hlr
  refine ⟨fun hflat => ?_, by omega⟩
  rcases rowSpan_of_flat hflat hab with h | h
  · rw [h] at hlr
    unfold noSpan at hlr
    omega
  · rw [h] at hlr
    unfold noSpan at hlr
    omega

/-- On each row of the core an edge has a pixel at its left end or left of it. -/
theorem core_left (hin : ∀ p ∈ n.points, InBox w h p) (hw : w ≤ 0x8000) (hL : n.Outlined L)
    (hab : a < b) (hlr : (coreOf n a b).l < (coreOf n a b).r) (hy : a ≤ y) (hy' : y ≤ b) :
    ∃ x ≤ (coreOf n a b).l, (x, y) ∈ ⋃ i, L i := by
  obtain ⟨hflat, ⟨hal, -⟩, hbl, -⟩ := coreOf_spans hin hw hab hlr
  obtain ⟨u, hu, v, hv, htop⟩ := rowSpan_left hflat hal
  obtain ⟨u', hu', v', hv', hbot⟩ := rowSpan_left hflat hbl
  obtain ⟨u, hu, v, hv, hcross⟩ := crossesLeft_between hu hv hu' hv'
    (htop.mono (Int.le_max_left _ _)) (hbot.mono (Int.le_max_right _ _)) hy hy'
  have hne : u ≠ v := by
    rintro rfl
    exact absurd hcross.1 (Int.lt_irrefl _)
  obtain ⟨i, hline⟩ := hL.line hu hv hne
  obtain ⟨x, hx, hmem⟩ := hline.exists_left hcross
  exact ⟨x, hx, Set.mem_iUnion.mpr ⟨i, hmem⟩⟩

/-- And one at its right end or right of it. -/
theorem core_right (hin : ∀ p ∈ n.points, InBox w h p) (hw : w ≤ 0x8000) (hL : n.Outlined L)
    (hab : a < b) (hlr : (coreOf n a b).l < (coreOf n a b).r) (hy : a ≤ y) (hy' : y ≤ b) :
    ∃ x ≥ (coreOf n a b).r, (x, y) ∈ ⋃ i, L i := by
  obtain ⟨hflat, ⟨-, har⟩, -, hbr⟩ := coreOf_spans hin hw hab hlr
  obtain ⟨u, hu, v, hv, htop⟩ := rowSpan_right hflat har
  obtain ⟨u', hu', v', hv', hbot⟩ := rowSpan_right hflat hbr
  obtain ⟨u, hu, v, hv, hcross⟩ := crossesLeft_between hu hv hu' hv'
    (htop.mono (Int.neg_le_neg (Int.min_le_left _ _)))
    (hbot.mono (Int.neg_le_neg (Int.min_le_right _ _))) hy hy'
  obtain ⟨u, hun, rfl⟩ := Finset.mem_image.mp hu
  obtain ⟨v, hvn, rfl⟩ := Finset.mem_image.mp hv
  have hne : u ≠ v := by
    rintro rfl
    exact absurd hcross.1 (Int.lt_irrefl _)
  obtain ⟨i, hline⟩ := hL.line hun hvn hne
  obtain ⟨x, hx, hmem⟩ := hline.mirror.exists_left hcross
  exact ⟨-x, Int.le_neg_of_le_neg hx, Set.mem_iUnion.mpr ⟨i, hmem⟩⟩

end Core

/-! ## The parts -/

section Parts

variable {n : Corners} {L : Fin 3 → Set Pixel} {w h y top bottom x0 x1 : ℤ} {p : Pixel}

theorem mem_partRows : y ∈ partRows n top bottom ↔
    y = top ∨ y = bottom ∨ ∃ v ∈ n.points, y = v.2 := by
  unfold partRows
  simp only [List.mem_cons, List.not_mem_nil, or_false, Corners.mem_points, exists_eq_or_imp,
    exists_eq_left]

/-- Where an edge with a pixel on one of the rows reaches furthest, one of the rows looked at is. -/
theorem exists_partRow (hL : n.Outlined L) (hp : p ∈ ⋃ i, L i) (hy : top ≤ p.2)
    (hy' : p.2 ≤ bottom) :
    (∃ y ∈ partRows n top bottom, (top ≤ y ∧ y ≤ bottom) ∧ (∃ e ∈ n.edges, OnRow y e) ∧
        (m8d3dRowSpan n y false).1 ≤ p.1) ∧
      ∃ y ∈ partRows n top bottom, (top ≤ y ∧ y ≤ bottom) ∧ (∃ e ∈ n.edges, OnRow y e) ∧
        p.1 ≤ (m8d3dRowSpan n y false).2 := by
  obtain ⟨e, he, i, hline, hpi⟩ := hL.topDown hp
  obtain ⟨h1, h2⟩ := Corners.topDown_mem_points he
  have hbox := hline.box p hpi
  unfold Between at hbox
  rcases Int.lt_or_eq_of_le (topDown_le e) with hslope | hflat
  · have hrow : ∀ y, y = max top (topDown e).1.2 ∨ y = min bottom (topDown e).2.2 →
        y ∈ partRows n top bottom ∧ (top ≤ y ∧ y ≤ bottom) ∧ OnRow y e := by
      intro y hyy
      unfold OnRow
      rw [mem_partRows]
      refine ⟨?_, by omega, by omega⟩
      rcases hyy with hyy | hyy
      · rcases Int.le_total top (topDown e).1.2 with hle | hle
        · exact .inr (.inr ⟨_, h1, by omega⟩)
        · exact .inl (by omega)
      · rcases Int.le_total bottom (topDown e).2.2 with hle | hle
        · exact .inr (.inl (by omega))
        · exact .inr (.inr ⟨_, h2, by omega⟩)
    obtain ⟨hm0, hb0, ho0⟩ := hrow _ (.inl rfl)
    obtain ⟨hm1, hb1, ho1⟩ := hrow _ (.inr rfl)
    have hs0 := rowSpan_sloped he ho0 hslope
    have hs1 := rowSpan_sloped he ho1 hslope
    obtain ⟨hr0, hl0⟩ := edge_reach hline hslope hpi (max top (topDown e).1.2)
    obtain ⟨hr1, hl1⟩ := edge_reach hline hslope hpi (min bottom (topDown e).2.2)
    have hle0 : max top (topDown e).1.2 - (topDown e).1.2 ≤ p.2 - (topDown e).1.2 := by omega
    have hle1 : p.2 - (topDown e).1.2 ≤ min bottom (topDown e).2.2 - (topDown e).1.2 := by omega
    rcases Int.le_total 0 ((topDown e).2.1 - (topDown e).1.1) with hdx | hdx
    · exact ⟨⟨_, hm0, hb0, ⟨e, he, ho0⟩,
          hs0.1.trans (hl0 (Int.mul_le_mul_of_nonneg_left hle0 hdx))⟩,
        ⟨_, hm1, hb1, ⟨e, he, ho1⟩, (hr1 (Int.mul_le_mul_of_nonneg_left hle1 hdx)).trans hs1.2⟩⟩
    · exact ⟨⟨_, hm1, hb1, ⟨e, he, ho1⟩, hs1.1.trans (hl1 (mul_le_mul_of_nonpos_left hle1 hdx))⟩,
        ⟨_, hm0, hb0, ⟨e, he, ho0⟩, (hr0 (mul_le_mul_of_nonpos_left hle0 hdx)).trans hs0.2⟩⟩
  · have hon : OnRow p.2 e := ⟨by omega, by omega⟩
    have hmem : p.2 ∈ partRows n top bottom := mem_partRows.mpr (.inr (.inr ⟨_, h1, by omega⟩))
    have hspan := rowSpan_flat he hon hflat
    exact ⟨⟨p.2, hmem, ⟨hy, hy'⟩, ⟨e, he, hon⟩, by omega⟩,
      ⟨p.2, hmem, ⟨hy, hy'⟩, ⟨e, he, hon⟩, by omega⟩⟩

/-- An outer span of a row that the triangle has holds a column of the box. -/
theorem rowSpan_holds (hin : ∀ p ∈ n.points, InBox w h p) (hy : ∃ e ∈ n.edges, OnRow y e) :
    ∃ x, 0 ≤ x ∧ x < w ∧ (m8d3dRowSpan n y false).1 ≤ x ∧ x ≤ (m8d3dRowSpan n y false).2 := by
  obtain ⟨e, he, hon⟩ := hy
  obtain ⟨h1, h2⟩ := Corners.topDown_mem_points he
  have hb1 := hin _ h1
  have hb2 := hin _ h2
  unfold InBox at hb1 hb2
  rcases Int.lt_or_eq_of_le (topDown_le e) with hslope | hflat
  · have hx := edgeX_between hslope hon.1 hon.2
    have hspan := rowSpan_sloped he hon hslope
    have hrun := edgeRun_nonneg hslope
    unfold Between at hx
    exact ⟨edgeX (topDown e).1 (topDown e).2 y, by omega, by omega, by omega, by omega⟩
  · have hspan := rowSpan_flat he hon hflat
    exact ⟨(topDown e).1.1, by omega, by omega, by omega, by omega⟩

/-- One row of `partReach`. -/
def partRow (n : Corners) (top bottom x0 x1 : ℤ) (s : ℤ × ℤ) (y : ℤ) : ℤ × ℤ :=
  if y < top ∨ bottom < y then s
  else
    let r := m8d3dRowSpan n y false
    let a := max r.1 x0
    let b := min r.2 x1
    if a ≤ b then (min s.1 a, max s.2 b) else s

theorem foldl_partRow_mono : ∀ (ys : List ℤ) (s : ℤ × ℤ),
    (ys.foldl (partRow n top bottom x0 x1) s).1 ≤ s.1 ∧
      s.2 ≤ (ys.foldl (partRow n top bottom x0 x1) s).2
  | [], s => ⟨Int.le_refl _, Int.le_refl _⟩
  | y :: ys, s => by
    have hrest := foldl_partRow_mono ys (partRow n top bottom x0 x1 s y)
    have hone : (partRow n top bottom x0 x1 s y).1 ≤ s.1 ∧
        s.2 ≤ (partRow n top bottom x0 x1 s y).2 := by
      unfold partRow
      dsimp only
      split_ifs
      · exact ⟨Int.le_refl _, Int.le_refl _⟩
      · exact ⟨Int.min_le_left _ _, Int.le_max_left _ _⟩
      · exact ⟨Int.le_refl _, Int.le_refl _⟩
    exact ⟨Int.le_trans hrest.1 hone.1, Int.le_trans hone.2 hrest.2⟩

/-- What a row reaches between `x0` and `x1`, the rows reach. -/
theorem foldl_partRow_mem (htop : top ≤ y) (hbot : y ≤ bottom)
    (hab : max (m8d3dRowSpan n y false).1 x0 ≤ min (m8d3dRowSpan n y false).2 x1) :
    ∀ (ys : List ℤ) (s : ℤ × ℤ), y ∈ ys →
      (ys.foldl (partRow n top bottom x0 x1) s).1 ≤ max (m8d3dRowSpan n y false).1 x0 ∧
        min (m8d3dRowSpan n y false).2 x1 ≤ (ys.foldl (partRow n top bottom x0 x1) s).2
  | [], _, hmem => absurd hmem List.not_mem_nil
  | y' :: ys, s, hmem => by
    rcases List.mem_cons.mp hmem with rfl | hmem
    · have hone : partRow n top bottom x0 x1 s y = (min s.1 (max (m8d3dRowSpan n y false).1 x0),
          max s.2 (min (m8d3dRowSpan n y false).2 x1)) := by
        unfold partRow
        dsimp only
        rw [if_neg (by omega), if_pos hab]
      rw [List.foldl_cons, hone]
      have hrest := @foldl_partRow_mono n top bottom x0 x1 ys
        (min s.1 (max (m8d3dRowSpan n y false).1 x0), max s.2 (min (m8d3dRowSpan n y false).2 x1))
      exact ⟨hrest.1.trans (Int.min_le_right _ _), (Int.le_max_right _ _).trans hrest.2⟩
    · exact foldl_partRow_mem htop hbot hab ys (partRow n top bottom x0 x1 s y') hmem

theorem partReach_mem (hmem : y ∈ partRows n top bottom) (hrow : top ≤ y ∧ y ≤ bottom)
    (hab : max (m8d3dRowSpan n y false).1 x0 ≤ min (m8d3dRowSpan n y false).2 x1) :
    (partReach n top bottom x0 x1).1 ≤ max (m8d3dRowSpan n y false).1 x0 ∧
      min (m8d3dRowSpan n y false).2 x1 ≤ (partReach n top bottom x0 x1).2 :=
  foldl_partRow_mem hrow.1 hrow.2 hab _ noSpan hmem

/-- The pixels of a box. -/
def M8d3dBox.rect (b : M8d3dBox) : Rect := ⟨b.x, b.y, b.x + b.w, b.y + b.h⟩

/-- A part holds what the rows reach. -/
theorem mem_m8d3dPart (hrow : top ≤ p.2 ∧ p.2 ≤ bottom) (hcol : x0 ≤ p.1 ∧ p.1 ≤ x1)
    (hreach : (partReach n top bottom x0 x1).1 ≤ p.1 ∧ p.1 ≤ (partReach n top bottom x0 x1).2) :
    ∃ b ∈ (m8d3dPart n top bottom x0 x1).toList, p ∈ b.rect := by
  unfold m8d3dPart
  dsimp only
  rw [if_pos (by omega)]
  refine ⟨_, List.mem_singleton_self _, ?_⟩
  rw [Rect.mem_iff]
  unfold M8d3dBox.rect
  dsimp only
  omega

/-- A part keeps to its rows and columns. -/
theorem m8d3dPart_bounds {b : M8d3dBox} (hb : b ∈ (m8d3dPart n top bottom x0 x1).toList) :
    x0 ≤ b.rect.left ∧ b.rect.right ≤ x1 + 1 ∧ b.rect.top = top ∧ b.rect.bottom = bottom + 1 := by
  unfold m8d3dPart at hb
  dsimp only at hb
  split_ifs at hb with hle
  · obtain rfl := List.mem_singleton.mp hb
    unfold M8d3dBox.rect
    dsimp only
    omega
  · exact absurd hb List.not_mem_nil

theorem shape_inBox (hin : ∀ p ∈ n.points, InBox w h p) (hL : n.Outlined L)
    (hp : p ∈ Corners.shape L) : InBox w h p := by
  have hedge : ∀ q ∈ ⋃ i, L i, InBox w h q := by
    intro q hq
    obtain ⟨e, he, i, hline, hqi⟩ := hL.topDown hq
    obtain ⟨h1, h2⟩ := Corners.topDown_mem_points he
    have hb1 := hin _ h1
    have hb2 := hin _ h2
    have hbox := hline.box q hqi
    unfold InBox Between at *
    omega
  obtain ⟨x, x', hx, hx', hle, hle'⟩ := hp
  have h1 := hedge _ hx
  have h2 := hedge _ hx'
  unfold InBox at *
  dsimp only at *
  omega

/-- Above and below the core a part holds the shape. -/
theorem partReach_shape (hin : ∀ p ∈ n.points, InBox w h p) (hL : n.Outlined L)
    (hp : p ∈ Corners.shape L) (hrow : top ≤ p.2 ∧ p.2 ≤ bottom) :
    (partReach n top bottom 0 (w - 1)).1 ≤ p.1 ∧ p.1 ≤ (partReach n top bottom 0 (w - 1)).2 := by
  have hbox := shape_inBox hin hL hp
  obtain ⟨x, x', hx, hx', hle, hle'⟩ := hp
  unfold InBox at hbox
  refine ⟨?_, ?_⟩
  · obtain ⟨y, hmem, hy, hon, hreach⟩ := (exists_partRow hL hx hrow.1 hrow.2).1
    obtain ⟨c, hc⟩ := rowSpan_holds hin hon
    have h := (@partReach_mem n y top bottom 0 (w - 1) hmem hy (by omega)).1
    dsimp only at hreach
    omega
  · obtain ⟨y, hmem, hy, hon, hreach⟩ := (exists_partRow hL hx' hrow.1 hrow.2).2
    obtain ⟨c, hc⟩ := rowSpan_holds hin hon
    have h := (@partReach_mem n y top bottom 0 (w - 1) hmem hy (by omega)).2
    dsimp only at hreach
    omega

/-- An outer span holds the edges' pixels of its row. -/
theorem rowSpan_outer (hL : n.Outlined L) {q : Pixel} (hq : q ∈ ⋃ i, L i) :
    (m8d3dRowSpan n q.2 false).1 ≤ q.1 ∧ q.1 ≤ (m8d3dRowSpan n q.2 false).2 := by
  obtain ⟨⟨y, -, hy, -, hlo⟩, ⟨y', -, hy', -, hhi⟩⟩ :=
    exists_partRow hL hq (Int.le_refl _) (Int.le_refl _)
  obtain rfl : y = q.2 := by omega
  obtain rfl : y' = q.2 := by omega
  exact ⟨hlo, hhi⟩

/-- Left of a column that the edges reach on every row a part holds the shape. -/
theorem partReach_left {l : ℤ} (hin : ∀ p ∈ n.points, InBox w h p) (hL : n.Outlined L)
    (hright : ∀ y, top ≤ y → y ≤ bottom → ∃ x ≥ l, (x, y) ∈ ⋃ i, L i)
    (hp : p ∈ Corners.shape L) (hrow : top ≤ p.2 ∧ p.2 ≤ bottom) (hl : p.1 < l) :
    (partReach n top bottom 0 (l - 1)).1 ≤ p.1 ∧ p.1 ≤ (partReach n top bottom 0 (l - 1)).2 := by
  have hbox := shape_inBox hin hL hp
  obtain ⟨x, x', hx, hx', hle, hle'⟩ := hp
  unfold InBox at hbox
  obtain ⟨y, hmem, hy, -, hreach⟩ := (exists_partRow hL hx hrow.1 hrow.2).1
  obtain ⟨c, hc, hcmem⟩ := hright y hy.1 hy.2
  have hspan := (rowSpan_outer hL hcmem).2
  dsimp only at hreach hspan
  have hpart := @partReach_mem n y top bottom 0 (l - 1) hmem hy (by omega)
  omega

/-- And right of one. -/
theorem partReach_right {r : ℤ} (hin : ∀ p ∈ n.points, InBox w h p) (hL : n.Outlined L)
    (hleft : ∀ y, top ≤ y → y ≤ bottom → ∃ x ≤ r, (x, y) ∈ ⋃ i, L i)
    (hp : p ∈ Corners.shape L) (hrow : top ≤ p.2 ∧ p.2 ≤ bottom) (hr : r < p.1) :
    (partReach n top bottom (r + 1) (w - 1)).1 ≤ p.1 ∧
      p.1 ≤ (partReach n top bottom (r + 1) (w - 1)).2 := by
  have hbox := shape_inBox hin hL hp
  obtain ⟨x, x', hx, hx', hle, hle'⟩ := hp
  unfold InBox at hbox
  obtain ⟨y, hmem, hy, -, hreach⟩ := (exists_partRow hL hx' hrow.1 hrow.2).2
  obtain ⟨c, hc, hcmem⟩ := hleft y hy.1 hy.2
  have hspan := (rowSpan_outer hL hcmem).1
  dsimp only at hreach hspan
  have hpart := @partReach_mem n y top bottom (r + 1) (w - 1) hmem hy (by omega)
  omega

end Parts

/-! ## The search -/

section Search

variable {n : Corners} {w h : ℤ}

/-- A core of two of the box's rows that has columns. -/
def Candidate (n : Corners) (h : ℤ) (c : CoreBox) : Prop :=
  ∃ a b, 0 ≤ a ∧ a < b ∧ b < h ∧ c = coreOf n a b ∧ c.l < c.r

/-- The best core so far is a candidate. -/
def BestOk (n : Corners) (h : ℤ) (best : BestCore) : Prop := ∀ c ∈ best.2, Candidate n h c

theorem coreTry_ok {a b : ℤ} {best : BestCore} (ha : 0 ≤ a) (hab : a < b) (hb : b < h)
    (hbest : BestOk n h best) : BestOk n h (coreTry n w h a b best) := by
  unfold coreTry
  dsimp only
  split_ifs with hlr
  · intro c hc
    obtain rfl := Option.some.inj hc
    exact ⟨a, b, ha, hab, hb, rfl, hlr⟩
  · exact hbest
  · exact hbest

theorem coreBottoms_ok {step a : ℤ} (ha : 0 ≤ a) : ∀ (fuel : ℕ) (b : ℤ) {best : BestCore},
    BestOk n h best → BestOk n h (coreBottoms n w h step a fuel b best)
  | 0, _, _, hbest => hbest
  | fuel + 1, b, best, hbest => by
    unfold coreBottoms
    dsimp only
    have hlast : (if h - 1 < b then h - 1 else b) < h := by
      split_ifs <;> omega
    generalize (if h - 1 < b then h - 1 else b) = b' at *
    split_ifs with hle
    · exact hbest
    · exact coreTry_ok ha (by omega) hlast hbest
    · exact coreBottoms_ok ha fuel _ (coreTry_ok ha (by omega) hlast hbest)

theorem coreTops_ok {step : ℤ} (hstep : 0 ≤ step) : ∀ (fuel : ℕ) {a : ℤ} {best : BestCore},
    0 ≤ a → BestOk n h best → BestOk n h (coreTops n w h step fuel a best)
  | 0, _, _, _, hbest => hbest
  | fuel + 1, a, best, ha, hbest => by
    unfold coreTops
    split_ifs with hrow hnext
    · exact coreTops_ok hstep fuel (by omega) (coreBottoms_ok ha _ _ hbest)
    · exact coreTops_ok hstep fuel (by omega) (coreBottoms_ok ha _ _ hbest)
    · exact hbest

/-- What is found is a candidate. -/
theorem coreSearch_candidate {c : CoreBox} (hc : coreSearch n w h = some c) : Candidate n h c := by
  unfold coreSearch at hc
  split_ifs at hc
  exact coreTops_ok (Int.le_trans (by decide) (Int.le_max_right _ _)) h.toNat (Int.le_refl 0)
    (fun _ h => absurd h (Option.not_mem_none _)) c hc

/-- A core that is picked, and its parts. -/
theorem m8d3dCoreChoose_candidate (hcore : (m8d3dCoreChoose n w h).core.w ≠ 0) :
    ∃ c, Candidate n h c ∧ (m8d3dCoreChoose n w h).core =
        ⟨c.l, c.t, c.r - c.l + 1, c.b - c.t + 1⟩ ∧
      (m8d3dCoreChoose n w h).part = m8d3dParts n w h c.l c.t c.r c.b := by
  unfold m8d3dCoreChoose at hcore ⊢
  cases hc : coreSearch n w h with
  | none => rw [hc] at hcore; exact absurd rfl hcore
  | some c => exact ⟨c, coreSearch_candidate hc, rfl, rfl⟩

end Search

/-! ## Core and parts -/

section Cut

variable {n : Corners} {L : Fin 3 → Set Pixel} {w h l t r b : ℤ} {p : Pixel}

theorem mem_ite_toList {c : Prop} [Decidable c] {o : Option M8d3dBox} {x : M8d3dBox} :
    x ∈ (if c then o.toList else []) ↔ c ∧ x ∈ o.toList := by
  split_ifs with hc
  · exact ⟨fun hx => ⟨hc, hx⟩, fun hx => hx.2⟩
  · exact ⟨fun hx => absurd hx List.not_mem_nil, fun hx => absurd hx.1 hc⟩

theorem mem_m8d3dParts {x : M8d3dBox} : x ∈ m8d3dParts n w h l t r b ↔
    (0 < t ∧ x ∈ (m8d3dPart n 0 (t - 1) 0 (w - 1)).toList) ∨
      (0 < l ∧ x ∈ (m8d3dPart n t b 0 (l - 1)).toList) ∨
        (r < w - 1 ∧ x ∈ (m8d3dPart n t b (r + 1) (w - 1)).toList) ∨
          (b < h - 1 ∧ x ∈ (m8d3dPart n (b + 1) (h - 1) 0 (w - 1)).toList) := by
  unfold m8d3dParts
  rw [List.mem_append, List.mem_append, List.mem_append, mem_ite_toList, mem_ite_toList,
    mem_ite_toList, mem_ite_toList, or_assoc, or_assoc]

theorem pairwise_toList (R : M8d3dBox → M8d3dBox → Prop) (c : Prop) [Decidable c]
    (o : Option M8d3dBox) : (if c then o.toList else []).Pairwise R := by
  split_ifs
  · cases o
    · exact .nil
    · exact List.pairwise_singleton R _
  · exact .nil

theorem Rect.apart_of_rows {a c : Rect} (hrows : a.bottom ≤ c.top) : a.Apart c := by
  intro p ha hc
  rw [Rect.mem_iff] at ha hc
  omega

theorem Rect.apart_of_cols {a c : Rect} (hcols : a.right ≤ c.left) : a.Apart c := by
  intro p ha hc
  rw [Rect.mem_iff] at ha hc
  omega

/-- No two parts share a pixel. -/
theorem m8d3dParts_apart (htb : t ≤ b) (hlr : l ≤ r) :
    (m8d3dParts n w h l t r b).Pairwise fun x x' => x.rect.Apart x'.rect := by
  unfold m8d3dParts
  rw [List.pairwise_append, List.pairwise_append, List.pairwise_append]
  refine ⟨⟨⟨pairwise_toList _ _ _, pairwise_toList _ _ _, fun x hx x' hx' => ?_⟩,
    pairwise_toList _ _ _, fun x hx x' hx' => ?_⟩, pairwise_toList _ _ _, fun x hx x' hx' => ?_⟩
  · have h1 := m8d3dPart_bounds (mem_ite_toList.mp hx).2
    have h2 := m8d3dPart_bounds (mem_ite_toList.mp hx').2
    exact Rect.apart_of_rows (by omega)
  · have h2 := m8d3dPart_bounds (mem_ite_toList.mp hx').2
    rcases List.mem_append.mp hx with hx | hx
    · have h1 := m8d3dPart_bounds (mem_ite_toList.mp hx).2
      exact Rect.apart_of_rows (by omega)
    · have h1 := m8d3dPart_bounds (mem_ite_toList.mp hx).2
      exact Rect.apart_of_cols (by omega)
  · have h2 := m8d3dPart_bounds (mem_ite_toList.mp hx').2
    rw [List.mem_append, List.mem_append] at hx
    rcases hx with (hx | hx) | hx
    · have h1 := m8d3dPart_bounds (mem_ite_toList.mp hx).2
      exact Rect.apart_of_rows (by omega)
    · have h1 := m8d3dPart_bounds (mem_ite_toList.mp hx).2
      exact Rect.apart_of_rows (by omega)
    · have h1 := m8d3dPart_bounds (mem_ite_toList.mp hx).2
      exact Rect.apart_of_rows (by omega)

/-- A box whose rows each have a pixel of an edge at or beyond either end. -/
structure CoreBox.Spans (c : CoreBox) (L : Fin 3 → Set Pixel) : Prop where
  rows : c.t < c.b
  cols : c.l < c.r
  left : ∀ y, c.t ≤ y → y ≤ c.b → ∃ x ≤ c.l, (x, y) ∈ ⋃ i, L i
  right : ∀ y, c.t ≤ y → y ≤ c.b → ∃ x ≥ c.r, (x, y) ∈ ⋃ i, L i

theorem Candidate.spans {c : CoreBox} (hc : Candidate n h c) (hin : ∀ p ∈ n.points, InBox w h p)
    (hw : w ≤ 0x8000) (hL : n.Outlined L) : c.Spans L := by
  obtain ⟨a, b, -, hab, -, rfl, hlr⟩ := hc
  exact ⟨hab, hlr, fun y hy hy' => core_left hin hw hL hab hlr hy hy',
    fun y hy hy' => core_right hin hw hL hab hlr hy hy'⟩

namespace CoreBox.Spans

variable {c : CoreBox}

/-- Such a box is inside the shape. -/
theorem mem_shape (hc : c.Spans L) (hcol : c.l ≤ p.1 ∧ p.1 ≤ c.r)
    (hrow : c.t ≤ p.2 ∧ p.2 ≤ c.b) : p ∈ Corners.shape L := by
  obtain ⟨x, hx, hm⟩ := hc.left p.2 hrow.1 hrow.2
  obtain ⟨x', hx', hm'⟩ := hc.right p.2 hrow.1 hrow.2
  exact ⟨x, x', hm, hm', Int.le_trans hx hcol.1, Int.le_trans hcol.2 hx'⟩

/-- And inside the triangle's box. -/
theorem inBox (hc : c.Spans L) (hin : ∀ p ∈ n.points, InBox w h p) (hL : n.Outlined L) :
    InBox w h (c.l, c.t) ∧ InBox w h (c.r, c.b) := by
  have hrows := hc.rows
  have hcols := hc.cols
  exact ⟨shape_inBox hin hL (hc.mem_shape ⟨Int.le_refl _, by omega⟩ ⟨Int.le_refl _, by omega⟩),
    shape_inBox hin hL (hc.mem_shape ⟨by omega, Int.le_refl _⟩ ⟨by omega, Int.le_refl _⟩)⟩

/-- Beside the core a part holds the shape. -/
theorem beside (hc : c.Spans L) (hin : ∀ p ∈ n.points, InBox w h p) (hL : n.Outlined L)
    (hp : p ∈ Corners.shape L) (hrow : c.t ≤ p.2 ∧ p.2 ≤ c.b) (hcol : p.1 < c.l ∨ c.r < p.1) :
    ∃ x ∈ m8d3dParts n w h c.l c.t c.r c.b, p ∈ x.rect := by
  have hbox := shape_inBox hin hL hp
  have hcols := hc.cols
  unfold InBox at hbox
  rcases hcol with hl | hr
  · have hright : ∀ y, c.t ≤ y → y ≤ c.b → ∃ x ≥ c.l, (x, y) ∈ ⋃ i, L i := by
      intro y hy hy'
      obtain ⟨x, hx, hm⟩ := hc.right y hy hy'
      exact ⟨x, by omega, hm⟩
    obtain ⟨x, hx, hpx⟩ := mem_m8d3dPart hrow ⟨hbox.1, show p.1 ≤ c.l - 1 by omega⟩
      (partReach_left hin hL hright hp hrow hl)
    exact ⟨x, mem_m8d3dParts.mpr (.inr (.inl ⟨by omega, hx⟩)), hpx⟩
  · have hleft : ∀ y, c.t ≤ y → y ≤ c.b → ∃ x ≤ c.r, (x, y) ∈ ⋃ i, L i := by
      intro y hy hy'
      obtain ⟨x, hx, hm⟩ := hc.left y hy hy'
      exact ⟨x, by omega, hm⟩
    obtain ⟨x, hx, hpx⟩ := mem_m8d3dPart hrow
      ⟨show c.r + 1 ≤ p.1 by omega, show p.1 ≤ w - 1 by omega⟩
      (partReach_right hin hL hleft hp hrow hr)
    exact ⟨x, mem_m8d3dParts.mpr (.inr (.inr (.inl ⟨by omega, hx⟩))), hpx⟩

end CoreBox.Spans

/-- Above and below the core too. -/
theorem m8d3dParts_rows (hin : ∀ p ∈ n.points, InBox w h p) (hL : n.Outlined L)
    (hp : p ∈ Corners.shape L) (hrow : p.2 < t ∨ b < p.2) :
    ∃ x ∈ m8d3dParts n w h l t r b, p ∈ x.rect := by
  have hbox := shape_inBox hin hL hp
  unfold InBox at hbox
  rcases hrow with ht | hb
  · obtain ⟨x, hx, hpx⟩ := mem_m8d3dPart ⟨hbox.2.2.1, show p.2 ≤ t - 1 by omega⟩
      ⟨hbox.1, show p.1 ≤ w - 1 by omega⟩ (partReach_shape hin hL hp ⟨hbox.2.2.1, by omega⟩)
    exact ⟨x, mem_m8d3dParts.mpr (.inl ⟨by omega, hx⟩), hpx⟩
  · obtain ⟨x, hx, hpx⟩ := mem_m8d3dPart ⟨show b + 1 ≤ p.2 by omega, show p.2 ≤ h - 1 by omega⟩
      ⟨hbox.1, show p.1 ≤ w - 1 by omega⟩ (partReach_shape hin hL hp ⟨by omega, by omega⟩)
    exact ⟨x, mem_m8d3dParts.mpr (.inr (.inr (.inr ⟨by omega, hx⟩))), hpx⟩

/-- The parts keep to the triangle's box and leave the core out. -/
theorem m8d3dParts_bounds {x : M8d3dBox} (hx : x ∈ m8d3dParts n w h l t r b)
    (htl : InBox w h (l, t)) (hbr : InBox w h (r, b)) :
    (0 ≤ x.rect.left ∧ x.rect.right ≤ w ∧ 0 ≤ x.rect.top ∧ x.rect.bottom ≤ h) ∧
      (x.rect.bottom ≤ t ∨ x.rect.right ≤ l ∨ r < x.rect.left ∨ b < x.rect.top) := by
  unfold InBox at htl hbr
  dsimp only at htl hbr
  rcases mem_m8d3dParts.mp hx with ⟨-, hx⟩ | ⟨-, hx⟩ | ⟨-, hx⟩ | ⟨-, hx⟩
  · have hpart := m8d3dPart_bounds hx
    omega
  · have hpart := m8d3dPart_bounds hx
    omega
  · have hpart := m8d3dPart_bounds hx
    omega
  · have hpart := m8d3dPart_bounds hx
    omega

/-- The shape is a core and parts around it. -/
structure MaskCut.Cuts (m : MaskCut) (w h : ℤ) (S : Set Pixel) : Prop where
  core : ∀ p ∈ m.core.rect, p ∈ S
  left : ∀ b ∈ m.part, 0 ≤ b.x
  inside : ∀ b ∈ m.part, ∀ p ∈ b.rect, InBox w h p
  off : ∀ b ∈ m.part, b.rect.Apart m.core.rect
  apart : m.part.Pairwise fun b b' => b.rect.Apart b'.rect
  covers : ∀ p ∈ S, p ∈ m.core.rect ∨ ∃ b ∈ m.part, p ∈ b.rect

theorem mem_coreRect {c : CoreBox} :
    p ∈ (⟨c.l, c.t, c.r - c.l + 1, c.b - c.t + 1⟩ : M8d3dBox).rect ↔
      (c.l ≤ p.1 ∧ p.1 ≤ c.r) ∧ c.t ≤ p.2 ∧ p.2 ≤ c.b := by
  rw [Rect.mem_iff]
  unfold M8d3dBox.rect
  dsimp only
  omega

theorem m8d3dCoreChoose_cuts (hin : ∀ p ∈ n.points, InBox w h p) (hw : w ≤ 0x8000)
    (hL : n.Outlined L) (hcore : (m8d3dCoreChoose n w h).core.w ≠ 0) :
    (m8d3dCoreChoose n w h).Cuts w h (Corners.shape L) := by
  obtain ⟨c, hcand, hbox, hpart⟩ := m8d3dCoreChoose_candidate hcore
  have hc := hcand.spans hin hw hL
  obtain ⟨htl, hbr⟩ := hc.inBox hin hL
  have hbounds : ∀ x ∈ (m8d3dCoreChoose n w h).part, _ :=
    fun x hx => m8d3dParts_bounds (hpart ▸ hx) htl hbr
  refine ⟨fun p hp => ?_, fun x hx => (hbounds x hx).1.1, fun x hx p hp => ?_,
    fun x hx p hp hp' => ?_, ?_, fun p hp => ?_⟩
  · obtain ⟨hcol, hrow⟩ := mem_coreRect.mp (hbox ▸ hp)
    exact hc.mem_shape hcol hrow
  · have hx' := hbounds x hx
    rw [Rect.mem_iff] at hp
    unfold InBox
    omega
  · have hx' := hbounds x hx
    have hp' := mem_coreRect.mp (hbox ▸ hp')
    rw [Rect.mem_iff] at hp
    omega
  · rw [hpart]
    exact m8d3dParts_apart (Int.le_of_lt hc.rows) (Int.le_of_lt hc.cols)
  · rw [hbox, hpart, mem_coreRect]
    by_cases hrow : p.2 < c.t ∨ c.b < p.2
    · exact .inr (m8d3dParts_rows hin hL hp hrow)
    by_cases hcol : p.1 < c.l ∨ c.r < p.1
    · exact .inr (hc.beside hin hL hp (by omega) hcol)
    exact .inl (by omega)

end Cut

end Inboard
