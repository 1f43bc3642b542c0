import Inboard.Bresenham
import Inboard.D3dRows
import Mathlib.Data.Set.Lattice

/-!
# Row spans

The span of a row that is sure to hold every pixel of the edges, and the one that is sure to hold
only pixels between them : a sloped edge's pixels are in its run about where it crosses the row, and
where it crosses a row further along (`edge_reach`), and the inner span ends where the triangle
reaches (`edge_crosses`).
-/

set_option linter.unusedSectionVars false

namespace Inboard

/-! ## An edge on a row -/

section Edge

variable {a b p : Pixel} {L : Set Pixel} {y : ℤ}

theorem tdiv_spec (n : ℤ) {d : ℤ} (hd : 0 < d) :
    n - d < d * Int.tdiv n d ∧ d * Int.tdiv n d < n + d := by
  have hdiv := Int.mul_tdiv_add_tmod n d
  have hmod : (n.tmod d).natAbs < d.natAbs := by
    rw [Int.natAbs_tmod]
    exact Nat.mod_lt _ (by omega)
  omega

/-- A sloped edge's run is more than half of what it covers of a row. -/
theorem edgeRun_spec (hab : a.2 < b.2) (hdx : b.1 ≠ a.1) :
    1 ≤ edgeRun a b ∧ ((b.1 - a.1).natAbs : ℤ) < 2 * ((b.2 - a.2) * edgeRun a b) := by
  unfold edgeRun
  rw [if_neg hdx]
  have hd : 0 < b.2 - a.2 := by omega
  have h1 := tdiv_spec ((b.1 - a.1).natAbs : ℤ) hd
  have hpos : 0 ≤ Int.tdiv ((b.1 - a.1).natAbs : ℤ) (b.2 - a.2) :=
    Int.tdiv_nonneg (by omega) (by omega)
  generalize Int.tdiv ((b.1 - a.1).natAbs : ℤ) (b.2 - a.2) = q at *
  have h2 := tdiv_spec q (show (0 : ℤ) < 2 by decide)
  have hpos2 : 0 ≤ Int.tdiv q 2 := Int.tdiv_nonneg hpos (by decide)
  generalize Int.tdiv q 2 = r at *
  refine ⟨by omega, ?_⟩
  have hmul := Int.mul_le_mul_of_nonneg_left (show q + 1 ≤ 2 * (r + 1) by omega) (Int.le_of_lt hd)
  rw [Int.mul_add, Int.mul_one, Int.mul_left_comm] at hmul
  omega

theorem edgeRun_nonneg (hab : a.2 < b.2) : 0 ≤ edgeRun a b := by
  by_cases hdx : b.1 = a.1
  · exact Int.le_of_eq (if_pos hdx).symm
  · exact Int.le_trans (by decide) (edgeRun_spec hab hdx).1

/-- A pixel of an edge is in the edge's run about where it crosses the row, and about where it
crosses a row that is further along. -/
theorem edge_reach (h : Line a b L) (hab : a.2 < b.2) (hp : p ∈ L) (y : ℤ) :
    ((b.1 - a.1) * (p.2 - a.2) ≤ (b.1 - a.1) * (y - a.2) → p.1 ≤ edgeX a b y + edgeRun a b) ∧
      ((b.1 - a.1) * (y - a.2) ≤ (b.1 - a.1) * (p.2 - a.2) → edgeX a b y - edgeRun a b ≤ p.1) := by
  have hd : 0 < b.2 - a.2 := by omega
  have hnear := h.near p hp
  unfold beside at hnear
  unfold edgeX
  by_cases hdx : b.1 = a.1
  · have hz : b.1 - a.1 = 0 := by omega
    unfold edgeRun
    rw [if_pos hdx]
    simp only [hz, Int.zero_mul, Int.zero_tdiv] at hnear ⊢
    have hx : p.1 = a.1 := by
      by_contra hne
      have hmul : (b.2 - a.2).natAbs ≤ ((p.1 - a.1) * (b.2 - a.2)).natAbs := by
        rw [Int.natAbs_mul]
        exact Nat.le_mul_of_pos_left _ (by omega)
      omega
    omega
  · obtain ⟨hrun, hlong⟩ := edgeRun_spec hab hdx
    obtain ⟨hlo, hhi⟩ := tdiv_spec ((b.1 - a.1) * (y - a.2)) hd
    generalize Int.tdiv ((b.1 - a.1) * (y - a.2)) (b.2 - a.2) = q at *
    generalize edgeRun a b = run at *
    generalize hdy : b.2 - a.2 = d at *
    have hdr : d ≤ d * run := by
      have := Int.mul_le_mul_of_nonneg_left hrun (Int.le_of_lt hd)
      omega
    have hexp : (p.1 - a.1) * d = d * (p.1 - a.1) := Int.mul_comm _ _
    refine ⟨fun hle => ?_, fun hle => ?_⟩
    · by_contra hgt
      have hmul := Int.mul_le_mul_of_nonneg_left (show q + run + 1 ≤ p.1 - a.1 by omega)
        (Int.le_of_lt hd)
      have hexp' : d * (q + run + 1) = d * q + d * run + d := by ring
      omega
    · by_contra hgt
      have hmul := Int.mul_le_mul_of_nonneg_left (show p.1 - a.1 ≤ q - run - 1 by omega)
        (Int.le_of_lt hd)
      have hexp' : d * (q - run - 1) = d * q - d * run - d := by ring
      omega

/-- Where an edge crosses a row is between its ends. -/
theorem edgeX_between (hab : a.2 < b.2) (hy : a.2 ≤ y) (hy' : y ≤ b.2) :
    Between a.1 b.1 (edgeX a b y) := by
  have hd : 0 < b.2 - a.2 := by omega
  obtain ⟨hlo, hhi⟩ := tdiv_spec ((b.1 - a.1) * (y - a.2)) hd
  unfold edgeX Between
  generalize Int.tdiv ((b.1 - a.1) * (y - a.2)) (b.2 - a.2) = q at *
  generalize hdy : b.2 - a.2 = d at *
  rcases Int.le_total 0 (b.1 - a.1) with hdx | hdx
  · have h0 := Int.mul_nonneg hdx (show 0 ≤ y - a.2 by omega)
    have h1 := Int.mul_le_mul_of_nonneg_left (show y - a.2 ≤ d by omega) hdx
    have hq0 : 0 ≤ q := by
      by_contra hneg
      have := Int.mul_le_mul_of_nonneg_left (show q ≤ -1 by omega) (Int.le_of_lt hd)
      omega
    have hq1 : q ≤ b.1 - a.1 := by
      by_contra hgt
      have := Int.mul_le_mul_of_nonneg_left (show b.1 - a.1 + 1 ≤ q by omega) (Int.le_of_lt hd)
      rw [Int.mul_add, Int.mul_one, Int.mul_comm d (b.1 - a.1)] at this
      omega
    omega
  · have h0 := Int.mul_nonpos_of_nonpos_of_nonneg hdx (show 0 ≤ y - a.2 by omega)
    have h1 := mul_le_mul_of_nonpos_left (show y - a.2 ≤ d by omega) hdx
    have hq0 : q ≤ 0 := by
      by_contra hpos
      have := Int.mul_le_mul_of_nonneg_left (show 1 ≤ q by omega) (Int.le_of_lt hd)
      omega
    have hq1 : b.1 - a.1 ≤ q := by
      by_contra hlt
      have := Int.mul_le_mul_of_nonneg_left (show q ≤ b.1 - a.1 - 1 by omega) (Int.le_of_lt hd)
      rw [Int.mul_sub, Int.mul_one, Int.mul_comm d (b.1 - a.1)] at this
      omega
    omega

/-- The inner span's ends are no further out than the edge is. -/
theorem edge_crosses (hab : a.2 < b.2) (hy : a.2 ≤ y) (hy' : y ≤ b.2) :
    CrossesLeft (edgeX a b y + edgeRun a b) y a b ∧
      CrossesLeft (-(edgeX a b y - edgeRun a b)) y (mirror a) (mirror b) := by
  have hd : 0 < b.2 - a.2 := by omega
  obtain ⟨hlo, hhi⟩ := tdiv_spec ((b.1 - a.1) * (y - a.2)) hd
  have hrun : (b.1 - a.1) * (y - a.2) ≤
      (b.2 - a.2) * (Int.tdiv ((b.1 - a.1) * (y - a.2)) (b.2 - a.2) + edgeRun a b) ∧
      (b.2 - a.2) * (Int.tdiv ((b.1 - a.1) * (y - a.2)) (b.2 - a.2) - edgeRun a b) ≤
        (b.1 - a.1) * (y - a.2) := by
    by_cases hdx : b.1 = a.1
    · have hz : b.1 - a.1 = 0 := by omega
      have hr : edgeRun a b = 0 := if_pos hdx
      simp only [hz, hr, Int.zero_mul, Int.zero_tdiv, Int.add_zero, Int.sub_zero, Int.mul_zero]
      omega
    · have hmul := Int.mul_le_mul_of_nonneg_left (edgeRun_spec hab hdx).1 (Int.le_of_lt hd)
      have hadd := Int.mul_add (b.2 - a.2) (Int.tdiv ((b.1 - a.1) * (y - a.2)) (b.2 - a.2))
        (edgeRun a b)
      have hsub := Int.mul_sub (b.2 - a.2) (Int.tdiv ((b.1 - a.1) * (y - a.2)) (b.2 - a.2))
        (edgeRun a b)
      omega
  unfold edgeX
  generalize Int.tdiv ((b.1 - a.1) * (y - a.2)) (b.2 - a.2) = q at *
  generalize edgeRun a b = run at *
  refine ⟨⟨hab, hy, hy', ?_⟩, ⟨hab, hy, hy', ?_⟩⟩
  · rw [crossesLeft_eq]
    have hexp : (a.1 - (a.1 + q + run)) * (b.2 - a.2) = -((b.2 - a.2) * (q + run)) := by ring
    omega
  · rw [crossesLeft_eq]
    unfold mirror
    dsimp only
    have hexp : (-a.1 - -(a.1 + q - run)) * (b.2 - a.2) = (b.2 - a.2) * (q - run) := by ring
    have hexp' : (-b.1 - -a.1) * (y - a.2) = -((b.1 - a.1) * (y - a.2)) := by ring
    omega

end Edge

/-! ## Spans -/

section Spans

variable {e : Pixel × Pixel} {s : ℤ × ℤ} {y : ℤ} {inner : Bool}

theorem topDown_cases (e : Pixel × Pixel) : topDown e = e ∨ topDown e = (e.2, e.1) := by
  unfold topDown
  split_ifs
  · exact .inr rfl
  · exact .inl rfl

theorem topDown_le (e : Pixel × Pixel) : (topDown e).1.2 ≤ (topDown e).2.2 := by
  unfold topDown
  split_ifs with h
  · exact Int.le_of_lt h
  · exact Int.not_lt.mp h

/-- The edge is on row `y`. -/
def OnRow (y : ℤ) (e : Pixel × Pixel) : Prop := (topDown e).1.2 ≤ y ∧ y ≤ (topDown e).2.2

theorem edgeSpan_mono (y : ℤ) (inner : Bool) (s : ℤ × ℤ) (e : Pixel × Pixel) :
    (edgeSpan y inner s e).1 ≤ s.1 ∧ s.2 ≤ (edgeSpan y inner s e).2 := by
  unfold edgeSpan
  dsimp only
  split_ifs
  · exact ⟨Int.le_refl _, Int.le_refl _⟩
  · refine ⟨?_, ?_⟩
    · dsimp only
      omega
    · dsimp only
      omega
  · exact ⟨Int.min_le_left _ _, Int.le_max_left _ _⟩
  · exact ⟨Int.min_le_left _ _, Int.le_max_left _ _⟩

theorem foldl_edgeSpan_mono (y : ℤ) (inner : Bool) : ∀ (es : List (Pixel × Pixel)) (s : ℤ × ℤ),
    (es.foldl (edgeSpan y inner) s).1 ≤ s.1 ∧ s.2 ≤ (es.foldl (edgeSpan y inner) s).2
  | [], s => ⟨Int.le_refl _, Int.le_refl _⟩
  | e :: es, s => by
    have h := edgeSpan_mono y inner s e
    have hrest := foldl_edgeSpan_mono y inner es (edgeSpan y inner s e)
    exact ⟨Int.le_trans hrest.1 h.1, Int.le_trans h.2 hrest.2⟩

/-- A span holds what each edge adds. -/
theorem foldl_edgeSpan_mem (y : ℤ) (inner : Bool) : ∀ {es : List (Pixel × Pixel)} (s : ℤ × ℤ),
    e ∈ es → ∃ s', (es.foldl (edgeSpan y inner) s).1 ≤ (edgeSpan y inner s' e).1 ∧
      (edgeSpan y inner s' e).2 ≤ (es.foldl (edgeSpan y inner) s).2
  | e' :: es, s, he => by
    rcases List.mem_cons.mp he with rfl | he
    · exact ⟨s, foldl_edgeSpan_mono y inner es _⟩
    · exact foldl_edgeSpan_mem y inner (edgeSpan y inner s e') he

theorem edgeSpan_sloped (inner : Bool) (s : ℤ × ℤ) (hon : OnRow y e)
    (hslope : (topDown e).1.2 < (topDown e).2.2) : edgeSpan y inner s e =
      (min s.1 (edgeX (topDown e).1 (topDown e).2 y -
          if inner = true then -edgeRun (topDown e).1 (topDown e).2
          else edgeRun (topDown e).1 (topDown e).2),
        max s.2 (edgeX (topDown e).1 (topDown e).2 y +
          if inner = true then -edgeRun (topDown e).1 (topDown e).2
          else edgeRun (topDown e).1 (topDown e).2)) := by
  unfold OnRow at hon
  unfold edgeSpan
  dsimp only
  rw [if_neg (by omega), if_neg (by omega)]

theorem edgeSpan_flat (inner : Bool) (s : ℤ × ℤ) (hon : OnRow y e)
    (hflat : (topDown e).1.2 = (topDown e).2.2) : edgeSpan y inner s e =
      (min (min s.1 (topDown e).1.1) (topDown e).2.1,
        max (max s.2 (topDown e).1.1) (topDown e).2.1) := by
  unfold OnRow at hon
  unfold edgeSpan
  dsimp only
  rw [if_neg (by omega), if_pos hflat]

theorem edgeSpan_off (inner : Bool) (s : ℤ × ℤ) (hoff : ¬ OnRow y e) :
    edgeSpan y inner s e = s := by
  unfold OnRow at hoff
  unfold edgeSpan
  exact if_pos (by omega)

/-- A sloped edge's run is in the outer span. -/
theorem rowSpan_sloped {n : Corners} (he : e ∈ n.edges) (hon : OnRow y e)
    (hslope : (topDown e).1.2 < (topDown e).2.2) :
    (m8d3dRowSpan n y false).1 ≤ edgeX (topDown e).1 (topDown e).2 y -
        edgeRun (topDown e).1 (topDown e).2 ∧
      edgeX (topDown e).1 (topDown e).2 y + edgeRun (topDown e).1 (topDown e).2 ≤
        (m8d3dRowSpan n y false).2 := by
  obtain ⟨s, hlo, hhi⟩ := foldl_edgeSpan_mem y false noSpan he
  rw [edgeSpan_sloped false s hon hslope] at hlo hhi
  exact ⟨Int.le_trans hlo (Int.min_le_right _ _), Int.le_trans (Int.le_max_right _ _) hhi⟩

/-- A flat edge is in the span of its row. -/
theorem rowSpan_flat {n : Corners} (he : e ∈ n.edges) (hon : OnRow y e)
    (hflat : (topDown e).1.2 = (topDown e).2.2) :
    (m8d3dRowSpan n y false).1 ≤ min (topDown e).1.1 (topDown e).2.1 ∧
      max (topDown e).1.1 (topDown e).2.1 ≤ (m8d3dRowSpan n y false).2 := by
  obtain ⟨s, hlo, hhi⟩ := foldl_edgeSpan_mem y false noSpan he
  rw [edgeSpan_flat false s hon hflat] at hlo hhi
  unfold m8d3dRowSpan
  dsimp only at hlo hhi
  omega

/-- What bounds an inner span on the left : an edge's crossing, or a flat edge's end. -/
theorem foldl_edgeSpan_left (y : ℤ) : ∀ (es : List (Pixel × Pixel)) (s : ℤ × ℤ),
    (es.foldl (edgeSpan y true) s).1 = s.1 ∨ ∃ e ∈ es, OnRow y e ∧
      ((topDown e).1.2 < (topDown e).2.2 ∧ (es.foldl (edgeSpan y true) s).1 =
          edgeX (topDown e).1 (topDown e).2 y + edgeRun (topDown e).1 (topDown e).2 ∨
        (topDown e).1.2 = (topDown e).2.2 ∧ ((es.foldl (edgeSpan y true) s).1 = (topDown e).1.1 ∨
          (es.foldl (edgeSpan y true) s).1 = (topDown e).2.1))
  | [], _ => .inl rfl
  | e :: es, s => by
    rw [List.foldl_cons]
    rcases foldl_edgeSpan_left y es (edgeSpan y true s e) with h | ⟨e', he', h⟩
    · rw [h]
      by_cases hon : OnRow y e
      · rcases Int.lt_or_eq_of_le (topDown_le e) with hslope | hflat
        · rw [edgeSpan_sloped true s hon hslope, if_pos rfl]
          rcases Int.le_total s.1 (edgeX (topDown e).1 (topDown e).2 y -
            -edgeRun (topDown e).1 (topDown e).2) with hs | hs
          · exact .inl (Int.min_eq_left hs)
          · exact .inr ⟨e, List.mem_cons_self, hon, .inl ⟨hslope,
              (Int.min_eq_right hs).trans (Int.sub_neg _ _)⟩⟩
        · rw [edgeSpan_flat true s hon hflat]
          dsimp only
          rcases Int.le_total s.1 (min (topDown e).1.1 (topDown e).2.1) with hs | hs
          · exact .inl (by omega)
          · exact .inr ⟨e, List.mem_cons_self, hon, .inr ⟨hflat, by omega⟩⟩
      · exact .inl (congrArg Prod.fst (edgeSpan_off true s hon))
    · exact .inr ⟨e', List.mem_cons_of_mem e he', h⟩

/-- What bounds it on the right. -/
theorem foldl_edgeSpan_right (y : ℤ) : ∀ (es : List (Pixel × Pixel)) (s : ℤ × ℤ),
    (es.foldl (edgeSpan y true) s).2 = s.2 ∨ ∃ e ∈ es, OnRow y e ∧
      ((topDown e).1.2 < (topDown e).2.2 ∧ (es.foldl (edgeSpan y true) s).2 =
          edgeX (topDown e).1 (topDown e).2 y - edgeRun (topDown e).1 (topDown e).2 ∨
        (topDown e).1.2 = (topDown e).2.2 ∧ ((es.foldl (edgeSpan y true) s).2 = (topDown e).1.1 ∨
          (es.foldl (edgeSpan y true) s).2 = (topDown e).2.1))
  | [], _ => .inl rfl
  | e :: es, s => by
    rw [List.foldl_cons]
    rcases foldl_edgeSpan_right y es (edgeSpan y true s e) with h | ⟨e', he', h⟩
    · rw [h]
      by_cases hon : OnRow y e
      · rcases Int.lt_or_eq_of_le (topDown_le e) with hslope | hflat
        · rw [edgeSpan_sloped true s hon hslope, if_pos rfl]
          rcases Int.le_total (edgeX (topDown e).1 (topDown e).2 y +
            -edgeRun (topDown e).1 (topDown e).2) s.2 with hs | hs
          · exact .inl (Int.max_eq_left hs)
          · exact .inr ⟨e, List.mem_cons_self, hon, .inl ⟨hslope, Int.max_eq_right hs⟩⟩
        · rw [edgeSpan_flat true s hon hflat]
          dsimp only
          rcases Int.le_total (max (topDown e).1.1 (topDown e).2.1) s.2 with hs | hs
          · exact .inl (by omega)
          · exact .inr ⟨e, List.mem_cons_self, hon, .inr ⟨hflat, by omega⟩⟩
      · exact .inl (congrArg Prod.snd (edgeSpan_off true s hon))
    · exact .inr ⟨e', List.mem_cons_of_mem e he', h⟩

end Spans

/-! ## The triangle's edges -/

namespace Corners

variable {n : Corners} {e : Pixel × Pixel} {u w : Pixel}

/-- The corners. -/
def points (n : Corners) : Finset Pixel := {n.v0, n.v1, n.v2}

theorem mem_points {p : Pixel} : p ∈ n.points ↔ p = n.v0 ∨ p = n.v1 ∨ p = n.v2 := by
  unfold points
  rw [Finset.mem_insert, Finset.mem_insert, Finset.mem_singleton]

theorem mem_edges : e ∈ n.edges ↔ e = (n.v0, n.v1) ∨ e = (n.v1, n.v2) ∨ e = (n.v2, n.v0) := by
  unfold edges
  rw [List.mem_cons, List.mem_cons, List.mem_singleton]

theorem topDown_mem_points (he : e ∈ n.edges) :
    (topDown e).1 ∈ n.points ∧ (topDown e).2 ∈ n.points := by
  rw [mem_points, mem_points]
  rcases topDown_cases e with h | h <;> rw [h] <;> rcases mem_edges.mp he with rfl | rfl | rfl
  · exact ⟨.inl rfl, .inr (.inl rfl)⟩
  · exact ⟨.inr (.inl rfl), .inr (.inr rfl)⟩
  · exact ⟨.inr (.inr rfl), .inl rfl⟩
  · exact ⟨.inr (.inl rfl), .inl rfl⟩
  · exact ⟨.inr (.inr rfl), .inr (.inl rfl)⟩
  · exact ⟨.inl rfl, .inr (.inr rfl)⟩

/-- Two corners are the ends of an edge. -/
theorem edge_of_points (hu : u ∈ n.points) (hw : w ∈ n.points) (hne : u ≠ w) :
    (u, w) ∈ n.edges ∨ (w, u) ∈ n.edges := by
  rw [mem_edges, mem_edges]
  rcases mem_points.mp hu with rfl | rfl | rfl <;> rcases mem_points.mp hw with rfl | rfl | rfl
  · exact absurd rfl hne
  · exact .inl (.inl rfl)
  · exact .inr (.inr (.inr rfl))
  · exact .inr (.inl rfl)
  · exact absurd rfl hne
  · exact .inl (.inr (.inl rfl))
  · exact .inl (.inr (.inr rfl))
  · exact .inr (.inr (.inl rfl))
  · exact absurd rfl hne

/-- The three edges as lines of pixels. -/
def Outlined (n : Corners) (L : Fin 3 → Set Pixel) : Prop :=
  ∀ i, Line (n.corner i) (n.corner (i + 1)) (L i)

/-- The shape between the edges. -/
def shape (L : Fin 3 → Set Pixel) : Set Pixel := rowHull (⋃ i, L i)

variable {L : Fin 3 → Set Pixel}

theorem Outlined.edge (hL : n.Outlined L) (he : e ∈ n.edges) : ∃ i, Line e.1 e.2 (L i) := by
  rcases mem_edges.mp he with rfl | rfl | rfl
  · exact ⟨0, hL 0⟩
  · exact ⟨1, hL 1⟩
  · exact ⟨2, hL 2⟩

theorem Outlined.line (hL : n.Outlined L) (hu : u ∈ n.points) (hw : w ∈ n.points) (hne : u ≠ w) :
    ∃ i, Line u w (L i) := by
  rcases edge_of_points hu hw hne with he | he
  · exact hL.edge he
  · obtain ⟨i, h⟩ := hL.edge he
    exact ⟨i, h.symm⟩

/-- Each pixel of the edges is on a line between two corners, top down. -/
theorem Outlined.topDown (hL : n.Outlined L) {p : Pixel} (hp : p ∈ ⋃ i, L i) :
    ∃ e ∈ n.edges, ∃ i, Line (topDown e).1 (topDown e).2 (L i) ∧ p ∈ L i := by
  obtain ⟨i, hp⟩ := Set.mem_iUnion.mp hp
  have he : (n.corner i, n.corner (i + 1)) ∈ n.edges := by
    rw [mem_edges]
    match i with
    | 0 => exact .inl rfl
    | 1 => exact .inr (.inl rfl)
    | 2 => exact .inr (.inr rfl)
  refine ⟨_, he, i, ?_, hp⟩
  rcases topDown_cases (n.corner i, n.corner (i + 1)) with h | h <;> rw [h]
  · exact hL i
  · exact (hL i).symm

end Corners

end Inboard
