import Mathlib.Algebra.Order.Field.Rat
import Mathlib.Data.Finset.Max
import Mathlib.Tactic.Linarith
import Mathlib.Tactic.Ring

/-!
# Lines of pixels

A line between two pixels is what Bresenham's algorithm steps through, a pixel a step along the
longer way and each within half a pixel of the exact line, whichever way ties go (`Line`). It has a
pixel on each of its rows within half a pixel of where the exact line crosses it
(`Line.exists_row`), and a polygon that is reached from a column on two rows is so on those between
(`crossesLeft_between`).
-/

set_option linter.unusedSectionVars false

namespace Inboard

variable {a b p u w : ℤ × ℤ} {L : Set (ℤ × ℤ)} {l t x y : ℤ}

/-! ## Lines -/

def Between (a b x : ℤ) : Prop := min a b ≤ x ∧ x ≤ max a b

theorem Between.symm (h : Between a.1 b.1 x) : Between b.1 a.1 x := by
  unfold Between at *
  omega

/-- How far `p` is beside the line from `a` to `b`, times the rows of the line. -/
def beside (a b p : ℤ × ℤ) : ℤ := (p.1 - a.1) * (b.2 - a.2) - (b.1 - a.1) * (p.2 - a.2)

theorem beside_symm (a b p : ℤ × ℤ) : beside b a p = -beside a b p := by
  unfold beside
  ring

/-- `L` is a line of pixels from `a` to `b`. -/
structure Line (a b : ℤ × ℤ) (L : Set (ℤ × ℤ)) : Prop where
  box : ∀ p ∈ L, Between a.1 b.1 p.1 ∧ Between a.2 b.2 p.2
  near : ∀ p ∈ L, 2 * (beside a b p).natAbs ≤ max (b.1 - a.1).natAbs (b.2 - a.2).natAbs
  rows : (b.1 - a.1).natAbs ≤ (b.2 - a.2).natAbs → ∀ y, Between a.2 b.2 y → ∃! x, (x, y) ∈ L
  cols : (b.2 - a.2).natAbs ≤ (b.1 - a.1).natAbs → ∀ x, Between a.1 b.1 x → ∃! y, (x, y) ∈ L

theorem Line.symm (h : Line a b L) : Line b a L := by
  have hx : (a.1 - b.1).natAbs = (b.1 - a.1).natAbs := by omega
  have hy : (a.2 - b.2).natAbs = (b.2 - a.2).natAbs := by omega
  refine ⟨fun p hp => ?_, fun p hp => ?_, fun hle y hb => ?_, fun hle x hb => ?_⟩
  · have hbox := h.box p hp
    unfold Between at *
    omega
  · rw [beside_symm, Int.natAbs_neg, hx, hy]
    exact h.near p hp
  · refine h.rows (by omega) y ?_
    unfold Between at *
    omega
  · refine h.cols (by omega) x ?_
    unfold Between at *
    omega

/-- The other way about. -/
def mirror (p : ℤ × ℤ) : ℤ × ℤ := (-p.1, p.2)

theorem beside_mirror (a b p : ℤ × ℤ) :
    beside (mirror a) (mirror b) p = -beside a b (mirror p) := by
  unfold beside mirror
  dsimp only
  ring

theorem Line.mirror (h : Line a b L) : Line (mirror a) (mirror b) {p | Inboard.mirror p ∈ L} := by
  have hx : (-b.1 - -a.1).natAbs = (b.1 - a.1).natAbs := by omega
  refine ⟨fun p hp => ?_, fun p hp => ?_, fun hle y hb => ?_, fun hle x hb => ?_⟩
  · have hbox := h.box _ hp
    unfold Between Inboard.mirror at *
    dsimp only at *
    omega
  · rw [beside_mirror, Int.natAbs_neg]
    exact (h.near _ hp).trans (Nat.le_of_eq (congrArg (max · _) hx.symm))
  · obtain ⟨x, hmem, huniq⟩ := h.rows (hx ▸ hle) y hb
    refine ⟨-x, ?_, fun x' hx' => ?_⟩
    · show (- -x, y) ∈ L
      rwa [Int.neg_neg]
    · rw [← huniq (-x') hx', Int.neg_neg]
  · refine h.cols (hx ▸ hle) (-x) ?_
    unfold Between Inboard.mirror at *
    dsimp only at *
    omega

/-! ## Rows -/

/-- The column next to where the line from `a` to `b` crosses row `y`. -/
def nearest (a b : ℤ × ℤ) (y : ℤ) : ℤ :=
  a.1 + (2 * ((b.1 - a.1) * (y - a.2)) + (b.2 - a.2)) / (2 * (b.2 - a.2))

theorem nearest_spec (hab : a.2 < b.2) (hy : a.2 ≤ y) (hy' : y ≤ b.2) :
    2 * (beside a b (nearest a b y, y)).natAbs ≤ (b.2 - a.2).natAbs ∧
      Between a.1 b.1 (nearest a b y) := by
  unfold nearest beside
  dsimp only
  rw [add_sub_cancel_left]
  have hd : 0 < b.2 - a.2 := by omega
  generalize hdy : b.2 - a.2 = d at *
  generalize hn : (b.1 - a.1) * (y - a.2) = n
  generalize hq : (2 * n + d) / (2 * d) = q
  have hlo : 2 * d * q ≤ 2 * n + d := hq ▸ Int.mul_ediv_self_le (by omega)
  have hhi : 2 * n + d < 2 * d * q + 2 * d := hq ▸ Int.lt_mul_ediv_self_add (by omega)
  have hqd : q * d = d * q := Int.mul_comm q d
  have h2 : 2 * d * q = 2 * (d * q) := Int.mul_assoc 2 d q
  refine ⟨by omega, ?_⟩
  unfold Between
  rcases Int.le_total 0 (b.1 - a.1) with hdx | hdx
  · have hn0 : 0 ≤ n := hn ▸ Int.mul_nonneg hdx (by omega)
    have hn1 : n ≤ (b.1 - a.1) * d := hn ▸ Int.mul_le_mul_of_nonneg_left (by omega) hdx
    have hq0 : 0 ≤ q := by
      by_contra hneg
      have := Int.mul_le_mul_of_nonneg_left (show q ≤ -1 by omega) (Int.le_of_lt hd)
      omega
    have hq1 : q ≤ b.1 - a.1 := by
      by_contra hgt
      have := Int.mul_le_mul_of_nonneg_left (show b.1 - a.1 + 1 ≤ q by omega) (Int.le_of_lt hd)
      rw [Int.mul_add, Int.mul_one, Int.mul_comm d (b.1 - a.1)] at this
      omega
    omega
  · have hn0 : n ≤ 0 := hn ▸ Int.mul_nonpos_of_nonpos_of_nonneg hdx (by omega)
    have hn1 : (b.1 - a.1) * d ≤ n := hn ▸ mul_le_mul_of_nonpos_left (by omega) hdx
    have hq0 : q ≤ 0 := by
      by_contra hpos
      have := Int.mul_le_mul_of_nonneg_left (show 1 ≤ q by omega) (Int.le_of_lt hd)
      omega
    have hq1 : b.1 - a.1 ≤ q := by
      by_contra hlt
      have := Int.mul_le_mul_of_nonneg_left (show q ≤ b.1 - a.1 - 1 by omega) (Int.le_of_lt hd)
      rw [Int.mul_sub, Int.mul_one, Int.mul_comm d (b.1 - a.1)] at this
      omega
    omega

/-- A line has a pixel on each row, within half a pixel of the exact line. -/
theorem Line.exists_row (h : Line a b L) (hab : a.2 < b.2) (hy : a.2 ≤ y) (hy' : y ≤ b.2) :
    ∃ x, (x, y) ∈ L ∧ 2 * (beside a b (x, y)).natAbs ≤ (b.2 - a.2).natAbs := by
  have hb : Between a.2 b.2 y := by
    unfold Between
    omega
  by_cases hsteep : (b.1 - a.1).natAbs ≤ (b.2 - a.2).natAbs
  · obtain ⟨x, hx, -⟩ := h.rows hsteep y hb
    have hnear := h.near _ hx
    exact ⟨x, hx, by omega⟩
  · obtain ⟨hnear, hbetween⟩ := nearest_spec hab hy hy'
    obtain ⟨y', hmem, -⟩ := h.cols (by omega) _ hbetween
    have hnear' := h.near _ hmem
    have hrow : y' = y := by
      by_contra hne
      have hdiff : beside a b (nearest a b y, y) - beside a b (nearest a b y, y') =
          (b.1 - a.1) * (y' - y) := by
        unfold beside
        ring
      have hmul : (b.1 - a.1).natAbs ≤ ((b.1 - a.1) * (y' - y)).natAbs := by
        rw [Int.natAbs_mul]
        exact Nat.le_mul_of_pos_right _ (by omega)
      omega
    exact ⟨_, hrow ▸ hmem, hnear⟩

/-! ## Any two pixels have a line -/

/-- Rows and columns change places. -/
theorem Line.swap (h : Line a b L) : Line a.swap b.swap (Set.preimage Prod.swap L) := by
  refine ⟨fun p hp => (h.box _ hp).symm, fun p hp => ?_, fun hle y hb => h.cols hle y hb,
    fun hle x hb => h.rows hle x hb⟩
  have hbeside : beside a.swap b.swap p = -beside a b p.swap := by
    unfold beside Prod.swap
    ring
  rw [hbeside, Int.natAbs_neg, Nat.max_comm]
  exact h.near _ hp

/-- On a diagonal the nearest column is exact. -/
theorem nearest_diagonal (hab : a.2 < b.2) (y : ℤ) :
    (b.1 - a.1 = b.2 - a.2 → nearest a b y = a.1 + (y - a.2)) ∧
      (b.1 - a.1 = -(b.2 - a.2) → nearest a b y = a.1 - (y - a.2)) := by
  have hd : 0 < b.2 - a.2 := by omega
  have hdiv : ∀ k, (2 * ((b.2 - a.2) * k) + (b.2 - a.2)) / (2 * (b.2 - a.2)) = k := by
    intro k
    rw [← Int.mul_assoc, Int.add_comm, Int.add_mul_ediv_left _ _ (by omega),
      Int.ediv_eq_zero_of_lt (by omega) (by omega), Int.zero_add]
  unfold nearest
  refine ⟨fun h => ?_, fun h => ?_⟩
  · rw [h, hdiv]
  · have hneg : -(b.2 - a.2) * (y - a.2) = (b.2 - a.2) * -(y - a.2) := by ring
    rw [h, hneg, hdiv]
    ring

theorem line_nearest (hab : a.2 < b.2) (hsteep : (b.1 - a.1).natAbs ≤ (b.2 - a.2).natAbs) :
    Line a b {p | a.2 ≤ p.2 ∧ p.2 ≤ b.2 ∧ p.1 = nearest a b p.2} := by
  refine ⟨?_, ?_, fun _ y hb => ?_, fun hle x hb => ?_⟩
  · rintro ⟨x, y⟩ ⟨hy, hy', hx⟩
    dsimp only at hx
    subst hx
    refine ⟨(nearest_spec hab hy hy').2, ?_⟩
    unfold Between
    dsimp only at *
    omega
  · rintro ⟨x, y⟩ ⟨hy, hy', hx⟩
    dsimp only at hx
    subst hx
    exact (nearest_spec hab hy hy').1.trans (Nat.le_max_right _ _)
  · unfold Between at hb
    exact ⟨nearest a b y, ⟨show a.2 ≤ y by omega, show y ≤ b.2 by omega, rfl⟩,
      fun x hx => hx.2.2⟩
  · obtain ⟨hpos, hneg⟩ := nearest_diagonal hab (a.2 + (x - a.1).natAbs)
    unfold Between at hb
    have hdx : b.1 - a.1 = b.2 - a.2 ∨ b.1 - a.1 = -(b.2 - a.2) := by omega
    refine ⟨a.2 + (x - a.1).natAbs, ⟨show a.2 ≤ _ by omega, show _ ≤ b.2 by omega, ?_⟩,
      fun y hy => ?_⟩
    · show x = _
      rcases hdx with h | h
      · rw [hpos h]
        omega
      · rw [hneg h]
        omega
    · obtain ⟨hy0, hy1, hx⟩ := hy
      dsimp only at hy0 hy1 hx
      rcases hdx with h | h
      · rw [(nearest_diagonal hab y).1 h] at hx
        omega
      · rw [(nearest_diagonal hab y).2 h] at hx
        omega

theorem exists_line_steep (hsteep : (b.1 - a.1).natAbs ≤ (b.2 - a.2).natAbs) : ∃ L, Line a b L := by
  rcases lt_trichotomy a.2 b.2 with hlt | heq | hgt
  · exact ⟨_, line_nearest hlt hsteep⟩
  · have hab : b = a := Prod.ext (by omega) (by omega)
    subst hab
    refine ⟨{b}, ?_, ?_, fun _ y hb => ?_, fun _ x hb => ?_⟩
    · rintro p rfl
      unfold Between
      omega
    · rintro p rfl
      unfold beside
      omega
    · unfold Between at hb
      exact ⟨b.1, Prod.ext rfl (show y = b.2 by omega), fun x hx => congrArg Prod.fst hx⟩
    · unfold Between at hb
      exact ⟨b.2, Prod.ext (show x = b.1 by omega) rfl, fun y hy => congrArg Prod.snd hy⟩
  · exact ⟨_, (line_nearest hgt (by omega)).symm⟩

theorem exists_line (a b : ℤ × ℤ) : ∃ L, Line a b L := by
  by_cases hsteep : (b.1 - a.1).natAbs ≤ (b.2 - a.2).natAbs
  · exact exists_line_steep hsteep
  · obtain ⟨L, hL⟩ := exists_line_steep (a := a.swap) (b := b.swap)
      (show (b.2 - a.2).natAbs ≤ (b.1 - a.1).natAbs by omega)
    exact ⟨_, hL.swap⟩

/-! ## Convex rows -/

/-- The line from `u` down to `w` crosses row `y` at column `l` or left of it. -/
def CrossesLeft (l y : ℤ) (u w : ℤ × ℤ) : Prop :=
  u.2 < w.2 ∧ u.2 ≤ y ∧ y ≤ w.2 ∧ (u.1 - l) * (w.2 - y) + (w.1 - l) * (y - u.2) ≤ 0

theorem crossesLeft_eq (l y : ℤ) (u w : ℤ × ℤ) : (u.1 - l) * (w.2 - y) + (w.1 - l) * (y - u.2) =
    (u.1 - l) * (w.2 - u.2) + (w.1 - u.1) * (y - u.2) := by
  ring

/-- So does a pixel of the line. -/
theorem Line.exists_left (h : Line u w L) (hcross : CrossesLeft l y u w) :
    ∃ x, x ≤ l ∧ (x, y) ∈ L := by
  obtain ⟨hrows, hu, hw, hle⟩ := hcross
  obtain ⟨x, hmem, hnear⟩ := h.exists_row hrows hu hw
  refine ⟨x, ?_, hmem⟩
  rw [crossesLeft_eq] at hle
  by_contra hgt
  have hmul := Int.mul_le_mul_of_nonneg_right (show l + 1 ≤ x by omega)
    (show 0 ≤ w.2 - u.2 by omega)
  have hx : beside u w (x, y) = x * (w.2 - u.2) - u.1 * (w.2 - u.2) - (w.1 - u.1) * (y - u.2) := by
    unfold beside
    ring
  rw [Int.add_mul, Int.one_mul] at hmul
  rw [Int.sub_mul u.1 l] at hle
  omega

/-- Of the points above row `y`, one that a line from `(l, y)` leaves furthest right. -/
theorem exists_steepest {A : Finset (ℤ × ℤ)} (hA : A.Nonempty) (l : ℤ) (hy : ∀ v ∈ A, v.2 < y) :
    ∃ u ∈ A, ∀ v ∈ A, (u.1 - l) * (y - v.2) ≤ (v.1 - l) * (y - u.2) := by
  obtain ⟨u, hu, hmin⟩ := A.exists_min_image (fun v => ((v.1 - l : ℤ) : ℚ) / ((y - v.2 : ℤ) : ℚ)) hA
  refine ⟨u, hu, fun v hv => ?_⟩
  have hpos : ∀ v ∈ A, (0 : ℚ) < ((y - v.2 : ℤ) : ℚ) := fun v hv => by
    have := hy v hv
    exact_mod_cast (by omega : 0 < y - v.2)
  have hle := (div_le_div_iff₀ (hpos u hu) (hpos v hv)).mp (hmin v hv)
  exact_mod_cast hle

/-- If of the lines between points one crosses row `t` at `l` or left of it, and one row `b`, then
one crosses each row between there. -/
theorem crossesLeft_between {P : Finset (ℤ × ℤ)} {u w u' w' : ℤ × ℤ} {b : ℤ} (hu : u ∈ P)
    (hw : w ∈ P) (hu' : u' ∈ P) (hw' : w' ∈ P) (htop : CrossesLeft l t u w)
    (hbot : CrossesLeft l b u' w') (hty : t ≤ y) (hyb : y ≤ b) :
    ∃ u ∈ P, ∃ w ∈ P, CrossesLeft l y u w := by
  by_contra hnone
  have hty : t < y := by
    refine lt_of_le_of_ne hty fun heq => hnone ⟨u, hu, w, hw, ?_⟩
    rwa [← heq]
  have hyb : y < b := by
    refine lt_of_le_of_ne hyb fun heq => hnone ⟨u', hu', w', hw', ?_⟩
    rwa [heq]
  obtain ⟨hrows, hut, htw, hle⟩ := htop
  obtain ⟨hrows', hub, hbw, hle'⟩ := hbot
  obtain ⟨s, hs, hmin⟩ := exists_steepest (A := P.filter fun v => v.2 < y)
    ⟨u, Finset.mem_filter.mpr ⟨hu, by omega⟩⟩ l fun v hv => (Finset.mem_filter.mp hv).2
  obtain ⟨hsP, hsy⟩ := Finset.mem_filter.mp hs
  have hright : ∀ v ∈ P, 0 ≤ (v.1 - l) * (y - s.2) + (s.1 - l) * (v.2 - y) ∧
      (y ≤ v.2 → 0 < (v.1 - l) * (y - s.2) + (s.1 - l) * (v.2 - y)) := by
    intro v hv
    by_cases hvy : v.2 < y
    · have := hmin v (Finset.mem_filter.mpr ⟨hv, hvy⟩)
      refine ⟨by linarith [mul_sub (s.1 - l) v.2 y, mul_sub (s.1 - l) y v.2], fun h => by omega⟩
    · have hpos : 0 < (v.1 - l) * (y - s.2) + (s.1 - l) * (v.2 - y) := by
        by_contra hneg
        exact hnone ⟨s, hsP, v, hv, by omega, by omega, by omega, by linarith⟩
      exact ⟨le_of_lt hpos, fun _ => hpos⟩
  have hslope : ∀ (u w : ℤ × ℤ) (t : ℤ),
      (w.2 - t) * ((u.1 - l) * (y - s.2) + (s.1 - l) * (u.2 - y)) +
        (t - u.2) * ((w.1 - l) * (y - s.2) + (s.1 - l) * (w.2 - y)) =
      (y - s.2) * ((u.1 - l) * (w.2 - t) + (w.1 - l) * (t - u.2)) +
        (s.1 - l) * ((t - y) * (w.2 - u.2)) := by
    intro u w t
    ring
  have hup : s.1 - l ≤ 0 := by
    have h := hslope u w t
    have h1 := mul_nonneg (show 0 ≤ w.2 - t by omega) (hright u hu).1
    have h2 := mul_nonneg (show 0 ≤ t - u.2 by omega) (hright w hw).1
    have h3 := mul_nonpos_of_nonneg_of_nonpos (show 0 ≤ y - s.2 by omega) hle
    have h4 := mul_neg_of_neg_of_pos (show t - y < 0 by omega) (show 0 < w.2 - u.2 by omega)
    by_contra hpos
    have h5 := mul_neg_of_pos_of_neg (show 0 < s.1 - l by omega) h4
    omega
  have hdown : 0 < s.1 - l := by
    have h := hslope u' w' b
    have h1 := mul_nonneg (show 0 ≤ w'.2 - b by omega) (hright u' hu').1
    have h2 := mul_nonneg (show 0 ≤ b - u'.2 by omega) (hright w' hw').1
    have h3 := mul_nonpos_of_nonneg_of_nonpos (show 0 ≤ y - s.2 by omega) hle'
    have h4 := mul_pos (show 0 < b - y by omega) (show 0 < w'.2 - u'.2 by omega)
    by_contra hneg
    have h5 := mul_nonpos_of_nonpos_of_nonneg (show s.1 - l ≤ 0 by omega) (le_of_lt h4)
    by_cases hub' : u'.2 = b
    · have h6 := mul_pos (show 0 < w'.2 - b by omega) ((hright u' hu').2 (by omega))
      omega
    · have h6 := mul_pos (show 0 < b - u'.2 by omega) ((hright w' hw').2 (by omega))
      omega
  omega

theorem CrossesLeft.mono {l' : ℤ} (h : CrossesLeft l y u w) (hl : l ≤ l') :
    CrossesLeft l' y u w := by
  obtain ⟨hrows, hu, hw, hle⟩ := h
  refine ⟨hrows, hu, hw, ?_⟩
  have h1 := Int.mul_le_mul_of_nonneg_right (show u.1 - l' ≤ u.1 - l by omega)
    (show 0 ≤ w.2 - y by omega)
  have h2 := Int.mul_le_mul_of_nonneg_right (show w.1 - l' ≤ w.1 - l by omega)
    (show 0 ≤ y - u.2 by omega)
  omega

/-- A point on row `y` is crossed there by its line to a point of another row. -/
theorem crossesLeft_point (hu : u.2 = y) (hne : w.2 ≠ y) (hl : u.1 ≤ l) :
    CrossesLeft l y u w ∨ CrossesLeft l y w u := by
  rcases lt_or_gt_of_ne hne with hlt | hgt
  · refine .inr ⟨by omega, by omega, by omega, ?_⟩
    rw [hu, Int.sub_self, Int.mul_zero, Int.zero_add]
    exact mul_nonpos_of_nonpos_of_nonneg (by omega) (by omega)
  · refine .inl ⟨by omega, by omega, by omega, ?_⟩
    rw [hu, Int.sub_self, Int.mul_zero, Int.add_zero]
    exact mul_nonpos_of_nonpos_of_nonneg (by omega) (by omega)

theorem exists_crossesLeft {P : Finset (ℤ × ℤ)} {v : ℤ × ℤ} (hv : v ∈ P) (hrow : v.2 = y)
    (hl : v.1 ≤ l) (hne : ∃ w ∈ P, w.2 ≠ y) : ∃ u ∈ P, ∃ w ∈ P, CrossesLeft l y u w := by
  obtain ⟨w, hw, hwy⟩ := hne
  rcases crossesLeft_point hrow hwy hl with h | h
  · exact ⟨v, hv, w, hw, h⟩
  · exact ⟨w, hw, v, hv, h⟩

/-- The pixels between two of `E` on a row. -/
def rowHull (E : Set (ℤ × ℤ)) : Set (ℤ × ℤ) :=
  {p | ∃ x x', (x, p.2) ∈ E ∧ (x', p.2) ∈ E ∧ x ≤ p.1 ∧ p.1 ≤ x'}

end Inboard
