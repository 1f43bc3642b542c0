import Inboard.D3dQueue
import Inboard.D3dReplay

/-!
# Splitting a triangle

`m8d3d_tri_fit` splits a triangle at the middle of its tallest edge, then of its widest, until the
scratch takes the parts. Along the rows the two longest edges of a part are shorter together than
the triangle's (`Corners.rowSize_half`), and then along the columns, so it ends ; what it hands on
are the triangles of `Corners.pieces`, in order. But a middle cut to a whole number can be an end of
the edge, and where the scratch has three rows or columns no triangle fits and every one has a part
that is as bad (`Corners.Stuck.half`). Eight triangles share the scratch, unless the eighth was
counted by a call that failed before it cleared it (`m8d3d_tri_fit_ends_iff`).
-/

set_option linter.unusedSectionVars false

namespace Inboard

open Routine

/-! ## Halves -/

/-- The two longest of the three distances, together. -/
def size3 (a b c : ℤ) : ℕ :=
  max ((a - b).natAbs + (b - c).natAbs)
    (max ((b - c).natAbs + (c - a).natAbs) ((c - a).natAbs + (a - b).natAbs))

theorem size3_rotate (a b c : ℤ) : size3 b c a = size3 a b c := by
  unfold size3
  omega

/-- The middle of `a` and `b`, cut to a whole number. -/
theorem two_mul_middle (x : ℤ) : 2 * Int.tdiv x 2 = x ∨ 2 * Int.tdiv x 2 = x - 1 ∨
    2 * Int.tdiv x 2 = x + 1 := by
  have hdiv := Int.mul_tdiv_add_tmod x 2
  have hmod : (x.tmod 2).natAbs < 2 := by
    rw [Int.natAbs_tmod x 2]
    exact Nat.mod_lt _ (by decide)
  omega

section Half

variable {a b d m : ℤ}

/-- A part at the start of the longest edge is shorter, if the edge is not of one step. -/
theorem size3_half (hm : 2 * m = a + b ∨ 2 * m = a + b - 1 ∨ 2 * m = a + b + 1)
    (hbd : (b - d).natAbs ≤ (a - b).natAbs) (hda : (d - a).natAbs ≤ (a - b).natAbs)
    (hlong : 2 ≤ (a - b).natAbs) : size3 a m d < size3 a b d ∧ size3 m b d < size3 a b d := by
  have h0 : (a - b).natAbs + (b - d).natAbs ≤ size3 a b d := Nat.le_max_left _ _
  have h1 : (d - a).natAbs + (a - b).natAbs ≤ size3 a b d :=
    Nat.le_trans (Nat.le_max_right _ _) (Nat.le_max_right _ _)
  generalize size3 a b d = n at *
  unfold size3
  refine ⟨?_, ?_⟩
  · omega
  · omega

end Half

/-! ## Longest edges -/

theorem longestEdge_eq (d : Fin 3 → ℤ) (hd : ∀ i, 0 ≤ d i) :
    d (longestEdge d).1 = (longestEdge d).2 ∧ ∀ i, d i ≤ (longestEdge d).2 := by
  have h0 := hd 0
  have h1 := hd 1
  have h2 := hd 2
  have hall : ∀ n, d 0 ≤ n → d 1 ≤ n → d 2 ≤ n → ∀ i, d i ≤ n := by
    intro n h0 h1 h2 i
    match i with
    | 0 => exact h0
    | 1 => exact h1
    | 2 => exact h2
  have hrun : longestEdge d = [0, 1, 2].foldl (fun e i => if e.2 < d i then (i, d i) else e)
    ((0 : Fin 3), (0 : ℤ)) := rfl
  rw [hrun]
  simp only [List.foldl_cons, List.foldl_nil]
  split_ifs <;> refine ⟨?_, hall _ ?_ ?_ ?_⟩ <;> dsimp only at * <;> omega

theorem fin3_cases (i : Fin 3) : i = 0 ∨ i = 1 ∨ i = 2 := by
  decide +revert

section Along

variable (x : Fin 3 → ℤ)

/-- The longest edge along one coordinate. -/
def longestAlong : Fin 3 × ℤ := longestEdge fun i => ((x (i + 1) - x i).natAbs : ℤ)

theorem longestAlong_eq : (longestAlong x).2 =
    ((x ((longestAlong x).1 + 1) - x (longestAlong x).1).natAbs : ℤ) :=
  (longestEdge_eq _ fun _ => by omega).1.symm

theorem le_longestAlong (i : Fin 3) : ((x (i + 1) - x i).natAbs : ℤ) ≤ (longestAlong x).2 :=
  (longestEdge_eq (fun i => ((x (i + 1) - x i).natAbs : ℤ)) fun _ => by omega).2 i

/-- The longest edge is as long as the box. -/
theorem longestAlong_eq_box : (longestAlong x).2 =
    max (x 0) (max (x 1) (x 2)) - min (x 0) (min (x 1) (x 2)) := by
  have heq := longestAlong_eq x
  have h0 : ((x 1 - x 0).natAbs : ℤ) ≤ _ := le_longestAlong x 0
  have h1 : ((x 2 - x 1).natAbs : ℤ) ≤ _ := le_longestAlong x 1
  have h2 : ((x 0 - x 2).natAbs : ℤ) ≤ _ := le_longestAlong x 2
  rcases fin3_cases (longestAlong x).1 with h | h | h
  · rw [h] at heq
    change _ = ((x 1 - x 0).natAbs : ℤ) at heq
    omega
  · rw [h] at heq
    change _ = ((x 2 - x 1).natAbs : ℤ) at heq
    omega
  · rw [h] at heq
    change _ = ((x 0 - x 2).natAbs : ℤ) at heq
    omega

theorem size3_corner (e : Fin 3) :
    size3 (x e) (x (e + 1)) (x (e + 2)) = size3 (x 0) (x 1) (x 2) := by
  rcases fin3_cases e with rfl | rfl | rfl
  · rfl
  · exact size3_rotate _ _ _
  · exact (size3_rotate _ _ _).trans (size3_rotate _ _ _)

/-- Both parts are shorter along the coordinate that is split. -/
theorem size3_split (hlong : 2 ≤ (longestAlong x).2) :
    let e := (longestAlong x).1
    let m := Int.tdiv (x e + x (e + 1)) 2
    size3 (x e) m (x (e + 2)) < size3 (x 0) (x 1) (x 2) ∧
      size3 m (x (e + 1)) (x (e + 2)) < size3 (x 0) (x 1) (x 2) := by
  have heq := longestAlong_eq x
  have h1 := le_longestAlong x ((longestAlong x).1 + 1)
  have h2 := le_longestAlong x ((longestAlong x).1 + 2)
  generalize (longestAlong x).1 = e at *
  have he1 : e + 1 + 1 = e + 2 := by
    rcases fin3_cases e with h | h | h <;> rw [h] <;> rfl
  have he2 : e + 2 + 1 = e := by
    rcases fin3_cases e with h | h | h <;> rw [h] <;> rfl
  rw [he1] at h1
  rw [he2] at h2
  dsimp only
  rw [← size3_corner x e]
  have hm := two_mul_middle (x e + x (e + 1))
  generalize (longestAlong x).2 = n at *
  generalize x e = a at *
  generalize x (e + 1) = b at *
  generalize x (e + 2) = d at *
  refine size3_half ?_ ?_ ?_ ?_
  · omega
  · omega
  · omega
  · omega

/-- A middle stays in the box, and so do the parts. -/
theorem middle_mem (e : Fin 3) : min (x 0) (min (x 1) (x 2)) ≤ Int.tdiv (x e + x (e + 1)) 2 ∧
    Int.tdiv (x e + x (e + 1)) 2 ≤ max (x 0) (max (x 1) (x 2)) := by
  have hm := two_mul_middle (x e + x (e + 1))
  generalize Int.tdiv (x e + x (e + 1)) 2 = m at *
  rcases fin3_cases e with rfl | rfl | rfl
  · change 2 * m = x 0 + x 1 ∨ 2 * m = x 0 + x 1 - 1 ∨ 2 * m = x 0 + x 1 + 1 at hm
    omega
  · change 2 * m = x 1 + x 2 ∨ 2 * m = x 1 + x 2 - 1 ∨ 2 * m = x 1 + x 2 + 1 at hm
    omega
  · change 2 * m = x 2 + x 0 ∨ 2 * m = x 2 + x 0 - 1 ∨ 2 * m = x 2 + x 0 + 1 at hm
    omega

end Along

/-! ## Parts -/

namespace Corners

variable {c : D3dContext} {v p q : Corners}

/-- `p` is in the box of `v`. -/
def InBoxOf (p v : Corners) : Prop := v.l ≤ p.l ∧ p.r ≤ v.r ∧ v.t ≤ p.t ∧ p.b ≤ v.b

theorem InBoxOf.refl (v : Corners) : v.InBoxOf v :=
  ⟨Int.le_refl _, Int.le_refl _, Int.le_refl _, Int.le_refl _⟩

theorem InBoxOf.trans (h : p.InBoxOf q) (h' : q.InBoxOf v) : p.InBoxOf v := by
  unfold InBoxOf at *
  omega

theorem tallest_eq_box (v : Corners) : v.tallest.2 = v.b - v.t :=
  longestAlong_eq_box fun i => (v.corner i).2

theorem widest_eq_box (v : Corners) : v.widest.2 = v.r - v.l :=
  longestAlong_eq_box fun i => (v.corner i).1

theorem fits_iff : v.Fits c ↔ v.b - v.t + 2 < c.sh ∧ v.r - v.l + 2 < c.tw := by
  rw [Fits, tallest_eq_box, widest_eq_box]

theorem corner_mem_box (v : Corners) (e : Fin 3) : v.l ≤ (v.corner e).1 ∧ (v.corner e).1 ≤ v.r ∧
    v.t ≤ (v.corner e).2 ∧ (v.corner e).2 ≤ v.b := by
  unfold l r t b
  rcases fin3_cases e with rfl | rfl | rfl
  · change _ ≤ v.v0.1 ∧ v.v0.1 ≤ _ ∧ _ ≤ v.v0.2 ∧ v.v0.2 ≤ _
    omega
  · change _ ≤ v.v1.1 ∧ v.v1.1 ≤ _ ∧ _ ≤ v.v1.2 ∧ v.v1.2 ≤ _
    omega
  · change _ ≤ v.v2.1 ∧ v.v2.1 ≤ _ ∧ _ ≤ v.v2.2 ∧ v.v2.2 ≤ _
    omega

theorem middle_mem_box (v : Corners) (e : Fin 3) : v.l ≤ (v.middle e).1 ∧ (v.middle e).1 ≤ v.r ∧
    v.t ≤ (v.middle e).2 ∧ (v.middle e).2 ≤ v.b := by
  have hx := middle_mem (fun i => (v.corner i).1) e
  have hy := middle_mem (fun i => (v.corner i).2) e
  exact ⟨hx.1, hx.2, hy.1, hy.2⟩

theorem inBoxOf_of_mem {a b' d : Pixel}
    (ha : v.l ≤ a.1 ∧ a.1 ≤ v.r ∧ v.t ≤ a.2 ∧ a.2 ≤ v.b)
    (hb : v.l ≤ b'.1 ∧ b'.1 ≤ v.r ∧ v.t ≤ b'.2 ∧ b'.2 ≤ v.b)
    (hd : v.l ≤ d.1 ∧ d.1 ≤ v.r ∧ v.t ≤ d.2 ∧ d.2 ≤ v.b) : InBoxOf ⟨a, b', d⟩ v := by
  refine ⟨?_, ?_, ?_, ?_⟩
  · exact Int.le_min.mpr ⟨ha.1, Int.le_min.mpr ⟨hb.1, hd.1⟩⟩
  · exact Int.max_le.mpr ⟨ha.2.1, Int.max_le.mpr ⟨hb.2.1, hd.2.1⟩⟩
  · exact Int.le_min.mpr ⟨ha.2.2.1, Int.le_min.mpr ⟨hb.2.2.1, hd.2.2.1⟩⟩
  · exact Int.max_le.mpr ⟨ha.2.2.2, Int.max_le.mpr ⟨hb.2.2.2, hd.2.2.2⟩⟩

theorem half0_inBoxOf (v : Corners) (e : Fin 3) : (v.half0 e).InBoxOf v :=
  inBoxOf_of_mem (v.corner_mem_box e) (v.middle_mem_box e) (v.corner_mem_box (e + 2))

theorem half1_inBoxOf (v : Corners) (e : Fin 3) : (v.half1 e).InBoxOf v :=
  inBoxOf_of_mem (v.middle_mem_box e) (v.corner_mem_box (e + 1)) (v.corner_mem_box (e + 2))

/-- How much there is to split along the rows, and along the columns. -/
def rowSize (v : Corners) : ℕ := size3 v.v0.2 v.v1.2 v.v2.2

def colSize (v : Corners) : ℕ := size3 v.v0.1 v.v1.1 v.v2.1

theorem rowSize_half (hlong : 2 ≤ v.tallest.2) : (v.half0 v.tallest.1).rowSize < v.rowSize ∧
    (v.half1 v.tallest.1).rowSize < v.rowSize :=
  size3_split (fun i => (v.corner i).2) hlong

theorem colSize_half (hlong : 2 ≤ v.widest.2) : (v.half0 v.widest.1).colSize < v.colSize ∧
    (v.half1 v.widest.1).colSize < v.colSize :=
  size3_split (fun i => (v.corner i).1) hlong

theorem colSize_le (v : Corners) : (v.colSize : ℤ) ≤ 2 * (v.r - v.l) := by
  unfold colSize size3 r l
  omega

/-! ## What is handed on -/

/-- The triangles that a triangle is split into, no deeper than `fuel`. -/
def pieces (c : D3dContext) : ℕ → Corners → Option (List Corners)
  | 0, _ => none
  | fuel + 1, v =>
    if v.Fits c then some [v]
    else
      match pieces c fuel (v.half0 (v.splitEdge c)), pieces c fuel (v.half1 (v.splitEdge c)) with
      | some ps, some qs => some (ps ++ qs)
      | _, _ => none

/-- Only the size of the scratch counts. -/
theorem pieces_congr {c' : D3dContext} (h : c'.toM8d3dContext = c.toM8d3dContext) :
    ∀ (fuel : ℕ) (v : Corners), pieces c' fuel v = pieces c fuel v
  | 0, _ => rfl
  | fuel + 1, v => by
    have hfits : v.Fits c' = v.Fits c := by
      unfold Fits
      rw [h]
    have hedge : v.splitEdge c' = v.splitEdge c := by
      unfold splitEdge
      rw [h]
    unfold pieces
    simp only [hfits, hedge, pieces_congr h fuel]

theorem pieces_fit : ∀ {fuel : ℕ} {v : Corners} {ps : List Corners}, pieces c fuel v = some ps →
    ps ≠ [] ∧ ∀ p ∈ ps, p.Fits c ∧ p.InBoxOf v
  | 0, _, _, h => nomatch h
  | fuel + 1, v, ps, h => by
    unfold pieces at h
    split_ifs at h with hfit
    · obtain rfl := Option.some.inj h
      refine ⟨List.cons_ne_nil _ _, fun p hp => ?_⟩
      obtain rfl := List.mem_singleton.mp hp
      exact ⟨hfit, .refl p⟩
    · cases h0 : pieces c fuel (v.half0 (v.splitEdge c)) with
      | none => rw [h0] at h; exact absurd h (by simp)
      | some qs =>
        cases h1 : pieces c fuel (v.half1 (v.splitEdge c)) with
        | none => rw [h0, h1] at h; exact absurd h (by simp)
        | some rs =>
          rw [h0, h1] at h
          obtain rfl := Option.some.inj h
          obtain ⟨hne, hqs⟩ := pieces_fit h0
          obtain ⟨-, hrs⟩ := pieces_fit h1
          refine ⟨List.append_ne_nil_of_left_ne_nil hne rs, fun p hp => ?_⟩
          rcases List.mem_append.mp hp with hp | hp
          · exact ⟨(hqs p hp).1, (hqs p hp).2.trans (v.half0_inBoxOf _)⟩
          · exact ⟨(hrs p hp).1, (hrs p hp).2.trans (v.half1_inBoxOf _)⟩

theorem pieces_split {fuel : ℕ} (hfit : ¬ v.Fits c)
    (h0 : ∃ ps, pieces c fuel (v.half0 (v.splitEdge c)) = some ps)
    (h1 : ∃ ps, pieces c fuel (v.half1 (v.splitEdge c)) = some ps) :
    ∃ ps, pieces c (fuel + 1) v = some ps := by
  obtain ⟨ps, h0⟩ := h0
  obtain ⟨qs, h1⟩ := h1
  refine ⟨ps ++ qs, ?_⟩
  unfold pieces
  rw [if_neg hfit, h0, h1]

/-- A triangle whose rows fit is split along the columns, to an end. -/
theorem pieces_of_rows (htw : 4 ≤ c.tw) : ∀ {fuel : ℕ} {v : Corners}, v.b - v.t + 2 < c.sh →
    v.colSize < fuel → ∃ ps, pieces c fuel v = some ps
  | 0, _, _, h => absurd h (Nat.not_lt_zero _)
  | fuel + 1, v, hrows, hsize => by
    by_cases hfit : v.Fits c
    · exact ⟨[v], if_pos hfit⟩
    · have hrows' : v.tallest.2 + 2 < c.sh := by rwa [tallest_eq_box]
      have hedge : v.splitEdge c = v.widest.1 := if_pos hrows'
      have hlong : 2 ≤ v.widest.2 := by
        have hwide : ¬ v.widest.2 + 2 < c.tw := fun h => hfit ⟨hrows', h⟩
        omega
      obtain ⟨hc0, hc1⟩ := colSize_half hlong
      have hb0 := v.half0_inBoxOf v.widest.1
      have hb1 := v.half1_inBoxOf v.widest.1
      refine pieces_split hfit ?_ ?_ <;> rw [hedge]
      · refine pieces_of_rows htw ?_ (by omega)
        unfold InBoxOf at hb0
        omega
      · refine pieces_of_rows htw ?_ (by omega)
        unfold InBoxOf at hb1
        omega

/-- A bound on how deep a triangle is split. -/
def depth (v : Corners) : ℕ := v.rowSize + 2 * (v.r - v.l).toNat + 1

/-- A scratch of four columns and rows is enough for any triangle. -/
theorem pieces_some (htw : 4 ≤ c.tw) (hsh : 4 ≤ c.sh) : ∀ {fuel : ℕ} {v : Corners},
    v.depth ≤ fuel → ∃ ps, pieces c fuel v = some ps
  | 0, _, h => absurd h (Nat.not_succ_le_zero _)
  | fuel + 1, v, hdepth => by
    have hcol := v.colSize_le
    have hlr := v.l_le_r
    unfold depth at hdepth
    by_cases hrows : v.b - v.t + 2 < c.sh
    · exact pieces_of_rows htw hrows (by omega)
    · have hrows' : ¬ v.tallest.2 + 2 < c.sh := by rwa [tallest_eq_box]
      have hfit : ¬ v.Fits c := fun h => hrows' h.1
      have hedge : v.splitEdge c = v.tallest.1 := if_neg hrows'
      have hlong : 2 ≤ v.tallest.2 := by
        rw [tallest_eq_box]
        omega
      obtain ⟨hr0, hr1⟩ := rowSize_half hlong
      have hb0 := v.half0_inBoxOf v.tallest.1
      have hb1 := v.half1_inBoxOf v.tallest.1
      refine pieces_split hfit ?_ ?_ <;> rw [hedge] <;> refine pieces_some htw hsh ?_
      · unfold depth
        unfold InBoxOf at hb0
        omega
      · unfold depth
        unfold InBoxOf at hb1
        omega

/-- A part with rows, or columns, that a scratch of three never takes. -/
def Stuck (v : Corners) (c : D3dContext) : Prop := c.sh ≤ 3 ∧ v.t < v.b ∨ c.tw ≤ 3 ∧ v.l < v.r

theorem Stuck.not_fits (h : v.Stuck c) : ¬ v.Fits c := by
  rw [fits_iff]
  unfold Stuck at h
  omega

/-- Of three numbers that are not all one, either half has two. -/
theorem half_spread (x : Fin 3 → ℤ) (e : Fin 3) (m : ℤ)
    (h : min (x 0) (min (x 1) (x 2)) < max (x 0) (max (x 1) (x 2))) :
    min (x e) (min m (x (e + 2))) < max (x e) (max m (x (e + 2))) ∨
      min m (min (x (e + 1)) (x (e + 2))) < max m (max (x (e + 1)) (x (e + 2))) := by
  have hkey : ∀ a b d : ℤ, ¬ (a = b ∧ b = d) → min a (min m d) < max a (max m d) ∨
      min m (min b d) < max m (max b d) := by
    intro a b d hne
    omega
  rcases fin3_cases e with rfl | rfl | rfl
  · exact hkey (x 0) (x 1) (x 2) (by omega)
  · exact hkey (x 1) (x 2) (x 0) (by omega)
  · exact hkey (x 2) (x 0) (x 1) (by omega)

theorem Stuck.half (h : v.Stuck c) (e : Fin 3) : (v.half0 e).Stuck c ∨ (v.half1 e).Stuck c := by
  rcases h with ⟨hsh, hrows⟩ | ⟨htw, hcols⟩
  · rcases half_spread (fun i => (v.corner i).2) e (v.middle e).2 hrows with h | h
    · exact .inl (.inl ⟨hsh, h⟩)
    · exact .inr (.inl ⟨hsh, h⟩)
  · rcases half_spread (fun i => (v.corner i).1) e (v.middle e).1 hcols with h | h
    · exact .inl (.inr ⟨htw, h⟩)
    · exact .inr (.inr ⟨htw, h⟩)

/-- A triangle that is not flat has rows and columns. -/
theorem spread_of_area (h : v.area ≠ 0) : v.t < v.b ∧ v.l < v.r := by
  refine ⟨Int.not_le.mp fun hflat => h ?_, Int.not_le.mp fun hflat => h ?_⟩
  · unfold t b at hflat
    have h1 : v.v1.2 = v.v0.2 := by omega
    have h2 : v.v2.2 = v.v0.2 := by omega
    rw [area, h1, h2, Int.sub_self, Int.mul_zero, Int.zero_mul, Int.sub_zero]
  · unfold l r at hflat
    have h1 : v.v1.1 = v.v0.1 := by omega
    have h2 : v.v2.1 = v.v0.1 := by omega
    rw [area, h1, h2, Int.sub_self, Int.mul_zero, Int.zero_mul, Int.sub_zero]

end Corners

/-! ## What the queue's routines leave alone -/

/-- The context, and what is kept of the run, stay. -/
structure D3d.Quiet (s t : D3d) : Prop where
  c : t.c = s.c
  tris : t.tris = s.tris
  most : t.most = s.most
  deep : t.deep = s.deep

instance : IsPreorder D3d D3d.Quiet where
  refl _ := ⟨rfl, rfl, rfl, rfl⟩
  trans _ _ _ h h' := ⟨h'.c.trans h.c, h'.tris.trans h.tris, h'.most.trans h.most,
    h'.deep.trans h.deep⟩

/-- Every call finds room. -/
def roomy : ℕ → Bool := fun _ => true

/-- A routine that leaves them alone, and goes through if every call finds room. -/
structure Minor (room : ℕ → Bool) (f : D3dOp) : Prop where
  quiet : Moves D3d.Quiet f
  goes : room = roomy → Goes f

namespace Minor

variable {room : ℕ → Bool} {f g : D3dOp}

theorem ok : Minor room ok := ⟨.ok, fun _ => .ok⟩

theorem qs (ws : List (ℕ × ℤ)) : Minor room (D3d.qs ws) := by
  refine ⟨fun s => ?_, fun _ => .note _⟩
  show D3d.Quiet s (s.m8d3dQs ws)
  induction ws generalizing s with
  | nil => exact ⟨rfl, rfl, rfl, rfl⟩
  | cons w ws ih =>
    obtain ⟨hc, htris, hmost, hdeep⟩ := ih (s.m8d3dQ w.1 w.2)
    exact ⟨hc, htris, hmost, hdeep⟩

theorem seq (hf : Minor room f) (hg : Minor room g) : Minor room (f.seq g) :=
  ⟨hf.quiet.seq hg.quiet, fun h => (hf.goes h).seq (hg.goes h)⟩

theorem all {fs : List D3dOp} (h : ∀ f ∈ fs, Minor room f) : Minor room (all fs) :=
  ⟨.all fun f hf => (h f hf).quiet, fun hr => .all fun f hf => (h f hf).goes hr⟩

theorem ite {p : Prop} [Decidable p] (hf : Minor room f) (hg : Minor room g) :
    Minor room (if p then f else g) :=
  ⟨.ite hf.quiet hg.quiet, fun h => .ite (hf.goes h) (hg.goes h)⟩

/-- What reads the state first. -/
theorem reads {F : D3d → D3dOp} (h : ∀ s, Minor room (F s)) : Minor room fun s => F s s :=
  ⟨.reads fun s => (h s).quiet, fun hr => .reads fun s => (h s).goes hr⟩

end Minor

namespace D3d

variable (room : ℕ → Bool)

theorem qSend_quiet : ∀ (fuel : ℕ) (q : List (ℕ × ℤ)) (s : D3d),
    Quiet s (qSend room fuel q s).2 ∧ (room = roomy → (qSend room fuel q s).1 = true)
  | 0, _, _ => ⟨⟨rfl, rfl, rfl, rfl⟩, fun _ => rfl⟩
  | _ + 1, [], _ => ⟨⟨rfl, rfl, rfl, rfl⟩, fun _ => rfl⟩
  | fuel + 1, w :: q, s => by
    unfold qSend
    split_ifs with hroom
    · obtain ⟨⟨hc, htris, hmost, hdeep⟩, hgoes⟩ := qSend_quiet fuel ((w :: q).drop M8D3D_Q_CHUNK)
        { s with rooms := s.rooms + 1, sent := s.sent ++ (w :: q).take M8D3D_Q_CHUNK }
      exact ⟨⟨hc, htris, hmost, hdeep⟩, hgoes⟩
    · exact ⟨⟨rfl, rfl, rfl, rfl⟩, fun h => absurd (congrFun h s.rooms) hroom⟩

theorem minor_m8d3dQFlush : Minor room (m8d3dQFlush room) := by
  refine ⟨fun s => ?_, fun h s => (qSend_quiet room _ _ s).2 h⟩
  obtain ⟨hc, htris, hmost, hdeep⟩ := (qSend_quiet room s.q.length s.q s).1
  exact ⟨hc, htris, hmost, hdeep⟩

theorem minor_m8d3dQNeed (n : ℕ) : Minor room (m8d3dQNeed room n) := by
  have h : ∀ s : D3d, Minor room (if M8D3D_Q_MAX < s.q.length + n + M8D3D_Q_ONE * 2 then
      m8d3dQFlush room else ok) := fun s => .ite (minor_m8d3dQFlush room) .ok
  have hread : m8d3dQNeed room n = fun s => (if M8D3D_Q_MAX < s.q.length + n + M8D3D_Q_ONE * 2 then
      m8d3dQFlush room else ok) s := by
    funext s
    unfold m8d3dQNeed
    split_ifs <;> rfl
  rw [hread]
  exact .reads h

theorem minor_needQs (ws : List (ℕ × ℤ)) : Minor room (needQs room ws) :=
  (minor_m8d3dQNeed room _).seq (.qs ws)

theorem minor_m8d3dQRect (r : Rect) : Minor room (m8d3dQRect room r) :=
  .ite .ok (minor_needQs room _)

theorem minor_m8d3dQClear (r : Rect) : Minor room (m8d3dQClear room r) :=
  (minor_needQs room _).seq (minor_m8d3dQRect room r)

theorem minor_m8d3dEdges (ox oy : ℤ) (v : Corners) (plane : ℤ) :
    Minor room (m8d3dEdges room ox oy v plane) := by
  refine ((minor_m8d3dQNeed room 6).seq (.qs _)).seq (.all fun f hf => ?_)
  obtain ⟨e, -, rfl⟩ := List.mem_map.mp hf
  exact .ite .ok (minor_needQs room _)

theorem minor_spanRows (dx dy : ℤ) (v : Corners) : ∀ n y : ℕ,
    Minor room (spanRows room dx dy v n y)
  | 0, _ => .ok
  | n + 1, y => (Minor.ite (minor_m8d3dQNeed room 15) .ok).seq
    ((Minor.qs _).seq (minor_spanRows dx dy v n (y + 1)))

theorem minor_m8d3dSpans (dx dy : ℤ) (v : Corners) (colour : ℤ) :
    Minor room (m8d3dSpans room dx dy v colour) :=
  (minor_needQs room _).seq (minor_spanRows room dx dy v _ _)

/-! ## A triangle in the scratch -/

/-- A triangle more in a plane of the scratch, if it is tall, or none. -/
structure Counted (v : Corners) (s t : D3d) : Prop where
  base : t.c.toM8d3dContext = s.c.toM8d3dContext
  tris : t.tris = s.tris
  deep : t.deep = s.deep
  count : t.c.drawn = s.c.drawn ∧ t.most = s.most ∨ M8D3D_SPAN_ROWS < v.b - v.t ∧
    t.c.drawn = s.c.drawn + 1 ∧ t.most = max s.most (s.c.drawn + 1)

variable {room} {s t u : D3d} {v : Corners}

theorem Quiet.counted (h : Quiet s t) : Counted v s t := by
  obtain ⟨hc, htris, hmost, hdeep⟩ := h
  exact ⟨by rw [hc], htris, hdeep, .inl ⟨by rw [hc], hmost⟩⟩

theorem Counted.quiet (h : Counted v s t) (hq : Quiet t u) : Counted v s u := by
  obtain ⟨hbase, htris, hdeep, hcount⟩ := h
  obtain ⟨hc, htris', hmost, hdeep'⟩ := hq
  refine ⟨?_, htris'.trans htris, hdeep'.trans hdeep, ?_⟩
  · rw [hc]
    exact hbase
  · rw [hc, hmost]
    exact hcount

/-- What the fill of a tall triangle writes before the triangle counts. -/
def fillHead (room : ℕ → Bool) (dx dy : ℤ) (v : Corners) (colour : ℤ) (s : D3d) : D3dOp :=
  (m8d3dEdges room (s.c.sx - v.l) (s.c.sy - v.t) v s.plane).seq
    (needQs room (polyFill s.plane colour 0x00FF s.c.sx s.c.sy (dx + v.l) (dy + v.t)
      (v.r - v.l + 1) (v.b - v.t + 1)))

theorem triFill_eq (dx dy : ℤ) (v : Corners) (colour : ℤ) (s : D3d) :
    triFill room dx dy v colour s = (fillHead room dx dy v colour s).seq
      (note (drew s.c.sx s.c.sy (s.c.sx + (v.r - v.l + 1)) (s.c.sy + (v.b - v.t + 1)))) s := by
  rw [fillHead, seq_assoc]
  rfl

theorem minor_fillHead (dx dy : ℤ) (v : Corners) (colour : ℤ) (s : D3d) :
    Minor room (fillHead room dx dy v colour s) :=
  (minor_m8d3dEdges room _ _ v _).seq (minor_needQs room _)

theorem Quiet.drew (hq : Quiet s t) (l top r b : ℤ) : (t.drew l top r b).c.toM8d3dContext =
    s.c.toM8d3dContext ∧ (t.drew l top r b).tris = s.tris ∧ (t.drew l top r b).deep = s.deep ∧
      (t.drew l top r b).c.drawn = s.c.drawn + 1 ∧
        (t.drew l top r b).most = max s.most (s.c.drawn + 1) := by
  obtain ⟨hc, htris, hmost, hdeep⟩ := hq
  unfold D3d.drew
  dsimp only
  rw [hc, hmost]
  exact ⟨rfl, htris, hdeep, rfl, rfl⟩

theorem triFill_counted (dx dy colour : ℤ) (htall : M8D3D_SPAN_ROWS < v.b - v.t) (s : D3d) :
    Counted v s (triFill room dx dy v colour s).2 := by
  have hquiet := (@minor_fillHead room dx dy v colour s).quiet s
  rw [triFill_eq]
  by_cases hok : (fillHead room dx dy v colour s s).1 = true
  · rw [seq_true hok]
    obtain ⟨hbase, htris, hdeep, hdrawn, hmost⟩ := hquiet.drew s.c.sx s.c.sy
      (s.c.sx + (v.r - v.l + 1)) (s.c.sy + (v.b - v.t + 1))
    exact ⟨hbase, htris, hdeep, .inr ⟨htall, hdrawn, hmost⟩⟩
  · rw [seq_false hok]
    exact hquiet.counted

/-- What `m8d3d_tri` writes after a tall triangle's fill. -/
def triEdge (room : ℕ → Bool) (dx dy : ℤ) (v : Corners) (colour : ℤ) : D3dOp :=
  (needQs room [(M8_RD_MASK, 0x00FF)]).seq
    (m8d3dOutline room dx dy v M8_MIX_REPLACE M8_LINEDRAW_LAST_OFF colour 0x00FF)

theorem minor_triEdge (dx dy : ℤ) (v : Corners) (colour : ℤ) :
    Minor room (triEdge room dx dy v colour) :=
  (minor_needQs room _).seq (minor_needQs room _)

theorem m8d3dTri_short (dx dy colour : ℤ) (hv : v.b - v.t ≤ M8D3D_SPAN_ROWS) (s : D3d) :
    m8d3dTri room dx dy v colour s =
      m8d3dSpans room dx dy v colour { s with tris := s.tris ++ [v] } := by
  unfold m8d3dTri
  rw [if_pos hv]
  rfl

theorem m8d3dTri_tall (dx dy colour : ℤ) (hv : M8D3D_SPAN_ROWS < v.b - v.t) (s : D3d) :
    m8d3dTri room dx dy v colour s = ((triFill room dx dy v colour).seq
      (triEdge room dx dy v colour)) { s with tris := s.tris ++ [v] } := by
  unfold m8d3dTri
  unfold M8D3D_SPAN_ROWS at *
  rw [if_neg (by omega), if_pos (by omega)]
  rfl

theorem m8d3dTri_counted (dx dy colour : ℤ) (v : Corners) (s : D3d) :
    Counted v { s with tris := s.tris ++ [v] } (m8d3dTri room dx dy v colour s).2 := by
  by_cases hv : v.b - v.t ≤ M8D3D_SPAN_ROWS
  · rw [m8d3dTri_short dx dy colour hv]
    exact ((minor_m8d3dSpans room dx dy v colour).quiet _).counted
  · rw [m8d3dTri_tall dx dy colour (Int.not_le.mp hv)]
    refine seq_induct (triFill_counted dx dy colour (Int.not_le.mp hv) _) fun _ h => ?_
    exact h.quiet ((minor_triEdge dx dy v colour).quiet _)

theorem goes_triFill (dx dy : ℤ) (v : Corners) (colour : ℤ) : Goes (triFill roomy dx dy v colour) :=
  fun s => by
    rw [triFill_eq]
    exact (((minor_fillHead dx dy v colour s).goes rfl).seq (.note _)) s

theorem goes_m8d3dTri (dx dy : ℤ) (v : Corners) (colour : ℤ) :
    Goes (m8d3dTri roomy dx dy v colour) := fun s => by
  by_cases hv : v.b - v.t ≤ M8D3D_SPAN_ROWS
  · rw [m8d3dTri_short dx dy colour hv]
    exact (minor_m8d3dSpans roomy dx dy v colour).goes rfl _
  · rw [m8d3dTri_tall dx dy colour (Int.not_le.mp hv)]
    exact ((goes_triFill dx dy v colour).seq ((minor_triEdge dx dy v colour).goes rfl)) _

theorem most_triFill (dx dy : ℤ) (v : Corners) (colour : ℤ) (s : D3d) :
    s.c.drawn + 1 ≤ (triFill roomy dx dy v colour s).2.most := by
  have hquiet := (@minor_fillHead roomy dx dy v colour s).quiet s
  have hmost := (hquiet.drew s.c.sx s.c.sy (s.c.sx + (v.r - v.l + 1))
    (s.c.sy + (v.b - v.t + 1))).2.2.2.2
  rw [triFill_eq, seq_true ((minor_fillHead dx dy v colour s).goes rfl s)]
  exact Nat.le_trans (Nat.le_max_right s.most _) (Nat.le_of_eq hmost.symm)

/-- With room, a tall triangle takes a plane. -/
theorem most_m8d3dTri (dx dy colour : ℤ) (hv : M8D3D_SPAN_ROWS < v.b - v.t) (s : D3d) :
    s.c.drawn + 1 ≤ (m8d3dTri roomy dx dy v colour s).2.most := by
  rw [m8d3dTri_tall dx dy colour hv, seq_true (goes_triFill dx dy v colour _),
    ((minor_triEdge dx dy v colour).quiet _).most]
  exact most_triFill dx dy v colour { s with tris := s.tris ++ [v] }

/-! ## Triangles handed on -/

/-- What `m8d3d_tri_fit` does with a triangle that fits. -/
def triStep (room : ℕ → Bool) (dx dy colour : ℤ) (v : Corners) : D3dOp :=
  (m8d3dTri room dx dy v colour).seq (clearEight room)

/-- The scratch is cleared of eight triangles, and the rest stays. -/
structure Cleared (s t : D3d) : Prop where
  base : t.c.toM8d3dContext = s.c.toM8d3dContext
  tris : t.tris = s.tris
  deep : t.deep = s.deep
  most : t.most = s.most
  drawn : t.c.drawn = if s.c.drawn = 8 then 0 else s.c.drawn

theorem clearEight_cleared (s : D3d) : Cleared s (clearEight room s).2 := by
  unfold clearEight
  split_ifs with h8
  · have hquiet : Quiet s ((if s.c.dl < s.c.dr then
        m8d3dQClear room ⟨s.c.dl, s.c.dt, s.c.dr, s.c.db⟩ s else ok s) : Bool × D3d).2 := by
      split_ifs
      · exact (minor_m8d3dQClear room _).quiet s
      · exact ⟨rfl, rfl, rfl, rfl⟩
    obtain ⟨hc, htris, hmost, hdeep⟩ := hquiet
    unfold m8d3dScratchClear
    refine ⟨?_, htris, hdeep, hmost, (if_pos h8).symm⟩
    dsimp only
    rw [hc]
  · exact ⟨rfl, rfl, rfl, rfl, (if_neg h8).symm⟩

theorem goes_clearEight : Goes (clearEight roomy) := fun s => by
  unfold clearEight
  split_ifs
  · unfold m8d3dScratchClear
    dsimp only
    split_ifs
    · exact (minor_m8d3dQClear roomy _).goes rfl s
    · rfl
  · rfl

/-- The scratch takes what comes next. -/
def Takes (s : D3d) (v : Corners) : Prop :=
  s.c.drawn < 8 ∨ s.c.drawn = 8 ∧ v.b - v.t ≤ M8D3D_SPAN_ROWS

/-- What one triangle does that is handed on. -/
structure StepOf (v : Corners) (s t : D3d) : Prop where
  base : t.c.toM8d3dContext = s.c.toM8d3dContext
  tris : t.tris = s.tris ++ [v]
  deep : t.deep = s.deep
  least : s.most ≤ t.most
  most : s.Takes v → s.most ≤ 8 → t.most ≤ 8

theorem triStep_stepOf (dx dy colour : ℤ) (v : Corners) (s : D3d) :
    StepOf v s (triStep room dx dy colour v s).2 ∧ ((triStep room dx dy colour v s).1 = true →
      s.Takes v → (triStep room dx dy colour v s).2.c.drawn < 8) := by
  obtain ⟨hbase, htris, hdeep, hcount⟩ := @m8d3dTri_counted room dx dy colour v s
  have hmost : s.most ≤ (m8d3dTri room dx dy v colour s).2.most ∧ (s.Takes v → s.most ≤ 8 →
      (m8d3dTri room dx dy v colour s).2.most ≤ 8) := by
    unfold Takes
    dsimp only at hcount
    omega
  unfold triStep
  by_cases hok : (m8d3dTri room dx dy v colour s).1 = true
  · rw [seq_true hok]
    obtain ⟨hbase', htris', hdeep', hmost', hdrawn'⟩ :=
      @clearEight_cleared room (m8d3dTri room dx dy v colour s).2
    refine ⟨⟨hbase'.trans hbase, htris'.trans htris, hdeep'.trans hdeep, ?_, ?_⟩,
      fun _ htakes => ?_⟩
    · rw [hmost']
      exact hmost.1
    · rw [hmost']
      exact hmost.2
    · rw [hdrawn']
      unfold Takes at htakes
      dsimp only at hcount
      split_ifs <;> omega
  · rw [seq_false hok]
    exact ⟨⟨hbase, htris, hdeep, hmost.1, hmost.2⟩, fun hok' => absurd hok' hok⟩

theorem goes_triStep (dx dy colour : ℤ) (v : Corners) : Goes (triStep roomy dx dy colour v) :=
  (goes_m8d3dTri dx dy v colour).seq goes_clearEight

/-- What a list of triangles does that are handed on. -/
theorem all_triStep (dx dy colour : ℤ) : ∀ (ps : List Corners) (s : D3d),
    (∀ p ∈ ps.head?, s.Takes p) → s.most ≤ 8 →
      (all (ps.map (triStep room dx dy colour)) s).2.deep = s.deep ∧
        (all (ps.map (triStep room dx dy colour)) s).2.most ≤ 8 ∧
          ∀ p ∈ (all (ps.map (triStep room dx dy colour)) s).2.tris, p ∈ s.tris ∨ p ∈ ps
  | [], _, _, hmost => ⟨rfl, hmost, fun _ hp => .inl hp⟩
  | v :: ps, s, htakes, hmost => by
    obtain ⟨hstep, hdrawn⟩ := @triStep_stepOf room dx dy colour v s
    have hv := htakes v rfl
    have htris : ∀ p ∈ (triStep room dx dy colour v s).2.tris, p ∈ s.tris ∨ p ∈ v :: ps := by
      intro p hp
      rw [hstep.tris] at hp
      rcases List.mem_append.mp hp with hp | hp
      · exact .inl hp
      · exact .inr (List.mem_singleton.mp hp ▸ List.mem_cons_self)
    rw [List.map_cons, all]
    by_cases hok : (triStep room dx dy colour v s).1 = true
    · rw [seq_true hok]
      obtain ⟨hdeep', hmost', htris'⟩ := all_triStep dx dy colour ps
        (triStep room dx dy colour v s).2 (fun _ _ => .inl (hdrawn hok hv)) (hstep.most hv hmost)
      refine ⟨hdeep'.trans hstep.deep, hmost', fun p hp => ?_⟩
      rcases htris' p hp with hp | hp
      · exact htris p hp
      · exact .inr (List.mem_cons_of_mem v hp)
    · rw [seq_false hok]
      exact ⟨hstep.deep, hstep.most hv hmost, htris⟩

/-! ## Splitting -/

/-- What a run does not change, and what it only adds to. -/
structure Kept (s t : D3d) : Prop where
  base : t.c.toM8d3dContext = s.c.toM8d3dContext
  most : s.most ≤ t.most
  deep : s.deep = true → t.deep = true

instance : IsPreorder D3d Kept where
  refl _ := ⟨rfl, Nat.le_refl _, id⟩
  trans _ _ _ h h' :=
    ⟨h'.base.trans h.base, Nat.le_trans h.most h'.most, fun hd => h'.deep (h.deep hd)⟩

theorem kept_m8d3dTriFit (dx dy colour : ℤ) : ∀ (fuel : ℕ) (v : Corners),
    Moves Kept (m8d3dTriFit room dx dy colour fuel v)
  | 0, _ => fun _ => ⟨rfl, Nat.le_refl _, fun _ => rfl⟩
  | fuel + 1, v => by
    refine .iteS (fun s : D3d => v.Fits s.c) (fun s => ?_) (.reads fun s => ?_)
    · obtain ⟨hbase, -, hdeep, hleast, -⟩ := (@triStep_stepOf room dx dy colour v s).1
      exact ⟨hbase, hleast, hdeep.trans⟩
    · exact (kept_m8d3dTriFit dx dy colour fuel _).seq (kept_m8d3dTriFit dx dy colour fuel _)

/-- `m8d3d_tri_fit` hands on the triangles that `v` is split into. -/
theorem m8d3dTriFit_eq (dx dy colour : ℤ) : ∀ {fuel : ℕ} {v : Corners} {ps : List Corners}
    {s : D3d}, Corners.pieces s.c fuel v = some ps → m8d3dTriFit room dx dy colour fuel v s =
      all (ps.map (triStep room dx dy colour)) s
  | 0, _, _, _, h => nomatch h
  | fuel + 1, v, ps, s, h => by
    unfold Corners.pieces at h
    unfold m8d3dTriFit
    split_ifs at h ⊢ with hfit
    · obtain rfl := Option.some.inj h
      rw [List.map_singleton, all, all, seq_ok]
      rfl
    · cases h0 : Corners.pieces s.c fuel (v.half0 (v.splitEdge s.c)) with
      | none => rw [h0] at h; exact absurd h (by simp)
      | some qs =>
        cases h1 : Corners.pieces s.c fuel (v.half1 (v.splitEdge s.c)) with
        | none => rw [h0, h1] at h; exact absurd h (by simp)
        | some rs =>
          rw [h0, h1] at h
          obtain rfl := Option.some.inj h
          have hfirst := m8d3dTriFit_eq dx dy colour h0
          have hkept := @kept_m8d3dTriFit room dx dy colour fuel (v.half0 (v.splitEdge s.c)) s
          rw [List.map_append, all_append]
          by_cases hok : (all (qs.map (triStep room dx dy colour)) s).1 = true
          · rw [seq_true hok, seq_true (hfirst ▸ hok), hfirst]
            refine m8d3dTriFit_eq dx dy colour ?_
            rw [← hfirst, Corners.pieces_congr hkept.base]
            exact h1
          · rw [seq_false hok, seq_false (hfirst ▸ hok), hfirst]

/-- With room, a run that does not go through was not let go deep enough. -/
theorem m8d3dTriFit_end (dx dy colour : ℤ) : ∀ (fuel : ℕ) (v : Corners) (s : D3d),
    (m8d3dTriFit roomy dx dy colour fuel v s).1 = true ∨
      (m8d3dTriFit roomy dx dy colour fuel v s).2.deep = true
  | 0, _, _ => .inr rfl
  | fuel + 1, v, s => by
    unfold m8d3dTriFit
    split_ifs with hfit
    · exact .inl (goes_triStep dx dy colour v s)
    · by_cases hok : (m8d3dTriFit roomy dx dy colour fuel (v.half0 (v.splitEdge s.c)) s).1 = true
      · rw [seq_true hok]
        exact m8d3dTriFit_end dx dy colour fuel _ _
      · rw [seq_false hok]
        exact m8d3dTriFit_end dx dy colour fuel _ s

/-- With room, a triangle that no part of fits is split as deep as it is let. -/
theorem m8d3dTriFit_deep (dx dy colour : ℤ) : ∀ (fuel : ℕ) {v : Corners} {s : D3d}, v.Stuck s.c →
    (m8d3dTriFit roomy dx dy colour fuel v s).2.deep = true
  | 0, _, _, _ => rfl
  | fuel + 1, v, s, h => by
    unfold m8d3dTriFit
    rw [if_neg h.not_fits]
    by_cases hok : (m8d3dTriFit roomy dx dy colour fuel (v.half0 (v.splitEdge s.c)) s).1 = true
    · rw [seq_true hok]
      have hkept := @kept_m8d3dTriFit roomy dx dy colour fuel (v.half0 (v.splitEdge s.c)) s
      rcases h.half (v.splitEdge s.c) with h | h
      · exact (@kept_m8d3dTriFit roomy dx dy colour fuel _ _).deep
          (m8d3dTriFit_deep dx dy colour fuel h)
      · refine m8d3dTriFit_deep dx dy colour fuel ?_
        unfold Corners.Stuck
        rw [hkept.base]
        exact h
    · rw [seq_false hok]
      exact (m8d3dTriFit_end dx dy colour fuel _ s).resolve_left hok

/-! ## Ends and fits -/

/-- What is kept of a run, from here on. -/
def begun (s : D3d) : D3d := { s with tris := [], most := s.c.drawn, deep := false }

/-- `m8d3d_tri_fit` of `v`, whichever calls find room, ends : what it hands on is in the box of `v`,
and in the scratch with the margins of the edges and the fill, and no more than eight triangles are
in the scratch at once. -/
def TriFitEnds (s : D3d) (dx dy colour : ℤ) (v : Corners) : Prop :=
  ∀ room, ∃ fuel,
    let t := (m8d3dTriFit room dx dy colour fuel v s.begun).2
    t.deep = false ∧ t.most ≤ 8 ∧ ∀ p ∈ t.tris, p.InBoxOf v ∧
      s.c.sx + (p.r - p.l) + 2 ≤ s.c.scratch.right ∧ s.c.sy + (p.b - p.t) + 2 ≤ s.c.scratch.bottom

theorem triFitEnds_of_takes {s : D3d} {v : Corners} (dx dy colour : ℤ) (htw : 4 ≤ s.c.tw)
    (hsh : 4 ≤ s.c.sh)
    (hdrawn : s.c.drawn < 8 ∨ s.c.drawn = 8 ∧ (s.c.sh ≤ 16 ∨ v.b - v.t ≤ M8D3D_SPAN_ROWS)) :
    s.TriFitEnds dx dy colour v := by
  intro room
  obtain ⟨ps, hps⟩ := Corners.pieces_some htw hsh (Nat.le_refl v.depth)
  have hfit := (Corners.pieces_fit hps).2
  have htakes : ∀ p ∈ ps.head?, s.begun.Takes p := by
    intro p hp
    obtain ⟨hpfit, hbox⟩ := hfit p (List.mem_of_mem_head? hp)
    rw [Corners.fits_iff] at hpfit
    unfold Corners.InBoxOf at hbox
    unfold Takes M8D3D_SPAN_ROWS begun at *
    dsimp only
    omega
  have hmost : s.begun.most ≤ 8 := show s.c.drawn ≤ 8 by omega
  have hrun : m8d3dTriFit room dx dy colour v.depth v s.begun =
      all (ps.map (triStep room dx dy colour)) s.begun := m8d3dTriFit_eq dx dy colour hps
  obtain ⟨hdeep', hmost', htris⟩ := @all_triStep room dx dy colour ps s.begun htakes hmost
  refine ⟨v.depth, ?_⟩
  dsimp only
  rw [hrun]
  refine ⟨hdeep', hmost', fun p hp => ?_⟩
  obtain ⟨hpfit, hbox⟩ := hfit p ((htris p hp).resolve_left List.not_mem_nil)
  rw [Corners.fits_iff] at hpfit
  refine ⟨hbox, ?_⟩
  unfold M8d3dContext.scratch
  dsimp only
  omega

theorem TriFitEnds.not_stuck {s : D3d} {v : Corners} {dx dy colour : ℤ}
    (h : s.TriFitEnds dx dy colour v) : ¬ v.Stuck s.c := fun hstuck => by
  obtain ⟨fuel, hdeep, -⟩ := h roomy
  exact Bool.noConfusion
    (hdeep.symm.trans (m8d3dTriFit_deep dx dy colour fuel (s := s.begun) hstuck))

theorem TriFitEnds.drawn_le {s : D3d} {v : Corners} {dx dy colour : ℤ}
    (h : s.TriFitEnds dx dy colour v) : s.c.drawn ≤ 8 := by
  obtain ⟨fuel, -, hmost, -⟩ := h roomy
  exact Nat.le_trans (@kept_m8d3dTriFit roomy dx dy colour fuel v s.begun).most hmost

/-- A ninth triangle, if it is tall, shares a plane. -/
theorem TriFitEnds.short_of_fits {s : D3d} {v : Corners} {dx dy colour : ℤ}
    (h : s.TriFitEnds dx dy colour v) (hfit : v.Fits s.c) (h8 : s.c.drawn = 8) :
    v.b - v.t ≤ M8D3D_SPAN_ROWS := by
  by_contra htall
  obtain ⟨fuel, hdeep, hmost, -⟩ := h roomy
  cases fuel with
  | zero => exact Bool.noConfusion (hdeep : true = false)
  | succ fuel =>
    have hstep : m8d3dTriFit roomy dx dy colour (fuel + 1) v s.begun =
        triStep roomy dx dy colour v s.begun := if_pos hfit
    have hlt := most_m8d3dTri dx dy colour (Int.not_le.mp htall) s.begun
    have hclear := (@clearEight_cleared roomy (m8d3dTri roomy dx dy v colour s.begun).2).most
    rw [hstep, triStep, seq_true (goes_m8d3dTri dx dy v colour _), hclear] at hmost
    have hbegun : s.begun.c.drawn = 8 := h8
    omega

/-- The corners are in a target of `w` x `h`. -/
def InTarget (v : Corners) (w h : ℤ) : Prop := 0 ≤ v.l ∧ v.r < w ∧ 0 ≤ v.t ∧ v.b < h

instance (v : Corners) (w h : ℤ) : Decidable (InTarget v w h) := by unfold InTarget; infer_instance

/-- For a context of any scratch, and a target of `w` x `h`, the triangles in it are all split to an
end exactly where the scratch has four rows and columns, and no ninth triangle can come that is
tall. A target of one row or column has no triangle. -/
theorem m8d3d_tri_fit_ends_iff (s : D3d) (w h : ℤ) :
    (∀ v : Corners, v.area ≠ 0 → InTarget v w h → ∀ dx dy colour, s.TriFitEnds dx dy colour v) ↔
      w ≤ 1 ∨ h ≤ 1 ∨ (4 ≤ s.c.tw ∧ 4 ≤ s.c.sh ∧
        (s.c.drawn < 8 ∨ s.c.drawn = 8 ∧ (s.c.sh ≤ 16 ∨ h ≤ 14))) := by
  refine ⟨fun hall => ?_, fun hcond v harea hin dx dy colour => ?_⟩
  · by_contra hcond
    have hw : 2 ≤ w := by omega
    have hh : 2 ≤ h := by omega
    have hsmall := hall ⟨(0, 0), (1, 0), (0, 1)⟩ (by decide)
      ⟨Int.le_refl 0, hw, Int.le_refl 0, hh⟩ 0 0 0
    have hstuck := hsmall.not_stuck
    have hdrawn := hsmall.drawn_le
    have hsize : 4 ≤ s.c.tw ∧ 4 ≤ s.c.sh := by
      refine ⟨Int.not_lt.mp fun hlt => hstuck (.inr ⟨by omega, by decide⟩),
        Int.not_lt.mp fun hlt => hstuck (.inl ⟨by omega, by decide⟩)⟩
    have htall := (hall ⟨(0, 0), (1, 0), (0, 14)⟩ (by decide)
      ⟨Int.le_refl 0, hw, Int.le_refl 0, show (14 : ℤ) < h by omega⟩ 0 0 0).short_of_fits
      ((Corners.fits_iff).mpr ⟨show (16 : ℤ) < s.c.sh by omega, show (3 : ℤ) < s.c.tw by omega⟩)
      (by omega)
    exact absurd htall (by decide)
  · obtain ⟨hrows, hcols⟩ := Corners.spread_of_area harea
    obtain ⟨hl, hr, ht, hb⟩ := hin
    rcases hcond with hw | hh | ⟨htw, hsh, hdrawn⟩
    · omega
    · omega
    · refine triFitEnds_of_takes dx dy colour htw hsh ?_
      unfold M8D3D_SPAN_ROWS
      omega

/-- A context that was just created, for a target the scratch of which is `tw` x `sh`. -/
def created (fb16 : Bool) (sx sy tw sh : ℤ) (old : M8d3dContext) : D3d :=
  let c := m8d3dContextCreate fb16 sx sy tw sh old
  { c := { c with
      cut := fun _ => .whole
      hits := fun _ => 0
      stampCut := fun _ => .whole
      drawn := 0
      dl := c.sx
      dt := c.sy
      dr := c.sx + c.tw
      db := c.sy + c.sh }
    q := []
    overrun := false
    sent := []
    rooms := 0
    stampMode := false
    monoOn := false
    monoPlane := 0
    monoX := 0
    monoW := 0
    build := 0
    done := false
    tris := []
    most := 0
    deep := false }

/-- A triangle in a target of 3 x 3, and so a scratch of 3 x 3, is split for ever. -/
theorem m8d3d_tri_fit_endless : InTarget ⟨(0, 0), (2, 0), (0, 2)⟩ 3 3 ∧
    ¬ (created false 0 768 3 3 m8d3dCtx).TriFitEnds 0 0 7 ⟨(0, 0), (2, 0), (0, 2)⟩ :=
  ⟨by decide, fun h => h.not_stuck (.inl (by decide))⟩

end D3d

end Inboard
