import Inboard.Card
import Inboard.Loop

/-!
# The write-back of a strip

`m8_strip_write` of screen.c, which puts a buffer of rows on the screen with few pixels over
the bus : a row equal to the one above as an engine copy, a row of one colour as a fill, the
runs inside a row as fills between pieces of pixels, and the rows between as one block of
pixels that waits (`plain`) for the next row that is none of these.

The invariant is that the rows before the waiting block are on the screen (`StripInv`). A
copy takes rows that are, as the block is written first.
-/

set_option linter.unusedSectionVars false

namespace Inboard

/-! ## Scans -/

/-- `for( k = j; k < w && p( k ); ++k )`. -/
def countWhile (p : ℕ → Bool) (w j : ℕ) : ℕ :=
  if j < w ∧ p j then countWhile p w (j + 1) else j
termination_by w - j

theorem countWhile_ge (p : ℕ → Bool) (w j : ℕ) : j ≤ countWhile p w j := by
  rw [countWhile]
  split_ifs
  · exact Nat.le_of_succ_le (countWhile_ge p w (j + 1))
  · exact Nat.le_refl j
termination_by w - j

theorem countWhile_le (p : ℕ → Bool) {w j : ℕ} (h : j ≤ w) : countWhile p w j ≤ w := by
  rw [countWhile]
  split_ifs with hp
  · exact countWhile_le p hp.1
  · exact h
termination_by w - j

theorem countWhile_true (p : ℕ → Bool) (w j : ℕ) : ∀ i, j ≤ i → i < countWhile p w j → p i := by
  rw [countWhile]
  split_ifs with hp
  · intro i hi hlt
    rcases Nat.eq_or_lt_of_le hi with rfl | hi
    · exact hp.2
    · exact countWhile_true p w (j + 1) i hi hlt
  · intro i hi hlt
    omega
termination_by w - j

/-- `M8_RUN_MIN`. -/
def M8_RUN_MIN : ℕ := 24

/-- `m8_row_run` : the first run from column `i` on that is long enough, on even edges. -/
def m8RowRun (row : ℕ → UInt8) (w i : ℕ) : Option (ℕ × ℕ) :=
  if i < w then
    let j := countWhile (fun k => row k == row i) w (i + 1)
    let a := (i + 1) / 2 * 2
    let b := j / 2 * 2
    if a + M8_RUN_MIN ≤ b then some (a, b) else m8RowRun row w j
  else none
termination_by w - i
decreasing_by
  have h := countWhile_ge (fun k => row k == row i) w (i + 1)
  omega

/-- `m8_row_uniform`. -/
def m8RowUniform (row : ℕ → UInt8) (w : ℕ) : Bool := w ≤ countWhile (fun k => row k == row 0) w 1

theorem m8RowUniform_eq {row : ℕ → UInt8} {w : ℕ} (h : m8RowUniform row w) :
    ∀ i < w, row i = row 0 := by
  intro i hi
  rcases Nat.eq_zero_or_pos i with rfl | hpos
  · rfl
  · have hle : w ≤ countWhile (fun k => row k == row 0) w 1 := by simpa [m8RowUniform] using h
    have htrue := countWhile_true (fun k => row k == row 0) w 1 i hpos (by omega)
    exact eq_of_beq htrue

/-- A run found is of one colour, on even edges, and inside the row. -/
theorem m8RowRun_spec {row : ℕ → UInt8} {w i a b : ℕ} (h : m8RowRun row w i = some (a, b)) :
    i ≤ a ∧ a < b ∧ b ≤ w ∧ 2 ∣ a ∧ 2 ∣ b ∧ ∀ k, a ≤ k → k < b → row k = row a := by
  rw [m8RowRun] at h
  dsimp only at h
  have hge := countWhile_ge (fun k => row k == row i) w (i + 1)
  have htrue := countWhile_true (fun k => row k == row i) w (i + 1)
  have hle := countWhile_le (fun k => row k == row i) (w := w) (j := i + 1)
  generalize countWhile (fun k => row k == row i) w (i + 1) = j at *
  split_ifs at h with hi hrun
  · obtain ⟨rfl, rfl⟩ := Prod.mk.inj (Option.some.inj h)
    have hmin : M8_RUN_MIN = 24 := rfl
    have hlew := hle hi
    have hsame : ∀ k, i ≤ k → k < j → row k = row i := fun k hk hlt => by
      rcases Nat.eq_or_lt_of_le hk with rfl | hk
      · rfl
      · exact eq_of_beq (htrue k hk hlt)
    refine ⟨by omega, by omega, by omega, Nat.dvd_mul_left 2 _, Nat.dvd_mul_left 2 _,
      fun k hk hlt => ?_⟩
    rw [hsame k (by omega) (by omega), hsame ((i + 1) / 2 * 2) (by omega) (by omega)]
  · obtain ⟨hia, hrest⟩ := m8RowRun_spec h
    exact ⟨by omega, hrest⟩
termination_by w - i
decreasing_by omega

/-! ## The routine -/

section Write

variable (bits : ℕ → UInt8) (pitch : ℕ) (l t : ℤ) (w h : ℕ)

/-- A row of the buffer. -/
def stripRow (y : ℕ) : ℕ → UInt8 := fun x => bits (y * pitch + x)

/-- `_fmemcmp` of two rows. -/
def sameRow (y k : ℕ) : Bool :=
  (List.range w).all fun x => stripRow bits pitch y x == stripRow bits pitch k x

/-- The waiting block written, rows `plain` to `y`. -/
def writePlain (plain : Option ℕ) (y : ℕ) : List CardOp :=
  match plain with
  | none => []
  | some q => [.write l (t + q) w ((y : ℤ) - q) (fun i => bits (q * pitch + i)) pitch]

/-- The pieces of a row from column `at` on : pixels up to the next run, and the run. -/
def rowPieces (row : ℕ → UInt8) (y : ℤ) (i : ℕ) : List CardOp :=
  match hrun : m8RowRun row w i with
  | none => if i < w then [.write (l + i) y ((w : ℤ) - i) 1 (fun k => row (i + k)) pitch] else []
  | some (a, b) =>
    (if i < a then [.write (l + i) y ((a : ℤ) - i) 1 (fun k => row (i + k)) pitch] else []) ++
      .fill (l + a) y ((b : ℤ) - a) 1 (row a) :: rowPieces row y b
termination_by w - i
decreasing_by
  have hspec := m8RowRun_spec hrun
  omega

/-- The loop's variables, and the calls so far. -/
structure StripWrite where
  y : ℕ
  plain : Option ℕ
  ops : List CardOp

/-- One round of `m8_strip_write`. A row that repeats is copied from the row above, `s.y - 1`. -/
def stripStep (s : StripWrite) : StripWrite ⊕ StripWrite :=
  let row := stripRow bits pitch s.y
  if h ≤ s.y then .inr s
  else if 0 < s.y ∧ sameRow bits pitch w s.y (s.y - 1) ∧ ¬ m8RowUniform row w then
    let k := countWhile (fun k => sameRow bits pitch w k s.y) h (s.y + 1)
    let copies := (doubling (k - (s.y - 1)) 1).map fun c =>
      .copy l (t + (s.y - 1 : ℕ)) l (t + (s.y - 1 : ℕ) + c.1) w c.2
    .inl ⟨k, none, s.ops ++ writePlain bits pitch l t w s.plain s.y ++ copies⟩
  else
    match m8RowRun row w 0 with
    | none => .inl ⟨s.y + 1, some (s.plain.getD s.y), s.ops⟩
    | some _ =>
      let ops := s.ops ++ writePlain bits pitch l t w s.plain s.y
      if m8RowUniform row w then
        let k := countWhile
          (fun k => stripRow bits pitch k 0 == row 0 && m8RowUniform (stripRow bits pitch k) w)
          h (s.y + 1)
        .inl ⟨k, none, ops ++ [.fill l (t + s.y) w ((k : ℤ) - s.y) (row 0)]⟩
      else .inl ⟨s.y + 1, none, ops ++ rowPieces pitch l w row (t + s.y) 0⟩

theorem stripStep_decreases {s s' : StripWrite} (hs : stripStep bits pitch l t w h s = .inl s') :
    h - s'.y < h - s.y := by
  unfold stripStep at hs
  dsimp only at hs
  have hcopy := countWhile_ge (fun k => sameRow bits pitch w k s.y) h (s.y + 1)
  have hfill := countWhile_ge (fun k => stripRow bits pitch k 0 == stripRow bits pitch s.y 0 &&
    m8RowUniform (stripRow bits pitch k) w) h (s.y + 1)
  split at hs
  · simp at hs
  · split at hs
    · obtain rfl := Sum.inl.inj hs
      dsimp only
      omega
    · split at hs
      · obtain rfl := Sum.inl.inj hs
        dsimp only
        omega
      · split at hs <;> obtain rfl := Sum.inl.inj hs <;> dsimp only <;> omega

/-- The loop over the rows. -/
def stripLoop : Loop StripWrite StripWrite where
  step := stripStep bits pitch l t w h
  measure s := h - s.y
  decreases _ _ hs := stripStep_decreases bits pitch l t w h hs

/-- The calls of `m8_strip_write` of a buffer to the `w` by `h` pixels from (l, t). -/
def m8StripWrite : List CardOp :=
  let s := (stripLoop bits pitch l t w h).run ⟨0, none, []⟩
  s.ops ++ writePlain bits pitch l t w s.plain h

end Write

/-! ## What it draws -/

section Spec

variable {bits : ℕ → UInt8} {pitch : ℕ} {l t : ℤ} {w h : ℕ}

/-- The buffer's pixels, where they belong on the screen. -/
def stripPixels (bits : ℕ → UInt8) (pitch : ℕ) (l t : ℤ) : Card := fun p =>
  bits ((p.2 - t).toNat * pitch + (p.1 - l).toNat)

/-- Every host write of the calls is even. -/
def AllEven (ops : List CardOp) : Prop := ∀ op ∈ ops, op.EvenWrite

theorem AllEven.append {ops ops' : List CardOp} (h : AllEven ops) (h' : AllEven ops') :
    AllEven (ops ++ ops') := fun op hop =>
  (List.mem_append.1 hop).elim (h op) (h' op)

theorem sameRow_eq {y k x : ℕ} (hs : sameRow bits pitch w y k) (hx : x < w) :
    stripRow bits pitch y x = stripRow bits pitch k x :=
  eq_of_beq (List.all_eq_true.1 hs x (List.mem_range.2 hx))

/-- A pixel of the rectangle is a pixel of a row of the buffer. -/
theorem stripPixels_row {n : ℕ} {p : Pixel} (hp : p.2 = t + n) :
    stripPixels bits pitch l t p = stripRow bits pitch n (p.1 - l).toNat := by
  have hn : (p.2 - t).toNat = n := by omega
  rw [stripPixels, hn, stripRow]

theorem writePlain_spec {c₀ c : Card} {plain : Option ℕ} {y : ℕ}
    (hp : Painted (· ∈ Rect.at l t w (plain.getD y)) (stripPixels bits pitch l t) c₀ c)
    (hplain : ∀ q, plain = some q → q ≤ y) (hl : 2 ∣ l) (hw : 2 ∣ w) :
    Painted (· ∈ Rect.at l t w y) (stripPixels bits pitch l t) c₀
        (applyAll (writePlain bits pitch l t w plain y) c) ∧
      AllEven (writePlain bits pitch l t w plain y) := by
  cases plain with
  | none => exact ⟨hp, fun op hop => by simp [writePlain] at hop⟩
  | some q =>
    have hq := hplain q rfl
    have hweven : (2 : ℤ) ∣ w := by omega
    refine ⟨?_, fun op hop => ?_⟩
    · refine ((hp.write (fun i => bits (q * pitch + i)) pitch hweven
        fun p hr => ?_).congr fun p => ?_)
      · rw [Rect.mem_at] at hr
        have hrow : (p.2 - t).toNat = q + (p.2 - (t + q)).toNat := by omega
        rw [stripPixels, hrow, Nat.add_mul, Nat.add_assoc]
      · simp only [Rect.mem_at, Option.getD_some]
        omega
    · obtain rfl := List.mem_singleton.1 hop
      exact ⟨hl, hweven⟩

/-- The pieces of a row put the row on the screen. -/
theorem rowPieces_spec (pitch : ℕ) {row : ℕ → UInt8} {y : ℤ} {D : Pixel → Prop} {f c₀ : Card}
    (hrow : ∀ p ∈ Rect.at l y w 1, f p = row (p.1 - l).toNat) (hl : 2 ∣ l) (hw : 2 ∣ w)
    (i : ℕ) (hi : 2 ∣ i) (hle : i ≤ w) (c : Card)
    (hp : Painted (fun p => D p ∨ p ∈ Rect.at l y i 1) f c₀ c) :
    Painted (fun p => D p ∨ p ∈ Rect.at l y w 1) f c₀
        (applyAll (rowPieces pitch l w row y i) c) ∧
      AllEven (rowPieces pitch l w row y i) := by
  have hraw : ∀ n : ℕ, i ≤ n → n ≤ w → 2 ∣ n →
      let ops : List CardOp :=
        if i < n then [.write (l + i) y ((n : ℤ) - i) 1 (fun k => row (i + k)) pitch] else []
      Painted (fun p => D p ∨ p ∈ Rect.at l y n 1) f c₀ (applyAll ops c) ∧ AllEven ops := by
    intro n hin hnw hn ops
    by_cases hlt : i < n
    · have hops : ops = [_] := if_pos hlt
      have heven : (2 : ℤ) ∣ (n : ℤ) - i := by omega
      rw [hops]
      refine ⟨?_, fun op hop => ?_⟩
      · refine (hp.write (fun k => row (i + k)) pitch heven
          fun p hr => ?_).congr fun p => ?_
        · rw [Rect.mem_at] at hr
          have hmem : p ∈ Rect.at l y w 1 := by
            rw [Rect.mem_at]
            omega
          have hrow0 : (p.2 - y).toNat = 0 := by omega
          rw [hrow p hmem, hrow0, Nat.zero_mul, Nat.zero_add]
          congr 1
          omega
        · rw [or_assoc]
          refine or_congr_right ?_
          simp only [Rect.mem_at]
          omega
      · obtain rfl := List.mem_singleton.1 hop
        exact ⟨by omega, heven⟩
    · obtain rfl : i = n := by omega
      have hops : ops = [] := if_neg hlt
      rw [hops]
      exact ⟨hp, fun op hop => by simp at hop⟩
  rw [rowPieces]
  split
  · exact hraw w hle (Nat.le_refl w) hw
  · rename_i a b hrun
    obtain ⟨hia, hab, hbw, ha, hb, hsame⟩ := m8RowRun_spec hrun
    obtain ⟨hpa, hea⟩ := hraw a hia (by omega) ha
    have hfill := hpa.fill (x := l + a) (y := y) (w := (b : ℤ) - a) (h := 1) (row a)
      fun p hr => by
        rw [Rect.mem_at] at hr
        have hmem : p ∈ Rect.at l y w 1 := by
          rw [Rect.mem_at]
          omega
        rw [hrow p hmem, hsame (p.1 - l).toNat (by omega) (by omega)]
    have hdone : Painted (fun p => D p ∨ p ∈ Rect.at l y b 1) f c₀ _ := hfill.congr fun p => by
      rw [or_assoc]
      refine or_congr_right ?_
      simp only [Rect.mem_at]
      omega
    obtain ⟨hrest, herest⟩ := rowPieces_spec pitch hrow hl hw b hb hbw _ hdone
    refine ⟨?_, hea.append fun op hop => ?_⟩
    · rw [applyAll_append, applyAll_cons]
      exact hrest
    · rcases List.mem_cons.1 hop with rfl | hop
      · trivial
      · exact herest op hop
termination_by w - i
decreasing_by omega

/-- The rows a run of equal rows copies are put on the screen from the row above. -/
theorem copyRows_spec {c₀ c : Card} {y k : ℕ} (hy : 0 < y) (hk : y ≤ k)
    (hsame : ∀ j, y - 1 ≤ j → j < k → ∀ x < w, stripRow bits pitch j x =
      stripRow bits pitch (y - 1) x)
    (hp : Painted (· ∈ Rect.at l t w y) (stripPixels bits pitch l t) c₀ c) :
    Painted (· ∈ Rect.at l t w k) (stripPixels bits pitch l t) c₀
      (applyAll ((doubling (k - (y - 1)) 1).map fun c =>
        .copy l (t + (y - 1 : ℕ)) l (t + (y - 1 : ℕ) + c.1) w c.2) c) := by
  have hfold := doubling_induct (d := 1) (s := c)
    (P := fun d c => Painted (· ∈ Rect.at l t w (y - 1 + d : ℕ)) (stripPixels bits pitch l t) c₀ c)
    (fun c n => (CardOp.copy l (t + (y - 1 : ℕ)) l (t + (y - 1 : ℕ) + n.1) w n.2).apply c) 1
    (fun d n s _ hn hnd htot hP => ?_)
    (.inr ⟨Nat.one_dvd 1, Nat.one_pos, show 1 ≤ k - (y - 1) by omega⟩)
    (by rwa [Nat.sub_add_cancel hy])
  · rw [Nat.add_sub_of_le (by omega)] at hfold
    rwa [applyAll, List.foldl_map]
  · refine (hP.copy fun p hr => ?_).congr fun p => ?_
    · rw [Rect.mem_at] at hr
      have hcol : p.1 - l + l = p.1 := by omega
      have hx : (p.1 - l).toNat < w := by omega
      refine ⟨?_, ?_⟩
      · rw [Rect.mem_at]
        omega
      · rw [stripPixels_row (n := y - 1 + (p.2 - (t + (y - 1 : ℕ) + d)).toNat)
          (by dsimp only; omega),
          stripPixels_row (n := (p.2 - t).toNat) (by omega), hcol,
          hsame _ (by omega) (by omega) _ hx, hsame (p.2 - t).toNat (by omega) (by omega) _ hx]
    · simp only [Rect.mem_at]
      omega

/-- The rows before the waiting block are on the screen. -/
structure StripInv (bits : ℕ → UInt8) (pitch : ℕ) (l t : ℤ) (w h : ℕ) (c₀ : Card)
    (s : StripWrite) : Prop where
  le : s.y ≤ h
  plain : ∀ q, s.plain = some q → q ≤ s.y
  painted : Painted (· ∈ Rect.at l t w (s.plain.getD s.y : ℕ)) (stripPixels bits pitch l t) c₀
    (applyAll s.ops c₀)
  even : AllEven s.ops

variable {c₀ : Card} {s s' : StripWrite}

/-- With the waiting block written, every row before `y` is on the screen. -/
theorem StripInv.flush (hs : StripInv bits pitch l t w h c₀ s) (hl : 2 ∣ l) (hw : 2 ∣ w) :
    Painted (· ∈ Rect.at l t w s.y) (stripPixels bits pitch l t) c₀
        (applyAll (s.ops ++ writePlain bits pitch l t w s.plain s.y) c₀) ∧
      AllEven (s.ops ++ writePlain bits pitch l t w s.plain s.y) := by
  obtain ⟨hp, he⟩ := writePlain_spec hs.painted hs.plain hl hw
  rw [applyAll_append]
  exact ⟨hp, hs.even.append he⟩

/-- A round that draws up to row `k`, and nothing waits. -/
theorem StripInv.drawn {k : ℕ} {ops : List CardOp} (hk : k ≤ h)
    (hp : Painted (· ∈ Rect.at l t w k) (stripPixels bits pitch l t) c₀ (applyAll ops c₀))
    (he : AllEven ops) : StripInv bits pitch l t w h c₀ ⟨k, none, ops⟩ :=
  ⟨hk, fun q hq => by simp at hq, hp, he⟩

theorem stripStep_inv (hs : StripInv bits pitch l t w h c₀ s) (hl : 2 ∣ l) (hw : 2 ∣ w)
    (hstep : stripStep bits pitch l t w h s = .inl s') : StripInv bits pitch l t w h c₀ s' := by
  obtain ⟨hflush, heven⟩ := hs.flush hl hw
  unfold stripStep at hstep
  dsimp only at hstep
  split at hstep
  · simp at hstep
  rename_i hy
  have hlt : s.y < h := Nat.lt_of_not_le hy
  split at hstep
  · rename_i hcopy
    obtain rfl := Sum.inl.inj hstep
    obtain ⟨hpos, habove, -⟩ := hcopy
    have hge := countWhile_ge (fun k => sameRow bits pitch w k s.y) h (s.y + 1)
    have hle := countWhile_le (fun k => sameRow bits pitch w k s.y) (w := h) (j := s.y + 1) hlt
    have htrue := countWhile_true (fun k => sameRow bits pitch w k s.y) h (s.y + 1)
    generalize countWhile (fun k => sameRow bits pitch w k s.y) h (s.y + 1) = k at *
    have hsame : ∀ j, s.y - 1 ≤ j → j < k → ∀ x < w, stripRow bits pitch j x =
        stripRow bits pitch (s.y - 1) x := fun j hj hjk x hx => by
      rcases Nat.lt_trichotomy j s.y with hjy | rfl | hjy
      · rw [show j = s.y - 1 by omega]
      · exact sameRow_eq habove hx
      · exact (sameRow_eq (htrue j hjy hjk) hx).trans (sameRow_eq habove hx)
    refine StripInv.drawn hle ?_ (heven.append fun op hop => ?_)
    · rw [applyAll_append]
      exact copyRows_spec hpos (by omega) hsame hflush
    · obtain ⟨n, -, rfl⟩ := List.mem_map.1 hop
      trivial
  split at hstep
  · obtain rfl := Sum.inl.inj hstep
    refine ⟨hlt, fun q hq => ?_, hs.painted, hs.even⟩
    obtain rfl := Option.some.inj hq
    cases hplain : s.plain with
    | none => exact Nat.le_succ s.y
    | some q => exact Nat.le_succ_of_le (hs.plain q hplain)
  split at hstep
  · rename_i hone
    obtain rfl := Sum.inl.inj hstep
    have huni := m8RowUniform_eq hone
    let p : ℕ → Bool := fun k => stripRow bits pitch k 0 == stripRow bits pitch s.y 0 &&
      m8RowUniform (stripRow bits pitch k) w
    have hge := countWhile_ge p h (s.y + 1)
    have hle := countWhile_le p (w := h) (j := s.y + 1) hlt
    have htrue := countWhile_true p h (s.y + 1)
    refine StripInv.drawn hle ?_ (heven.append fun op hop => ?_)
    · rw [applyAll_append]
      change Painted _ _ _ (applyAll [.fill l (t + s.y) w ((countWhile p h (s.y + 1) : ℕ) - s.y)
        (stripRow bits pitch s.y 0)] _)
      generalize countWhile p h (s.y + 1) = k at *
      refine (hflush.fill _ fun q hr => ?_).congr fun q => ?_
      · rw [Rect.mem_at] at hr
        rw [stripPixels_row (n := (q.2 - t).toNat) (by omega)]
        rcases Nat.eq_or_lt_of_le (show s.y ≤ (q.2 - t).toNat by omega) with heq | hgt
        · rw [← heq]
          exact huni _ (by omega)
        · obtain ⟨hfirst, hall⟩ := Bool.and_eq_true_iff.1 (htrue _ hgt (by omega))
          exact (m8RowUniform_eq hall _ (by omega)).trans (eq_of_beq hfirst)
      · simp only [Rect.mem_at]
        omega
    · obtain rfl := List.mem_singleton.1 hop
      trivial
  · obtain rfl := Sum.inl.inj hstep
    have hrow : ∀ q ∈ Rect.at l (t + s.y) w 1, stripPixels bits pitch l t q =
        stripRow bits pitch s.y (q.1 - l).toNat := fun q hr => by
      rw [Rect.mem_at] at hr
      exact stripPixels_row (by omega)
    have hnone : Painted (fun q => q ∈ Rect.at l t w s.y ∨ q ∈ Rect.at l (t + s.y) (0 : ℕ) 1)
        (stripPixels bits pitch l t) c₀ _ := hflush.congr fun q => by
      simp only [Rect.mem_at]
      omega
    obtain ⟨hp, he⟩ := rowPieces_spec pitch hrow hl hw 0 (Nat.dvd_zero 2) (Nat.zero_le w) _ hnone
    refine StripInv.drawn hlt ?_ (heven.append he)
    rw [applyAll_append]
    refine hp.congr fun q => ?_
    simp only [Rect.mem_at]
    omega

theorem stripStep_leaves (hstep : stripStep bits pitch l t w h s = .inr s') :
    s' = s ∧ h ≤ s.y := by
  unfold stripStep at hstep
  dsimp only at hstep
  split at hstep
  · rename_i hy
    exact ⟨(Sum.inr.inj hstep).symm, hy⟩
  split at hstep
  · simp at hstep
  split at hstep
  · simp at hstep
  split at hstep <;> simp at hstep

/-- The calls put the buffer on the screen, and write even pieces. -/
theorem m8StripWrite_spec (bits : ℕ → UInt8) (pitch : ℕ) (c₀ : Card) (hl : 2 ∣ l) (hw : 2 ∣ w) :
    applyAll (m8StripWrite bits pitch l t w h) c₀ =
        (Rect.at l t w h).paint (stripPixels bits pitch l t) c₀ ∧
      AllEven (m8StripWrite bits pitch l t w h) := by
  have hend : StripInv bits pitch l t w h c₀ ((stripLoop bits pitch l t w h).run ⟨0, none, []⟩) ∧
      ((stripLoop bits pitch l t w h).run ⟨0, none, []⟩).y = h := by
    refine (stripLoop bits pitch l t w h).run_induct
      (I := fun s => StripInv bits pitch l t w h c₀ s)
      (P := fun s => StripInv bits pitch l t w h c₀ s ∧ s.y = h)
      (fun s s' hs hstep => stripStep_inv hs hl hw hstep) (fun s r hs hstep => ?_) _
      ⟨Nat.zero_le h, fun q hq => by simp at hq, (Painted.start _ _).congr fun p => ?_,
        fun op hop => by simp at hop⟩
    · obtain ⟨rfl, hge⟩ := stripStep_leaves hstep
      exact ⟨hs, Nat.le_antisymm hs.le hge⟩
    · refine ⟨fun hp => ?_, False.elim⟩
      rw [Rect.mem_at] at hp
      dsimp only [Option.getD_none] at hp
      omega
  obtain ⟨hs, hy⟩ := hend
  obtain ⟨hp, he⟩ := hs.flush hl hw
  rw [hy] at hp he
  exact ⟨hp.eq_paint, he⟩

/-- For every buffer, every rectangle with an even left edge and width, and every pitch :
after `m8_strip_write` the rectangle on the screen is the buffer, row by row, nothing else has
changed, and every `m8_hw_write_rect` was from an even column and of an even width. -/
theorem m8_strip_write_spec (bits : ℕ → UInt8) (pitch : ℕ) (l t : ℤ) (w h : ℕ) (hl : 2 ∣ l)
    (hw : 2 ∣ w) (c₀ : Card) :
    let c := applyAll (m8StripWrite bits pitch l t w h) c₀
    (∀ x < w, ∀ y < h, c (l + x, t + y) = bits (y * pitch + x)) ∧
      (∀ p, p ∉ Rect.at l t w h → c p = c₀ p) ∧
      ∀ op ∈ m8StripWrite bits pitch l t w h, op.EvenWrite := by
  obtain ⟨hp, he⟩ := m8StripWrite_spec (t := t) (h := h) bits pitch c₀ hl hw
  dsimp only
  rw [hp]
  refine ⟨fun x hx y hy => ?_, fun p hout => Rect.paint_not_mem hout, he⟩
  rw [Rect.paint_mem (by rw [Rect.mem_at]; dsimp only; omega), stripPixels]
  dsimp only
  have hcol : (l + x - l).toNat = x := by omega
  have hline : (t + y - t).toNat = y := by omega
  rw [hcol, hline]

/-- A 28 by 3 strip, two equal rows with a run each and one of one colour. -/
def mixedStrip (i : ℕ) : UInt8 := if i < 56 ∧ 26 ≤ i % 28 then UInt8.ofNat i else 7

theorem m8_strip_write_mixed :
    let c := applyAll (m8StripWrite mixedStrip 28 2 5 28 3) (fun _ => 0)
    (∀ x < 28, ∀ y < 3, c ((2 : ℤ) + (x : ℕ), (5 : ℤ) + (y : ℕ)) = mixedStrip (y * 28 + x)) ∧
      (∀ p, p ∉ Rect.at 2 5 28 3 → c p = 0) ∧
      ∀ op ∈ m8StripWrite mixedStrip 28 2 5 28 3, op.EvenWrite :=
  m8_strip_write_spec mixedStrip 28 2 5 28 3 (by decide) (by decide) fun _ => 0

end Spec

end Inboard
