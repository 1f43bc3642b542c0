import Inboard.DdBlt
import Mathlib.Data.List.Induction

/-!
# Two plain frame buffers

The same operations done at once on two plain frame buffers (`eagerStep`), and what the loops of
a blit do to RAM : rows that are moved in order, or compared and copied in part, come out as if
the rectangle was painted at once.
-/

set_option linter.unusedSectionVars false

namespace Inboard

/-! ## The plain frame buffers -/

/-- Two plain frame buffers. -/
abbrev Eager := Fin 2 → Pixel → UInt16

variable {σ : Type*} {io : CardSide σ} {d : M8ddShare16}

/-- The source's pixel for a pixel of the destination. -/
def BltPlan.shift (p : BltPlan) (q : Pixel) : Pixel :=
  (q.1 - p.od.left + p.os.left, q.2 - p.od.top + p.os.top)

/-- What a copy makes of a pixel. -/
def copied (p : BltPlan) (src : BltSource) (key : Option UInt16) (e : Eager) (q : Pixel) : UInt16 :=
  if some (src.px e (p.shift q)) = key then e p.dk q else src.px e (p.shift q)

/-- One rectangle of a blit, all of it at once. -/
def eagerRect (d : M8ddShare16) (p : BltPlan) (e : Eager) (r : Rect) : Eager :=
  Function.update e p.dk ((m8ddClipFb d r).paint
    (match p.work with
      | .fill colour => fun _ => colour
      | .copy src key => copied p src key e) (e p.dk))

/-- What callers do ; `lock` is a Lock with what the program writes. -/
inductive DdOp
  | blt (bd : M8ddBlt)
  | lock (ld : M8ddLock16) (writes : List (Pixel × UInt16))
  | unlock (lcl : ℕ) (mem : Option ℕ)
  | record (mem : Option ℕ) (t : Tri)
  | flip (mem : Option ℕ)

/-- Writes through a pointer. -/
def poke (f : Pixel → UInt16) (writes : List (Pixel × UInt16)) : Pixel → UInt16 :=
  writes.foldl (fun f w => Function.update f w.1 w.2) f

/-- An operation on the plain frame buffers. -/
def eagerStep (d : M8ddShare16) (e : Eager) : DdOp → Eager
  | .blt bd =>
    match bltPlan d bd with
    | none => e
    | some p => p.rects.foldl (eagerRect d p) e
  | .lock ld writes =>
    match m8ddBuf d ld.mem with
    | none => e
    | some b => Function.update e b (poke (e b) writes)
  | .unlock _ _ => e
  | .record mem t =>
    match m8ddBuf d mem with
    | none => e
    | some k => Function.update e k (drawTri (e k) t)
  | .flip _ => e

/-- An operation on the driver's buffers. -/
def dd16Step (io : CardSide σ) (d : M8ddShare16) (s : Dd16 σ) : DdOp → Dd16 σ
  | .blt bd => (m8ddBlt16Do io d bd s).2
  | .lock ld writes =>
    match m8ddLock16 io d ld s with
    | (none, s) => s
    | (some b, s) => s.draw b (poke (s.ram b) writes)
  | .unlock lcl mem => (m8ddUnlock16 io d lcl mem s).2
  | .record mem t => (m8d3dRecord io d mem t s).2
  | .flip mem => (m8ddFlip16 io d mem s).2

/-- What callers keep to : clipped rectangles lie in the blit before clipping, and a program
that locked for reading does not write. -/
def DdOp.Legal : DdOp → Prop
  | .blt bd => bd.isClipped = true → ∀ r ∈ bd.destRects, r.Inside bd.rOrigDest
  | .lock ld writes => ld.readonly = true → writes = []
  | _ => True

/-- A triangle recorded on the shown buffer finds its colour where it meets those recorded
before : it goes to RAM, under them. -/
def Dd16.Safe (d : M8ddShare16) (s : Dd16 σ) : DdOp → Prop
  | .record mem t => ∀ k, m8ddBuf d mem = some k → k = s.front → ∀ p ∈ d.all, t.Covers p →
      (∃ u ∈ (s.buf k).tris, u.Covers p) → (s.buf k).content p = t.colour
  | _ => True

/-! ## Frames -/

section Frame

variable (s : Dd16 σ) (k j : Fin 2) (f : Buffer → Buffer) (g : Pixel → UInt16)

@[simp] theorem on_buf_self : (s.on k f).buf k = f (s.buf k) := Function.update_self ..
@[simp] theorem on_front : (s.on k f).front = s.front := rfl
@[simp] theorem on_card : (s.on k f).card = s.card := rfl
@[simp] theorem on_held : (s.on k f).held = s.held := rfl

theorem on_buf_of_ne (h : j ≠ k) : (s.on k f).buf j = s.buf j := Function.update_of_ne h ..

@[simp] theorem draw_ram_self : (s.draw k g).ram k = g := by
  rw [Dd16.ram, Dd16.draw, on_buf_self]

theorem draw_ram_of_ne (h : j ≠ k) : (s.draw k g).ram j = s.ram j := by
  rw [Dd16.ram, Dd16.draw, on_buf_of_ne s k j _ h, Dd16.ram]

theorem draw_draw (h : Pixel → UInt16) : (s.draw k g).draw k h = s.draw k h := by
  simp [Dd16.draw, Dd16.on]

theorem draw_self : s.draw k (s.ram k) = s := by
  simp [Dd16.draw, Dd16.on, Dd16.ram]

@[simp] theorem m8ddSend_buf (r : Rect) (n : ℕ) : (m8ddSend io r n s).buf = s.buf := by
  unfold m8ddSend
  split_ifs <;> rfl

@[simp] theorem m8ddSend_front (r : Rect) (n : ℕ) : (m8ddSend io r n s).front = s.front := by
  unfold m8ddSend
  split_ifs <;> rfl

/-- Sending changes the card only. -/
theorem m8ddSend_eq (r : Rect) (n : ℕ) :
    m8ddSend io r n s = { s with card := (m8ddSend io r n s).card } := by
  unfold m8ddSend
  split_ifs <;> rfl

end Frame

/-! ## Rows of a blit -/

theorem fillRows_apply (c : Rect) (colour : UInt16) (f : Pixel → UInt16) (q : Pixel) :
    fillRows c colour f q = c.paint (fun _ => colour) f q := by
  have hloop := Rect.loop_induct (P := fun i (g : Pixel → UInt16) => g q =
      if c.left ≤ q.1 ∧ q.1 < c.right ∧ c.top ≤ q.2 ∧ q.2 < i then colour else f q)
    (f := fun y => m8ddFill16 (c.left, y) (c.right - c.left) colour)
    (n := (c.bottom - c.top).toNat) (i := c.top) (s := f) (by rw [if_neg (by omega)])
    fun y g hy hlt hg => by
      rw [m8ddFill16_apply, hg]
      dsimp only
      split_ifs <;> first | rfl | omega
  rw [fillRows, hloop, Rect.paint]
  exact if_congr (by rw [Rect.mem_iff]; omega) rfl rfl

theorem from_eq_shift (p : BltPlan) (c : Rect) (q : Pixel) : p.from c q = p.shift q := by
  rw [BltPlan.from, BltPlan.shift]
  ext <;> dsimp only <;> omega

theorem mem_moveOrder {up : Bool} {c : Rect} {y : ℤ} :
    y ∈ moveOrder up c ↔ c.top ≤ y ∧ y < c.bottom := by
  have hmem : y ∈ (List.range (c.bottom - c.top).toNat).map (fun i : ℕ => c.top + (i : ℤ)) ↔
      c.top ≤ y ∧ y < c.bottom := by
    rw [List.mem_map]
    constructor
    · rintro ⟨i, hi, rfl⟩
      rw [List.mem_range] at hi
      omega
    · rintro ⟨htop, hbottom⟩
      refine ⟨(y - c.top).toNat, List.mem_range.2 (by omega), by omega⟩
  unfold moveOrder
  cases up with
  | false => exact hmem
  | true => exact (List.mem_reverse).trans hmem

/-- The rows go down, or up. -/
theorem moveOrder_pairwise (up : Bool) (c : Rect) :
    (moveOrder up c).Pairwise fun a b => if up then b < a else a < b := by
  have hdown : ((List.range (c.bottom - c.top).toNat).map
      (fun i : ℕ => c.top + (i : ℤ))).Pairwise (· < ·) := by
    rw [List.pairwise_map]
    refine List.pairwise_lt_range.imp fun {a b} hab => ?_
    omega
  unfold moveOrder
  cases up with
  | false => simpa using hdown
  | true => simpa [List.pairwise_reverse] using hdown

/-- Rows that are copied, each from pixels that are as they were. -/
theorem foldl_moveRow (p : BltPlan) (src : BltSource) (key : Option UInt16) (c : Rect)
    (s : Dd16 σ) : ∀ ys : List ℤ, ys.Pairwise (fun a b => a ≠ b ∧
      ((BltWork.copy src key).self p.dk = true → b - p.od.top + p.os.top ≠ a)) →
    ∃ f, ys.foldl (fun s y => s.draw p.dk (moveRow p src key c y s.ram)) s = s.draw p.dk f ∧
      ∀ q, f q = if c.left ≤ q.1 ∧ q.1 < c.right ∧ q.2 ∈ ys then copied p src key s.ram q
        else s.ram p.dk q := by
  intro ys
  induction ys using List.reverseRecOn with
  | nil => exact fun _ => ⟨s.ram p.dk, (draw_self s p.dk).symm, fun q => by simp⟩
  | append_singleton ys y ih =>
    intro h
    rw [List.pairwise_append] at h
    obtain ⟨f, heq, hf⟩ := ih h.1
    have hlast (a : ℤ) (ha : a ∈ ys) := h.2.2 a ha y (List.mem_singleton.2 rfl)
    rw [List.foldl_append, heq, List.foldl_cons, List.foldl_nil, draw_draw]
    refine ⟨_, rfl, fun q => ?_⟩
    have hpx (hq : q.2 = y) : src.px (s.draw p.dk f).ram (p.from c q) = src.px s.ram
        (p.shift q) := by
      rw [from_eq_shift]
      cases src with
      | sys m => rfl
      | buf k =>
        by_cases hk : k = p.dk
        · subst hk
          have hself : (BltWork.copy (.buf p.dk) key).self p.dk = true := beq_self_eq_true p.dk
          rw [BltSource.px, draw_ram_self, hf, if_neg]
          · rfl
          · rintro ⟨-, -, hmem⟩
            refine (hlast _ hmem).2 hself ?_
            rw [BltPlan.shift]
            dsimp only
            omega
        · rw [BltSource.px, draw_ram_of_ne s p.dk k f hk]
          rfl
    rw [moveRow, draw_ram_self]
    by_cases hrow : q ∈ c.row y
    · have hcol := Rect.mem_row.1 hrow
      have hy : q.2 ∉ ys := fun hmem => (hlast q.2 hmem).1 hcol.2.2
      have hold : f q = s.ram p.dk q := (hf q).trans (if_neg fun hin => hy hin.2.2)
      rw [Rect.paint_mem hrow, hpx hcol.2.2, hold]
      exact (if_pos ⟨hcol.1, hcol.2.1, by simp [hcol.2.2]⟩).symm
    · rw [Rect.paint_not_mem hrow, hf]
      refine if_congr ?_ rfl rfl
      rw [Rect.mem_row] at hrow
      rw [List.mem_append, List.mem_singleton]
      tauto

/-- The rows of a copy come out as if they were copied at once. -/
theorem moveRows_spec (p : BltPlan) (src : BltSource) (key : Option UInt16) (c : Rect)
    (s : Dd16 σ) : moveRows p src key c s =
      s.draw p.dk (c.paint (copied p src key s.ram) (s.ram p.dk)) := by
  rw [moveRows]
  obtain ⟨f, heq, hf⟩ := foldl_moveRow p src key c s
    (moveOrder ((BltWork.copy src key).self p.dk &&
      decide (c.top > c.top - p.od.top + p.os.top)) c) (by
    refine (moveOrder_pairwise _ c).imp fun {a b} hab => ?_
    cases hself : (BltWork.copy src key).self p.dk with
    | false =>
      simp only [hself, Bool.false_and, Bool.false_eq_true, ↓reduceIte] at hab
      exact ⟨by omega, nofun⟩
    | true =>
      simp only [hself, Bool.true_and, decide_eq_true_iff] at hab
      split_ifs at hab <;> exact ⟨by omega, fun _ => by omega⟩)
  refine heq.trans (congrArg (fun g => s.draw p.dk g) (funext fun q => (hf q).trans ?_))
  rw [Rect.paint]
  refine if_congr ?_ rfl rfl
  rw [mem_moveOrder, Rect.mem_iff]

/-! ## Rows that differ -/

theorem leadSame_spec (same : ℕ → Bool) : ∀ (n a : ℕ), a ≤ leadSame same n a ∧
    leadSame same n a ≤ a + n ∧ ∀ i, a ≤ i → i < leadSame same n a → same i = true
  | 0, a => ⟨Nat.le_refl a, Nat.le_refl a, fun i hi hlt => absurd hi (Nat.not_le_of_lt hlt)⟩
  | n + 1, a => by
    rw [leadSame]
    split_ifs with h
    · obtain ⟨hle, hub, hall⟩ := leadSame_spec same n (a + 1)
      refine ⟨by omega, by omega, fun i hi hlt => ?_⟩
      rcases Nat.eq_or_lt_of_le hi with rfl | hi
      · exact h
      · exact hall i hi hlt
    · exact ⟨Nat.le_refl a, by omega, fun i hi hlt => absurd hi (Nat.not_le_of_lt hlt)⟩

theorem trailSame_spec (same : ℕ → Bool) : ∀ b, trailSame same b ≤ b ∧
    ∀ i, trailSame same b ≤ i → i < b → same i = true
  | 0 => ⟨Nat.le_refl 0, fun i _ hlt => absurd hlt (Nat.not_lt_zero i)⟩
  | b + 1 => by
    rw [trailSame]
    split_ifs with h
    · obtain ⟨hle, hall⟩ := trailSame_spec same b
      refine ⟨by omega, fun i hi hlt => ?_⟩
      rcases Nat.lt_succ_iff_lt_or_eq.1 hlt with hlt | rfl
      · exact hall i hi hlt
      · exact h
    · exact ⟨Nat.le_refl _, fun i hi hlt => absurd hi (Nat.not_le_of_lt hlt)⟩

/-- A row that is compared ends as what it is compared with. -/
theorem m8ddDiffRow_spec (io : CardSide σ) (l w : ℤ) (px : Pixel → UInt16)
    (gs : Option Rect × Dd16 σ) (y : ℤ) :
    ∃ g card f, m8ddDiffRow io l w px gs y = (g, { gs.2.draw gs.2.front f with card := card }) ∧
      ∀ q, f q = if q.2 = y ∧ l ≤ q.1 ∧ q.1 < l + w then px q else gs.2.ram gs.2.front q := by
  obtain ⟨g, s⟩ := gs
  unfold m8ddDiffRow
  dsimp only
  obtain ⟨-, hle, hlead⟩ := leadSame_spec
    (fun i : ℕ => s.ram s.front (l + i, y) == px (l + i, y)) w.toNat 0
  obtain ⟨hble, htrail⟩ := trailSame_spec
    (fun i : ℕ => s.ram s.front (l + i, y) == px (l + i, y)) w.toNat
  generalize leadSame (fun i : ℕ => s.ram s.front (l + i, y) == px (l + i, y)) w.toNat 0 = a
    at hle hlead ⊢
  generalize trailSame (fun i : ℕ => s.ram s.front (l + i, y) == px (l + i, y)) w.toNat = b
    at hble htrail ⊢
  have hsame {q : Pixel} (hy : q.2 = y) (hl : l ≤ q.1)
      (hq : (s.ram s.front (l + (q.1 - l).toNat, y) == px (l + (q.1 - l).toNat, y)) = true) :
      px q = s.ram s.front q := by
    have hcol : (l + ((q.1 - l).toNat : ℤ), y) = q := by
      ext <;> dsimp only <;> omega
    rw [hcol] at hq
    exact (beq_iff_eq.1 hq).symm
  split_ifs with hall
  · have hrow : ∀ q, s.ram s.front q =
        if q.2 = y ∧ l ≤ q.1 ∧ q.1 < l + w then px q else s.ram s.front q := by
      intro q
      split_ifs with hq
      · exact (hsame hq.1 hq.2.1 (hlead _ (Nat.zero_le _) (by omega))).symm
      · rfl
    unfold m8ddDiffClose
    cases g with
    | none => exact ⟨none, s.card, s.ram s.front, by rw [draw_self], hrow⟩
    | some r =>
      refine ⟨none, (m8ddSend io r 2 s).card, s.ram s.front, ?_, hrow⟩
      rw [draw_self]
      exact congrArg (Prod.mk none) (m8ddSend_eq s r 2)
  · refine ⟨_, s.card, _, rfl, fun q => ?_⟩
    rw [Rect.paint]
    by_cases hq : q.2 = y ∧ l ≤ q.1 ∧ q.1 < l + w
    · rw [if_pos hq]
      split_ifs with hpart
      · rfl
      · rw [Rect.mem_iff] at hpart
        dsimp only at hpart
        refine (hsame hq.1 hq.2.1 ?_).symm
        by_cases hhead : (q.1 - l).toNat < a
        · exact hlead _ (Nat.zero_le _) hhead
        · exact htrail _ (by omega) (by omega)
    · rw [if_neg hq, if_neg]
      intro hpart
      rw [Rect.mem_iff] at hpart
      dsimp only at hpart
      omega

/-- What the rows compared so far leave : the pixels of the source, and a rectangle not sent. -/
theorem foldl_diffRow (io : CardSide σ) (p : BltPlan) (src : BltSource) (c : Rect) (s : Dd16 σ)
    (hsrc : ∀ k, src = .buf k → k ≠ s.front) : ∀ ys : List ℤ, ∃ g card f,
    ys.foldl (fun gs y => m8ddDiffRow io c.left (c.right - c.left)
      (fun q => src.px gs.2.ram (p.from c q)) gs y) (none, s) =
      (g, { s.draw s.front f with card := card }) ∧
    ∀ q, f q = if c.left ≤ q.1 ∧ q.1 < c.right ∧ q.2 ∈ ys then src.px s.ram (p.shift q)
      else s.ram s.front q := by
  intro ys
  induction ys using List.reverseRecOn with
  | nil => exact ⟨none, s.card, s.ram s.front, by rw [draw_self]; rfl, fun q => by simp⟩
  | append_singleton ys y ih =>
    obtain ⟨g, card, f, heq, hf⟩ := ih
    rw [List.foldl_append, heq, List.foldl_cons, List.foldl_nil]
    obtain ⟨g', card', f', heq', hf'⟩ := m8ddDiffRow_spec io c.left (c.right - c.left)
      (fun q => src.px (s.draw s.front f).ram (p.from c q))
      (g, { s.draw s.front f with card := card }) y
    refine ⟨g', card', f', heq'.trans ?_, fun q => ?_⟩
    · exact congrArg (fun t : Dd16 σ => (g', { t with card := card' })) (draw_draw s s.front f f')
    · have hpx : src.px (s.draw s.front f).ram (p.from c q) = src.px s.ram (p.shift q) := by
        rw [from_eq_shift]
        cases src with
        | sys m => rfl
        | buf k =>
          rw [BltSource.px, draw_ram_of_ne s s.front k f (hsrc k rfl)]
          rfl
      have hold : (s.draw s.front f).ram s.front q = f q := by rw [draw_ram_self]
      refine (hf' q).trans ?_
      dsimp only
      rw [hpx]
      by_cases hrow : q.2 = y ∧ c.left ≤ q.1 ∧ q.1 < c.left + (c.right - c.left)
      · rw [if_pos hrow, if_pos ⟨hrow.2.1, by omega, by simp [hrow.1]⟩]
      · rw [if_neg hrow]
        refine hold.trans ((hf q).trans (if_congr ?_ rfl rfl))
        rw [List.mem_append, List.mem_singleton]
        constructor
        · exact fun h => ⟨h.1, h.2.1, .inl h.2.2⟩
        · rintro ⟨hl, hr, hmem | hy⟩
          · exact ⟨hl, hr, hmem⟩
          · exact absurd ⟨hy, hl, by omega⟩ hrow

/-- The shown buffer ends as if the rectangle was copied at once. -/
theorem diffRows_spec (io : CardSide σ) (p : BltPlan) (src : BltSource) (c : Rect) (s : Dd16 σ)
    (hsrc : ∀ k, src = .buf k → k ≠ s.front) : ∃ card, diffRows io p src c s =
      { s.draw s.front (c.paint (fun q => src.px s.ram (p.shift q)) (s.ram s.front)) with
        card := card } := by
  obtain ⟨g, card, f, heq, hf⟩ := foldl_diffRow io p src c s hsrc
    (moveOrder false c)
  have hpaint : f = c.paint (fun q => src.px s.ram (p.shift q)) (s.ram s.front) := by
    ext1 q
    rw [hf, Rect.paint]
    exact if_congr (by rw [mem_moveOrder, Rect.mem_iff]) rfl rfl
  rw [diffRows, heq, hpaint, m8ddDiffClose]
  cases g with
  | none => exact ⟨card, rfl⟩
  | some r => exact ⟨_, m8ddSend_eq _ r 2⟩

end Inboard
