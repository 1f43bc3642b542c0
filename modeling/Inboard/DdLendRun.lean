import Inboard.DdLendHeap
import Inboard.Poly3d

/-!
# Users of the lent rows

DirectDraw's surfaces, Direct3D's contexts and a program's polygons each take rows and give them
back. Runs in which one user of the rows ends before another begins keep every holder's rows lent
and its own (`m8dd_lent_one_user`).
-/

set_option linter.unusedSectionVars false

namespace Inboard

/-! ## Polygons -/

namespace LendState

variable {α : Type*} (m : LendMode) (s : LendState α)

/-- `m8p_begin`, as far as the rows go : the back buffer, and the scratch beside it. -/
def polyBegin (usable : Bool) (blk : PolyBlock) : LendState α :=
  let r := M8p.m8pBegin ⟨s.poly.isSome, 0, 0, 0, 0, 0, 0, 0⟩ m (usable && !m.fb16) blk
  if r.1 then
    { m8DdLend m 1 s with poly := some ⟨0, m.top, int16 (2 * r.2.2.w), m.top + r.2.2.h⟩ }
  else s

/-- `M8P_END` of `m8_poly_escape`. -/
def polyEnd : LendState α :=
  if s.poly.isSome then m8DdLend m 0 { s with poly := none } else s

end LendState

/-! ## Runs -/

/-- What DirectDraw, Direct3D and a program ask for. -/
inductive LendOp (α : Type*)
  | createSurface (dc : LendDc) (plain : Bool) (list : List (α × ℕ × ℕ))
  | destroySurface (dc : LendDc) (gbl : α)
  | createContext (dc : LendDc) (target : Option (ℕ × ℕ))
  | destroyContext (dc : LendDc) (k : Fin 4)
  | polyBegin (usable : Bool) (blk : PolyBlock)
  | polyFrame
  | polyEnd

section Run

variable {α : Type*} [DecidableEq α]

def lendStep (m : LendMode) (s : LendState α) : LendOp α → LendState α
  | .createSurface dc plain list => m8ddCreateSurface m dc plain list s
  | .destroySurface dc gbl => m8ddDestroySurface m dc gbl s
  | .createContext dc target => s.contextCreate m dc target
  | .destroyContext dc k => s.contextFree m dc k
  | .polyBegin usable blk => s.polyBegin m usable blk
  | .polyFrame => s
  | .polyEnd => s.polyEnd m

def lendRun (m : LendMode) (s : LendState α) (ops : List (LendOp α)) : LendState α :=
  ops.foldl (lendStep m) s

/-- `m8_screen_init` : nothing is lent. -/
def LendState.init : LendState α := ⟨0, false, fun _ => none, 0, fun _ => none, none⟩

/-- Who has rows. -/
inductive LendHolder
  | surface (k : Fin 32)
  | context (k : Fin 4)
  | poly
  deriving DecidableEq

/-- A holder's part of the off-screen rows. -/
def LendState.holds (s : LendState α) : LendHolder → Option Rect
  | .surface k =>
    match s.placed k with
    | some (.surface _, r) => some r
    | _ => none
  | .context k => s.ctx k
  | .poly => s.poly

/-- GDI's caches stop above every row that is held, and no pixel has two holders. -/
structure LendState.OneUser (s : LendState α) : Prop where
  lent : ∀ a r, s.holds a = some r → ¬ r.Empty → s.lent ≠ 0 ∧ s.lent ≤ r.top
  apart : ∀ a b ra rb, s.holds a = some ra → s.holds b = some rb → a ≠ b → ra.Apart rb

/-- A holder ends, or begins while no other user is live : surfaces and contexts at 8 bpp are one
user, which counts them. -/
def LendOp.Safe (m : LendMode) (s : LendState α) : LendOp α → Prop
  | .createSurface .. => m.fb16 = false → s.poly = none
  | .createContext .. => if m.fb16 then ∀ k, s.ctx k = none else s.poly = none
  | .polyBegin .. => s.placedN = 0
  | _ => True

/-- Every operation of a run is safe where it comes. -/
def SafeLends (m : LendMode) : LendState α → List (LendOp α) → Prop
  | _, [] => True
  | s, op :: ops => op.Safe m s ∧ SafeLends m (lendStep m s op) ops

end Run

section Heap

variable {α : Type*} [DecidableEq α] {m : LendMode} {dc : LendDc} {s : LendState α}

/-! ## At 8 bpp -/

/-- Surfaces and contexts are in the heap, and the polygons are alone in the rows. -/
structure LendState.Counted (m : LendMode) (s : LendState α) : Prop where
  heap : HeapOk m s
  ctxPlaced : ∀ k r, s.ctx k = some r → ∃ j, s.placed j = some (.context k, r)
  placedCtx : ∀ j k r, s.placed j = some (.context k, r) → s.ctx k = some r
  once : ∀ i j k r r', s.placed i = some (.context k, r) → s.placed j = some (.context k, r') →
    i = j
  poly : ∀ r, s.poly = some r → s.placedN = 0 ∧ 0 < m.rows ∧ s.lent = m.top ∧ m.top ≤ r.top

/-- With nothing placed and no polygons the flag may have any value. -/
theorem LendState.Counted.lend (h : s.Counted m) (hz : s.placedN = 0) (hp : s.poly = none)
    (on : ℕ) : (m8DdLend m on s).Counted m := by
  refine ⟨h.heap.lend hz on, ?_, ?_, ?_, fun r hr => ?_⟩
  · simpa only [m8DdLend_ctx, m8DdLend_placed] using h.ctxPlaced
  · simpa only [m8DdLend_ctx, m8DdLend_placed] using h.placedCtx
  · simpa only [m8DdLend_placed] using h.once
  · rw [m8DdLend_poly, hp] at hr
    exact absurd hr nofun

theorem LendState.Counted.m8ddLend (h : s.Counted m) (hz : s.placedN = 0) (hp : s.poly = none)
    (reaches : Bool) (on : ℕ) :
    (m8ddLend m reaches on s).2.Counted m ∧ (m8ddLend m reaches on s).2.poly = none := by
  unfold Inboard.m8ddLend
  split_ifs
  · refine ⟨h.lend hz hp on, ?_⟩
    rw [m8DdLend_poly]
    exact hp
  · exact ⟨h, hp⟩

/-- Something is placed : no polygons. -/
theorem LendState.Counted.poly_none (h : s.Counted m) {k : Fin 32} {e : HeapKey α × Rect}
    (hk : s.placed k = some e) : s.poly = none := by
  cases hp : s.poly with
  | none => rfl
  | some r =>
    have hnone := h.heap.none_of_zero (h.poly r hp).1 k
    exact absurd (hk.symm.trans hnone) nofun

theorem LendState.Counted.unplaceSurface (dc : LendDc) (h : s.Counted m) (gbl : α) :
    (m8ddUnplace m dc (.surface gbl) s).Counted m ∧
      (m8ddUnplace m dc (.surface gbl) s).poly = s.poly := by
  rcases m8ddUnplace_cases dc (.surface gbl) (m := m) (s := s) with
    ⟨heq, -⟩ | ⟨k, r, hk, hu⟩
  · rw [heq]
    exact ⟨h, rfl⟩
  · refine ⟨⟨h.heap.unplaced hk hu, fun c q hc => ?_, fun j c q hj => ?_,
      fun i j c q q' hi hj => ?_,
      fun q hq => ?_⟩, hu.poly⟩
    · rw [hu.ctx] at hc
      obtain ⟨j, hj⟩ := h.ctxPlaced c q hc
      have hjk : j ≠ k := by
        rintro rfl
        simp [hk] at hj
      refine ⟨j, ?_⟩
      rw [hu.placed, Function.update_of_ne hjk]
      exact hj
    · rw [hu.ctx]
      exact h.placedCtx j c q (hu.of_some hj).2
    · exact h.once i j c q q' (hu.of_some hi).2 (hu.of_some hj).2
    · rw [hu.poly, h.poly_none hk] at hq
      exact absurd hq nofun

/-- A context goes, and what it had placed. -/
theorem LendState.Counted.unplaceContext (h : s.Counted m) {k : Fin 4} {r : Rect}
    (hk : s.ctx k = some r) :
    LendState.Counted m { m8ddUnplace m dc (.context k) s with
      ctx := Function.update (m8ddUnplace m dc (.context k) s).ctx k none } := by
  obtain ⟨j, hj⟩ := h.ctxPlaced k r hk
  rcases m8ddUnplace_cases dc (.context k) (m := m) (s := s) with
    ⟨-, hnone⟩ | ⟨i, q, hi, hu⟩
  · exact absurd hj (hnone j r)
  have hheap := h.heap.unplaced hi hu
  refine ⟨⟨hheap.count, hheap.lent, hheap.rows, hheap.apart⟩, fun c p hc => ?_, fun l c p hl => ?_,
    fun a b c p p' ha hb => h.once a b c p p' (hu.of_some ha).2 (hu.of_some hb).2, fun p hp => ?_⟩
  · dsimp only at hc ⊢
    rcases eq_or_ne c k with rfl | hck
    · rw [Function.update_self] at hc
      exact absurd hc nofun
    · rw [Function.update_of_ne hck, hu.ctx] at hc
      obtain ⟨l, hl⟩ := h.ctxPlaced c p hc
      have hli : l ≠ i := by
        rintro rfl
        rw [hi] at hl
        simp only [Option.some.injEq, Prod.mk.injEq, HeapKey.context.injEq] at hl
        exact hck hl.1.symm
      refine ⟨l, ?_⟩
      rw [hu.placed, Function.update_of_ne hli]
      exact hl
  · obtain ⟨hli, hold⟩ := hu.of_some hl
    have hck : c ≠ k := by
      rintro rfl
      exact hli (h.once l i c p q hold hi)
    dsimp only
    rw [Function.update_of_ne hck, hu.ctx]
    exact h.placedCtx l c p hold
  · dsimp only at hp
    rw [hu.poly, h.poly_none hi] at hp
    exact absurd hp nofun

theorem LendState.Counted.putSurface (h : s.Counted m) (hrows : m.heapRows ≠ 0)
    (hlent : s.lent = m.top) (hp : s.poly = none) {k : Fin 32} (hk : s.placed k = none) {gbl : α}
    {w l : ℕ} {r : Rect} (hr : m8ddPlace m w l s = some r) :
    (s.putPlaced k (.surface gbl) r).Counted m := by
  have hother : ∀ j c q, (s.putPlaced k (.surface gbl) r).placed j = some (.context c, q) →
      s.placed j = some (.context c, q) := by
    intro j c q hj
    simp only [LendState.putPlaced] at hj
    rcases eq_or_ne j k with rfl | hjk
    · simp at hj
    · rwa [Function.update_of_ne hjk] at hj
  refine ⟨h.heap.putPlaced hrows hlent hk _ hr, fun c q hc => ?_,
    fun j c q hj => h.placedCtx j c q (hother j c q hj),
    fun i j c q q' hi hj => h.once i j c q q' (hother i c q hi) (hother j c q' hj),
    fun q hq => absurd (hq.symm.trans hp) (Option.some_ne_none q)⟩
  obtain ⟨j, hj⟩ := h.ctxPlaced c q hc
  have hjk : j ≠ k := by
    rintro rfl
    exact absurd (hj.symm.trans hk) (Option.some_ne_none _)
  refine ⟨j, ?_⟩
  simp only [LendState.putPlaced]
  rw [Function.update_of_ne hjk]
  exact hj

/-- A context takes a free entry and a free slot at once. -/
theorem LendState.Counted.putContext (h : s.Counted m) (hrows : m.heapRows ≠ 0)
    (hlent : s.lent = m.top) (hp : s.poly = none) {k : Fin 32} (hk : s.placed k = none) {c : Fin 4}
    (hc : s.ctx c = none) {w l : ℕ} {r : Rect} (hr : m8ddPlace m w l s = some r) :
    LendState.Counted m { s.putPlaced k (.context c) r with
      ctx := Function.update s.ctx c (some r) } := by
  have hheap := h.heap.putPlaced hrows hlent hk (.context c) hr
  have hself : (s.putPlaced k (.context c) r).placed k = some (.context c, r) :=
    Function.update_self ..
  have hother : ∀ j, j ≠ k → (s.putPlaced k (.context c) r).placed j = s.placed j :=
    fun j hj => Function.update_of_ne hj ..
  have hfree : ∀ j q, s.placed j ≠ some (.context c, q) := fun j q hj =>
    absurd (hc.symm.trans (h.placedCtx j c q hj)) nofun
  refine ⟨⟨hheap.count, hheap.lent, hheap.rows, hheap.apart⟩, fun d q hd => ?_, fun j d q hj => ?_,
    fun i j d q q' hi hj => ?_, fun q hq => absurd (hp.symm.trans hq) nofun⟩
  · dsimp only at hd ⊢
    rcases eq_or_ne d c with rfl | hdc
    · rw [Function.update_self] at hd
      obtain rfl := Option.some.inj hd
      exact ⟨k, hself⟩
    · rw [Function.update_of_ne hdc] at hd
      obtain ⟨j, hj⟩ := h.ctxPlaced d q hd
      have hjk : j ≠ k := by
        rintro rfl
        exact absurd (hk.symm.trans hj) nofun
      exact ⟨j, (hother j hjk).trans hj⟩
  · dsimp only at hj ⊢
    rcases eq_or_ne j k with rfl | hjk
    · rw [hself] at hj
      simp only [Option.some.injEq, Prod.mk.injEq, HeapKey.context.injEq] at hj
      obtain ⟨rfl, rfl⟩ := hj
      exact Function.update_self ..
    · rw [hother j hjk] at hj
      have hdc : d ≠ c := by
        rintro rfl
        exact hfree j q hj
      rw [Function.update_of_ne hdc]
      exact h.placedCtx j d q hj
  · dsimp only at hi hj
    by_cases hik : i = k <;> by_cases hjk : j = k
    · rw [hik, hjk]
    · rw [hik, hself] at hi
      rw [hother j hjk] at hj
      simp only [Option.some.injEq, Prod.mk.injEq, HeapKey.context.injEq] at hi
      obtain ⟨rfl, -⟩ := hi
      exact absurd hj (hfree j q')
    · rw [hjk, hself] at hj
      rw [hother i hik] at hi
      simp only [Option.some.injEq, Prod.mk.injEq, HeapKey.context.injEq] at hj
      obtain ⟨rfl, -⟩ := hj
      exact absurd hi (hfree i q)
    · rw [hother i hik] at hi
      rw [hother j hjk] at hj
      exact h.once i j d q q' hi hj

theorem m8ddPlaceAll_counted (hrows : m.heapRows ≠ 0) : ∀ {list : List (α × ℕ × ℕ)} {done : List α}
    {s : LendState α}, s.Counted m → s.lent = m.top → s.poly = none →
    (m8ddPlaceAll m dc done list s).Counted m
  | [], _, _, h, _, _ => h
  | (gbl, w, l) :: rest, done, s, h, hlent, hp => by
    rw [m8ddPlaceAll]
    cases hr : m8ddPlace m w l s with
    | none =>
      have hback : ∀ (done : List α) {s : LendState α}, s.Counted m → s.poly = none →
          (done.foldl (fun s gbl => m8ddUnplace m dc (.surface gbl) s) s).Counted m ∧
            (done.foldl (fun s gbl => m8ddUnplace m dc (.surface gbl) s) s).poly = none := by
        intro done
        induction done with
        | nil => exact fun h hp => ⟨h, hp⟩
        | cons gbl done ih =>
          intro s h hp
          obtain ⟨hun, hpoly⟩ := h.unplaceSurface dc gbl
          exact ih hun (hpoly.trans hp)
      obtain ⟨hun, hpoly⟩ := hback done h hp
      dsimp only
      split_ifs with hz
      · exact (hun.m8ddLend hz hpoly dc.last 0).1
      · exact hun
    | some r =>
      dsimp only
      cases hk : placedFree s with
      | none => exact h
      | some k =>
        exact m8ddPlaceAll_counted hrows
          (h.putSurface hrows hlent hp (placedFree_none hk) hr) hlent hp

theorem m8ddCreateSurface_counted (hm : m.fb16 = false) (h : s.Counted m) (hp : s.poly = none)
    (plain : Bool) (list : List (α × ℕ × ℕ)) :
    (m8ddCreateSurface m dc plain list s).Counted m := by
  unfold m8ddCreateSurface
  rw [if_neg (by simp [hm])]
  by_cases hlist : m.heapRows = 0 ∨ list = []
  · rw [if_pos hlist]
    exact h
  rw [if_neg hlist]
  have hrows : m.heapRows ≠ 0 := fun hz => hlist (.inl hz)
  by_cases hplain : plain = true
  swap
  · rw [if_pos (by simpa using hplain)]
    exact h
  rw [if_neg (by simpa using hplain)]
  by_cases hmany : 32 < s.placedN + list.length
  · rw [if_pos hmany]
    exact h
  rw [if_neg hmany]
  by_cases hz : s.placedN = 0
  · rw [if_pos hz]
    unfold m8ddLend
    cases dc.lend with
    | false => exact h
    | true =>
      exact m8ddPlaceAll_counted hrows (h.lend hz hp 1) (m8DdLend_lent (LendMode.rows_pos hrows))
        ((m8DdLend_poly 1).trans hp)
  · rw [if_neg hz]
    exact m8ddPlaceAll_counted hrows h (h.heap.lent_of_ne hz) hp

theorem contextCreate_counted (hm : m.fb16 = false) (h : s.Counted m) (hp : s.poly = none)
    (target : Option (ℕ × ℕ)) : (s.contextCreate m dc target).Counted m := by
  unfold LendState.contextCreate
  cases hc : (List.finRange 4).find? fun k => (s.ctx k).isNone with
  | none => exact h
  | some c =>
    have hfree : s.ctx c = none := by
      have hfound := List.find?_some hc
      simpa using hfound
    match target with
    | none => exact h
    | some (w, l) =>
      dsimp only
      unfold m8d3dScratch
      rw [if_neg (by simp [hm])]
      by_cases hrows : m.heapRows = 0
      · rw [if_pos hrows]
        exact h
      rw [if_neg hrows]
      cases hr : m8ddPlace m w l s with
      | none => exact h
      | some r =>
        cases hk : placedFree s with
        | none => exact h
        | some k =>
          have hnone := placedFree_none hk
          dsimp only
          by_cases hz : s.placedN = 0
          · rw [if_pos hz]
            have hfits : m8ddPlace m w l (m8DdLend m 1 s) = some r := by
              rw [← hr]
              unfold m8ddPlace placeCorners m8ddFits
              rw [m8DdLend_placed]
            unfold m8ddLend
            cases dc.lend with
            | false => exact h
            | true =>
              have hput := (h.lend hz hp 1).putContext hrows
                (m8DdLend_lent (LendMode.rows_pos hrows)) ((m8DdLend_poly 1).trans hp)
                (by rw [m8DdLend_placed, hnone]) (c := c) (by rw [m8DdLend_ctx, hfree]) hfits
              exact hput
          · rw [if_neg hz]
            exact h.putContext hrows (h.heap.lent_of_ne hz) hp hnone hfree hr

theorem contextFree_counted (hm : m.fb16 = false) (h : s.Counted m) (k : Fin 4) :
    (s.contextFree m dc k).Counted m := by
  unfold LendState.contextFree
  cases hk : s.ctx k with
  | none => exact h
  | some r =>
    dsimp only
    unfold m8d3dScratchFree
    rw [if_neg (by simp [hm])]
    exact h.unplaceContext hk

/-- Polygons that begin are alone in the rows, of which there are enough. -/
theorem polyBegin_counted (h : s.Counted m) (hz : s.placedN = 0) (usable : Bool)
    (blk : PolyBlock) : (s.polyBegin m usable blk).Counted m := by
  unfold LendState.polyBegin M8p.m8pBegin
  dsimp only
  by_cases hno : s.poly.isSome = true ∨ (usable && !m.fb16) = false ∨ (blk.word 1).toNat < 16 ∨
      (blk.word 2).toNat < 16 ∨ (2 * (blk.word 1).toNat : ℤ) % 65536 > M8_PITCH ∨
      (blk.word 2).toNat > m.rows
  · rw [if_pos hno]
    exact h
  rw [if_neg hno]
  push Not at hno
  obtain ⟨hoff, -, -, htall, -, hfit⟩ := hno
  have hrows : 0 < m.rows := by omega
  have hp : s.poly = none := by
    cases hp : s.poly with
    | none => rfl
    | some r => exact absurd (by rw [hp]; rfl) hoff
  have hl := h.lend hz hp 1
  refine ⟨⟨hl.heap.count, hl.heap.lent, hl.heap.rows, hl.heap.apart⟩, hl.ctxPlaced, hl.placedCtx,
    hl.once, fun r hr => ?_⟩
  obtain rfl := Option.some.inj hr
  exact ⟨(m8DdLend_placedN 1).trans hz, hrows, m8DdLend_lent hrows, Int.le_refl _⟩

theorem polyEnd_counted (h : s.Counted m) : (s.polyEnd m).Counted m := by
  unfold LendState.polyEnd
  split_ifs with hon
  · obtain ⟨r, hr⟩ := Option.isSome_iff_exists.1 hon
    have hz := (h.poly r hr).1
    have hoff : LendState.Counted m { s with poly := none } :=
      ⟨⟨h.heap.count, h.heap.lent, h.heap.rows, h.heap.apart⟩, h.ctxPlaced, h.placedCtx, h.once,
        nofun⟩
    exact hoff.lend hz rfl 0
  · exact h

/-! ## At 16 bpp -/

/-- At most one context, with nothing else in the rows. -/
structure LendState.Alone (s : LendState α) : Prop where
  placed : ∀ k, s.placed k = none
  poly : s.poly = none
  one : ∀ j k, s.ctx j ≠ none → s.ctx k ≠ none → j = k
  lent : ∀ k r, s.ctx k = some r → ¬ r.Empty → s.lent ≠ 0 ∧ s.lent ≤ r.top

theorem m8ddUnplace_none (h : ∀ k, s.placed k = none) (key : HeapKey α) :
    m8ddUnplace m dc key s = s := by
  rcases m8ddUnplace_cases dc key (m := m) (s := s) with ⟨heq, -⟩ | ⟨k, r, hk, -⟩
  · exact heq
  · exact absurd (hk.symm.trans (h k)) nofun

/-- A context that gets the scratch while no other is live. -/
theorem LendState.Alone.put {s' : LendState α} (h : s.Alone) (hplaced : s'.placed = s.placed)
    (hpoly : s'.poly = s.poly) (hnone : ∀ k, s'.ctx k = none) {c : Fin 4} {r : Rect}
    (hlent : ¬ r.Empty → s'.lent ≠ 0 ∧ s'.lent ≤ r.top) :
    LendState.Alone { s' with ctx := Function.update s'.ctx c (some r) } := by
  have honly : ∀ k, Function.update s'.ctx c (some r) k ≠ none → k = c := by
    intro k hk
    by_contra hkc
    rw [Function.update_of_ne hkc] at hk
    exact hk (hnone k)
  refine ⟨fun k => ?_, hpoly.trans h.poly, fun j k hj hk => ?_, fun k q hk => ?_⟩
  · rw [hplaced]
    exact h.placed k
  · rw [honly j hj, honly k hk]
  · dsimp only at hk
    obtain rfl := honly k (by rw [hk]; exact nofun)
    rw [Function.update_self] at hk
    obtain rfl := Option.some.inj hk
    exact hlent

theorem contextCreate_alone (hm : m.fb16 = true) (h : s.Alone) (hnone : ∀ k, s.ctx k = none)
    (target : Option (ℕ × ℕ)) : (s.contextCreate m dc target).Alone := by
  unfold LendState.contextCreate
  cases hc : (List.finRange 4).find? fun k => (s.ctx k).isNone with
  | none => exact h
  | some c =>
    match target with
    | none => exact h
    | some (w, l) =>
      dsimp only
      unfold m8d3dScratch m8ddLend
      rw [if_pos hm]
      cases dc.lend with
      | false =>
        by_cases hpages : m.width = 640 ∧ m.height = 480
        · rw [if_pos hpages]
          exact h
        · rw [if_neg hpages]
          exact h
      | true =>
        have hkeep : ∀ on k, (m8DdLend m on s).ctx k = none := by
          intro on k
          rw [m8DdLend_ctx]
          exact hnone k
        by_cases hpages : m.width = 640 ∧ m.height = 480
        · rw [if_pos hpages]
          refine h.put (m8DdLend_placed 2) (m8DdLend_poly 2) (hkeep 2) fun _ => ?_
          exact ⟨show M8_PAGE1_Y ≠ 0 by decide, Int.le_refl _⟩
        · rw [if_neg hpages]
          refine h.put (m8DdLend_placed 1) (m8DdLend_poly 1) (hkeep 1) fun hr => ?_
          have hrows : 0 < m.rows := by
            unfold Rect.Empty at hr
            dsimp only at hr
            omega
          rw [m8DdLend_lent hrows]
          have := LendMode.top_pos hrows
          exact ⟨by omega, Int.le_refl _⟩

theorem contextFree_alone (hm : m.fb16 = true) (h : s.Alone) (k : Fin 4) :
    (s.contextFree m dc k).Alone := by
  unfold LendState.contextFree
  cases hk : s.ctx k with
  | none => exact h
  | some r =>
    have hgone : ∀ j, Function.update s.ctx k none j = none := by
      intro j
      rcases eq_or_ne j k with rfl | hjk
      · exact Function.update_self ..
      · rw [Function.update_of_ne hjk]
        by_contra hj
        exact hjk (h.one j k hj (by rw [hk]; exact nofun))
    dsimp only
    unfold m8d3dScratchFree m8ddLend
    rw [if_pos hm]
    split_ifs
    · refine ⟨fun j => ?_, ?_, fun i j hi _ => ?_, fun j q hj => ?_⟩
      · simpa using h.placed j
      · simpa using h.poly
      · dsimp only at hi
        rw [m8DdLend_ctx] at hi
        exact absurd (hgone i) hi
      · dsimp only at hj
        rw [m8DdLend_ctx, hgone j] at hj
        exact absurd hj nofun
    · refine ⟨h.placed, h.poly, fun i j hi _ => ?_, fun j q hj => ?_⟩
      · exact absurd (hgone i) hi
      · dsimp only at hj
        rw [hgone j] at hj
        exact absurd hj nofun

end Heap

/-! ## Runs -/

section Run

variable {α : Type*} [DecidableEq α] {m : LendMode} {s : LendState α}

/-- The invariant of the mode. -/
def LendState.Inv (m : LendMode) (s : LendState α) : Prop :=
  if m.fb16 then s.Alone else s.Counted m

theorem LendState.init_inv : (LendState.init : LendState α).Inv m := by
  unfold Inv
  split_ifs
  · exact ⟨fun _ => rfl, rfl, fun _ _ h => absurd rfl h, nofun⟩
  · exact ⟨⟨rfl, nofun, nofun, nofun⟩, nofun, nofun, nofun, nofun⟩

theorem lendStep_inv {op : LendOp α} (h : s.Inv m) (hsafe : op.Safe m s) :
    (lendStep m s op).Inv m := by
  unfold LendState.Inv at h ⊢
  cases hm : m.fb16 with
  | true =>
    rw [if_pos hm] at h
    rw [if_pos rfl]
    cases op with
    | createSurface dc plain list =>
      rw [lendStep, m8ddCreateSurface, if_pos hm]
      exact h
    | destroySurface dc gbl =>
      rw [lendStep, m8ddDestroySurface, m8ddUnplace_none h.placed]
      exact h
    | createContext dc target =>
      rw [LendOp.Safe, if_pos hm] at hsafe
      exact contextCreate_alone hm h hsafe target
    | destroyContext dc k => exact contextFree_alone hm h k
    | polyBegin usable blk =>
      have hno : M8p.m8pBegin ⟨s.poly.isSome, 0, 0, 0, 0, 0, 0, 0⟩ m (usable && !m.fb16) blk =
          (false, [], ⟨s.poly.isSome, 0, 0, 0, 0, 0, 0, 0⟩) :=
        if_pos (.inr (.inl (by rw [hm, Bool.not_true, Bool.and_false])))
      rw [lendStep, LendState.polyBegin, hno]
      exact h
    | polyFrame => exact h
    | polyEnd =>
      rw [lendStep, LendState.polyEnd, h.poly]
      exact h
  | false =>
    rw [if_neg (by simp [hm])] at h
    rw [if_neg (by simp)]
    cases op with
    | createSurface dc plain list => exact m8ddCreateSurface_counted hm h (hsafe hm) plain list
    | destroySurface dc gbl => exact (h.unplaceSurface dc gbl).1
    | createContext dc target =>
      rw [LendOp.Safe, if_neg (by simp [hm])] at hsafe
      exact contextCreate_counted hm h hsafe target
    | destroyContext dc k => exact contextFree_counted hm h k
    | polyBegin usable blk => exact polyBegin_counted h hsafe usable blk
    | polyFrame => exact h
    | polyEnd => exact polyEnd_counted h

theorem lendRun_inv : ∀ {ops : List (LendOp α)} {s : LendState α}, s.Inv m → SafeLends m s ops →
    (lendRun m s ops).Inv m
  | [], _, h, _ => h
  | _ :: _, _, h, hsafe => by
    rw [lendRun, List.foldl_cons]
    exact lendRun_inv (lendStep_inv h hsafe.1) hsafe.2

/-- Entry `j` is where a surface or a context is placed. -/
def LendHolder.At (a : LendHolder) (j : Fin 32) (key : HeapKey α) : Prop :=
  match a, key with
  | .surface k, .surface _ => k = j
  | .context k, .context c => k = c
  | _, _ => False

theorem LendState.Counted.holds_placed (h : s.Counted m) {a : LendHolder} {r : Rect}
    (ha : s.holds a = some r) (hpoly : a ≠ .poly) :
    ∃ j key, s.placed j = some (key, r) ∧ a.At j key := by
  cases a with
  | surface k =>
    unfold holds at ha
    dsimp only at ha
    split at ha
    · rename_i gbl q hk
      obtain rfl := Option.some.inj ha
      exact ⟨k, .surface gbl, hk, rfl⟩
    · exact absurd ha nofun
  | context k =>
    obtain ⟨j, hj⟩ := h.ctxPlaced k r ha
    exact ⟨j, .context k, hj, rfl⟩
  | poly => exact absurd rfl hpoly

theorem LendHolder.At.inj {a b : LendHolder} {j : Fin 32} {key : HeapKey α} (ha : a.At j key)
    (hb : b.At j key) : a = b := by
  cases a <;> cases b <;> cases key <;> simp_all [At]

theorem LendState.Counted.oneUser (h : s.Counted m) : s.OneUser := by
  refine ⟨fun a r ha _ => ?_, fun a b ra rb ha hb hab => ?_⟩
  · by_cases hpoly : a = .poly
    · obtain rfl := hpoly
      obtain ⟨-, hrows, hlent, htop⟩ := h.poly r ha
      have := LendMode.top_pos hrows
      rw [hlent]
      exact ⟨by omega, htop⟩
    · obtain ⟨j, key, hj, -⟩ := h.holds_placed ha hpoly
      obtain ⟨hlent, hrows⟩ := h.heap.lent j _ hj
      have := LendMode.top_pos (LendMode.rows_pos hrows)
      rw [hlent]
      exact ⟨by omega, (h.heap.rows j _ hj).1⟩
  · have halone : ∀ {a b : LendHolder} {ra rb : Rect}, s.holds a = some ra → s.holds b = some rb →
        a ≠ b → a ≠ .poly := by
      rintro a b ra rb ha hb hab rfl
      have hz := (h.poly ra ha).1
      obtain ⟨j, key, hj, -⟩ := h.holds_placed hb (Ne.symm hab)
      exact absurd (hj.symm.trans (h.heap.none_of_zero hz j)) nofun
    obtain ⟨i, key, hi, hai⟩ := h.holds_placed ha (halone ha hb hab)
    obtain ⟨j, key', hj, hbj⟩ := h.holds_placed hb (halone hb ha hab.symm)
    refine h.heap.apart i j _ _ hi hj fun hij => hab ?_
    obtain rfl := hij
    rw [hi] at hj
    simp only [Option.some.injEq, Prod.mk.injEq] at hj
    obtain ⟨rfl, -⟩ := hj
    exact hai.inj hbj

theorem LendState.Alone.oneUser (h : s.Alone) : s.OneUser := by
  have hctx : ∀ a r, s.holds a = some r → ∃ k, a = .context k ∧ s.ctx k = some r := by
    intro a r ha
    cases a with
    | surface k =>
      simp only [holds, h.placed k] at ha
      exact absurd ha nofun
    | context k => exact ⟨k, rfl, ha⟩
    | poly =>
      simp only [holds, h.poly] at ha
      exact absurd ha nofun
  refine ⟨fun a r ha hr => ?_, fun a b ra rb ha hb hab => ?_⟩
  · obtain ⟨k, rfl, hk⟩ := hctx a r ha
    exact h.lent k r hk hr
  · obtain ⟨j, rfl, hj⟩ := hctx a ra ha
    obtain ⟨k, rfl, hk⟩ := hctx b rb hb
    have hjk := h.one j k (by rw [hj]; exact nofun) (by rw [hk]; exact nofun)
    exact absurd (congrArg LendHolder.context hjk) hab

/-- In every run in which no user of the rows begins while another is live, each state reached has
every holder's rows lent, and no pixel of them has two holders. -/
theorem m8dd_lent_one_user (m : LendMode) (ops : List (LendOp α)) (hsafe : SafeLends m .init ops) :
    (lendRun m .init ops).OneUser := by
  have hrun := lendRun_inv LendState.init_inv hsafe
  unfold LendState.Inv at hrun
  split_ifs at hrun
  · exact hrun.oneUser
  · exact hrun.oneUser

instance LendOp.decidableSafe (s : LendState α) : (op : LendOp α) → Decidable (op.Safe m s)
  | .createSurface .. => inferInstanceAs (Decidable (m.fb16 = false → s.poly = none))
  | .createContext .. =>
    inferInstanceAs (Decidable (if m.fb16 then ∀ k, s.ctx k = none else s.poly = none))
  | .polyBegin .. => inferInstanceAs (Decidable (s.placedN = 0))
  | .destroySurface .. | .destroyContext .. | .polyFrame | .polyEnd => .isTrue trivial

instance SafeLends.decidable :
    (s : LendState α) → (ops : List (LendOp α)) → Decidable (SafeLends m s ops)
  | _, [] => .isTrue trivial
  | s, op :: ops =>
    have := SafeLends.decidable (lendStep m s op) ops
    inferInstanceAs (Decidable (op.Safe m s ∧ SafeLends m (lendStep m s op) ops))

/-- The words of a begin. -/
def polyWords (w h : BitVec 16) : PolyBlock := ⟨fun i => [1, w, h].getD i 0⟩

/-- Two surfaces and a context, then a program's polygons. -/
theorem m8dd_lent_one_user_turns :
    (lendRun ⟨640, 480, false, true⟩ .init
      [.createSurface ⟨true, true, true⟩ true [(1, 64, 64), (2, 320, 200)],
        .createContext ⟨true, true, true⟩ (some (320, 200)),
        .destroySurface ⟨true, true, true⟩ 1, .destroySurface ⟨true, true, true⟩ 2,
        .destroyContext ⟨true, true, true⟩ 0, .polyBegin true (polyWords 200 150),
        .polyFrame]).OneUser :=
  m8dd_lent_one_user (α := ℕ) _ _ (by decide +kernel)

example : ((LendState.init : LendState ℕ).polyBegin ⟨640, 480, false, true⟩ true
    (polyWords 32784 64)).poly = some ⟨0, 608, 32, 672⟩ := by decide +kernel

/-- A program draws polygons while a surface is placed : its end takes the surface's rows back. -/
theorem m8dd_lent_taken_back :
    ¬ (lendRun ⟨640, 480, false, true⟩ .init
      [.createSurface ⟨true, true, true⟩ true [(1, 64, 64)], .polyBegin true (polyWords 64 64),
        .polyEnd]).OneUser := by
  intro h
  have hlent := h.lent (.surface 0) ⟨0, 608, 64, 672⟩ (by decide +kernel) (by decide)
  exact hlent.1 (by decide +kernel)

end Run

end Inboard
