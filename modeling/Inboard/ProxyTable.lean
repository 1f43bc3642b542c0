import Inboard.Proxies

/-!
# The table of proxies

A proxy's slot is in use and no other's, and no two proxies hold one pixel of a bitmap
(`PxHolds`). Proxies go one by one (`PxGoes`) : a filled one leaves its pixels in its bitmap's RAM,
and no later one of that bitmap writes there. Whatever empties entries of the cache lets proxies go
(`PxGoes.withCache`).
-/

set_option linter.unusedSectionVars false

namespace Inboard

variable {α : Type*} [DecidableEq α] {m : LendMode} {s t u : PxState α}

/-! ## The invariant -/

/-- The table's invariant. -/
structure PxHolds (s : PxState α) : Prop where
  size : ∀ {k p}, s.px k = some p → p.rect.left < p.rect.right ∧ p.rect.top < p.rect.bottom
  used : ∀ {k p}, s.px k = some p → (s.entry p.e).w ≠ 0
  flag : ∀ {k p}, s.px k = some p → s.flag p.e = true
  own : ∀ {j k p q}, s.px j = some p → s.px k = some q → p.e = q.e → j = k
  apart : ∀ {j k p q}, s.px j = some p → s.px k = some q → j ≠ k → p.bmp = q.bmp →
    p.rect.Apart q.rect

/-- No proxy has slot `e`. -/
def PxState.Unowned (s : PxState α) (e : Fin 160) : Prop := ∀ k p, s.px k = some p → p.e ≠ e

/-- An empty entry is no proxy's. -/
theorem PxHolds.unowned (h : PxHolds s) {e : Fin 160} (he : (s.entry e).w = 0) : s.Unowned e := by
  rintro k p hk rfl
  exact h.used hk he

/-- The table is empty. -/
theorem PxHolds.of_none (h : ∀ k, s.px k = none) : PxHolds s where
  size hk := absurd ((h _).symm.trans hk) (by simp)
  used hk := absurd ((h _).symm.trans hk) (by simp)
  flag hk := absurd ((h _).symm.trans hk) (by simp)
  own hj := absurd ((h _).symm.trans hj) (by simp)
  apart hj := absurd ((h _).symm.trans hj) (by simp)

/-! ## Proxies that go -/

/-- The proxies of `t` are proxies of `s`, their slots as they were. -/
structure PxLess (s t : PxState α) : Prop where
  px : ∀ {k p}, t.px k = some p → s.px k = some p
  entry : ∀ {k p}, t.px k = some p → t.entry p.e = s.entry p.e
  flag : ∀ {k p}, t.px k = some p → t.flag p.e = s.flag p.e

theorem PxLess.refl (s : PxState α) : PxLess s s := ⟨id, fun _ => rfl, fun _ => rfl⟩

theorem PxLess.trans (h : PxLess s t) (h' : PxLess t u) : PxLess s u where
  px hk := h.px (h'.px hk)
  entry hk := (h'.entry hk).trans (h.entry (h'.px hk))
  flag hk := (h'.flag hk).trans (h.flag (h'.px hk))

/-- With fewer proxies the table holds all the more. -/
theorem PxHolds.less (h : PxHolds s) (hl : PxLess s t) : PxHolds t where
  size hk := h.size (hl.px hk)
  used hk := by
    rw [hl.entry hk]
    exact h.used (hl.px hk)
  flag hk := (hl.flag hk).trans (h.flag (hl.px hk))
  own hj hk := h.own (hl.px hj) (hl.px hk)
  apart hj hk := h.apart (hl.px hj) (hl.px hk)

theorem PxLess.unowned (hl : PxLess s t) {e : Fin 160} (h : s.Unowned e) : t.Unowned e :=
  fun k p hk => h k p (hl.px hk)

/-- And the filled ones that have gone are in RAM. -/
structure PxGoes (s t : PxState α) : Prop extends PxLess s t where
  heap : t.world.heap = s.world.heap
  writable : t.world.writable = s.world.writable
  card : t.off.card = s.off.card
  hwOff : t.hwOff = s.hwOff
  kept : ∀ {k p}, s.px k = some p → p.unfilled = false → s.pxValid p = true → s.hwOff = false →
    t.px k = some p ∨ ∀ q ∈ p.rect, t.world.ram p.bmp q = s.off.card (s.held p q)
  ram : ∀ {b q}, (∀ k p, s.px k = some p → p.unfilled = false → p.bmp = b → q ∉ p.rect) →
    t.world.ram b q = s.world.ram b q

theorem PxGoes.refl (s : PxState α) : PxGoes s s where
  toPxLess := .refl s
  heap := rfl
  writable := rfl
  card := rfl
  hwOff := rfl
  kept hk _ _ _ := .inl hk
  ram _ := rfl

/-- Whether a proxy is valid does not change. -/
theorem PxGoes.valid (h : PxGoes s t) (p : PxEntry α) : t.pxValid p = s.pxValid p := by
  unfold PxState.pxValid
  rw [h.heap, h.writable]

/-- A proxy that stays holds what it held. -/
theorem PxLess.held (h : PxLess s t) {k : Fin 16} {p : PxEntry α} (hk : t.px k = some p)
    (q : Pixel) : t.held p q = s.held p q := by
  unfold PxState.held
  rw [h.entry hk]

/-- One step after the other. -/
theorem PxGoes.trans (hs : PxHolds s) (h : PxGoes s t) (h' : PxGoes t u) : PxGoes s u where
  toPxLess := h.toPxLess.trans h'.toPxLess
  heap := h'.heap.trans h.heap
  writable := h'.writable.trans h.writable
  card := h'.card.trans h.card
  hwOff := h'.hwOff.trans h.hwOff
  kept := by
    intro k p hk hfilled hvalid hon
    by_cases ht : t.px k = some p
    · obtain hu | hu := h'.kept ht hfilled ((h.valid p).trans hvalid) (h.hwOff.trans hon)
      · exact .inl hu
      · refine .inr fun q hq => ?_
        rw [hu q hq, h.card, h.held ht]
    · have hram := (h.kept hk hfilled hvalid hon).resolve_left ht
      refine .inr fun q hq => (h'.ram fun j p' hj _ hbmp hq' => ?_).trans (hram q hq)
      have hne : k ≠ j := by
        rintro rfl
        obtain rfl : p = p' := Option.some.inj (hk.symm.trans (h.px hj))
        exact ht hj
      exact hs.apart hk (h.px hj) hne hbmp.symm q hq hq'
  ram hout := (h'.ram fun k p hk => hout k p (h.px hk)).trans (h.ram hout)

/-- What is kept of lookups does not matter to the proxies. -/
theorem PxGoes.aside (h : PxGoes s t) (key : Fin 160 → UInt32 × UInt32) (memo : Option (BcMemo α))
    (seen : Fin 64 → UInt32) (seenNext : Fin 64) (gone : Option α) : PxGoes s { t with
      key := key, memo := memo, seen := seen, seenNext := seenNext, gone := gone } :=
  ⟨⟨h.px, h.entry, h.flag⟩, h.heap, h.writable, h.card, h.hwOff, h.kept, h.ram⟩

namespace PxState

/-- The first proxy that is looked for is one. -/
theorem pxFirst_some {f : PxEntry α → Bool} {k : Fin 16} (h : s.pxFirst f = some k) :
    ∃ p, s.px k = some p ∧ f p = true := by
  unfold pxFirst at h
  have hfound := List.find?_some h
  exact Option.any_eq_true _ _ |>.1 hfound

theorem pxDrop_none {k : Fin 16} (hk : s.px k = none) (keep : Bool) : s.pxDrop k keep = s := by
  unfold pxDrop
  rw [hk]

/-- What a drop leaves of the entry and the flag. -/
theorem pxDrop_some {k : Fin 16} {p : PxEntry α} (hk : s.px k = some p) (keep : Bool) :
    s.pxDrop k keep = { s with
      off := if keep then s.off else s.off.bcDrop p.e
      flag := if keep then s.flag else Function.update s.flag p.e false
      gone := some p.bmp
      px := Function.update s.px k none } := by
  unfold pxDrop
  rw [hk]

theorem pxDrop_px (s : PxState α) (k : Fin 16) (keep : Bool) :
    (s.pxDrop k keep).px = Function.update s.px k none := by
  cases hk : s.px k with
  | none => rw [pxDrop_none hk, ← hk, Function.update_eq_self]
  | some p => rw [pxDrop_some hk]

/-- The other proxies stay. -/
theorem pxDrop_of_ne {k j : Fin 16} (hne : j ≠ k) (keep : Bool) :
    (s.pxDrop k keep).px j = s.px j := by
  rw [pxDrop_px, Function.update_of_ne hne]

theorem pxDrop_self (s : PxState α) (k : Fin 16) (keep : Bool) :
    (s.pxDrop k keep).px k = none := by
  rw [pxDrop_px, Function.update_self]

/-- Neither RAM nor the card changes. -/
theorem pxDrop_world (s : PxState α) (k : Fin 16) (keep : Bool) :
    (s.pxDrop k keep).world = s.world ∧ (s.pxDrop k keep).off.card = s.off.card ∧
      (s.pxDrop k keep).hwOff = s.hwOff := by
  cases hk : s.px k with
  | none => rw [pxDrop_none hk]; exact ⟨rfl, rfl, rfl⟩
  | some p =>
    rw [pxDrop_some hk]
    cases keep <;> exact ⟨rfl, rfl, rfl⟩

end PxState

/-- A proxy less. -/
theorem PxLess.drop (h : PxHolds s) (k : Fin 16) (keep : Bool) : PxLess s (s.pxDrop k keep) := by
  cases hk : s.px k with
  | none =>
    rw [PxState.pxDrop_none hk]
    exact .refl s
  | some p =>
    have hsome {j q} (hj : (s.pxDrop k keep).px j = some q) : j ≠ k ∧ s.px j = some q := by
      have hne : j ≠ k := by
        rintro rfl
        rw [PxState.pxDrop_self] at hj
        exact absurd hj (by simp)
      exact ⟨hne, (PxState.pxDrop_of_ne hne keep).symm.trans hj⟩
    have hslot {j q} (hj : (s.pxDrop k keep).px j = some q) : q.e ≠ p.e :=
      fun heq => (hsome hj).1 (h.own (hsome hj).2 hk heq)
    refine ⟨fun hj => (hsome hj).2, fun hj => ?_, fun hj => ?_⟩
    · have hne := hslot hj
      rw [PxState.pxDrop_some hk]
      cases keep
      · exact Function.update_of_ne hne _ _
      · rfl
    · have hne := hslot hj
      rw [PxState.pxDrop_some hk]
      cases keep
      · exact Function.update_of_ne hne _ _
      · rfl

/-- A proxy with nothing to keep goes. -/
theorem PxGoes.drop (h : PxHolds s) {k : Fin 16} (hnone : ∀ p, s.px k = some p →
    p.unfilled = true ∨ s.hwOff = true ∨ s.pxValid p = false) : PxGoes s (s.pxDrop k false) where
  toPxLess := .drop h k false
  heap := by rw [(PxState.pxDrop_world s k false).1]
  writable := by rw [(PxState.pxDrop_world s k false).1]
  card := (PxState.pxDrop_world s k false).2.1
  hwOff := (PxState.pxDrop_world s k false).2.2
  kept := by
    intro j p hj hfilled hvalid hon
    by_cases hne : j = k
    · subst hne
      obtain hun | hoff | hinvalid := hnone p hj
      · exact absurd (hun.symm.trans hfilled) (by simp)
      · exact absurd (hoff.symm.trans hon) (by simp)
      · exact absurd (hinvalid.symm.trans hvalid) (by simp)
    · exact .inl ((PxState.pxDrop_of_ne hne false).trans hj)
  ram _ := by rw [(PxState.pxDrop_world s k false).1]

/-- How a write-back ends : the proxy goes, and before, if it is to be kept, its pixels. -/
theorem PxState.pxWriteback_some (s : PxState α) {k : Fin 16} {p : PxEntry α}
    (hk : s.px k = some p) (room : Bool) :
    (p.unfilled = true ∨ s.hwOff = true ∨ s.pxValid p = false) ∧
        s.pxWriteback k room = s.pxDrop k false ∨
      (p.unfilled = false ∧ s.hwOff = false ∧ s.pxValid p = true) ∧ ∃ gone,
        s.pxWriteback k room = { { s with world := s.pxCopied p }.pxDrop k false with
          memo := (s.bcForget (some p.bmp)).memo, gone := gone } := by
  by_cases hnone : p.unfilled = true ∨ s.hwOff = true ∨ s.pxValid p = false
  · refine .inl ⟨hnone, ?_⟩
    unfold PxState.pxWriteback
    rw [hk]
    exact if_pos hnone
  · refine .inr ⟨?_, if room then s.gone else some p.bmp, ?_⟩
    · simpa [not_or] using hnone
    · unfold PxState.pxWriteback
      rw [hk]
      dsimp only
      rw [if_neg hnone]
      have hkw : { s with world := s.pxCopied p }.px k = some p := hk
      have hkf : { s.bcForget (some p.bmp) with world := s.pxCopied p }.px k = some p := hk
      rw [PxState.pxDrop_some hkw, PxState.pxDrop_some hkf]
      rfl

theorem PxState.pxWriteback_none (s : PxState α) {k : Fin 16} (hk : s.px k = none) (room : Bool) :
    s.pxWriteback k room = s := by
  unfold PxState.pxWriteback
  rw [hk]

/-- What is written back is in RAM, and the proxy goes. -/
theorem PxGoes.writeback (h : PxHolds s) (k : Fin 16) (room : Bool) :
    PxGoes s (s.pxWriteback k room) := by
  cases hk : s.px k with
  | none =>
    rw [s.pxWriteback_none hk room]
    exact .refl s
  | some p =>
    obtain ⟨hnone, hdrop⟩ | ⟨⟨hfilled, -, -⟩, gone, hback⟩ := s.pxWriteback_some hk room
    · rw [hdrop]
      refine .drop h fun q hq => ?_
      obtain rfl : p = q := Option.some.inj (hk.symm.trans hq)
      exact hnone
    · have hkw : { s with world := s.pxCopied p }.px k = some p := hk
      have hless : PxLess s ({ s with world := s.pxCopied p }.pxDrop k false) := by
        obtain ⟨hpx, hentry, hflag⟩ := PxLess.drop (s := { s with world := s.pxCopied p })
          ⟨h.size, h.used, h.flag, h.own, h.apart⟩ k false
        exact ⟨hpx, hentry, hflag⟩
      obtain ⟨hworld, hcard, hoff⟩ :=
        PxState.pxDrop_world { s with world := s.pxCopied p } k false
      rw [hback]
      refine PxGoes.aside (t := { s with world := s.pxCopied p }.pxDrop k false) ?_ _ _ _ _ _
      refine ⟨hless, by rw [hworld]; rfl, by rw [hworld]; rfl, hcard, hoff, ?_, ?_⟩
      · intro j q hj _ _ _
        by_cases hne : j = k
        · subst hne
          obtain rfl : p = q := Option.some.inj (hk.symm.trans hj)
          refine .inr fun q hq => ?_
          rw [hworld]
          show Function.update s.world.ram p.bmp _ p.bmp q = _
          rw [Function.update_self, Rect.paint_mem hq]
        · exact .inl ((PxState.pxDrop_of_ne (s := { s with world := s.pxCopied p }) hne
            false).trans hj)
      · intro b q hout
        rw [hworld]
        show Function.update s.world.ram p.bmp _ b q = _
        by_cases hb : b = p.bmp
        · subst hb
          rw [Function.update_self, Rect.paint_not_mem (hout k p hk hfilled rfl)]
        · rw [Function.update_of_ne hb]

namespace PxState

theorem pxWriteback_self (s : PxState α) (k : Fin 16) (room : Bool) :
    (s.pxWriteback k room).px k = none := by
  cases hk : s.px k with
  | none => rwa [s.pxWriteback_none hk]
  | some p =>
    obtain ⟨-, hdrop⟩ | ⟨-, gone, hback⟩ := s.pxWriteback_some hk room
    · rw [hdrop]
      exact pxDrop_self s k false
    · rw [hback]
      exact pxDrop_self _ k false

end PxState

/-! ## One after another -/

/-- Steps that let proxies go, one after another. -/
theorem PxGoes.foldl {β : Type*} {f : PxState α → β → PxState α}
    (hf : ∀ {s}, PxHolds s → ∀ b, PxGoes s (f s b)) : ∀ (l : List β) {s : PxState α}, PxHolds s →
      PxGoes s (l.foldl f s)
  | [], s, _ => .refl s
  | b :: l, _, h => (hf h b).trans h (PxGoes.foldl hf l (h.less (hf h b).toPxLess))

/-- So do steps that each leave fewer. -/
theorem PxLess.foldl {β : Type*} {f : PxState α → β → PxState α}
    (hf : ∀ {s}, PxHolds s → ∀ b, PxLess s (f s b)) : ∀ (l : List β) {s : PxState α}, PxHolds s →
      PxLess s (l.foldl f s)
  | [], s, _ => .refl s
  | b :: l, _, h => (hf h b).trans (PxLess.foldl hf l (h.less (hf h b)))

/-- Every proxy that is asked for goes, written back. -/
theorem PxGoes.back (h : PxHolds s) (f : PxEntry α → Bool) : PxGoes s (s.pxBack f) := by
  refine .foldl (fun {s} h k => ?_) _ h
  split_ifs
  · exact .writeback h k false
  · exact .refl s

theorem PxGoes.flush (h : PxHolds s) (dev : Option α) : PxGoes s (s.pxFlush dev) := .back h _

/-- `m8_px_touch_rect` writes back those that the rectangle meets. -/
theorem PxGoes.touchRect (h : PxHolds s) (dev : α) (r : Rect) : PxGoes s (s.pxTouchRect dev r) :=
  .back h _

/-- A bitmap that is deleted or made anew has no proxies left. -/
theorem PxLess.realize (h : PxHolds s) (b : α) : PxLess s (s.pxRealize b) := by
  have hdeleted : PxLess s (s.pxDeleted b) := by
    refine .foldl (fun {s} h k => ?_) _ h
    split_ifs
    · exact .drop h k false
    · exact .refl s
  exact ⟨hdeleted.px, hdeleted.entry, hdeleted.flag⟩

/-! ## The cache takes entries back -/

/-- The cache `c'` is `c` with some entries emptied. -/
def BcCache.Empties (c c' : BcCache) : Prop := ∀ e, c'.bc e = c.bc e ∨ (c'.bc e).w = 0

namespace BcCache

variable {c c' c'' : BcCache}

theorem Empties.of_eq (h : c'.bc = c.bc) : c.Empties c' := fun e => .inl (congrFun h e)

/-- One step after the other. -/
theorem Empties.trans (h : c.Empties c') (h' : c'.Empties c'') : c.Empties c'' := by
  intro e
  obtain heq | hw := h' e
  · rw [heq]
    exact h e
  · exact .inr hw

/-- A free entry stays free. -/
theorem Empties.free (h : c.Empties c') {e : Fin 160} (he : (c.bc e).w = 0) : (c'.bc e).w = 0 := by
  obtain heq | hw := h e
  · rw [heq, he]
  · exact hw

/-- Entries in the rows are emptied, and no other changes. -/
theorem empties_freeRows (c : BcCache) (a : Fin 2) (y0 y1 : ℤ) :
    c.Empties (c.bcFreeRows m a y0 y1) := by
  intro e
  unfold bcFreeRows
  dsimp only
  split_ifs
  · exact .inr rfl
  · exact .inl rfl

/-- Eviction empties the entries of its rows. -/
theorem empties_evict (c : BcCache) (a : Fin 2) (hc : ℤ) : c.Empties (c.bcEvict m a hc).2 := by
  unfold bcEvict
  split
  · exact .of_eq rfl
  · exact empties_freeRows c a _ _

theorem bcTake_bc (c : BcCache) (a : Fin 2) (k : ℕ) (w : ℤ) : (c.bcTake m a k w).2.bc = c.bc := by
  unfold bcTake
  split <;> rfl

/-- Room in an area is found by emptying entries alone. -/
theorem empties_allocIn (c : BcCache) (bottom : ℤ) (a : Fin 2) (w : ℤ) (h : ℕ) :
    c.Empties (c.bcAllocIn m bottom a w h).2 := by
  unfold bcAllocIn
  dsimp only
  split
  · exact .of_eq rfl
  split
  · exact .of_eq (bcTake_bc c ..)
  split
  · exact .of_eq (bcTake_bc (c.bcAppend a _) ..)
  generalize hs : (if c.bottom a < bottom ∧ (c.shelves a).length < M8_BC_SHELVES then
    c.bcAppend a (bottom - c.bottom a) else c) = s
  have hbc : s.bc = c.bc := by
    rw [← hs]
    split_ifs <;> rfl
  have hevict := (Empties.of_eq hbc).trans (empties_evict (m := m) s a ((h + 15) / 16 * 16))
  generalize s.bcEvict m a ((h + 15) / 16 * 16) = r at hevict
  obtain ⟨k, t⟩ := r
  cases k with
  | none => exact hevict
  | some k => exact hevict.trans (.of_eq (bcTake_bc t ..))

theorem empties_alloc (c : BcCache) (bottom w : ℤ) (h : ℕ) :
    c.Empties (c.bcAlloc m bottom w h).2 := by
  have h0 := empties_allocIn (m := m) c bottom 0 w h
  unfold bcAlloc
  generalize c.bcAllocIn m bottom 0 w h = r at h0
  obtain ⟨p, t⟩ := r
  cases p with
  | none => exact h0.trans (empties_allocIn t bottom 1 w h)
  | some p => exact h0

/-- And so is a free entry. -/
theorem empties_slot (c : BcCache) : c.Empties (c.bcSlot m).2 := by
  unfold bcSlot
  split
  · exact .of_eq rfl
  split
  · exact .of_eq rfl
  · exact (empties_freeRows c _ _ _ : c.Empties _)

theorem bcFree_some {e : Fin 160} (h : c.bcFree = some e) : (c.bc e).w = 0 := by
  simpa using List.find?_some h

/-- The entry it gives is free. -/
theorem bcSlot_free {e : Fin 160} (h : (c.bcSlot m).1 = some e) : ((c.bcSlot m).2.bc e).w = 0 := by
  unfold bcSlot at h ⊢
  split at h
  · next k hk =>
    obtain rfl : k = e := Option.some.inj h
    exact bcFree_some hk
  · split at h
    · exact absurd h (by simp)
    · exact bcFree_some h

/-- Lent rows empty the entries in them. -/
theorem empties_lendArea (c : BcCache) (top : ℤ) (a : Fin 2) : c.Empties (c.lendArea m top a) := by
  unfold lendArea
  dsimp only
  split
  · exact .of_eq rfl
  · exact (empties_freeRows c _ _ _ : c.Empties _)

theorem empties_claim (c : BcCache) (y1 : ℤ) : c.Empties (c.bcClaim m y1) := by
  have hshelves : c.Empties (c.claimShelves m y1) := by
    unfold claimShelves
    dsimp only
    split
    · split_ifs
      · exact (empties_freeRows c _ _ _ : c.Empties _)
      · exact .of_eq rfl
    · exact .of_eq rfl
  unfold bcClaim
  dsimp only
  split_ifs
  · exact hshelves.trans (.of_eq rfl)
  · exact hshelves

end BcCache

/-! ## The proxies of what is emptied -/

/-- An entry that goes takes its proxy along, written back. -/
theorem PxGoes.evicted (h : PxHolds s) (e : Fin 160) : PxGoes s (s.pxEvicted e) := by
  unfold PxState.pxEvicted
  split
  · exact .refl s
  · exact .writeback h _ true

/-- Its slot's proxy has gone. -/
theorem PxHolds.pxEvicted_none (h : PxHolds s) {k : Fin 16} {p : PxEntry α}
    (hk : s.px k = some p) : (s.pxEvicted p.e).px k = none := by
  unfold PxState.pxEvicted
  split
  · next hnone =>
    have hne := List.find?_eq_none.1 hnone k (List.mem_finRange k)
    simp [hk] at hne
  · next j hj =>
    have hfound := List.find?_some hj
    obtain ⟨q, hq, heq⟩ := Option.any_eq_true _ _ |>.1 hfound
    obtain rfl : j = k := h.own hq hk (of_decide_eq_true heq)
    exact s.pxWriteback_self j true

theorem PxGoes.evictAt (c : BcCache) (h : PxHolds s) (e : Fin 160) :
    PxGoes s (s.pxEvictAt c e) := by
  unfold PxState.pxEvictAt
  split_ifs
  · exact .evicted h e
  · exact .refl s

/-- No proxy left has a slot that is emptied. -/
theorem PxHolds.evict_used (c : BcCache) : ∀ (l : List (Fin 160)) {s : PxState α}, PxHolds s →
    ∀ {k p}, (l.foldl (PxState.pxEvictAt c) s).px k = some p → p.e ∈ l → (c.bc p.e).w ≠ 0
  | [], _, _, _, _, _, hmem => absurd hmem (by simp)
  | e :: l, s, h, k, p, hk, hmem => by
    rw [List.foldl_cons] at hk
    have hstep := PxGoes.evictAt c h e
    have hholds := h.less hstep.toPxLess
    by_cases hlater : p.e ∈ l
    · exact PxHolds.evict_used c l hholds hk hlater
    · obtain rfl : p.e = e := (List.mem_cons.1 hmem).resolve_right hlater
      have hthen := (PxGoes.foldl (PxGoes.evictAt c) l hholds).px hk
      have hs := hstep.px hthen
      intro hw
      unfold PxState.pxEvictAt at hthen
      rw [if_pos ⟨h.used hs, hw, h.flag hs⟩, h.pxEvicted_none hs] at hthen
      exact absurd hthen (by simp)

/-- The cache empties entries, and their proxies go before. -/
theorem PxGoes.withCache (h : PxHolds s) {c : BcCache} (hc : s.off.bcs.Empties c) :
    PxGoes s (s.withCache c) := by
  have hgoes := PxGoes.foldl (.evictAt c) (List.finRange 160) h
  have hused := fun k p hk => h.evict_used c (List.finRange 160) (k := k) (p := p) hk
    (List.mem_finRange p.e)
  unfold PxState.withCache PxState.pxEvict
  generalize (List.finRange 160).foldl (PxState.pxEvictAt c) s = t at hgoes hused ⊢
  exact ⟨⟨hgoes.px, fun {k p} hk => (hc p.e).resolve_right (hused _ _ hk), hgoes.flag⟩, hgoes.heap,
    hgoes.writable, hgoes.card, hgoes.hwOff, hgoes.kept, hgoes.ram⟩

theorem PxState.withCache_bcs (s : PxState α) (c : BcCache) : (s.withCache c).off.bcs = c := by
  unfold PxState.withCache
  rfl

theorem PxLess.of_bc (hpx : t.px = s.px) (hbc : t.off.bcs.bc = s.off.bcs.bc)
    (hflag : t.flag = s.flag) : PxLess s t where
  px hk := hpx ▸ hk
  entry _ := congrFun hbc _
  flag _ := by rw [hflag]

theorem PxHolds.of_bc (h : PxHolds s) (hpx : t.px = s.px) (hbc : t.off.bcs.bc = s.off.bcs.bc)
    (hflag : t.flag = s.flag) : PxHolds t := h.less (.of_bc hpx hbc hflag)

/-- An entry without a proxy is given other fields. -/
theorem PxGoes.setEntry {e : Fin 160} (hun : s.Unowned e) (v : BcEntry) :
    PxGoes s (s.setEntry e v) :=
  ⟨⟨id, fun hk => Function.update_of_ne (hun _ _ hk) _ _, fun _ => rfl⟩, rfl, rfl, rfl, rfl,
    fun hk _ _ _ => .inl hk, fun _ => rfl⟩

theorem PxGoes.touchEntry (s : PxState α) (e : Fin 160) : PxGoes s (s.touchEntry m e) :=
  ⟨.of_bc rfl rfl rfl, rfl, rfl, rfl, rfl, fun hk _ _ _ => .inl hk, fun _ => rfl⟩

/-- The slot that is found is empty. -/
theorem PxGoes.bcSlot (h : PxHolds s) :
    PxGoes s (s.bcSlot m).2 ∧ ∀ e, (s.bcSlot m).1 = some e → ((s.bcSlot m).2.entry e).w = 0 := by
  refine ⟨.withCache h (BcCache.empties_slot s.off.bcs), fun e he => ?_⟩
  unfold PxState.entry PxState.bcSlot
  rw [PxState.withCache_bcs]
  exact BcCache.bcSlot_free he

/-- And stays so while rows are found for it. -/
theorem PxGoes.bcAlloc (h : PxHolds s) {e : Fin 160} (he : (s.entry e).w = 0) (we hgt : ℕ) :
    PxGoes s (s.bcAlloc m e we hgt).2 ∧ ((s.bcAlloc m e we hgt).2.entry e).w = 0 := by
  have halloc := BcCache.empties_alloc (m := m) s.off.bcs (s.off.offEnd m) (asInt we) hgt
  unfold PxState.bcAlloc
  generalize s.off.bcs.bcAlloc m (s.off.offEnd m) (asInt we) hgt = r at halloc ⊢
  have hgoes := PxGoes.withCache h halloc
  have hw : ((s.withCache r.2).entry e).w = 0 := by
    unfold PxState.entry
    rw [PxState.withCache_bcs]
    exact halloc.free he
  have ht := h.less hgoes.toPxLess
  dsimp only
  generalize s.withCache r.2 = t at hgoes hw ht ⊢
  cases r.1 with
  | none => exact ⟨hgoes, hw⟩
  | some q =>
    refine ⟨hgoes.trans h (.setEntry (ht.unowned hw) _), ?_⟩
    unfold PxState.entry PxState.setEntry
    dsimp only
    rw [Function.update_self]
    exact hw

/-- A free entry with a place : the proxies that had to make room have gone. -/
theorem PxGoes.bcRoom (h : PxHolds s) (we hgt : ℕ) :
    PxGoes s (s.bcRoom m we hgt).2 ∧ ∀ e, (s.bcRoom m we hgt).1 = some e →
      ((s.bcRoom m we hgt).2.entry e).w = 0 := by
  obtain ⟨hslot, hfree⟩ := PxGoes.bcSlot (m := m) h
  unfold PxState.bcRoom
  generalize s.bcSlot m = r at hslot hfree ⊢
  obtain ⟨_ | e, t⟩ := r
  · exact ⟨hslot, by simp⟩
  have ht := h.less hslot.toPxLess
  obtain ⟨halloc, hw⟩ := PxGoes.bcAlloc (m := m) ht (hfree e rfl) we hgt
  dsimp only
  generalize t.bcAlloc m e we hgt = r at halloc hw ⊢
  obtain ⟨_ | _, u⟩ := r
  · exact ⟨hslot.trans h halloc, by simp⟩
  · refine ⟨hslot.trans h halloc, ?_⟩
    rintro e' ⟨⟩
    exact hw

theorem PxGoes.bcPlace (h : PxHolds s) (w hgt : ℕ) : PxGoes s (s.bcPlace m w hgt).2 := by
  unfold PxState.bcPlace
  split_ifs
  · exact .refl s
  obtain ⟨hgoes, hfree⟩ := PxGoes.bcRoom (m := m) h (evenUp w) hgt
  generalize s.bcRoom m (evenUp w) hgt = r at hgoes hfree ⊢
  obtain ⟨_ | e, t⟩ := r
  · exact hgoes
  have ht := h.less hgoes.toPxLess
  have hun := ht.unowned (hfree e rfl)
  refine hgoes.trans h ?_
  obtain ⟨⟨hpx, hentry, -⟩, hheap, hwritable, hcard, hoff, hkept, hram⟩ :=
    PxGoes.setEntry hun { t.entry e with w := w, h := hgt }
  exact ⟨⟨hpx, hentry, fun hk => Function.update_of_ne (hun _ _ hk) _ _⟩, hheap, hwritable, hcard,
    hoff, hkept, hram⟩

/-- A lookup in the bitmap cache may evict proxies, and writes them back. -/
theorem PxGoes.bcLookup (h : PxHolds s) (b : α) (r : Rect) (force : Bool) :
    PxGoes s (s.bcLookup m b r force).2 := by
  have htouch (e : Fin 160) := PxGoes.touchEntry (m := m) s e
  unfold PxState.bcLookup
  dsimp only
  split
  · exact .refl s
  split
  · exact htouch _
  split
  · exact (htouch _).aside _ _ _ _ _
  have hseen (v : UInt32) : PxGoes s (s.bcSeenBefore v).2 := by
    unfold PxState.bcSeenBefore
    split_ifs
    · exact .refl s
    · exact (PxGoes.refl s).aside _ _ _ _ _
  have hsaw := hseen ((rectKey (s.world.ram b) r).1 ^^^ (rectKey (s.world.ram b) r).2)
  generalize (s.bcSeenBefore ((rectKey (s.world.ram b) r).1 ^^^ (rectKey (s.world.ram b) r).2)) = z
    at hsaw ⊢
  obtain ⟨before, t⟩ := z
  dsimp only at hsaw ⊢
  split
  · exact hsaw
  have hplace := PxGoes.bcPlace (m := m) (h.less hsaw.toPxLess) (r.right - r.left).toNat
    (r.bottom - r.top).toNat
  generalize t.bcPlace m (r.right - r.left).toNat (r.bottom - r.top).toNat = z at hplace ⊢
  obtain ⟨_ | e, u⟩ := z
  · exact hsaw.trans h hplace
  · exact (hsaw.trans h hplace).aside _ _ _ _ _

/-- Each use of the off-screen memory by others. -/
theorem PxGoes.use (h : PxHolds s) (c : PxUse α) : PxGoes s (s.pxUse m c) := by
  cases c with
  | touchEntry e => exact .touchEntry s e
  | touchRect dev r => exact .back h _
  | bcLookup b r force => exact .bcLookup h b r force

/-! ## A new proxy -/

theorem PxLess.none (h : PxLess s t) {k : Fin 16} (hk : s.px k = none) : t.px k = none := by
  cases ht : t.px k with
  | none => rfl
  | some p => exact absurd (hk.symm.trans (h.px ht)) (by simp)

theorem PxState.pxFree_some {k : Fin 16} (h : s.pxFree = some k) : s.px k = none := by
  simpa using List.find?_some h

theorem evenUp_ne_zero {w : ℕ} (h : w ≠ 0) : evenUp w ≠ 0 := by
  unfold evenUp
  omega

/-- How `m8_px_new` ends : without a proxy, or with one in the entry it was to get, which was free,
and in a slot that was no proxy's. -/
inductive PxNewEnds (m : LendMode) (s : PxState α) (b : α) (r : Rect) (lead : ℕ) :
    Option (Fin 16) × PxState α → Prop
  | failed (t : PxState α) (hgoes : PxGoes s t) : PxNewEnds m s b r lead (none, t)
  | put (t : PxState α) (we hgt : ℕ) (e : Fin 160) (hgoes : PxGoes s t)
      (hfree : t.px s.pxNext = none) (hun : t.Unowned e) (hwe : we ≠ 0) :
      PxNewEnds m s b r lead (some s.pxNext, t.pxPut m s.pxNext b r lead we hgt e)

/-- `m8_px_new` makes a proxy in an entry that was no proxy's, or none. -/
theorem PxHolds.new_ends (h : PxHolds s) (b : α) {r : Rect} (hr : r.left < r.right) (lead : ℕ)
    {e : Option (Fin 160)} (he : ∀ e', e = some e' → s.Unowned e') :
    PxNewEnds m s b r lead (s.pxNew m b r lead e) := by
  unfold PxState.pxNew
  dsimp only
  split_ifs with hbig hfull
  · exact .failed s (.refl s)
  all_goals
    have hwe : evenUp (lead + (r.right - r.left).toNat) ≠ 0 := evenUp_ne_zero (by omega)
    generalize evenUp (lead + (r.right - r.left).toNat) = we at hwe
    generalize (r.bottom - r.top).toNat = hgt
  · have hnext : s.pxNext = 0 := by
      unfold PxState.pxNext
      rw [Option.isNone_iff_eq_none.1 hfull, Option.getD_none]
    have hback := PxGoes.writeback h 0 true
    have hfree : (s.pxWriteback 0 true).px s.pxNext = none := by
      rw [hnext]
      exact s.pxWriteback_self 0 true
    cases e with
    | some e => exact .put _ we hgt e hback hfree (hback.toPxLess.unowned (he e rfl)) hwe
    | none =>
      have ht := h.less hback.toPxLess
      obtain ⟨hroom, hw⟩ := PxGoes.bcRoom (m := m) ht we hgt
      dsimp only
      generalize (s.pxWriteback 0 true).bcRoom m we hgt = p at hroom hw ⊢
      obtain ⟨_ | e, u⟩ := p
      · exact .failed u (hback.trans h hroom)
      · exact .put u we hgt e (hback.trans h hroom) (hroom.toPxLess.none hfree)
          ((ht.less hroom.toPxLess).unowned (hw e rfl)) hwe
  · have hfree : s.px s.pxNext = none := by
      unfold PxState.pxNext
      cases hk : s.pxFree with
      | none => exact absurd (by rw [hk]; rfl) hfull
      | some k => exact PxState.pxFree_some hk
    cases e with
    | some e => exact .put s we hgt e (.refl s) hfree (he e rfl) hwe
    | none =>
      obtain ⟨hroom, hw⟩ := PxGoes.bcRoom (m := m) h we hgt
      dsimp only
      generalize s.bcRoom m we hgt = p at hroom hw ⊢
      obtain ⟨_ | e, u⟩ := p
      · exact .failed u hroom
      · exact .put u we hgt e hroom (hroom.toPxLess.none hfree)
          ((h.less hroom.toPxLess).unowned (hw e rfl)) hwe

namespace PxState

variable {k : Fin 16} {b : α} {r : Rect} {lead we hgt : ℕ} {e : Fin 160}

/-- The new proxy is in its place, unfilled. -/
theorem pxPut_self (s : PxState α) (m : LendMode) (k : Fin 16) (b : α) (r : Rect)
    (lead we hgt : ℕ) (e : Fin 160) : ∃ p, (s.pxPut m k b r lead we hgt e).px k = some p ∧
      p.bmp = b ∧ p.rect = r ∧ p.e = e ∧ p.unfilled = true :=
  ⟨_, Function.update_self .., rfl, rfl, rfl, rfl⟩

theorem pxPut_of_ne (s : PxState α) {j : Fin 16} (hne : j ≠ k) :
    (s.pxPut m k b r lead we hgt e).px j = s.px j := Function.update_of_ne hne ..

/-- No other entry changes. -/
theorem pxPut_entry_of_ne (s : PxState α) {f : Fin 160} (hne : f ≠ e) :
    (s.pxPut m k b r lead we hgt e).entry f = s.entry f := Function.update_of_ne hne ..

theorem pxPut_entry_self (s : PxState α) : ((s.pxPut m k b r lead we hgt e).entry e).w = we := by
  show (Function.update s.off.bcs.bc e { s.entry e with w := we, h := hgt } e).w = we
  rw [Function.update_self]

theorem pxPut_flag (s : PxState α) :
    (s.pxPut m k b r lead we hgt e).flag = Function.update s.flag e true := rfl

end PxState

/-- The table holds with the new proxy, which is apart from the others of its bitmap. -/
theorem PxHolds.put (h : PxHolds s) {k : Fin 16} {b : α} {r : Rect} {lead we hgt : ℕ}
    {e : Fin 160} (hun : s.Unowned e) (hwe : we ≠ 0) (hleft : r.left < r.right)
    (htop : r.top < r.bottom) (hapart : ∀ j q, s.px j = some q → q.bmp = b → r.Apart q.rect) :
    PxHolds (s.pxPut m k b r lead we hgt e) := by
  obtain ⟨p, hp, hbmp, hrect, hslot, -⟩ := s.pxPut_self m k b r lead we hgt e
  have hcases {j q} (hj : (s.pxPut m k b r lead we hgt e).px j = some q) :
      (j = k ∧ q = p) ∨ (j ≠ k ∧ s.px j = some q) := by
    by_cases hne : j = k
    · subst hne
      exact .inl ⟨rfl, Option.some.inj (hj.symm.trans hp)⟩
    · exact .inr ⟨hne, (s.pxPut_of_ne hne).symm.trans hj⟩
  constructor
  · intro j q hj
    obtain ⟨-, rfl⟩ | ⟨-, hj⟩ := hcases hj
    · rw [hrect]
      exact ⟨hleft, htop⟩
    · exact h.size hj
  · intro j q hj
    obtain ⟨-, rfl⟩ | ⟨-, hj⟩ := hcases hj
    · rw [hslot, s.pxPut_entry_self]
      exact hwe
    · rw [s.pxPut_entry_of_ne (hun j q hj)]
      exact h.used hj
  · intro j q hj
    rw [s.pxPut_flag]
    obtain ⟨-, rfl⟩ | ⟨-, hj⟩ := hcases hj
    · rw [hslot, Function.update_self]
    · rw [Function.update_of_ne (hun j q hj)]
      exact h.flag hj
  · intro i j q q' hi hj heq
    obtain ⟨rfl, rfl⟩ | ⟨-, hi'⟩ := hcases hi <;> obtain ⟨hjk, rfl⟩ | ⟨-, hj'⟩ := hcases hj
    · exact hjk.symm
    · exact absurd (heq.symm.trans hslot) (hun j q' hj')
    · exact absurd (heq.trans hslot) (hun i q hi')
    · exact h.own hi' hj' heq
  · intro i j q q' hi hj hne hsame
    obtain ⟨hik, rfl⟩ | ⟨-, hi'⟩ := hcases hi <;> obtain ⟨hjk, rfl⟩ | ⟨-, hj'⟩ := hcases hj
    · exact absurd (hik.trans hjk.symm) hne
    · rw [hrect]
      exact hapart j q' hj' (hsame.symm.trans hbmp)
    · rw [hrect]
      exact (hapart i q hi' (hsame.trans hbmp)).symm
    · exact h.apart hi' hj' hne hsame

end Inboard
