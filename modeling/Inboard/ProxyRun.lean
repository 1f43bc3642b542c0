import Inboard.ProxyPieces

/-!
# Runs of the proxies

Every step keeps the table's invariant (`PxHolds.step`), but for a flush of the cache while there
are proxies. So every rectangle that is drawn into by way of the proxies, in a run that keeps clear
of that and in which no new proxy takes the entry of a piece, is cut soundly (`m8_px_pieces_sound`).
-/

set_option linter.unusedSectionVars false

namespace Inboard

variable {α : Type*} [DecidableEq α] {m : LendMode} {s t : PxState α}

/-! ## The off-screen memory under the table -/

/-- The steps of the off-screen memory that only empty entries of the cache. -/
def OffOp.Empties : OffOp → Prop
  | .bcStore .. => False
  | .resync => False
  | .screenInit => False
  | _ => True

theorem empties_ddLend (off : OffScreen) (on : ℕ) : off.bcs.Empties (off.ddLend m on).bcs := by
  have hlend (o : OffScreen) (top : ℤ) (hbcs : o.bcs = off.bcs) :
      off.bcs.Empties (o.lendFrom m top).bcs := by
    rw [← hbcs]
    exact (BcCache.empties_lendArea o.bcs top 0).trans (BcCache.empties_lendArea _ top 1)
  unfold OffScreen.ddLend
  dsimp only
  split_ifs
  · exact hlend _ _ rfl
  · exact .of_eq rfl
  · exact hlend _ _ rfl

theorem OffOp.Empties.bcs {off : OffScreen} {op : OffOp} (h : op.Empties) :
    off.bcs.Empties (offStep m off op).bcs := by
  cases op with
  | bcStore w hgt bits => exact h.elim
  | resync => exact h.elim
  | screenInit => exact h.elim
  | bcDrop k =>
    intro e
    by_cases hne : e = k
    · subst hne
      exact .inr (congrArg BcEntry.w (Function.update_self e _ off.bcs.bc))
    · exact .inl (Function.update_of_ne hne ..)
  | bcSlot => exact BcCache.empties_slot off.bcs
  | bcClaim y1 => exact BcCache.empties_claim off.bcs y1
  | bcTouch x y => exact .of_eq rfl
  | scStore wb hgt maxH bits =>
    refine .of_eq ?_
    show (off.scStore m wb hgt maxH bits).bcs.bc = off.bcs.bc
    unfold OffScreen.scStore
    dsimp only
    split_ifs
    · rfl
    all_goals split <;> rfl
  | scFlush => exact .of_eq rfl
  | ssbSave r =>
    show off.bcs.Empties (off.ssbSave m r).2.bcs
    unfold OffScreen.ssbSave
    dsimp only
    split_ifs
    · exact .of_eq rfl
    · exact .of_eq rfl
    · exact BcCache.empties_claim off.bcs _
  | ssbRestore =>
    refine .of_eq ?_
    show (off.ssbRestore m).2.bcs.bc = off.bcs.bc
    unfold OffScreen.ssbRestore
    split
    · rfl
    · split_ifs <;> rfl
  | ssbDiscard => exact .of_eq rfl
  | ddLend on => exact empties_ddLend off on
  | draw u bits => exact .of_eq rfl

theorem PxHolds.off (h : PxHolds s) {op : OffOp}
    (hop : (PxOp.off op : PxOp α).FlushesEmpty s) : PxHolds (s.pxOff m op) := by
  have hnone (hempty : ∀ k, (s.px k).isNone = true) (off : OffScreen) (seen : Fin 64 → UInt32)
      (seenNext : Fin 64) :
      PxHolds { s with off := off, seen := seen, seenNext := seenNext } :=
    .of_none fun k => Option.isNone_iff_eq_none.1 (hempty k)
  by_cases hempties : op.Empties
  · have hcache := h.less (PxGoes.withCache h (hempties.bcs (m := m))).toPxLess
    have hstep : PxHolds { s.pxEvict (offStep m s.off op).bcs with off := offStep m s.off op } :=
      hcache.of_bc rfl rfl rfl
    cases op with
    | bcStore w hgt bits => exact hempties.elim
    | resync => exact hempties.elim
    | screenInit => exact hempties.elim
    | _ => exact hstep
  · cases op with
    | bcStore w hgt bits =>
      have hgoes := PxGoes.bcPlace (m := m) h w hgt
      unfold PxState.pxOff
      dsimp only
      generalize s.bcPlace m w hgt = x at hgoes ⊢
      obtain ⟨_ | e, t⟩ := x
      · exact h.less hgoes.toPxLess
      · exact (h.less hgoes.toPxLess).of_bc rfl rfl rfl
    | resync => exact hnone hop _ _ _
    | screenInit => exact hnone hop _ _ _
    | _ => exact absurd trivial hempties

/-! ## The screen into a bitmap -/

/-- The slots of a table whose proxies are filled, or not. -/
theorem PxHolds.like (h : PxHolds s) (hpx : ∀ k p', t.px k = some p' → ∃ p, s.px k = some p ∧
    p'.e = p.e ∧ p'.rect = p.rect ∧ p'.bmp = p.bmp) (hentry : ∀ e, t.entry e = s.entry e)
    (hflag : t.flag = s.flag) : PxHolds t where
  size hk := by
    obtain ⟨p, hp, -, hrect, -⟩ := hpx _ _ hk
    rw [hrect]
    exact h.size hp
  used hk := by
    obtain ⟨p, hp, he, -⟩ := hpx _ _ hk
    rw [he, hentry]
    exact h.used hp
  flag hk := by
    obtain ⟨p, hp, he, -⟩ := hpx _ _ hk
    rw [he, hflag]
    exact h.flag hp
  own hj hk heq := by
    obtain ⟨p, hp, he, -⟩ := hpx _ _ hj
    obtain ⟨q, hq, he', -⟩ := hpx _ _ hk
    exact h.own hp hq (he.symm.trans (heq.trans he'))
  apart hj hk hne hbmp := by
    obtain ⟨p, hp, -, hrect, hb⟩ := hpx _ _ hj
    obtain ⟨q, hq, -, hrect', hb'⟩ := hpx _ _ hk
    rw [hrect, hrect']
    exact h.apart hp hq hne (hb.symm.trans (hbmp.trans hb'))

/-- A proxy's slot is filled. -/
theorem PxHolds.fill (h : PxHolds s) {k : Fin 16} {t : PxState α}
    (hpx : t.px = Function.update s.px k ((s.px k).map fun p => { p with unfilled := false }))
    (hbc : t.off.bcs.bc = s.off.bcs.bc) (hflag : t.flag = s.flag) : PxHolds t := by
  refine h.like (fun j p' hj => ?_) (congrFun hbc) hflag
  rw [hpx] at hj
  by_cases hne : j = k
  · subst hne
    rw [Function.update_self] at hj
    obtain ⟨p, hp, rfl⟩ := Option.map_eq_some_iff.1 hj
    exact ⟨p, hp, rfl, rfl, rfl⟩
  · rw [Function.update_of_ne hne] at hj
    exact ⟨p', hj, rfl, rfl, rfl⟩

theorem PxHolds.filled (h : PxHolds s) (k : Fin 16) (src dst : Pixel) (w hgt : ℤ) :
    PxHolds (s.pxFilled m k src dst w hgt) := by
  unfold PxState.pxFilled
  split
  · exact h
  · next p hp => exact h.fill (k := k) (by rw [hp]; rfl) rfl rfl

theorem PxHolds.drawn : ∀ (pc : List PxPiece) {s : PxState α}, PxHolds s → PxHolds (s.pxDrawn pc)
  | [], _, h => h
  | a :: pc, _, h => PxHolds.drawn pc (h.fill (k := a.p) rfl rfl rfl)

theorem PxLess.find (h : PxHolds s) (b : α) (r : Rect) : PxLess s (s.pxFind b r).2 := by
  unfold PxState.pxFind
  split
  · exact .refl s
  · split_ifs
    · exact .refl s
    · exact .drop h _ false

/-- The loop over the overlapped proxies : the slot lent is no proxy's, and those looked at have
gone. -/
structure PxLent (b : α) (r : Rect) (s : PxState α) (l : List (Fin 16))
    (x : Option (Fin 160) × PxState α) : Prop where
  less : PxLess s x.2
  lent : ∀ e, x.1 = some e → x.2.Unowned e
  gone : ∀ k ∈ l, ∀ p, x.2.px k = some p → p.bmp = b → r.Apart p.rect

theorem PxLent.next (h : PxHolds s) {b : α} {r : Rect} (we : ℕ) {l : List (Fin 16)}
    {x : Option (Fin 160) × PxState α} (hx : PxLent b r s l x) (k : Fin 16) :
    PxLent b r s (l ++ [k]) (PxState.pxLendAt b r we x k) := by
  have hholds := h.less hx.less
  have hall {y : Option (Fin 160) × PxState α} (hless : PxLess x.2 y.2)
      (hlent : ∀ e, y.1 = some e → y.2.Unowned e)
      (hk : ∀ p, y.2.px k = some p → p.bmp = b → r.Apart p.rect) : PxLent b r s (l ++ [k]) y := by
    refine ⟨hx.less.trans hless, hlent, fun j hj p hp hbmp => ?_⟩
    obtain hj | hj := List.mem_append.1 hj
    · exact hx.gone j hj p (hless.px hp) hbmp
    · obtain rfl := List.mem_singleton.1 hj
      exact hk p hp hbmp
  unfold PxState.pxLendAt
  cases hk : x.2.px k with
  | none => exact hall (.refl _) hx.lent fun p hp => absurd (hk.symm.trans hp) (by simp)
  | some o =>
    dsimp only
    split_ifs with hmeets hlends
    · refine hall (.drop hholds k true) ?_ fun p hp => ?_
      · rintro e ⟨⟩ j q hj heq
        have hne : j ≠ k := by
          rintro rfl
          dsimp only at hj
          rw [PxState.pxDrop_self] at hj
          exact absurd hj (by simp)
        exact hne (hholds.own ((PxLess.drop hholds k true).px hj) hk heq)
      · exact absurd ((x.2.pxDrop_self k true).symm.trans hp) (by simp)
    · have hgoes := PxGoes.writeback hholds k true
      refine hall hgoes.toPxLess (fun e he => hgoes.toPxLess.unowned (hx.lent e he)) fun p hp => ?_
      exact absurd ((x.2.pxWriteback_self k true).symm.trans hp) (by simp)
    · exact hall (.refl _) hx.lent fun p hp hbmp => by
        obtain rfl : o = p := Option.some.inj (hk.symm.trans hp)
        exact (Rect.apart_of_not_overlaps fun hover => hmeets ⟨hbmp, hover⟩).symm

theorem PxLent.foldl (h : PxHolds s) {b : α} {r : Rect} (we : ℕ) : ∀ (l' : List (Fin 16))
    {l : List (Fin 16)} {x : Option (Fin 160) × PxState α}, PxLent b r s l x →
      PxLent b r s (l ++ l') (l'.foldl (PxState.pxLendAt b r we) x)
  | [], l, _, hx => by rwa [List.append_nil]
  | k :: l', l, x, hx => by
    have hrest := PxLent.foldl h we l' (hx.next h we k)
    rwa [List.append_assoc, List.singleton_append] at hrest

/-- No proxy of the bitmap meets the rectangle any more, and the slot lent is no proxy's. -/
theorem PxHolds.lend (h : PxHolds s) (b : α) (r : Rect) (we : ℕ) :
    PxLent b r s (List.finRange 16) (s.pxLend b r we) := by
  have hstart : PxLent b r s [] (none, s) := ⟨.refl s, by simp, by simp⟩
  have hall := PxLent.foldl h we (List.finRange 16) hstart
  rwa [List.nil_append] at hall

/-- A new proxy where no other of the bitmap meets the rectangle. -/
theorem PxHolds.new (h : PxHolds s) {b : α} {r : Rect} (lead : ℕ) {e : Option (Fin 160)}
    (hleft : r.left < r.right) (htop : r.top < r.bottom) (he : ∀ e', e = some e' → s.Unowned e')
    (hclear : ∀ k p, s.px k = some p → p.bmp = b → r.Apart p.rect) :
    PxHolds (s.pxNew m b r lead e).2 := by
  have hends := h.new_ends (m := m) b hleft lead he
  generalize s.pxNew m b r lead e = x at hends ⊢
  cases hends with
  | failed t hgoes => exact h.less hgoes.toPxLess
  | put t we hgt e hgoes hfree hun hwe =>
    exact (h.less hgoes.toPxLess).put hun hwe hleft htop fun j q hj => hclear j q (hgoes.px hj)

theorem PxState.pxOk_size {b : α} {r : Rect} (h : s.pxOk b r = true) :
    r.left < r.right ∧ r.top < r.bottom := by
  obtain ⟨-, -, -, -, -, -, hleft, htop, -⟩ : s.bcOn = true ∧ _ := of_decide_eq_true h
  exact ⟨hleft, htop⟩

theorem PxHolds.save (h : PxHolds s) (b : α) (r : Rect) (sx sy : ℤ) :
    PxHolds (s.pxSave m b r sx sy).2 := by
  have hfill {t : PxState α} (ht : PxHolds t) (k : Fin 16) (f : PxEntry α → PxState α)
      (hf : ∀ p, PxHolds (f p)) : PxHolds (((t.px k).map f).getD t) := by
    cases t.px k with
    | none => exact ht
    | some p => exact hf p
  unfold PxState.pxSave
  dsimp only
  split
  · exact h
  next hno =>
  obtain ⟨hleft, htop⟩ :=
    PxState.pxOk_size ((Bool.not_eq_false _).mp fun hok => hno (.inl hok))
  have hfound := h.less (PxLess.find h b r)
  generalize s.pxFind b r = x at hfound ⊢
  obtain ⟨_ | k, t⟩ := x
  · dsimp only
    split
    · exact hfound
    have hlent := hfound.lend b r (evenUp ((sx - sx / 2 * 2).toNat + (r.right - r.left).toNat))
    generalize t.pxLend b r (evenUp ((sx - sx / 2 * 2).toNat + (r.right - r.left).toNat)) = y
      at hlent ⊢
    have hnew := (hfound.less hlent.less).new (m := m) (sx - sx / 2 * 2).toNat hleft htop
      hlent.lent fun k p hk => hlent.gone k (List.mem_finRange k) p hk
    generalize y.2.pxNew m b r (sx - sx / 2 * 2).toNat y.1 = z at hnew ⊢
    obtain ⟨_ | k, u⟩ := z
    · exact hnew
    · exact hfill hnew k _ fun p => hnew.filled k _ _ _ _
  · exact hfill hfound k _ fun p => hfound.filled k _ _ _ _

theorem PxHolds.upload (h : PxHolds s) (b : α) : PxHolds (s.pxUpload m b).2 := by
  unfold PxState.pxUpload
  dsimp only
  split
  · exact h
  next hno =>
  obtain ⟨hleft, htop⟩ := PxState.pxOk_size
    ((Bool.not_eq_false _).mp fun hok => hno (.inr (.inr (.inl hok))))
  have hclear : ∀ k p, s.px k = some p → p.bmp = b → (s.pxWhole b).Apart p.rect := by
    intro k p hk hbmp
    have hhas : s.pxHas b = true := by
      unfold PxState.pxHas PxState.pxFirst
      rw [List.find?_isSome]
      exact ⟨k, List.mem_finRange k, by simp [hk, hbmp]⟩
    exact absurd hhas fun hhas => hno (.inr (.inr (.inr (.inr (.inr hhas)))))
  have hnew := h.new (m := m) 0 (e := none) hleft htop (by simp) hclear
  generalize s.pxNew m b (s.pxWhole b) 0 none = z at hnew ⊢
  obtain ⟨_ | k, u⟩ := z
  · exact hnew
  · dsimp only
    cases u.px k with
    | none => exact hnew
    | some p => exact hnew.of_bc rfl rfl rfl

/-! ## Runs -/

/-- One step keeps the table's invariant. -/
theorem PxHolds.step (h : PxHolds s) {op : PxOp α} (hop : op.FlushesEmpty s) :
    PxHolds (pxStep m s op) := by
  cases op with
  | world world card => exact h.of_bc rfl rfl rfl
  | hwOff on => exact h.of_bc rfl rfl rfl
  | bcSel on => exact h.of_bc rfl rfl rfl
  | off op =>
    have hoff := h.off (m := m) hop
    unfold pxStep
    exact hoff
  | flush dev => exact h.less (PxGoes.flush h dev).toPxLess
  | touchRect dev r => exact h.less (PxGoes.touchRect h dev r).toPxLess
  | realize b => exact h.less (PxLess.realize h b)
  | find b r => exact h.less (PxLess.find h b r)
  | save b r sx sy => exact h.save b r sx sy
  | upload b => exact h.upload b
  | call c =>
    have hholds := (h.called m c).holds
    unfold pxStep
    dsimp only
    generalize s.pxCall m c = x at hholds ⊢
    obtain ⟨pc, _ | _, t⟩ := x
    · exact hholds
    · dsimp only
      split_ifs
      · exact (hholds.drawn pc).of_bc rfl rfl rfl
      · exact hholds.of_bc rfl rfl rfl

/-- So does a run. -/
theorem PxHolds.run : ∀ (ops : List (PxOp α)) {s : PxState α}, PxHolds s → FlushEmpty m s ops →
    PxHolds (pxRun m s ops)
  | [], _, h, _ => h
  | _ :: ops, _, h, hops => PxHolds.run ops (h.step hops.1) hops.2

theorem PxHolds.loaded (world : PxWorld α) : PxHolds (.loaded world) := .of_none fun _ => rfl

/-- In every run in which no proxy outlives a flush of the cache, a call in which no new proxy gets
the entry of a piece has a sound cutting, or leaves nothing it made ; and no filled proxy's pixels
are lost. The rectangle's edges are sums that do not leave an `int`, for GDI has clipped it. -/
theorem m8_px_pieces_sound (m : LendMode) (world : PxWorld α) (ops : List (PxOp α))
    (hops : FlushEmpty m (.loaded world) ops) (c : PxCall α)
    (hc : ¬ c.TakesAgain m (pxRun m (.loaded world) ops)) :
    c.Sound m (pxRun m (.loaded world) ops) :=
  ((PxHolds.loaded world).run ops hops).sound hc

/-- Bitmaps of 64 by 64 pixels. -/
def bitmaps64 : PxWorld ℕ :=
  ⟨fun _ => ⟨true, true, 8, false, false, 0, 0, 64, 64, 64⟩, fun _ _ => true, false, fun _ _ => 0⟩

/-- The screen's corner is saved into `n` bitmaps. -/
def saves (n : ℕ) : List (PxOp ℕ) :=
  [.off .screenInit, .bcSel true] ++ (List.range n).map fun b => .save b ⟨0, 0, 16, 16⟩ 0 0

/-- A fill of the first one that reaches below what is saved in it. -/
def fillBelow : PxCall ℕ := ⟨0, ⟨0, 0, 16, 32⟩, true, [], true, true, fun _ => 0⟩

/-- With room in the table. -/
theorem m8_px_pieces_sound_room :
    fillBelow.Sound mode640 (pxRun mode640 (.loaded bitmaps64) (saves 2)) :=
  m8_px_pieces_sound mode640 bitmaps64 (saves 2) (by decide +kernel) fillBelow (by decide +kernel)

/-- In a full table the band's proxy gets the entry of the proxy above it, and is drawn into as if
it held both. -/
theorem m8_px_pieces_shared : FlushEmpty mode640 (.loaded bitmaps64) (saves 16) ∧
    ¬ fillBelow.Sound mode640 (pxRun mode640 (.loaded bitmaps64) (saves 16)) := by
  refine ⟨by decide +kernel, fun h => ?_⟩
  have hlive : ((pxRun mode640 (.loaded bitmaps64) (saves 16)).pxCall mode640 fillBelow).2.1 =
    true := by decide +kernel
  have hshared : ¬ (((pxRun mode640 (.loaded bitmaps64) (saves 16)).pxCall mode640
    fillBelow).1.map PxPiece.p).Nodup := by decide +kernel
  exact hshared (h.drawn hlive).distinct

end Inboard
