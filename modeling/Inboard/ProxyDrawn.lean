import Inboard.ProxyShows

/-!
# Drawing keeps what the proxies show

The pieces of a rectangle are drawn one by one, and together that is to draw the rectangle
(`PxShows.drawn`) ; a bitmap's RAM is drawn in where no proxy holds it (`PxShows.ramInk`), and the
screen where no slot is (`PxShows.cardInk`).
-/

set_option linter.unusedSectionVars false

namespace Inboard

open OffScreen (slot screen)

variable {α : Type*} [DecidableEq α] {m : LendMode} {s t : PxState α} {x y : GdiSpec α}
  {M : Fin 16 → Prop} {d b : α} {r : Rect}

/-! ## Several rectangles of a bitmap -/

namespace GdiSpec

theorem ext_of (hbits : ∀ b q, x.bits b q = y.bits b q) (hscreen : x.screen = y.screen)
    (hsaved : x.saved = y.saved) : x = y := by
  cases x
  cases y
  congr
  funext b q
  exact hbits b q

theorem ink_bits_self (x : GdiSpec α) (d : α) (r : Rect) (f : Pixel → UInt8 → UInt8) (q : Pixel) :
    (x.ink d r f).bits d q = if q ∈ r then f q (x.bits d q) else x.bits d q := by
  show Function.update x.bits d _ d q = _
  rw [Function.update_self]
  rfl

theorem ink_bits_of_ne (x : GdiSpec α) (r : Rect) (f : Pixel → UInt8 → UInt8) (hne : b ≠ d) :
    (x.ink d r f).bits b = x.bits b := Function.update_of_ne hne _ _

/-- The rectangles of a list are drawn. -/
def inks (x : GdiSpec α) (d : α) (f : Pixel → UInt8 → UInt8) (l : List Rect) : GdiSpec α :=
  l.foldl (fun x r => x.ink d r f) x

theorem inks_bits (d : α) (f : Pixel → UInt8 → UInt8) : ∀ {l : List Rect} (x : GdiSpec α),
    l.Pairwise Rect.Apart → ∀ q, (x.inks d f l).bits d q =
      if ∃ a ∈ l, q ∈ a then f q (x.bits d q) else x.bits d q
  | [], x, _, q => by simp [inks]
  | a :: l, x, happart, q => by
    obtain ⟨hhead, htail⟩ := List.pairwise_cons.1 happart
    rw [inks, List.foldl_cons, ← inks, inks_bits d f _ htail, ink_bits_self]
    by_cases ha : q ∈ a
    · have hnot : ¬ ∃ a' ∈ l, q ∈ a' := fun ⟨a', ha', hq⟩ => hhead a' ha' q ha hq
      rw [if_neg hnot, if_pos ha, if_pos ⟨a, List.mem_cons_self .., ha⟩]
    · rw [if_neg ha]
      refine if_congr ⟨fun ⟨a', ha', hq⟩ => ⟨a', List.mem_cons_of_mem _ ha', hq⟩, ?_⟩ rfl rfl
      rintro ⟨a', ha', hq⟩
      obtain rfl | ha' := List.mem_cons.1 ha'
      · exact absurd hq ha
      · exact ⟨a', ha', hq⟩

theorem inks_others (d : α) (f : Pixel → UInt8 → UInt8) : ∀ (l : List Rect) (x : GdiSpec α),
    (∀ b ≠ d, (x.inks d f l).bits b = x.bits b) ∧ (x.inks d f l).screen = x.screen ∧
      (x.inks d f l).saved = x.saved
  | [], x => ⟨fun _ _ => rfl, rfl, rfl⟩
  | a :: l, x => by
    obtain ⟨hbits, hscreen, hsaved⟩ := inks_others d f l (x.ink d a f)
    exact ⟨fun b hne => (hbits b hne).trans (x.ink_bits_of_ne a f hne), hscreen, hsaved⟩

/-- To draw what a rectangle is cut into is to draw the rectangle. -/
theorem inks_cuts {l : List Rect} (h : r.Cuts l) (x : GdiSpec α) (d : α)
    (f : Pixel → UInt8 → UInt8) : x.inks d f l = x.ink d r f := by
  obtain ⟨hbits, hscreen, hsaved⟩ := inks_others d f l x
  refine ext_of (fun b q => ?_) hscreen hsaved
  by_cases hb : b = d
  · subst hb
    rw [inks_bits b f x h.apart, ink_bits_self]
    exact if_congr (h.mem q).symm rfl rfl
  · rw [hbits b hb, x.ink_bits_of_ne r f hb]

end GdiSpec

/-! ## Pieces -/

theorem PxState.unheld_held (s : PxState α) (p : PxEntry α) (q : Pixel) :
    s.unheld p (s.held p q) = q := by
  unfold PxState.unheld PxState.held
  ext
  · dsimp only
    omega
  · dsimp only
    omega

theorem PxState.held_unheld (s : PxState α) (p : PxEntry α) (c : Pixel) :
    s.held p (s.unheld p c) = c := by
  unfold PxState.unheld PxState.held
  ext
  · dsimp only
    omega
  · dsimp only
    omega

namespace PxShows

/-- Outside of its slot a piece changes nothing. -/
theorem pxInk_of_not_mem (h : PxShows m M x s) {k : Fin 16} {p : PxEntry α}
    (hk : s.px k = some p) (hr : ∀ q ∈ r, q ∈ p.rect) (ink : Pixel → UInt8 → UInt8) {c : Pixel}
    (hc : c ∉ OffScreen.slot (s.entry p.e)) : s.pxInk p r ink c = s.off.card c := by
  refine if_neg fun hin => hc ?_
  have hmem := (h.held_mem hk (hr _ hin)).2
  rwa [s.held_unheld] at hmem

/-- The engine draws in a slot, and it is then filled. -/
theorem ink (h : PxShows m M x s) {k : Fin 16} {p : PxEntry α} (hk : s.px k = some p)
    (hr : ∀ q ∈ r, q ∈ p.rect) (hM : M k → ∀ q ∈ p.rect, q ∈ r) {ink f : Pixel → UInt8 → UInt8}
    (hink : ∀ q ∈ r, ink q (s.off.card (s.held p q)) = f q (x.bits p.bmp q)) :
    PxShows m (fun j => M j ∧ j ≠ k) (x.ink p.bmp r f) { s with
      off := { s.off with card := s.pxInk p r ink }
      px := Function.update s.px k (some { p with unfilled := false }) } := by
  refine h.redraw hk _ _ _ _ (fun c hc => h.pxInk_of_not_mem hk hr ink hc) (fun q hq => ?_)
    (fun q hq => Rect.paint_not_mem fun hin => hq (hr q hin)) (fun _ _ _ => rfl)
    (fun hun => absurd hun Bool.false_ne_true) fun _ _ => rfl
  unfold PxState.pxInk
  rw [s.unheld_held]
  by_cases hin : q ∈ r
  · rw [if_pos hin, Rect.paint_mem hin]
    exact hink q hin
  · rw [if_neg hin, Rect.paint_not_mem hin]
    exact h.slot hk (fun hMk => hin (hM hMk q hq)) q hq

/-- A piece is drawn. -/
theorem drawAt (h : PxShows m M x s) (via : Option (Fin 160)) {a : PxPiece} {p : PxEntry α}
    (hk : s.px a.p = some p) (hr : ∀ q ∈ a.rect, q ∈ p.rect)
    (hM : M a.p → ∀ q ∈ p.rect, q ∈ a.rect)
    (ink : (Pixel → UInt8) → Pixel → UInt8 → UInt8) {f : Pixel → UInt8 → UInt8}
    (hink : ∀ q ∈ a.rect, ink s.off.card q (s.off.card (s.held p q)) = f q (x.bits p.bmp q)) :
    PxShows m (fun j => M j ∧ j ≠ a.p) (x.ink p.bmp a.rect f) (s.pxDrawAt m via ink a) := by
  have htouched : PxShows m M x ((via.elim s (s.touchEntry m)).touchEntry m p.e) := by
    cases via with
    | none => exact h.touchEntry p.e
    | some e => exact (h.touchEntry e).touchEntry p.e
  have hsame : ((via.elim s (s.touchEntry m)).touchEntry m p.e).px = s.px ∧
      ((via.elim s (s.touchEntry m)).touchEntry m p.e).off.card = s.off.card ∧
      ((via.elim s (s.touchEntry m)).touchEntry m p.e).entry = s.entry := by
    cases via <;> exact ⟨rfl, rfl, rfl⟩
  unfold PxState.pxDrawAt
  rw [hk]
  dsimp only
  generalize (via.elim s (s.touchEntry m)).touchEntry m p.e = t at htouched hsame ⊢
  obtain ⟨hpx, hcard, hentry⟩ := hsame
  refine htouched.ink (by rw [hpx, hk]) hr hM fun q hq => ?_
  have hheld : t.held p q = s.held p q := by
    unfold PxState.held
    rw [hentry]
  rw [hcard, hheld]
  exact hink q hq

/-- Nothing else is changed. -/
theorem drawAt_same (h : PxShows m M x s) (via : Option (Fin 160)) {a : PxPiece} {p : PxEntry α}
    (hk : s.px a.p = some p) (hr : ∀ q ∈ a.rect, q ∈ p.rect)
    (ink : (Pixel → UInt8) → Pixel → UInt8 → UInt8) :
    (∀ j ≠ a.p, (s.pxDrawAt m via ink a).px j = s.px j) ∧
      (s.pxDrawAt m via ink a).entry = s.entry ∧
      ∀ c ∉ OffScreen.slot (s.entry p.e), (s.pxDrawAt m via ink a).off.card c = s.off.card c := by
  unfold PxState.pxDrawAt
  rw [hk]
  have hout (c : Pixel) (hc : c ∉ OffScreen.slot (s.entry p.e)) :=
    h.pxInk_of_not_mem hk hr (ink s.off.card) hc
  cases via <;> exact ⟨fun j hne => Function.update_of_ne hne _ _, rfl, hout⟩

/-- The pieces of a list are drawn. What they are drawn from is on the card outside of `Z`, where
their slots are. -/
theorem drawnFrom {Z : Pixel → Prop} {card : Pixel → UInt8} (via : Option (Fin 160))
    {ink : (Pixel → UInt8) → Pixel → UInt8 → UInt8} {f : Pixel → UInt8 → UInt8}
    (hink : ∀ card', (∀ c, ¬ Z c → card' c = card c) → ∀ q ∈ r, ∀ v, ink card' q v = f q v) :
    ∀ {l : List PxPiece} {s : PxState α} {x : GdiSpec α} {M : Fin 16 → Prop}, PxShows m M x s →
      (l.map PxPiece.p).Nodup → (∀ c, ¬ Z c → s.off.card c = card c) →
      (∀ a ∈ l, ∀ q ∈ a.rect, q ∈ r) →
      (∀ a ∈ l, M a.p → ∀ q ∈ a.rect, ∀ v w, f q v = f q w) →
      (∀ a ∈ l, ∃ p, s.px a.p = some p ∧ p.bmp = d ∧ (∀ q ∈ a.rect, q ∈ p.rect) ∧
        (M a.p → ∀ q ∈ p.rect, q ∈ a.rect) ∧ ∀ c ∈ OffScreen.slot (s.entry p.e), Z c) →
      PxShows m (fun j => M j ∧ ∀ a ∈ l, a.p ≠ j) (x.inks d f (l.map PxPiece.rect))
        (l.foldl (PxState.pxDrawAt m via ink) s)
  | [], s, x, M, h, _, _, _, _, _ =>
    h.weaken (fun k hk => .inl ⟨hk, by simp⟩) fun k p hk hM => h.new hk hM.1
  | a :: l, s, x, M, h, hnodup, hcard, hr, hfresh, hpieces => by
    obtain ⟨p, hp, hbmp, hin, hcover, hZ⟩ := hpieces a (List.mem_cons_self ..)
    rw [List.map_cons] at hnodup
    obtain ⟨hnot, hnodup⟩ := List.nodup_cons.1 hnodup
    have hne (a' : PxPiece) (ha' : a' ∈ l) : a'.p ≠ a.p := fun heq =>
      hnot (heq ▸ List.mem_map_of_mem ha')
    have hdrawn : PxShows m (fun j => M j ∧ j ≠ a.p) (x.ink d a.rect f)
        (s.pxDrawAt m via ink a) := by
      rw [← hbmp]
      refine h.drawAt via hp hin hcover ink fun q hq => ?_
      rw [hink s.off.card hcard q (hr a (List.mem_cons_self ..) q hq)]
      by_cases hM : M a.p
      · exact hfresh a (List.mem_cons_self ..) hM q hq _ _
      · rw [h.slot hp hM q (hin q hq)]
    obtain ⟨hpx, hentry, hsame⟩ := h.drawAt_same via hp hin ink
    have hrest := drawnFrom via hink hdrawn hnodup
      (fun c hc => (hsame c fun hin => hc (hZ c hin)).trans (hcard c hc))
      (fun a' ha' => hr a' (List.mem_cons_of_mem _ ha'))
      (fun a' ha' hM => hfresh a' (List.mem_cons_of_mem _ ha') hM.1) fun a' ha' => by
        obtain ⟨p', hp', hbmp, hin', hcover', hZ'⟩ := hpieces a' (List.mem_cons_of_mem _ ha')
        exact ⟨p', (hpx a'.p (hne a' ha')).trans hp', hbmp, hin', fun hM => hcover' hM.1,
          by rwa [hentry]⟩
    refine hrest.weaken (fun j hj => .inl ⟨hj.1.1, fun a' ha' => ?_⟩) fun j p' hj hM =>
      hrest.new hj ⟨⟨hM.1, fun heq => hM.2 a (List.mem_cons_self ..) heq.symm⟩,
        fun a' ha' => hM.2 a' (List.mem_cons_of_mem _ ha')⟩
    obtain rfl | ha' := List.mem_cons.1 ha'
    · exact fun heq => hj.1.2 heq.symm
    · exact hj.2 a' ha'

end PxShows

/-! ## RAM, and the screen -/

/-- Steps that let go the proxies that `f` holds of, one after another. -/
theorem PxHolds.fold_clear {f : PxEntry α → Bool} {g : PxState α → Fin 16 → PxState α}
    (hg : ∀ {s}, PxHolds s → ∀ k, PxLess s (g s k))
    (hgone : ∀ {s : PxState α} {k p}, s.px k = some p → f p = true → (g s k).px k = none)
    {k : Fin 16} {p : PxEntry α} : ∀ (l : List (Fin 16)) {s : PxState α}, PxHolds s → k ∈ l →
      (l.foldl g s).px k = some p → f p = false
  | [], _, _, hmem, _ => absurd hmem (by simp)
  | j :: l, s, h, hmem, hk => by
    have hholds := h.less (hg h j)
    rw [List.foldl_cons] at hk
    by_cases hlater : k ∈ l
    · exact PxHolds.fold_clear hg hgone l hholds hlater hk
    obtain rfl := (List.mem_cons.1 hmem).resolve_right hlater
    have hthen := (PxLess.foldl hg l hholds).px hk
    cases hf : f p with
    | false => rfl
    | true => exact absurd ((hgone ((hg h k).px hthen) hf).symm.trans hthen) (by simp)

/-- The proxies that are written back have gone. -/
theorem PxHolds.back_clear (h : PxHolds s) {f : PxEntry α → Bool} {k : Fin 16} {p : PxEntry α}
    (hk : (s.pxBack f).px k = some p) : f p = false := by
  refine PxHolds.fold_clear (fun {s} h k => ?_) (fun {s k p} hp hf => ?_) _ h (List.mem_finRange k)
    hk
  · split_ifs
    · exact (PxGoes.writeback h k false).toPxLess
    · exact .refl s
  · rw [if_pos (by rw [hp]; exact hf), s.pxWriteback_self k false]

theorem PxHolds.touchRect_clear (h : PxHolds s) (d : α) (r : Rect) {k : Fin 16} {p : PxEntry α}
    (hk : (s.pxTouchRect d r).px k = some p) (hbmp : p.bmp = d) : r.wrapped.Apart p.rect := by
  have hclear := of_decide_eq_false (h.back_clear hk)
  exact (Rect.apart_of_not_overlaps fun hover => hclear ⟨hbmp, hover⟩).symm

namespace PxShows

/-- What no proxy has is in RAM. -/
theorem ram_of_clear (h : PxShows m M x s)
    (hclear : ∀ k p, s.px k = some p → p.bmp = d → r.Apart p.rect) {q : Pixel} (hq : q ∈ r) :
    s.world.ram d q = x.bits d q :=
  h.ram d q fun k p hk hbmp hin => absurd hin (hclear k p hk hbmp q hq)

/-- The screen is drawn on. -/
theorem cardInk (h : PxShows m M x s) (hr : r.Inside (OffScreen.screen m))
    {ink f : Pixel → UInt8 → UInt8}
    (hink : ∀ c ∈ r, ∀ v, ink c v = f c v) : PxShows m M (x.onScreen r f) (s.cardInk r ink) where
  holds := h.holds.of_bc rfl rfl rfl
  off := by
    refine h.off.paint fun c hc => Rect.paint_not_mem fun hin => ?_
    exact h.off.saved_screen hc (hr.mem hin)
  on := h.on
  sound := h.sound
  valid := h.valid
  fits := h.fits
  new := h.new
  slot := fun {k p} hk hM q hq => by
    have hout : s.held p q ∉ r := fun hin =>
      h.off.slot_screen (h.held_mem hk hq) (hr.mem hin)
    have hsame : r.paint (fun c => ink c (s.off.card c)) s.off.card (s.held p q) =
        s.off.card (s.held p q) := Rect.paint_not_mem hout
    exact hsame.trans (h.slot hk hM q hq)
  ram := h.ram
  screen := fun c hc => by
    unfold PxState.cardInk GdiSpec.onScreen
    dsimp only
    by_cases hin : c ∈ r
    · rw [Rect.paint_mem hin, Rect.paint_mem hin, h.screen c hc, hink c hin]
    · rw [Rect.paint_not_mem hin, Rect.paint_not_mem hin, h.screen c hc]
  cached := by
    refine h.cached.keeps ⟨fun _ _ hf => ⟨rfl, hf, rfl⟩, fun e hw _ c hc => ?_,
      fun μ hμ => ⟨hμ, rfl⟩⟩
    show r.paint (fun c => ink c (s.off.card c)) s.off.card c = s.off.card c
    exact Rect.paint_not_mem fun hin => h.off.slot_screen (e := e) ⟨hw, hc⟩ (hr.mem hin)

end PxShows

/-! ## The pieces that are made -/

/-- The table entries of the pieces that are new. -/
def Made (pc : List PxPiece) (k : Fin 16) : Prop := ∃ a ∈ pc, a.made = true ∧ a.p = k

theorem not_made_nil (k : Fin 16) : ¬ Made [] k := by
  rintro ⟨_, ha, _⟩
  exact absurd ha List.not_mem_nil

theorem PxState.pxPiecesDrop_px (d : α) {k : Fin 16} {p : PxEntry α} : ∀ (l : List PxPiece)
    (t : PxState α), (t.pxPiecesDrop d l).px k = some p → t.px k = some p
  | [], _, h => h
  | a :: l, t, h => by
    have hstep := pxPiecesDrop_px d l _ h
    dsimp only at hstep
    split_ifs at hstep
    · by_cases hne : k = a.p
      · subst hne
        rw [t.pxDrop_self] at hstep
        exact absurd hstep (by simp)
      · exact (t.pxDrop_of_ne hne false).symm.trans hstep
    · exact hstep

/-- New proxies of the bitmap have gone when they are dropped. -/
theorem PxState.piecesDrop_none (d : α) : ∀ {l : List PxPiece} (t : PxState α),
    (∀ a ∈ l, a.made = true → ∀ p, t.px a.p = some p → p.bmp = d) →
      ∀ a ∈ l, a.made = true → (t.pxPiecesDrop d l).px a.p = none
  | [], _, _, _, ha, _ => absurd ha (by simp)
  | b :: l, t, hof, a, ha, hmade => by
    have hrest {u : PxState α} (hu : ∀ k p, u.px k = some p → t.px k = some p) :
        ∀ a ∈ l, a.made = true → (u.pxPiecesDrop d l).px a.p = none :=
      piecesDrop_none d u fun a ha hmade p hp =>
        hof a (List.mem_cons_of_mem _ ha) hmade p (hu _ _ hp)
    have hless : ∀ k p, (if b.made = true ∧ (t.px b.p).any (fun p => decide (p.bmp = d)) = true then
        t.pxDrop b.p false else t).px k = some p → t.px k = some p :=
      fun k p hk => PxState.pxPiecesDrop_px d [b] t hk
    obtain rfl | ha := List.mem_cons.1 ha
    · cases hp : (t.pxPiecesDrop d (a :: l)).px a.p with
      | none => rfl
      | some p =>
        have hstep := PxState.pxPiecesDrop_px d l _ hp
        have hbmp := hof a (List.mem_cons_self ..) hmade p (hless _ _ hstep)
        dsimp only at hstep
        rw [if_pos ⟨hmade, by rw [hless _ _ hstep]; simpa using hbmp⟩, t.pxDrop_self] at hstep
        exact absurd hstep (by simp)
    · exact hrest hless a ha hmade

/-- Where they have gone already there is nothing to drop. -/
theorem PxState.piecesDrop_same (d : α) : ∀ {l : List PxPiece} (t : PxState α),
    (∀ a ∈ l, a.made = true → t.px a.p = none) → t.pxPiecesDrop d l = t
  | [], _, _ => rfl
  | b :: l, t, hnone => by
    have hb : ¬ (b.made = true ∧ (t.px b.p).any (fun p => decide (p.bmp = d)) = true) := by
      rintro ⟨hmade, hany⟩
      rw [hnone b (List.mem_cons_self ..) hmade] at hany
      exact absurd hany (by simp)
    have hrest := piecesDrop_same d t fun a ha => hnone a (List.mem_cons_of_mem _ ha)
    unfold PxState.pxPiecesDrop at hrest ⊢
    rw [List.foldl_cons, if_neg hb]
    exact hrest

/-- The proxies of new pieces are the bitmap's. -/
theorem PxMaking.of_made {pc : List PxPiece} (h : PxMaking d s pc t) :
    ∀ a ∈ pc, a.made = true → ∀ p, t.px a.p = some p → p.bmp = d := by
  intro a ha hmade p hp
  obtain ⟨hnone, -⟩ | ⟨-, hbmp, -⟩ := h.px hp
  · exact absurd rfl (hnone a ha hmade)
  · exact hbmp

theorem PxPieced.nodup {pc : List PxPiece} {fresh : Bool} (h : PxPieced m d r fresh s pc t)
    (hnot : ¬ s.PiecesAgain m d r fresh) : (pc.map PxPiece.p).Nodup :=
  h.distinct fun bs pc t hplan => by
    unfold PxState.PiecesAgain at hnot
    rwa [hplan] at hnot

/-- Pieces are as they were while no proxy is made. -/
theorem PxPieced.cutting_less {pc : List PxPiece} {fresh : Bool} {u : PxState α}
    (h : PxPieced m d r fresh s pc t) (hdistinct : (pc.map PxPiece.p).Nodup) (hless : PxLess t u)
    (hlive : ∀ a ∈ pc, ∃ p, u.px a.p = some p ∧ p.bmp = d) :
    u.Cutting d r pc ∧ ∀ a ∈ pc, a.made = true → ∀ p, u.px a.p = some p → ∀ q ∈ p.rect,
      q ∈ a.rect := by
  have hcutting := h.cutting hdistinct fun a ha =>
    (hlive a ha).imp fun p hp => ⟨hless.px hp.1, hp.2⟩
  refine ⟨⟨hcutting.cuts, hcutting.distinct, fun a ha => ?_⟩, fun a ha hmade p hp q hq => ?_⟩
  · obtain ⟨p, hp, hbmp⟩ := hlive a ha
    obtain ⟨p', hp', -, hused, hin⟩ := hcutting.live a ha
    obtain rfl : p = p' := Option.some.inj ((hless.px hp).symm.trans hp')
    refine ⟨p, hp, hbmp, ?_, hin⟩
    rw [hless.entry hp]
    exact hused
  · obtain ⟨hnone, -⟩ | ⟨-, -, a', ha', -, heq, hrect⟩ := h.making.px (hless.px hp)
    · exact absurd rfl (hnone a ha hmade)
    · obtain rfl : a' = a := List.inj_on_of_nodup_map hdistinct ha' ha heq
      rwa [← hrect]

namespace PxShows

/-- The new ones are dropped. -/
theorem piecesDrop {pc l : List PxPiece} (h : PxShows m (Made pc) x s) (hl : ∀ a ∈ l, a ∈ pc) :
    PxShows m (Made pc) x (s.pxPiecesDrop d l) := by
  induction l generalizing s with
  | nil => exact h
  | cons a l ih =>
    refine ih ?_ fun b hb => hl b (List.mem_cons_of_mem _ hb)
    dsimp only
    split_ifs with hmade
    · exact h.drop fun p hp => h.new hp ⟨a, hl a (List.mem_cons_self ..), hmade.1, rfl⟩
    · exact h

/-- And have gone. -/
theorem dropped {pc : List PxPiece} (h : PxShows m (Made pc) x t)
    (hof : ∀ a ∈ pc, a.made = true → ∀ p, t.px a.p = some p → p.bmp = d) :
    PxShows m (fun _ => False) x (t.pxPiecesDrop d pc) := by
  refine (h.piecesDrop fun a ha => ha).none_new ?_
  rintro k ⟨a, ha, hmade, rfl⟩
  exact t.piecesDrop_none d hof a ha hmade

theorem bands (hs : PxHolds s) (hon : s.hwOff = false) (hdib : (s.world.heap d).dib = true) :
    ∀ {bs : List Rect} {pc : List PxPiece} {t : PxState α}, PxMaking d s pc t →
      PxShows m (Made pc) x t → (∀ b ∈ bs, b.left < b.right ∧ b.top < b.bottom) →
      (∀ b ∈ bs, evenUp (b.right - b.left).toNat < 32768) → bs.Pairwise Rect.Apart →
      (∀ b ∈ bs, ∀ j q, t.px j = some q → q.bmp = d → b.Apart q.rect) →
        PxShows m (Made (t.pxBands m d bs pc).1) x (t.pxBands m d bs pc).2
  | [], pc, t, _, h, _, _, _, _ => h
  | b :: bs, pc, t, hmaking, h, hsize, hwide, hapart, hclear => by
    obtain ⟨hleft, htop⟩ := hsize b (List.mem_cons_self ..)
    have hends := hmaking.holds.new_ends (m := m) d hleft 0 (e := none) (by simp)
    have hnew := h.pxNew d 0 none hleft htop
      (by rw [Nat.zero_add]; exact hwide b (List.mem_cons_self ..)) (by rwa [hmaking.heap])
      (by simp) (hclear b (List.mem_cons_self ..))
    rw [PxState.pxBands]
    generalize t.pxNew m d b 0 none = r at hends hnew ⊢
    cases hends with
    | failed u hgoes =>
      obtain ⟨-, hnew⟩ | ⟨hsome, -⟩ := hnew
      · have hgone := hnew.dropped (hmaking.goes hs hon hgoes).of_made
        exact hgone.weaken (fun _ => False.elim) fun k _ _ hk => absurd hk (not_made_nil k)
      · exact absurd hsome (by simp)
    | put u we hgt e hgoes hfree hun hwe =>
      obtain ⟨hnone, -⟩ | ⟨-, hnew, -⟩ := hnew
      · exact absurd hnone (by simp)
      have hclear' : ∀ b' ∈ b :: bs, ∀ j q, u.px j = some q → q.bmp = d → b'.Apart q.rect :=
        fun b' hb' j q hj => hclear b' hb' j q (hgoes.px hj)
      have hput : PxMaking d s (pc ++ [⟨t.pxNext, b, true⟩]) (u.pxPut m t.pxNext d b 0 we hgt e) :=
        (hmaking.goes hs hon hgoes).put hfree hun hwe hleft htop
          (hclear' b (List.mem_cons_self ..))
      have hshows : PxShows m (Made (pc ++ [⟨t.pxNext, b, true⟩])) x
          (u.pxPut m t.pxNext d b 0 we hgt e) := by
        refine hnew.weaken (fun k hk => .inl ?_) fun k p hk hM => hnew.new hk ?_
        · obtain rfl | ⟨a, ha, hmade⟩ := hk
          · exact ⟨_, List.mem_append_right _ (List.mem_singleton_self _), rfl, rfl⟩
          · exact ⟨a, List.mem_append_left _ ha, hmade⟩
        · obtain ⟨a, ha, hmade, rfl⟩ := hM
          obtain ha | ha := List.mem_append.1 ha
          · exact .inr ⟨a, ha, hmade, rfl⟩
          · obtain rfl := List.mem_singleton.1 ha
            exact .inl rfl
      obtain ⟨hhead, htail⟩ := List.pairwise_cons.1 hapart
      refine bands hs hon hdib hput hshows (fun b' hb' => hsize b' (List.mem_cons_of_mem _ hb'))
        (fun b' hb' => hwide b' (List.mem_cons_of_mem _ hb')) htail fun b' hb' j q hj hbmp => ?_
      obtain ⟨p, hp, -, hrect, -⟩ := u.pxPut_self m t.pxNext d b 0 we hgt e
      by_cases hne : j = t.pxNext
      · subst hne
        obtain rfl : p = q := Option.some.inj (hp.symm.trans hj)
        rw [hrect]
        exact (hhead b' hb').symm
      · rw [u.pxPut_of_ne hne] at hj
        exact hclear' b' (List.mem_cons_of_mem _ hb') j q hj hbmp

/-- To plan the pieces drops no proxy, for all are valid. -/
theorem pxPlan_same (h : PxShows m M x s) (d : α) (r : Rect) (fresh : Bool) :
    (s.pxPlan d r fresh).2 = s := by
  unfold PxState.pxPlan
  split
  · rfl
  generalize hover : s.pxOver d r = l
  match l, hover with
  | [], _ => rfl
  | [(k, p)], hover =>
    have hk : s.px k = some p := (mem_pxOver.1 (by simp [hover] : (k, p) ∈ s.pxOver d r)).1
    dsimp only
    rw [if_neg (by rw [h.valid hk]; simp)]
  | _ :: _ :: _, _ => rfl

end PxShows

theorem PxState.pxOk_inside {d : α} (h : s.pxOk d r = true) : (s.world.heap d).dib = true ∧
    0 ≤ r.left ∧ 0 ≤ r.top ∧ r.right ≤ asInt (s.world.heap d).width ∧
      r.bottom ≤ asInt (s.world.heap d).height := by
  obtain ⟨-, hdib, -, -, -, -, -, -, hleft, htop, hright, hbottom⟩ : s.bcOn = true ∧ _ :=
    of_decide_eq_true h
  exact ⟨hdib, hleft, htop, hright, hbottom⟩

theorem PxState.pxPlan_ok {d : α} {fresh : Bool} {plan : List Rect × List PxPiece}
    (h : (s.pxPlan d r fresh).1 = some plan) : s.pxOk d r = true := by
  unfold PxState.pxPlan at h
  split at h
  · exact absurd h (by simp)
  · next hok => exact (Bool.not_eq_false _).mp hok

/-- Without `fresh` no piece is new. -/
theorem PxState.pxPlan_fresh {d : α} {bs : List Rect} {pc : List PxPiece}
    (h : (s.pxPlan d r false).1 = some (bs, pc)) : bs = [] := by
  have hcut (o : Option (Fin 16 × PxEntry α)) (ho : PxState.pxCut r false o = some (bs, pc)) :
      bs = [] := by
    unfold PxState.pxCut at ho
    split at ho
    · exact absurd ho (by simp)
    · split_ifs at ho with hin hfresh
      · exact (Prod.mk.inj (Option.some.inj ho)).1.symm
      · exact hfresh.elim
  unfold PxState.pxPlan at h
  split at h
  · exact absurd h (by simp)
  dsimp only at h
  split at h
  · exact hcut none h
  · next k p _ =>
    split_ifs at h
    · exact hcut none h
    · exact hcut (some (k, p)) h
  · exact absurd h (by simp)

namespace PxShows

theorem pieces (h : PxShows m (fun _ => False) x s) (d : α) (r : Rect) (fresh : Bool) :
    PxShows m (Made (s.pxPieces m d r fresh).1) x (s.pxPieces m d r fresh).2 := by
  have hempty : PxShows m (Made []) x s :=
    h.weaken (fun _ => False.elim) fun k _ _ hk => absurd hk (not_made_nil k)
  have hsame := h.pxPlan_same d r fresh
  unfold PxState.pxPieces
  cases hplan : s.pxPlan d r fresh with
  | mk plan t =>
    rw [hplan] at hsame
    obtain rfl : t = s := hsame
    cases plan with
    | none => exact hempty
    | some plan =>
      obtain ⟨bs, pc⟩ := plan
      have hp := h.holds.planned hplan
      obtain ⟨hdib, hleft, -, hright, -⟩ := PxState.pxOk_inside (PxState.pxPlan_ok
        (congrArg Prod.fst hplan))
      have hmax := (h.sound d hdib).2.2
      have hstart : PxMaking d t pc t := .start h.holds fun a ha => (hp.there a ha).1
      refine bands h.holds h.on hdib hstart (h.weaken (fun _ => False.elim) ?_) hp.size
        (fun b hb => ?_) (List.pairwise_append.1 hp.cuts.apart).2.1 hp.clear
      · rintro k p - ⟨a, ha, hmade, -⟩
        exact absurd (hmade.symm.trans (hp.there a ha).1) (by simp)
      · obtain ⟨hbleft, hbtop⟩ := hp.size b hb
        have hmem (c : Pixel) (hc : c ∈ b) : c ∈ r :=
          hp.cuts.mem_of (List.mem_append_right _ hb) hc
        have hfirst := hmem (b.left, b.top) (Rect.mem_iff.2 (by dsimp only; omega))
        have hlast := hmem (b.right - 1, b.top) (Rect.mem_iff.2 (by dsimp only; omega))
        rw [Rect.mem_iff] at hfirst hlast
        dsimp only at hfirst hlast
        unfold evenUp
        omega

end PxShows

/-- The pieces that are not new if none may be. -/
theorem PxState.pxPieces_fresh (m : LendMode) (s : PxState α) (d : α) (r : Rect)
    (hs : PxHolds s) : ∀ a ∈ (s.pxPieces m d r false).1, a.made = false := by
  unfold PxState.pxPieces
  cases hplan : s.pxPlan d r false with
  | mk plan t =>
    cases plan with
    | none => simp
    | some plan =>
      obtain ⟨bs, pc⟩ := plan
      obtain rfl := PxState.pxPlan_fresh (congrArg Prod.fst hplan)
      exact fun a ha => ((hs.planned hplan).there a ha).1

namespace PxShows

variable {fresh : Bool} {pc : List PxPiece}

/-- Whether the pieces are still there : if not, the new ones have gone. -/
theorem piecesLive (h : PxShows m (Made pc) x t)
    (hof : ∀ a ∈ pc, a.made = true → ∀ p, t.px a.p = some p → p.bmp = d) :
    ((t.pxPiecesLive d pc).1 = false ∧ PxShows m (fun _ => False) x (t.pxPiecesLive d pc).2 ∧
        ∀ a ∈ pc, a.made = true → (t.pxPiecesLive d pc).2.px a.p = none) ∨
      t.pxPiecesLive d pc = (true, t) ∧ ∀ a ∈ pc, ∃ p, t.px a.p = some p ∧ p.bmp = d := by
  unfold PxState.pxPiecesLive
  split_ifs with hlive
  · refine .inr ⟨rfl, fun a ha => ?_⟩
    obtain ⟨p, hp, hbmp⟩ := Option.any_eq_true _ _ |>.1 (List.all_eq_true.1 hlive a ha)
    exact ⟨p, hp, of_decide_eq_true hbmp⟩
  · exact .inl ⟨rfl, h.dropped hof, t.piecesDrop_none d hof⟩

/-- The pieces are drawn, and with them the rectangle. -/
theorem drawn (h : PxShows m (Made pc) x t) (hcutting : t.Cutting d r pc)
    (hcover : ∀ a ∈ pc, a.made = true → ∀ p, t.px a.p = some p → ∀ q ∈ p.rect, q ∈ a.rect)
    {Z : Pixel → Prop} (via : Option (Fin 160)) {ink : (Pixel → UInt8) → Pixel → UInt8 → UInt8}
    {f : Pixel → UInt8 → UInt8}
    (hZ : ∀ k p, t.px k = some p → p.bmp = d → ∀ c ∈ OffScreen.slot (t.entry p.e), Z c)
    (hink : ∀ card, (∀ c, ¬ Z c → card c = t.off.card c) → ∀ q ∈ r, ∀ v, ink card q v = f q v)
    (hfresh : ∀ a ∈ pc, a.made = true → ∀ q ∈ r, ∀ v w, f q v = f q w) :
    PxShows m (fun _ => False) (x.ink d r f) (pc.foldl (PxState.pxDrawAt m via ink) t) := by
  have hin (a : PxPiece) (ha : a ∈ pc) (q : Pixel) (hq : q ∈ a.rect) : q ∈ r :=
    hcutting.cuts.mem_of (List.mem_map_of_mem ha) hq
  have hmade (a : PxPiece) (ha : a ∈ pc) (hM : Made pc a.p) : a.made = true := by
    obtain ⟨a', ha', hmade, heq⟩ := hM
    obtain rfl : a' = a := List.inj_on_of_nodup_map hcutting.distinct ha' ha heq
    exact hmade
  have hall := drawnFrom (d := d) via hink h hcutting.distinct (fun _ _ => rfl) hin
    (fun a ha hM q hq => hfresh a ha (hmade a ha hM) q (hin a ha q hq)) fun a ha => by
      obtain ⟨p, hp, hbmp, -, hheld⟩ := hcutting.live a ha
      exact ⟨p, hp, hbmp, hheld, fun hM => hcover a ha (hmade a ha hM) p hp, hZ _ _ hp hbmp⟩
  rw [GdiSpec.inks_cuts hcutting.cuts] at hall
  refine hall.none_new ?_
  rintro k ⟨⟨a, ha, -, rfl⟩, hnone⟩
  exact absurd rfl (hnone a ha)

end PxShows

/-- A call that is done shows `y`, and one that is not shows `x` still. -/
def PxEnds (m : LendMode) (x y : GdiSpec α) (z : Bool × PxState α) : Prop :=
  (z.1 = true → PxShows m (fun _ => False) y z.2) ∧
    (z.1 = false → PxShows m (fun _ => False) x z.2)

theorem PxEnds.done (h : PxShows m (fun _ => False) y t) : PxEnds m x y (true, t) :=
  ⟨fun _ => h, by simp⟩

theorem PxEnds.undone (h : PxShows m (fun _ => False) x t) : PxEnds m x y (false, t) :=
  ⟨by simp, fun _ => h⟩

namespace PxShows

/-- With no pieces there are no new ones. -/
theorem of_nil (h : PxShows m (Made []) x s) : PxShows m (fun _ => False) x s :=
  h.weaken (fun k hk => absurd hk (not_made_nil k)) fun _ _ _ => False.elim

end PxShows

end Inboard
