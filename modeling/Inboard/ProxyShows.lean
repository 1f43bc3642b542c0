import Inboard.BitmapCache
import Inboard.ProxyRun

/-!
# What the proxies show

`PxShows` : every proxy's slot has the bitmap's pixels, but for those that are about to be drawn,
and the RAM has the pixels that no filled proxy holds. What lets proxies go keeps it
(`PxShows.goes`), and so does a slot drawn with what the bitmap is to have (`PxShows.redraw`).
-/

set_option linter.unusedSectionVars false

namespace Inboard

open OffScreen (slot screen)

variable {α : Type*} [DecidableEq α] {m : LendMode} {s t : PxState α} {x : GdiSpec α}
  {M N : Fin 16 → Prop}

/-! ## The invariant -/

/-- A bitmap's bits can be read and written, and it is not as wide as an `int` can be. -/
def PxWorld.Sound (world : PxWorld α) : Prop :=
  ∀ b, (world.heap b).dib = true → (world.heap b).readable = true ∧
    world.writable (world.heap b).sel (world.heap b).off = true ∧
    asInt (world.heap b).width < 32767

namespace OffOk

variable {off : OffScreen} {saved : Pixel → UInt8}

/-- A slot has nothing of the screen. -/
theorem slot_screen (h : OffOk m off saved) {e : Fin 160} {c : Pixel}
    (hc : off.Has m (.slot e) c) : c ∉ screen m := by
  have hne : OffPart.user .screen ≠ .user (.slot e) := fun heq => by cases heq
  exact h.slot_apart hne hc

/-- Nor of a menu's rows. -/
theorem slot_saved (h : OffOk m off saved) {e : Fin 160} {c : Pixel}
    (hc : off.Has m (.slot e) c) : ¬ off.Part m .saved c := by
  have hne : OffPart.saved ≠ .user (.slot e) := fun heq => by cases heq
  exact h.slot_apart hne hc

/-- And these have nothing of the screen. -/
theorem saved_screen (h : OffOk m off saved) {c : Pixel} (hc : off.Part m .saved c) :
    c ∉ screen m := by
  have hne : OffPart.user .screen ≠ .saved := fun heq => by cases heq
  exact h.saved_apart hne hc

end OffOk

/-- The driver shows the bitmaps and the screen of `x`. The proxies of `M` are new, their slots not
drawn yet. -/
structure PxShows (m : LendMode) (M : Fin 16 → Prop) (x : GdiSpec α) (s : PxState α) : Prop where
  holds : PxHolds s
  off : OffOk m s.off x.saved
  on : s.hwOff = false
  sound : s.world.Sound
  valid : ∀ {k p}, s.px k = some p → s.pxValid p = true
  fits : ∀ {k p}, s.px k = some p →
    p.lead + (p.rect.right - p.rect.left) ≤ (s.entry p.e).w ∧
      (s.entry p.e).h = p.rect.bottom - p.rect.top
  new : ∀ {k p}, s.px k = some p → M k → p.unfilled = true
  slot : ∀ {k p}, s.px k = some p → ¬ M k → ∀ q ∈ p.rect,
    s.off.card (s.held p q) = x.bits p.bmp q
  ram : ∀ b q, (∀ k p, s.px k = some p → p.bmp = b → q ∈ p.rect → p.unfilled = true) →
    s.world.ram b q = x.bits b q
  screen : ∀ c ∈ screen m, s.off.card c = x.screen c
  cached : s.Cached

namespace PxShows

theorem held_mem (h : PxShows m M x s) {k : Fin 16} {p : PxEntry α} (hk : s.px k = some p)
    {q : Pixel} (hq : q ∈ p.rect) : s.off.Has m (.slot p.e) (s.held p q) := by
  obtain ⟨hw, hh⟩ := h.fits hk
  have heven := le_evenUp (s.entry p.e).w
  refine ⟨h.holds.used hk, ?_⟩
  show s.held p q ∈ OffScreen.slot (s.entry p.e)
  rw [Rect.mem_iff] at hq ⊢
  unfold PxState.held OffScreen.slot
  dsimp only
  omega

/-- The new proxies may be other ones. -/
theorem weaken (h : PxShows m M x s) (hMN : ∀ k, M k → N k ∨ s.px k = none)
    (hnew : ∀ k p, s.px k = some p → N k → p.unfilled = true) : PxShows m N x s where
  holds := h.holds
  off := h.off
  on := h.on
  sound := h.sound
  valid := h.valid
  fits := h.fits
  new := fun hk hN => hnew _ _ hk hN
  slot := fun hk hN => h.slot hk fun hM => (hMN _ hM).elim hN fun hnone =>
    absurd (hnone.symm.trans hk) (by simp)
  ram := h.ram
  screen := h.screen
  cached := h.cached

/-- All new proxies have gone. -/
theorem none_new (h : PxShows m M x s) (hM : ∀ k, M k → s.px k = none) :
    PxShows m (fun _ => False) x s :=
  h.weaken (fun k hk => .inr (hM k hk)) fun _ _ _ => False.elim

/-- Proxies go, and what else is done with the off-screen memory is not done in their slots. -/
theorem goesOff (h : PxShows m M x s) (hg : PxGoes s t) {off : OffScreen} {y : GdiSpec α}
    (hbc : off.bcs.bc = t.off.bcs.bc) (hoff : OffOk m off y.saved) (hbits : y.bits = x.bits)
    (hslot : ∀ k p, t.px k = some p → ∀ q ∈ p.rect, off.card (s.held p q) = s.off.card (s.held p q))
    (hscreen : ∀ c ∈ OffScreen.screen m, off.card c = y.screen c)
    (hcached : PxState.Cached { t with off := off }) : PxShows m M y { t with off := off } where
  holds := (h.holds.less hg.toPxLess).of_bc rfl hbc rfl
  off := hoff
  on := hg.hwOff.trans h.on
  sound := by
    have hsound := h.sound
    unfold PxWorld.Sound at hsound ⊢
    dsimp only
    rw [hg.heap, hg.writable]
    exact hsound
  valid := fun hk => (hg.valid _).trans (h.valid (hg.px hk))
  fits := fun {k p} hk => by
    have hentry : PxState.entry { t with off := off } p.e = s.entry p.e :=
      (congrFun hbc p.e).trans (hg.entry hk)
    rw [hentry]
    exact h.fits (hg.px hk)
  new := fun hk => h.new (hg.px hk)
  slot := fun {k p} hk hM q hq => by
    have hheld : PxState.held { t with off := off } p q = s.held p q := by
      refine Eq.trans ?_ (hg.toPxLess.held hk q)
      unfold PxState.held PxState.entry
      rw [hbc]
    rw [hheld, hbits]
    exact (hslot k p hk q hq).trans (h.slot (hg.px hk) hM q hq)
  ram := by
    intro b q hnone
    rw [hbits]
    by_cases hfilled : ∃ k p, s.px k = some p ∧ p.bmp = b ∧ q ∈ p.rect ∧ p.unfilled = false
    · obtain ⟨k, p, hk, rfl, hq, hfilled⟩ := hfilled
      have hM : ¬ M k := fun hM => absurd ((h.new hk hM).symm.trans hfilled) (by simp)
      rw [← h.slot hk hM q hq]
      obtain hkept | hram := hg.kept hk hfilled (h.valid hk) h.on
      · exact absurd ((hnone k p hkept rfl hq).symm.trans hfilled) (by simp)
      · exact hram q hq
    · have hall : ∀ k p, s.px k = some p → p.bmp = b → q ∈ p.rect → p.unfilled = true := by
        intro k p hk hbmp hq
        cases hun : p.unfilled with
        | true => rfl
        | false => exact absurd ⟨k, p, hk, hbmp, hq, hun⟩ hfilled
      rw [← h.ram b q hall]
      refine hg.ram fun k p hk hun hbmp hq => ?_
      exact absurd ((hall k p hk hbmp hq).symm.trans hun) (by simp)
  screen := hscreen
  cached := hcached

/-- Proxies go. -/
theorem goes (h : PxShows m M x s) (hg : PxGoes s t) (hk : PxKeeps s t)
    (hoff : OffOk m t.off x.saved) : PxShows m M x t :=
  h.goesOff hg rfl hoff rfl (fun _ _ _ _ _ => congrFun hg.card _)
    (fun c hc => (congrFun hg.card c).trans (h.screen c hc)) (h.cached.keeps hk)

/-! ## What lets proxies go -/

theorem touchEntry (h : PxShows m M x s) (e : Fin 160) : PxShows m M x (s.touchEntry m e) :=
  h.goes (.touchEntry s e) (.touchEntry s e) (h.off.withBcs (h.off.bcs.bcTouch _ _))

theorem drop (h : PxShows m M x s) {k : Fin 16}
    (hun : ∀ p, s.px k = some p → p.unfilled = true) : PxShows m M x (s.pxDrop k false) := by
  refine h.goes (.drop h.holds fun p hk => .inl (hun p hk)) (.drop s k false) ?_
  cases hk : s.px k with
  | none =>
    rw [PxState.pxDrop_none hk]
    exact h.off
  | some p =>
    rw [PxState.pxDrop_some hk]
    exact h.off.bcDrop p.e

theorem writeback (h : PxShows m M x s) (k : Fin 16) (room : Bool) :
    PxShows m M x (s.pxWriteback k room) := by
  refine h.goes (.writeback h.holds k room) (.writeback s k room) ?_
  cases hk : s.px k with
  | none =>
    rw [s.pxWriteback_none hk]
    exact h.off
  | some p =>
    obtain ⟨-, heq⟩ | ⟨-, gone, heq⟩ := s.pxWriteback_some hk room
    · rw [heq, PxState.pxDrop_some hk]
      exact h.off.bcDrop p.e
    · have hkw : { s with world := s.pxCopied p }.px k = some p := hk
      rw [heq, PxState.pxDrop_some hkw]
      exact h.off.bcDrop p.e

/-- What is looked up is remembered or forgotten. -/
theorem aside (h : PxShows m M x s) (memo : Option (BcMemo α)) (seen : Fin 64 → UInt32)
    (seenNext : Fin 64) (gone : Option α)
    (hmemo : ∀ μ, memo = some μ → rectKey (s.world.ram μ.bmp) μ.rect = μ.key) :
    PxShows m M x { s with memo := memo, seen := seen, seenNext := seenNext, gone := gone } := by
  have hgoes := (PxGoes.refl s).aside s.key memo seen seenNext gone
  exact h.goesOff hgoes rfl h.off rfl (fun _ _ _ _ _ => rfl) h.screen ⟨h.cached.key, hmemo⟩

theorem forget (h : PxShows m M x s) (dev : Option α) : PxShows m M x (s.bcForget dev) :=
  h.aside _ _ _ _ fun μ hμ => h.cached.memo μ ((PxKeeps.forget s dev).memo μ hμ).1

theorem foldl {β : Type*} {f : PxState α → β → PxState α}
    (hf : ∀ {s}, PxShows m M x s → ∀ b, PxShows m M x (f s b)) : ∀ (l : List β) {s : PxState α},
      PxShows m M x s → PxShows m M x (l.foldl f s)
  | [], _, h => h
  | b :: l, _, h => PxShows.foldl hf l (hf h b)

theorem back (h : PxShows m M x s) (f : PxEntry α → Bool) : PxShows m M x (s.pxBack f) := by
  refine PxShows.foldl (fun {s} h k => ?_) _ h
  split_ifs
  · exact h.writeback k false
  · exact h

theorem flush (h : PxShows m M x s) (dev : Option α) : PxShows m M x (s.pxFlush dev) := h.back _

theorem touchRect (h : PxShows m M x s) (dev : α) (r : Rect) :
    PxShows m M x (s.pxTouchRect dev r) := h.back _

/-- A proxy that is found is valid, so none is dropped. -/
theorem find (h : PxShows m M x s) (b : α) (r : Rect) :
    (s.pxFind b r).2 = s ∧ ∀ k, (s.pxFind b r).1 = some k → ∃ p, s.px k = some p ∧ p.bmp = b ∧
      r.wrapped.Inside p.rect := by
  unfold PxState.pxFind
  cases hfirst : s.pxFirst fun p => decide (p.bmp = b ∧ r.wrapped.Inside p.rect) with
  | none => exact ⟨rfl, by simp⟩
  | some k =>
    obtain ⟨p, hp, hheld⟩ := PxState.pxFirst_some hfirst
    have hvalid : (s.px k).any s.pxValid = true := by
      rw [hp]
      exact h.valid hp
    dsimp only
    rw [if_pos hvalid]
    refine ⟨rfl, ?_⟩
    rintro j ⟨⟩
    exact ⟨p, hp, of_decide_eq_true hheld⟩

/-! ## The cache -/

theorem withCache_off (s : PxState α) (c : BcCache) :
    (s.withCache c).off = { s.off with bcs := c } := by
  have hother : ∀ (l : List (Fin 160)) (s : PxState α),
      { (l.foldl (PxState.pxEvictAt c) s).off with bcs := c } = { s.off with bcs := c } := by
    intro l
    induction l with
    | nil => exact fun _ => rfl
    | cons e l ih =>
      intro s
      rw [List.foldl_cons, ih]
      unfold PxState.pxEvictAt
      split_ifs
      · unfold PxState.pxEvicted
        split
        · rfl
        · next k hk =>
          obtain ⟨p, hp, -⟩ := PxState.pxFirst_some hk
          obtain ⟨-, heq⟩ | ⟨-, gone, heq⟩ := s.pxWriteback_some hp true
          · rw [heq, PxState.pxDrop_some hp]
            rfl
          · have hpw : { s with world := s.pxCopied p }.px k = some p := hp
            rw [heq, PxState.pxDrop_some hpw]
            rfl
      · rfl
  unfold PxState.withCache PxState.pxEvict
  dsimp only
  exact hother (List.finRange 160) s

theorem withCache (h : PxShows m M x s) {c : BcCache} (hc : s.off.bcs.Empties c)
    (hbcs : BcOk m (s.off.first m) (fun _ => s.off.offEnd m) c) :
    PxShows m M x (s.withCache c) := by
  refine h.goes (.withCache h.holds hc) (.withCache h.holds hc) ?_
  rw [withCache_off]
  exact h.off.withBcs hbcs

end PxShows

/-- Entry `e` is free, and has a place. -/
def PxState.Room (m : LendMode) (s : PxState α) (e : Fin 160) (we hgt : ℕ) : Prop :=
  (s.entry e).w = 0 ∧ s.off.bcs.Free m we hgt ((s.entry e).x, (s.entry e).y)

namespace PxShows

theorem bcSlot (h : PxShows m M x s) : PxShows m M x (s.bcSlot m).2 :=
  h.withCache (BcCache.empties_slot s.off.bcs) h.off.bcs.bcSlot

/-- A free entry is given other fields. -/
theorem setFree (h : PxShows m M x s) {e : Fin 160} (he : (s.entry e).w = 0) {v : BcEntry}
    (hv : v.w = 0) : PxShows m M x (s.setEntry e v) := by
  refine h.goes (.setEntry (h.holds.unowned he) v) (.setEntry s e hv)
    (h.off.withBcs (h.off.bcs.drop fun k hk => ?_))
  have hne : k ≠ e := by
    rintro rfl
    rw [Function.update_self] at hk
    exact hk hv
  exact Function.update_of_ne hne _ _

theorem bcAlloc (h : PxShows m M x s) {e : Fin 160} (he : (s.entry e).w = 0) {we hgt : ℕ}
    (hwe : we < 32768) (hpos : 0 < hgt) : PxShows m M x (s.bcAlloc m e we hgt).2 ∧
      ((s.bcAlloc m e we hgt).1 = true → (s.bcAlloc m e we hgt).2.Room m e we hgt) := by
  have hempties := BcCache.empties_alloc (m := m) s.off.bcs (s.off.offEnd m) we hgt
  have hgiven := h.off.bcs.bcAlloc (fun _ => rfl) (Int.natCast_nonneg we) hpos
  have hint : asInt we = we := int16_eq (by omega)
  unfold PxState.bcAlloc
  rw [hint]
  generalize s.off.bcs.bcAlloc m (s.off.offEnd m) we hgt = r at hempties hgiven ⊢
  obtain ⟨hok, hfree⟩ := hgiven
  have hcache := h.withCache hempties hok
  have hw : ((s.withCache r.2).entry e).w = 0 := by
    unfold PxState.entry
    rw [PxState.withCache_bcs]
    exact hempties.free he
  have hplace : ∀ p, r.1 = some p → (s.withCache r.2).off.bcs.Free m we hgt p := by
    rw [PxState.withCache_bcs]
    exact hfree
  dsimp only
  generalize s.withCache r.2 = t at hcache hw hplace ⊢
  cases hr : r.1 with
  | none => exact ⟨hcache, by simp⟩
  | some p =>
    refine ⟨hcache.setFree hw hw, fun _ => ?_⟩
    obtain ⟨hshelf, hapart⟩ := hplace p hr
    have hself : (t.setEntry e { t.entry e with x := p.1, y := p.2 }).entry e =
        { t.entry e with x := p.1, y := p.2 } := Function.update_self e _ t.off.bcs.bc
    unfold PxState.Room
    dsimp only
    rw [hself]
    refine ⟨hw, hshelf, fun k hk => ?_⟩
    have hne : k ≠ e := by
      rintro rfl
      exact hk ((congrArg BcEntry.w hself).trans hw)
    have hsame : (t.setEntry e { t.entry e with x := p.1, y := p.2 }).off.bcs.bc k =
        t.off.bcs.bc k := Function.update_of_ne hne _ _
    rw [hsame] at hk ⊢
    exact hapart k hk

theorem bcRoom (h : PxShows m M x s) {we hgt : ℕ} (hwe : we < 32768) (hpos : 0 < hgt) :
    PxShows m M x (s.bcRoom m we hgt).2 ∧
      ∀ e, (s.bcRoom m we hgt).1 = some e → (s.bcRoom m we hgt).2.Room m e we hgt := by
  have hslot := h.bcSlot
  have hfree := (PxGoes.bcSlot (m := m) h.holds).2
  unfold PxState.bcRoom
  generalize s.bcSlot m = r at hslot hfree ⊢
  obtain ⟨_ | e, t⟩ := r
  · exact ⟨hslot, by simp⟩
  obtain ⟨halloc, hroom⟩ := hslot.bcAlloc (hfree e rfl) hwe hpos
  dsimp only
  generalize t.bcAlloc m e we hgt = r at halloc hroom ⊢
  obtain ⟨_ | _, u⟩ := r
  · exact ⟨halloc, by simp⟩
  · refine ⟨halloc, ?_⟩
    rintro e' ⟨⟩
    exact hroom rfl

/-- A free entry gets a bitmap's pixels, and their hashes. -/
theorem stored (h : PxShows m M x s) {e : Fin 160} {w hgt : ℕ}
    (hroom : s.Room m e (evenUp w) hgt) (hw : w ≠ 0) {bits : Pixel → UInt8}
    (hbcs : t.off.bcs = { s.off.bcs with
      bc := Function.update s.off.bcs.bc e { s.entry e with w := w, h := hgt } })
    (hoff : t.off = { s.off with
      bcs := t.off.bcs, card := (OffScreen.slot (t.entry e)).paint bits s.off.card })
    (hflag : t.flag = Function.update s.flag e false)
    (hkey : t.key = Function.update s.key e (rectKey t.off.card (t.entry e).rect))
    (hpx : t.px = s.px) (hworld : t.world = s.world) (hon : t.hwOff = s.hwOff)
    (hmemo : ∀ μ, t.memo = some μ → rectKey (t.world.ram μ.bmp) μ.rect = μ.key) :
    PxShows m M x t := by
  obtain ⟨hfree, hplace⟩ := hroom
  have hun := h.holds.unowned hfree
  have hself : t.entry e = { s.entry e with w := w, h := hgt } := by
    unfold PxState.entry
    rw [hbcs]
    exact Function.update_self ..
  have hother {f : Fin 160} (hne : f ≠ e) : t.entry f = s.entry f := by
    unfold PxState.entry
    rw [hbcs]
    exact Function.update_of_ne hne _ _
  have hused : (t.entry e).w ≠ 0 := by rwa [hself]
  have hput : OffOk m { s.off with bcs := t.off.bcs } x.saved := by
    rw [hbcs]
    exact h.off.withBcs (h.off.bcs.put (e := { s.entry e with w := w, h := hgt }) hplace e)
  have hok : OffOk m t.off x.saved := by
    rw [hoff]
    exact hput.paintPart (.user (.slot e)) (fun heq => by cases heq) (fun c hc => ⟨hused, hc⟩) bits
  have hcard {c : Pixel} (hc : c ∉ OffScreen.slot (t.entry e)) : t.off.card c = s.off.card c := by
    rw [hoff]
    exact Rect.paint_not_mem hc
  have hslot {f : Fin 160} (hne : f ≠ e) (hf : (t.entry f).w ≠ 0) {c : Pixel}
      (hc : c ∈ OffScreen.slot (t.entry f)) : t.off.card c = s.off.card c :=
    hcard fun hin => hok.bcs.apart f e hne hf hused c hc hin
  have hold {k : Fin 16} {p : PxEntry α} (hk : t.px k = some p) : s.px k = some p := hpx ▸ hk
  have hgoes : PxGoes s { t with off := { s.off with bcs := t.off.bcs } } := by
    refine ⟨⟨hold, fun hk => hother (hun _ _ (hold hk)), fun hk => ?_⟩, by rw [hworld],
      by rw [hworld], rfl, hon, fun hk _ _ _ => .inl (hpx ▸ hk), fun _ => by rw [hworld]⟩
    dsimp only
    rw [hflag]
    exact Function.update_of_ne (hun _ _ (hold hk)) _ _
  refine h.goesOff hgoes rfl hok rfl (fun k p hk q hq => ?_) (fun c hc => ?_)
    ⟨fun f hf hno => ?_, hmemo⟩
  · have hne := hun k p (hold hk)
    have hin := (h.held_mem (hold hk) hq).2
    have hsame : t.entry p.e = s.entry p.e := hother hne
    refine hslot hne ?_ ?_
    · rw [hsame]
      exact h.holds.used (hold hk)
    · rwa [hsame]
  · refine (hcard fun hin => ?_).trans (h.screen c hc)
    exact hok.slot_screen (e := e) ⟨hused, hin⟩ hc
  · change (t.entry f).w ≠ 0 at hf
    change t.flag f = false at hno
    show rectKey t.off.card (t.entry f).rect = t.key f
    rw [hkey]
    by_cases hne : f = e
    · subst hne
      rw [Function.update_self]
    · rw [Function.update_of_ne hne]
      rw [hflag, Function.update_of_ne hne] at hno
      have hf' := hf
      rw [hother hne] at hf'
      rw [← h.cached.key f hf' hno, ← hother hne]
      exact rectKey_same fun c hc => hslot hne hf (BcEntry.rect_mem hc)

/-- The entry that a bitmap gets was free, and had a place. -/
theorem bcPlace (h : PxShows m M x s) {w : ℕ} (hw : evenUp w < 32768) (hgt : ℕ) :
    ((s.bcPlace m w hgt).1 = none → PxShows m M x (s.bcPlace m w hgt).2) ∧
      ∀ e, (s.bcPlace m w hgt).1 = some e → w ≠ 0 ∧ hgt ≠ 0 ∧ ∃ u, PxShows m M x u ∧
        u.Room m e (evenUp w) hgt ∧ (s.bcPlace m w hgt).2 =
          { u.setEntry e { u.entry e with w := w, h := hgt } with
            flag := Function.update u.flag e false } := by
  unfold PxState.bcPlace
  split
  · exact ⟨fun _ => h, by simp⟩
  next hno =>
  have hw0 : w ≠ 0 := by
    rintro rfl
    exact hno (.inr (.inr (by decide)))
  obtain ⟨hshows, hroom⟩ := h.bcRoom (m := m) hw (by omega : 0 < hgt)
  generalize s.bcRoom m (evenUp w) hgt = r at hshows hroom ⊢
  obtain ⟨_ | e, t⟩ := r
  · exact ⟨fun _ => hshows, by simp⟩
  refine ⟨by simp, ?_⟩
  rintro e' ⟨⟩
  exact ⟨hw0, by omega, t, hshows, hroom e rfl, rfl⟩

end PxShows

/-! ## A new proxy -/

/-- A slot that is no proxy's stays as it is when a proxy goes. -/
theorem PxState.pxWriteback_entry (s : PxState α) (k : Fin 16) (room : Bool) {e : Fin 160}
    (hun : s.Unowned e) : (s.pxWriteback k room).entry e = s.entry e := by
  cases hk : s.px k with
  | none => rw [s.pxWriteback_none hk]
  | some p => exact (s.pxWriteback_apart hk room (hun k p hk).symm).1

/-- The entries that are found are the same but for the proxy's. -/
theorem PxKeeps.put (s : PxState α) (k : Fin 16) (b : α) (r : Rect) (lead we hgt : ℕ)
    (e : Fin 160) : PxKeeps s (s.pxPut m k b r lead we hgt e) := by
  refine ⟨fun f hw hf => ?_, fun _ _ _ _ _ => rfl, fun _ hμ => ⟨hμ, rfl⟩⟩
  change Function.update s.flag e true f = false at hf
  have hne : f ≠ e := by
    rintro rfl
    exact absurd ((Function.update_self f true s.flag).symm.trans hf) (by simp)
  rw [Function.update_of_ne hne] at hf
  exact ⟨Function.update_of_ne hne _ _, hf, Function.update_of_ne hne _ _⟩

namespace PxShows

theorem put (h : PxShows m M x s) {k : Fin 16} {b : α} {r : Rect} {lead we hgt : ℕ} {e : Fin 160}
    (hfree : s.px k = none) (hun : s.Unowned e) (hwe : we ≠ 0) (hleft : r.left < r.right)
    (htop : r.top < r.bottom) (hapart : ∀ j q, s.px j = some q → q.bmp = b → r.Apart q.rect)
    (hwide : lead + (r.right - r.left) ≤ we) (htall : (hgt : ℤ) = r.bottom - r.top)
    (hplace : s.off.bcs.Free m (evenUp we) hgt ((s.entry e).x, (s.entry e).y) ∨
      (s.entry e).w = we ∧ (s.entry e).h = hgt) (hdib : (s.world.heap b).dib = true) :
    PxShows m (fun j => j = k ∨ M j) x (s.pxPut m k b r lead we hgt e) := by
  have hpx : (s.pxPut m k b r lead we hgt e).px = Function.update s.px k
      (some ⟨b, (s.world.heap b).sel, (s.world.heap b).off, (s.world.heap b).delta,
        (s.world.heap b).width, (s.world.heap b).height, r, lead, e, true⟩) := rfl
  have hentry : (s.pxPut m k b r lead we hgt e).off.bcs.bc =
      Function.update s.off.bcs.bc e { s.entry e with w := we, h := hgt } := rfl
  have hcases {j q} (hj : (s.pxPut m k b r lead we hgt e).px j = some q) :
      (j = k ∧ ⟨b, (s.world.heap b).sel, (s.world.heap b).off, (s.world.heap b).delta,
        (s.world.heap b).width, (s.world.heap b).height, r, lead, e, true⟩ = q) ∨
        (j ≠ k ∧ s.px j = some q) := by
    rw [hpx] at hj
    by_cases hne : j = k
    · subst hne
      rw [Function.update_self] at hj
      exact .inl ⟨rfl, Option.some.inj hj⟩
    · rw [Function.update_of_ne hne] at hj
      exact .inr ⟨hne, hj⟩
  have hheld {j q} (hj : s.px j = some q) (c : Pixel) :
      (s.pxPut m k b r lead we hgt e).held q c = s.held q c := by
    unfold PxState.held
    rw [s.pxPut_entry_of_ne (hun j q hj)]
  refine ⟨h.holds.put hun hwe hleft htop hapart, ?_, h.on, h.sound, fun hj => ?_, fun hj => ?_,
    fun hj hM => ?_, fun hj hM q hq => ?_, fun b' q hnone => ?_, h.screen,
    h.cached.keeps (.put s k b r lead we hgt e)⟩
  · have hbcs : BcOk m (s.off.first m) (fun _ => s.off.offEnd m) { s.off.bcs with
        bc := Function.update s.off.bcs.bc e { s.entry e with w := we, h := hgt } } := by
      obtain hplace | ⟨hw, hh⟩ := hplace
      · exact h.off.bcs.put (e := { s.entry e with w := we, h := hgt }) hplace e
      · have hsame : ({ s.entry e with w := we, h := hgt } : BcEntry) = s.off.bcs.bc e := by
          rw [← hw, ← hh]
          rfl
        rw [hsame, Function.update_eq_self]
        exact h.off.bcs
    exact h.off.withBcs (hbcs.bcTouch _ _)
  · obtain ⟨-, rfl⟩ | ⟨-, hj⟩ := hcases hj
    · obtain ⟨hread, hwrite, -⟩ := h.sound b hdib
      exact decide_eq_true ⟨hread, hdib, rfl, rfl, rfl, rfl, rfl, hwrite⟩
    · exact h.valid hj
  · obtain ⟨-, rfl⟩ | ⟨-, hj'⟩ := hcases hj
    · unfold PxState.entry
      rw [hentry, Function.update_self]
      exact ⟨hwide, htall⟩
    · rw [s.pxPut_entry_of_ne (hun _ _ hj')]
      exact h.fits hj'
  · obtain ⟨-, rfl⟩ | ⟨hne, hj'⟩ := hcases hj
    · rfl
    · exact h.new hj' (hM.resolve_left hne)
  · obtain ⟨hjk, -⟩ | ⟨hne, hj'⟩ := hcases hj
    · exact absurd (.inl hjk) hM
    · rw [hheld hj']
      exact h.slot hj' (fun hMj => hM (.inr hMj)) q hq
  · refine h.ram b' q fun j p hj => hnone j p ?_
    have hne : j ≠ k := by
      rintro rfl
      exact absurd (hfree.symm.trans hj) (by simp)
    rw [hpx, Function.update_of_ne hne]
    exact hj

end PxShows

/-- A proxy that is new, and its slot. -/
def PxState.Newly (s : PxState α) (k : Fin 16) (b : α) (r : Rect) (lead : ℕ) : Prop :=
  ∃ p, s.px k = some p ∧ p.bmp = b ∧ p.rect = r ∧ p.lead = lead ∧
    (s.entry p.e).w = evenUp (lead + (r.right - r.left).toNat) ∧
    (s.entry p.e).h = r.bottom - r.top

theorem PxState.newly_put (s : PxState α) (m : LendMode) (k : Fin 16) (b : α) {r : Rect}
    (lead : ℕ) {hgt : ℕ} (e : Fin 160) (htall : (hgt : ℤ) = r.bottom - r.top) :
    (s.pxPut m k b r lead (evenUp (lead + (r.right - r.left).toNat)) hgt e).Newly k b r lead := by
  refine ⟨_, Function.update_self .., rfl, rfl, rfl, s.pxPut_entry_self, ?_⟩
  show ((Function.update s.off.bcs.bc e { s.entry e with w := _, h := hgt } e).h : ℤ) = _
  rw [Function.update_self]
  exact htall

namespace PxShows

/-- `m8_px_new` : its slot is a new one, or that of a proxy that has lent it. -/
theorem pxNew (h : PxShows m M x s) (b : α) {r : Rect} (lead : ℕ) (e : Option (Fin 160))
    (hleft : r.left < r.right) (htop : r.top < r.bottom)
    (hwide : evenUp (lead + (r.right - r.left).toNat) < 32768)
    (hdib : (s.world.heap b).dib = true)
    (he : ∀ e', e = some e' → s.Unowned e' ∧
      (s.entry e').w = evenUp (lead + (r.right - r.left).toNat) ∧
        (s.entry e').h = r.bottom - r.top)
    (hapart : ∀ j q, s.px j = some q → q.bmp = b → r.Apart q.rect) :
    ((s.pxNew m b r lead e).1 = none ∧ PxShows m M x (s.pxNew m b r lead e).2) ∨
      ((s.pxNew m b r lead e).1 = some s.pxNext ∧
        PxShows m (fun j => j = s.pxNext ∨ M j) x (s.pxNew m b r lead e).2 ∧
          (s.pxNew m b r lead e).2.Newly s.pxNext b r lead) := by
  unfold PxState.pxNew
  dsimp only
  split
  · exact .inl ⟨rfl, h⟩
  have hfit : (lead : ℤ) + (r.right - r.left) ≤ evenUp (lead + (r.right - r.left).toNat) := by
    have heven := le_evenUp (lead + (r.right - r.left).toNat)
    omega
  have hwe : evenUp (lead + (r.right - r.left).toNat) ≠ 0 := evenUp_ne_zero (by omega)
  have htall : ((r.bottom - r.top).toNat : ℤ) = r.bottom - r.top := by omega
  have htwice : evenUp (evenUp (lead + (r.right - r.left).toNat)) =
      evenUp (lead + (r.right - r.left).toNat) := by
    unfold evenUp
    omega
  have hnewly (t : PxState α) (k : Fin 16) (e : Fin 160) := t.newly_put m k b lead e htall
  unfold PxState.Newly at hnewly ⊢
  generalize evenUp (lead + (r.right - r.left).toNat) = we at *
  generalize hk : s.pxNext = k
  obtain ⟨u, hu, hgoes, hshows, hfree, hentry⟩ : ∃ u,
      (if s.pxFree.isNone = true then s.pxWriteback 0 true else s) = u ∧ PxGoes s u ∧
        PxShows m M x u ∧ u.px k = none ∧ ∀ e', s.Unowned e' → u.entry e' = s.entry e' := by
    subst hk
    unfold PxState.pxNext
    cases hfree : s.pxFree with
    | none => exact ⟨_, rfl, .writeback h.holds 0 true, h.writeback 0 true,
        s.pxWriteback_self 0 true, fun _ => s.pxWriteback_entry 0 true⟩
    | some k => exact ⟨_, rfl, .refl s, h, PxState.pxFree_some hfree, fun _ _ => rfl⟩
  rw [hu]
  cases e with
  | some e =>
    obtain ⟨hun, hw, hh⟩ := he e rfl
    refine .inr ⟨rfl, hshows.put hfree (hgoes.toPxLess.unowned hun) hwe hleft htop
      (fun j q hj => hapart j q (hgoes.px hj)) hfit htall (.inr ?_) (by rwa [hgoes.heap]),
      hnewly u k e⟩
    rw [hentry e hun]
    exact ⟨hw, by omega⟩
  | none =>
    obtain ⟨hroom, hplace⟩ := hshows.bcRoom hwide (by omega : 0 < (r.bottom - r.top).toNat)
    have hgoes' := (PxGoes.bcRoom (m := m) hshows.holds we (r.bottom - r.top).toNat).1
    dsimp only
    generalize u.bcRoom m we (r.bottom - r.top).toNat = p at hroom hplace hgoes' ⊢
    obtain ⟨_ | e, v⟩ := p
    · exact .inl ⟨rfl, hroom⟩
    · obtain ⟨hw, hplace⟩ := hplace e rfl
      refine .inr ⟨rfl, hroom.put (hgoes'.toPxLess.none hfree) (hroom.holds.unowned hw) hwe hleft
        htop (fun j q hj => hapart j q (hgoes.px (hgoes'.px hj))) hfit htall (.inl ?_)
        (by rwa [hgoes'.heap, hgoes.heap]), hnewly v k e⟩
      rwa [htwice]

/-! ## Drawing -/

/-- A slot is drawn with what the bitmap is to have. -/
theorem redraw (h : PxShows m M x s) {k : Fin 16} {p : PxEntry α} (hk : s.px k = some p)
    (f card : Pixel → UInt8) (ram : α → Pixel → UInt8) (u : Bool)
    (hcard : ∀ c ∉ OffScreen.slot (s.entry p.e), card c = s.off.card c)
    (hslot : ∀ q ∈ p.rect, card (s.held p q) = f q)
    (hout : ∀ q ∉ p.rect, f q = x.bits p.bmp q)
    (hram : ∀ b q, b ≠ p.bmp ∨ q ∉ p.rect → ram b q = s.world.ram b q)
    (hun : u = true → ∀ q ∈ p.rect, ram p.bmp q = f q)
    (hmemo : ∀ μ, s.memo = some μ → ram μ.bmp = s.world.ram μ.bmp) :
    PxShows m (fun j => M j ∧ j ≠ k) (x.set p.bmp f) { s with
      off := { s.off with card := card }
      world := { s.world with ram := ram }
      px := Function.update s.px k (some { p with unfilled := u }) } := by
  have hcases {j q} (hj : Function.update s.px k (some { p with unfilled := u }) j = some q) :
      (j = k ∧ { p with unfilled := u } = q) ∨ (j ≠ k ∧ s.px j = some q) := by
    by_cases hne : j = k
    · subst hne
      rw [Function.update_self] at hj
      exact .inl ⟨rfl, Option.some.inj hj⟩
    · rw [Function.update_of_ne hne] at hj
      exact .inr ⟨hne, hj⟩
  have hslotOf {c : Pixel} (hc : c ∈ OffScreen.slot (s.entry p.e)) : s.off.Has m (.slot p.e) c :=
    ⟨h.holds.used hk, hc⟩
  have hbits (b : α) {q : Pixel} (hq : b ≠ p.bmp ∨ q ∉ p.rect) :
      (x.set p.bmp f).bits b q = x.bits b q := by
    show Function.update x.bits p.bmp f b q = _
    by_cases hb : b = p.bmp
    · subst hb
      rw [Function.update_self]
      exact hout q (hq.resolve_left fun hne => hne rfl)
    · rw [Function.update_of_ne hb]
  refine ⟨?_, ?_, h.on, h.sound, fun hj => ?_, fun hj => ?_, fun hj hM => ?_,
    fun hj hM q hq => ?_, fun b q hall => ?_, fun c hc => ?_, ?_⟩
  · refine h.holds.like (fun j q hj => ?_) (fun _ => rfl) rfl
    obtain ⟨rfl, rfl⟩ | ⟨-, hj⟩ := hcases hj
    · exact ⟨p, hk, rfl, rfl, rfl⟩
    · exact ⟨q, hj, rfl, rfl, rfl⟩
  · refine h.off.paint fun c hc => hcard c fun hin => ?_
    exact h.off.slot_saved (hslotOf hin) hc
  · obtain ⟨rfl, rfl⟩ | ⟨-, hj⟩ := hcases hj
    · exact (h.valid hk :)
    · exact h.valid hj
  · obtain ⟨rfl, rfl⟩ | ⟨-, hj⟩ := hcases hj
    · exact (h.fits hk :)
    · exact h.fits hj
  · obtain ⟨hjk, -⟩ | ⟨-, hj⟩ := hcases hj
    · exact absurd hjk hM.2
    · exact h.new hj hM.1
  · obtain ⟨rfl, rfl⟩ | ⟨hne, hj⟩ := hcases hj
    · show card (s.held p q) = Function.update x.bits p.bmp f p.bmp q
      rw [Function.update_self]
      exact hslot q hq
    · rename_i j p' _
      have hmem := h.held_mem hj hq
      have hslots : s.held p' q ∉ OffScreen.slot (s.entry p.e) := fun hin =>
        h.off.bcs.apart p.e p'.e (fun heq => hne (h.holds.own hj hk heq.symm))
          (h.holds.used hk) hmem.1 _ hin hmem.2
      have hother : p'.bmp ≠ p.bmp ∨ q ∉ p.rect := by
        by_cases hb : p'.bmp = p.bmp
        · exact .inr (h.holds.apart hj hk hne hb q hq)
        · exact .inl hb
      rw [hbits p'.bmp hother]
      exact (hcard _ hslots).trans (h.slot hj (fun hM' => hM ⟨hM', hne⟩) q hq)
  · by_cases hin : b = p.bmp ∧ q ∈ p.rect
    · obtain ⟨rfl, hq⟩ := hin
      show ram p.bmp q = Function.update x.bits p.bmp f p.bmp q
      rw [Function.update_self]
      exact hun (hall k _ (Function.update_self ..) rfl hq) q hq
    · have hother : b ≠ p.bmp ∨ q ∉ p.rect := not_and_or.1 hin
      rw [hbits b hother]
      refine (hram b q hother).trans (h.ram b q fun j p' hj hbmp hq => ?_)
      have hne : j ≠ k := by
        rintro rfl
        obtain rfl : p = p' := Option.some.inj (hk.symm.trans hj)
        exact hin ⟨hbmp.symm, hq⟩
      exact hall j p' ((Function.update_of_ne hne _ _).trans hj) hbmp hq
  · refine (hcard c fun hin => ?_).trans (h.screen c hc)
    exact h.off.slot_screen (hslotOf hin) hc
  · refine h.cached.keeps ⟨fun _ _ hf => ⟨rfl, hf, rfl⟩, fun e hw hf c hc => hcard c fun hin => ?_,
      fun μ hμ => ⟨hμ, hmemo μ hμ⟩⟩
    have hne : p.e ≠ e := by
      rintro rfl
      exact absurd ((h.holds.flag hk).symm.trans hf) (by simp)
    exact h.off.bcs.apart p.e e hne (h.holds.used hk) hw c hin hc

end PxShows

end Inboard
