import Inboard.ProxyDrawn

/-!
# GDI over the proxies

Each call of GDI's is shown to leave the driver showing what the call is to come to. A call that the
proxies do not take is left to the DIB Engine with nothing changed in what is shown (`PxEnds`), and
the proxies in its way are then written back first.
-/

set_option linter.unusedSectionVars false

namespace Inboard

open OffScreen (slot screen)

variable {α : Type*} [DecidableEq α] {m : LendMode} {s t : PxState α} {x y : GdiSpec α}
  {M : Fin 16 → Prop} {d b : α} {r : Rect}

/-! ## What the calls are to keep to -/

/-- No proxy of the bitmap has any of the rectangle. -/
def PxState.Clear (s : PxState α) (b : α) (r : Rect) : Prop :=
  ∀ k p, s.px k = some p → p.bmp = b → r.Apart p.rect

/-! ## The cache of bitmaps -/

/-- What `m8_bc_lookup` finds : an entry that is no proxy's and has the rectangle's pixels. -/
structure PxState.Found (t : PxState α) (b : α) (r : Rect) (e : Fin 160) (x : GdiSpec α) :
    Prop where
  unowned : t.Unowned e
  used : (t.entry e).w ≠ 0
  mem : ∀ q ∈ r, r.shift ((t.entry e).x, (t.entry e).y) q ∈ OffScreen.slot (t.entry e)
  pixel : ∀ q ∈ r, t.off.card (r.shift ((t.entry e).x, (t.entry e).y) q) = x.bits b q

namespace PxShows

/-- The rectangle is looked up last. -/
theorem remember (h : PxShows m M x s) {e : Fin 160}
    (hkey : rectKey (s.world.ram b) r = s.key e) : PxShows m M x (s.bcRemember b r e) := by
  refine h.aside _ _ _ _ ?_
  rintro μ ⟨⟩
  exact hkey

theorem seenBefore (h : PxShows m M x s) (v : UInt32) : PxShows m M x (s.bcSeenBefore v).2 := by
  unfold PxState.bcSeenBefore
  split_ifs
  · exact h
  · exact h.aside _ _ _ _ h.cached.memo

/-- An entry with the hashes of the rectangle is found. -/
theorem foundHit (h : PxShows m M x s) (hleft : r.left < r.right) (hclear : s.Clear b r)
    (hno : s.NoCollision b r) {e : Fin 160} (he : s.Alike b r e) : s.Found b r e x := by
  obtain ⟨hflag, hw, hh, -⟩ := id he
  refine ⟨?_, by omega, fun q hq => ?_, fun q hq => ?_⟩
  · rintro k p hk rfl
    exact absurd ((h.holds.flag hk).symm.trans hflag) (by simp)
  · rw [Rect.mem_iff] at hq
    exact BcEntry.shift_mem (by omega) (by omega) (Rect.mem_iff.2 hq)
  · exact (hno e he q hq).trans (h.ram_of_clear hclear hq)

/-- A new entry gets the rectangle's pixels. -/
theorem foundNew (h : PxShows m M x s) {e : Fin 160}
    (hroom : s.Room m e (evenUp (r.right - r.left).toNat) (r.bottom - r.top).toNat)
    (hw : (r.right - r.left).toNat ≠ 0) (hh : (r.bottom - r.top).toNat ≠ 0) {bits : Pixel → UInt8}
    (hbits : ∀ q ∈ r, bits q = x.bits b q) (hram : ∀ q ∈ r, s.world.ram b q = bits q) :
    let u := { s.setEntry e { s.entry e with
        w := (r.right - r.left).toNat, h := (r.bottom - r.top).toNat } with
      flag := Function.update s.flag e false
      key := Function.update s.key e (rectKey bits r) }
    PxShows m M x ((u.bcRemember b r e).bcWrite e r bits) ∧
      ((u.bcRemember b r e).bcWrite e r bits).Found b r e x := by
  intro u
  have hentry : (u.bcRemember b r e).entry e = { s.entry e with
      w := (r.right - r.left).toNat, h := (r.bottom - r.top).toNat } :=
    Function.update_self e _ s.off.bcs.bc
  have hsize : (((u.bcRemember b r e).entry e).w : ℤ) = r.right - r.left ∧
      (((u.bcRemember b r e).entry e).h : ℤ) = r.bottom - r.top := by
    rw [hentry]
    dsimp only
    omega
  have hkey := (u.bcRemember b r e).bcWrite_key hsize.1 hsize.2 bits
  have hpixel {q : Pixel} := (u.bcRemember b r e).bcWrite_pixel hsize.1 hsize.2 bits (q := q)
  refine ⟨h.stored hroom hw rfl rfl rfl ?_ rfl rfl rfl ?_, ?_, ?_, fun q hq => ?_, fun q hq => ?_⟩
  · exact congrArg (Function.update s.key e) hkey.symm
  · rintro μ ⟨⟩
    refine (rectKey_same hram).trans ?_
    exact (Function.update_self e (rectKey bits r) s.key).symm
  · exact h.holds.unowned hroom.1
  · show ((u.bcRemember b r e).entry e).w ≠ 0
    rw [hentry]
    exact hw
  · exact BcEntry.shift_mem hsize.1 hsize.2 hq
  · exact (hpixel hq).trans (hbits q hq)

theorem pxLookup (h : PxShows m M x s) (hleft : r.left < r.right)
    (hwide : r.right - r.left < 32767) (hclear : s.Clear b r) (hno : s.NoCollision b r)
    (force : Bool) : PxShows m M x (s.pxLookup m b r force).2 ∧
      PxLess s (s.pxLookup m b r force).2 ∧ ∀ e, (s.pxLookup m b r force).1 = some e →
        (s.pxLookup m b r force).2.Found b r e x := by
  have hhit {e : Fin 160} (he : s.Alike b r e) := h.foundHit hleft hclear hno he
  have hless := (PxGoes.bcLookup (m := m) h.holds b r force).toPxLess
  unfold PxState.pxLookup
  unfold PxState.bcLookup at hless ⊢
  dsimp only at hless ⊢
  split at hless
  · next hoff =>
    rw [if_pos hoff]
    exact ⟨h, hless, by simp⟩
  next hon =>
  rw [if_neg hon]
  cases hmemo : s.memoHit b r with
  | some e =>
    have halike := h.cached.memoHit hleft hmemo
    rw [hmemo] at hless
    refine ⟨h.touchEntry e, hless, ?_⟩
    rintro e' ⟨⟩
    obtain ⟨hun, hused, hmem, hpixel⟩ := hhit halike
    exact ⟨hun, hused, hmem, hpixel⟩
  | none =>
  rw [hmemo] at hless
  dsimp only at hless ⊢
  cases hfound : s.bcFound (r.right - r.left).toNat (r.bottom - r.top).toNat
      (rectKey (s.world.ram b) r) with
  | some e =>
    have halike := h.cached.bcFound hleft hfound
    rw [hfound] at hless
    obtain ⟨hflag, hw, -, hkey⟩ := id halike
    refine ⟨(h.touchEntry e).remember ?_, hless, ?_⟩
    · exact hkey.symm.trans (h.cached.key e (by omega) hflag)
    · rintro e' ⟨⟩
      obtain ⟨hun, hused, hmem, hpixel⟩ := hhit halike
      exact ⟨hun, hused, hmem, hpixel⟩
  | none =>
  rw [hfound] at hless
  dsimp only at hless ⊢
  have hseen := h.seenBefore ((rectKey (s.world.ram b) r).1 ^^^ (rectKey (s.world.ram b) r).2)
  generalize s.bcSeenBefore _ = before at hless hseen ⊢
  split at hless
  · next hfirst =>
    rw [if_pos hfirst]
    exact ⟨hseen, hless, by simp⟩
  next hfirst =>
  rw [if_neg hfirst]
  have heven : evenUp (r.right - r.left).toNat < 32768 := by
    unfold evenUp
    omega
  obtain ⟨hnone, hsome⟩ := hseen.bcPlace (m := m) heven (r.bottom - r.top).toNat
  generalize before.2.bcPlace m _ _ = z at hless hnone hsome ⊢
  obtain ⟨_ | e, t⟩ := z
  · exact ⟨hnone rfl, hless, by simp⟩
  obtain ⟨hw, hh, u, hu, hroom, rfl⟩ := hsome e rfl
  dsimp only at hless ⊢
  have hclearu : u.Clear b r := fun k p hk => hclear k p (hless.px hk)
  have hram {q : Pixel} (hq : q ∈ r) : s.world.ram b q = x.bits b q := h.ram_of_clear hclear hq
  obtain ⟨hshows, hnew⟩ := hu.foundNew hroom hw hh (fun q hq => hram hq) fun q hq =>
    (hu.ram_of_clear hclearu hq).trans (hram hq).symm
  refine ⟨hshows, hless.trans (.of_bc rfl rfl rfl), ?_⟩
  rintro e' ⟨⟩
  exact hnew

end PxShows

/-! ## Between memory bitmaps -/

theorem Rect.shift_mem {o q : Pixel} (hq : q ∈ r) : r.shift o q ∈ r.sameAt o := by
  rw [Rect.mem_iff] at hq ⊢
  unfold Rect.shift Rect.sameAt
  dsimp only
  omega

theorem Rect.shift_shift (r : Rect) (o place q : Pixel) :
    (r.sameAt o).shift place (r.shift o q) = r.shift place q := by
  unfold Rect.shift Rect.sameAt
  ext
  · dsimp only
    omega
  · dsimp only
    omega

theorem PxState.shift_held (s : PxState α) (p : PxEntry α) (r : Rect) (q : Pixel) :
    r.shift (s.held p (r.left, r.top)) q = s.held p q := by
  unfold Rect.shift PxState.held
  ext
  · dsimp only
    omega
  · dsimp only
    omega

namespace PxShows

variable {fresh : Bool} {pc : List PxPiece} {o : Pixel} {mix : UInt8 → UInt8 → UInt8}

/-- A source of another bitmap is on the card, outside of the pieces' slots. -/
theorem pxFrom (h : PxShows m (Made pc) x t) (hpieced : PxPieced m d r fresh s pc t) (hne : b ≠ d)
    (hdib : (s.world.heap b).dib = true) (hsize : r.left < r.right)
    (hr : (r.sameAt o).wrapped = r.sameAt o) {j : Option (Fin 16)}
    (hj : ∀ k, j = some k → ∃ p, s.px k = some p ∧ p.bmp = b ∧ (r.sameAt o).wrapped.Inside p.rect)
    (hno : (t.pxTouchRect b (r.sameAt o)).NoCollision b (r.sameAt o)) (force : Bool) :
    PxShows m (Made pc) x (t.pxFrom m d b (r.sameAt o) j force).2 ∧
      PxLess t (t.pxFrom m d b (r.sameAt o) j force).2 ∧
      ∀ place via, (t.pxFrom m d b (r.sameAt o) j force).1 = some (place, via) → ∀ q ∈ r,
        (t.pxFrom m d b (r.sameAt o) j force).2.off.card (r.shift place q) =
            x.bits b (r.shift o q) ∧
          ∀ k p, (t.pxFrom m d b (r.sameAt o) j force).2.px k = some p → p.bmp = d →
            r.shift place q ∉
              OffScreen.slot ((t.pxFrom m d b (r.sameAt o) j force).2.entry p.e) := by
  rw [hr] at hj
  unfold PxState.pxFrom
  rw [hr]
  cases j with
  | some j =>
    refine ⟨h, .refl t, fun place via heq q hq => ?_⟩
    obtain ⟨p, hp, heq⟩ := Option.map_eq_some_iff.1 heq
    obtain ⟨hp, hbmp⟩ := Option.filter_eq_some_iff.1 hp
    have hbmp := of_decide_eq_true hbmp
    obtain ⟨rfl, rfl⟩ := Prod.mk.inj heq
    obtain ⟨p₀, hp₀, -, hin⟩ := hj j rfl
    obtain rfl : p = p₀ := by
      obtain ⟨-, hold, -⟩ | ⟨-, hd, -⟩ := hpieced.making.px hp
      · exact Option.some.inj (hold.symm.trans hp₀)
      · exact absurd (hbmp.symm.trans hd) hne
    have hmem := hin.mem (Rect.shift_mem (o := o) hq)
    rw [← r.shift_shift o, t.shift_held]
    refine ⟨?_, fun k p' hk hd hin' => ?_⟩
    · rw [← hbmp]
      refine h.slot hp (fun ⟨a, ha, hmade, heq⟩ => hne ?_) _ hmem
      exact hbmp.symm.trans (hpieced.making.of_made a ha hmade p (heq ▸ hp))
    · have hslot := h.held_mem hp hmem
      refine h.off.bcs.apart p.e p'.e (fun heq => hne ?_) hslot.1 (h.holds.used hk) _ hslot.2 hin'
      obtain rfl := h.holds.own hp hk heq
      obtain rfl : p = p' := Option.some.inj (hp.symm.trans hk)
      exact hbmp.symm.trans hd
  | none =>
    dsimp only
    split
    · exact ⟨h, .refl t, by simp⟩
    next hbounds =>
    have hdib' : (t.world.heap b).dib = true := by rwa [hpieced.making.heap]
    have hmax := (h.sound b hdib').2.2
    have htouch := h.touchRect b (r.sameAt o)
    have hless := (PxGoes.touchRect h.holds b (r.sameAt o)).toPxLess
    have hclear : (t.pxTouchRect b (r.sameAt o)).Clear b (r.sameAt o) := fun k p hk =>
      hr ▸ h.holds.touchRect_clear b (r.sameAt o) hk
    have hwidth : (r.sameAt o).left < (r.sameAt o).right := by
      unfold Rect.sameAt
      dsimp only
      omega
    have hlook := htouch.pxLookup hwidth (by omega) hclear hno force
    generalize t.pxTouchRect b (r.sameAt o) = u at htouch hless hlook ⊢
    generalize u.pxLookup m b (r.sameAt o) force = z at hlook ⊢
    obtain ⟨_ | e, v⟩ := z
    · exact ⟨hlook.1, hless.trans hlook.2.1, by simp⟩
    · obtain ⟨hshows, hless', hfound⟩ := hlook
      have hfound := hfound e rfl
      dsimp only at hshows hless' hfound ⊢
      refine ⟨hshows, hless.trans hless', fun place via heq q hq => ?_⟩
      obtain ⟨rfl, rfl⟩ := Prod.mk.inj (Option.some.inj heq)
      have hmem := Rect.shift_mem (o := o) hq
      rw [← r.shift_shift o]
      refine ⟨hfound.pixel _ hmem, fun k p hk hd hin => ?_⟩
      exact hshows.off.bcs.apart e p.e (fun heq => hfound.unowned k p hk heq.symm) hfound.used
        (hshows.holds.used hk) _ (hfound.mem _ hmem) hin

/-- A rectangle that a proxy holds is one piece, if it can be drawn at all. -/
theorem pieces_held (h : PxShows m M x s) {k : Fin 16} {p : PxEntry α} (hk : s.px k = some p)
    (hbmp : p.bmp = d) (hin : r.Inside p.rect) (fresh : Bool) :
    s.pxPieces m d r fresh = ([], s) ∨ s.pxPieces m d r fresh = ([⟨k, r, false⟩], s) := by
  have hnone (hplan : s.pxPlan d r fresh = (none, s)) : s.pxPieces m d r fresh = ([], s) := by
    unfold PxState.pxPieces
    rw [hplan]
  have hone (hplan : s.pxPlan d r fresh = (some ([], [⟨k, r, false⟩]), s)) :
      s.pxPieces m d r fresh = ([⟨k, r, false⟩], s) := by
    unfold PxState.pxPieces
    rw [hplan]
    rfl
  unfold PxState.pxPlan at hnone hone
  split_ifs at hnone hone with hok
  · exact .inl (hnone rfl)
  obtain ⟨hleft, htop⟩ := PxState.pxOk_size ((Bool.not_eq_false _).mp hok)
  have hover : (k, p) ∈ s.pxOver d r := mem_pxOver.2 ⟨hk, hbmp, by
    unfold Rect.Inside at hin
    unfold Rect.Overlaps
    omega⟩
  generalize s.pxOver d r = l at hnone hone hover
  match l, hnone, hone, hover with
  | [], _, _, hover => exact absurd hover (by simp)
  | [(k', p')], _, hone, hover =>
    obtain ⟨rfl, rfl⟩ := Prod.mk.inj (List.mem_singleton.1 hover)
    refine .inr (hone ?_)
    dsimp only
    rw [if_neg (by rw [h.valid hk]; simp)]
    unfold PxState.pxCut
    dsimp only
    rw [if_pos hin]
  | _ :: _ :: _, hnone, _, _ => exact .inl (hnone rfl)

/-- `m8_px_m2m` inside a bitmap, where a proxy holds where it goes to. -/
theorem pxM2m_self (h : PxShows m (fun _ => False) x s) {k : Fin 16} {p : PxEntry α}
    (hk : s.px k = some p) (hbmp : p.bmp = d) (hin : r.Inside p.rect)
    (hr : (r.sameAt o).wrapped = r.sameAt o) :
    PxEnds m x (x.ink d r fun q => mix (x.bits d (r.shift o q)))
      (s.pxM2m m d r d o mix fresh) := by
  obtain ⟨hsame, hfound⟩ := h.find d (r.sameAt o)
  rw [hr] at hfound
  unfold PxState.pxM2m
  dsimp only
  rw [hsame]
  split
  · exact .undone h
  obtain hpieces | hpieces := h.pieces_held hk hbmp hin
    (fresh && ((s.pxFind d (r.sameAt o)).1.isSome || s.pxHas d))
  · rw [hpieces]
    exact .undone h
  rw [hpieces]
  dsimp only
  rw [if_neg (by simp)]
  have hdrop : s.pxPiecesDrop d [⟨k, r, false⟩] = s := s.piecesDrop_same d (by simp)
  have hlive : s.pxPiecesLive d [⟨k, r, false⟩] = (true, s) := by
    unfold PxState.pxPiecesLive
    rw [if_pos (by simp [hk, hbmp])]
  cases hj : (s.pxFind d (r.sameAt o)).1 with
  | none =>
    have hfrom (force : Bool) : s.pxFrom m d d (r.sameAt o) none force = (none, s) :=
      if_pos (.inl rfl)
    rw [hfrom]
    dsimp only
    rw [hdrop]
    exact .undone h
  | some j =>
    obtain ⟨p', hp', hbmp', hin'⟩ := hfound j hj
    have hfrom (force : Bool) : s.pxFrom m d d (r.sameAt o) (some j) force =
        (some (s.held p' ((r.sameAt o).left, (r.sameAt o).top), some p'.e), s) := by
      unfold PxState.pxFrom
      dsimp only
      rw [hp', Option.filter_some, if_pos (decide_eq_true hbmp')]
      rfl
    rw [hfrom]
    dsimp only
    rw [hlive]
    have hdrawn := h.drawAt (some p'.e) (a := ⟨k, r, false⟩) hk (fun q hq => hin.mem hq)
      (fun hM => hM.elim)
      (fun card q => mix (card (r.shift (s.held p' ((r.sameAt o).left, (r.sameAt o).top)) q)))
      (f := fun q => mix (x.bits d (r.shift o q))) fun q hq => by
        rw [← r.shift_shift o, s.shift_held, h.slot hk id q (hin.mem hq),
          h.slot hp' id _ (hin'.mem (Rect.shift_mem hq)), hbmp']
    rw [hbmp] at hdrawn
    exact .done (hdrawn.none_new fun j hj => hj.1.elim)

/-- And where the bitmap has no proxy. -/
theorem pxM2m_none (h : PxShows m (fun _ => False) x s)
    (hnone : ∀ k p, s.px k = some p → p.bmp ≠ d) :
    PxEnds m x (x.ink d r fun q => mix (x.bits d (r.shift o q)))
      (s.pxM2m m d r d o mix fresh) := by
  have hhas : s.pxHas d = false := by
    unfold PxState.pxHas
    cases hfirst : s.pxFirst fun p => decide (p.bmp = d) with
    | none => rfl
    | some k =>
      obtain ⟨p, hk, hbmp⟩ := PxState.pxFirst_some hfirst
      exact absurd (of_decide_eq_true hbmp) (hnone k p hk)
  obtain ⟨hsame, hfound⟩ := h.find d (r.sameAt o)
  have hfind : (s.pxFind d (r.sameAt o)).1 = none := by
    cases hj : (s.pxFind d (r.sameAt o)).1 with
    | none => rfl
    | some k =>
      obtain ⟨p, hk, hbmp, -⟩ := hfound k hj
      exact absurd hbmp (hnone k p hk)
  have hover : s.pxOver d r = [] := List.eq_nil_iff_forall_not_mem.2 fun a ha => by
    obtain ⟨k, p⟩ := a
    obtain ⟨hk, hbmp, -⟩ := mem_pxOver.1 ha
    exact hnone k p hk hbmp
  have hpieces : s.pxPieces m d r
      (fresh && ((s.pxFind d (r.sameAt o)).1.isSome || s.pxHas d)) = ([], s) := by
    rw [hfind, hhas, Option.isSome_none, Bool.or_self, Bool.and_false]
    unfold PxState.pxPieces PxState.pxPlan
    rw [hover]
    split_ifs <;> rfl
  unfold PxState.pxM2m
  dsimp only
  rw [hsame, hpieces]
  split <;> exact .undone h

theorem pxM2m (h : PxShows m (fun _ => False) x s)
    (hr : (r.sameAt o).wrapped = r.sameAt o)
    (hfresh : fresh = true → ∀ a v w, mix a v = mix a w)
    (hself : b = d → (∀ k p, s.px k = some p → p.bmp ≠ d) ∨
      ∃ k p, s.px k = some p ∧ p.bmp = d ∧ r.Inside p.rect)
    (hnot : ¬ s.PiecesAgain m d r (fresh && ((s.pxFind b (r.sameAt o)).1.isSome || s.pxHas d)))
    (hno : ((s.pxPieces m d r (fresh && ((s.pxFind b (r.sameAt o)).1.isSome ||
      s.pxHas d))).2.pxTouchRect b (r.sameAt o)).NoCollision b (r.sameAt o)) :
    PxEnds m x (x.ink d r fun q => mix (x.bits b (r.shift o q)))
      (s.pxM2m m d r b o mix fresh) := by
  by_cases hne : b = d
  · rw [hne]
    obtain hnone | ⟨k, p, hk, hbmp, hin⟩ := hself hne
    · exact h.pxM2m_none hnone
    · exact h.pxM2m_self hk hbmp hin hr
  obtain ⟨hsame, hfound⟩ := h.find b (r.sameAt o)
  unfold PxState.pxM2m
  dsimp only
  rw [hsame]
  split
  · exact .undone h
  next hoff =>
  have hdib : (s.world.heap b).dib = true :=
    (Bool.not_eq_false _).mp fun hdib => hoff (.inr (.inr (.inr (.inr hdib))))
  have hsize : r.left < r.right := by
    by_contra hle
    exact hoff (.inr (.inr (.inl (by omega))))
  generalize hj : (s.pxFind b (r.sameAt o)).1 = j at *
  have hmade : ∀ a ∈ (s.pxPieces m d r (fresh && (j.isSome || s.pxHas d))).1, a.made = true →
      ∀ c v w, mix c v = mix c w := by
    intro a ha hmade
    cases hg : (fresh && (j.isSome || s.pxHas d)) with
    | false =>
      rw [hg] at ha
      exact absurd (hmade.symm.trans (PxState.pxPieces_fresh m s d r h.holds a ha)) (by simp)
    | true => exact hfresh (Bool.and_eq_true_iff.1 hg).1
  generalize (fresh && (j.isSome || s.pxHas d)) = g at *
  have hshows := h.pieces d r g
  have hend := h.holds.pieces m d r g
  generalize s.pxPieces m d r g = y at *
  obtain ⟨pc, t⟩ := y
  dsimp only at hshows hend hmade hno ⊢
  split
  · next hnil =>
    subst hnil
    exact .undone hshows.of_nil
  next hnil =>
  have hpieced := hend.resolve_left fun hleft => hnil hleft.1
  have hfrom := hshows.pxFrom hpieced hne hdib hsize hr hfound hno (!pc.any PxPiece.made)
  generalize t.pxFrom m d b (r.sameAt o) j _ = z at hfrom ⊢
  obtain ⟨_ | ⟨place, via⟩, u⟩ := z
  · obtain ⟨hfrom, hless, -⟩ := hfrom
    exact .undone (hfrom.dropped fun a ha hmade p hp =>
      hpieced.making.of_made a ha hmade p (hless.px hp))
  obtain ⟨hfrom, hless, hsource⟩ := hfrom
  have hsource := hsource place via rfl
  dsimp only at hfrom hless hsource ⊢
  obtain ⟨hgone, hlive, hnone⟩ | ⟨hsame, hlive⟩ := hfrom.piecesLive fun a ha hmade p hp =>
    hpieced.making.of_made a ha hmade p (hless.px hp)
  · generalize u.pxPiecesLive d pc = z at hgone hlive hnone ⊢
    obtain ⟨_ | _, v⟩ := z
    · dsimp only at hlive hnone ⊢
      rw [v.piecesDrop_same d hnone]
      exact .undone hlive
    · exact absurd hgone (by simp)
  · obtain ⟨hcutting, hcover⟩ := hpieced.cutting_less (hpieced.nodup hnot) hless hlive
    rw [hsame]
    refine .done (hfrom.drawn (Z := fun c => ∃ k p, u.px k = some p ∧ p.bmp = d ∧
      c ∈ OffScreen.slot (u.entry p.e)) hcutting hcover via
      (fun k p hk hbmp c hc => ⟨k, p, hk, hbmp, hc⟩) (fun card hcard q hq v => ?_)
      fun a ha hamade q _ => hmade a ha hamade _)
    obtain ⟨hpixel, hout⟩ := hsource q hq
    refine congrArg (mix · v) ((hcard _ ?_).trans hpixel)
    rintro ⟨k, p, hk, hbmp, hin⟩
    exact hout k p hk hbmp hin

/-! ## One pixel -/

end PxShows

/-! ## The screen into a memory bitmap -/

namespace GdiSpec

theorem set_self (x : GdiSpec α) (b : α) : x.set b (x.bits b) = x :=
  ext_of (fun _ _ => by unfold set; rw [Function.update_eq_self]) rfl rfl

theorem set_set (x : GdiSpec α) (b : α) (f g : Pixel → UInt8) : (x.set b f).set b g = x.set b g :=
  ext_of (fun _ _ => by unfold set; rw [Function.update_idem]) rfl rfl

theorem set_bits_self (x : GdiSpec α) (b : α) (f : Pixel → UInt8) : (x.set b f).bits b = f := by
  unfold set
  dsimp only
  rw [Function.update_self]

theorem set_bits_of_ne (x : GdiSpec α) {b d : α} (hne : d ≠ b) (f : Pixel → UInt8) :
    (x.set b f).bits d = x.bits d := by
  unfold set
  dsimp only
  rw [Function.update_of_ne hne]

/-- Pixels given inside a rectangle that is drawn over do not matter. -/
theorem ink_set (x : GdiSpec α) (d : α) (r : Rect) {f : Pixel → UInt8}
    (hout : ∀ q ∉ r, f q = x.bits d q) (g : Pixel → UInt8) :
    (x.set d f).ink d r (fun q _ => g q) = x.ink d r fun q _ => g q := by
  refine ext_of (fun b q => ?_) rfl rfl
  by_cases hb : b = d
  · subst hb
    rw [ink_bits_self, ink_bits_self, x.set_bits_self]
    split_ifs with hq
    · rfl
    · exact hout q hq
  · rw [ink_bits_of_ne _ _ _ hb, ink_bits_of_ne _ _ _ hb, x.set_bits_of_ne hb]

end GdiSpec

namespace PxShows

/-- A filled proxy is dropped as it is : the bitmap has there what is in RAM. -/
theorem dropLost (h : PxShows m (fun _ => False) x s) {k : Fin 16} {p : PxEntry α}
    (hk : s.px k = some p) (keep : Bool) : PxShows m (fun _ => False)
      (x.set p.bmp (p.rect.paint (s.world.ram p.bmp) (x.bits p.bmp))) (s.pxDrop k keep) := by
  have hless := PxLess.drop h.holds k keep
  obtain ⟨hworld, hcard, hon⟩ := s.pxDrop_world k keep
  have hne {j : Fin 16} {q : PxEntry α} (hj : (s.pxDrop k keep).px j = some q) : j ≠ k := by
    rintro rfl
    rw [s.pxDrop_self] at hj
    exact absurd hj (by simp)
  have hbits {c : α} {q : Pixel} (hout : c ≠ p.bmp ∨ q ∉ p.rect) :
      (x.set p.bmp (p.rect.paint (s.world.ram p.bmp) (x.bits p.bmp))).bits c q = x.bits c q := by
    by_cases hc : c = p.bmp
    · subst hc
      rw [x.set_bits_self]
      exact Rect.paint_not_mem (hout.resolve_left fun hne => hne rfl)
    · rw [x.set_bits_of_ne hc]
  refine ⟨h.holds.less hless, ?_, hon.trans h.on, by rw [hworld]; exact h.sound, fun hj => ?_,
    fun hj => ?_, fun _ => False.elim, fun {j q'} hj _ q hq => ?_, fun c q hall => ?_,
    fun c hc => ?_, h.cached.keeps (.drop s k keep)⟩
  · rw [PxState.pxDrop_some hk]
    cases keep
    · exact h.off.bcDrop p.e
    · exact h.off
  · have hvalid := h.valid (hless.px hj)
    unfold PxState.pxValid at hvalid ⊢
    rwa [hworld]
  · rw [hless.entry hj]
    exact h.fits (hless.px hj)
  · have hj' := hless.px hj
    have hout : q'.bmp ≠ p.bmp ∨ q ∉ p.rect := by
      by_cases hb : q'.bmp = p.bmp
      · exact .inr (h.holds.apart hj' hk (hne hj) hb q hq)
      · exact .inl hb
    rw [hbits hout, hcard, hless.held hj]
    exact h.slot hj' id q hq
  · rw [hworld]
    by_cases hin : c = p.bmp ∧ q ∈ p.rect
    · obtain ⟨rfl, hq⟩ := hin
      rw [x.set_bits_self, Rect.paint_mem hq]
    · rw [hbits (not_and_or.1 hin)]
      refine h.ram c q fun j q' hj hbmp hq => ?_
      have hjk : j ≠ k := by
        rintro rfl
        obtain rfl : p = q' := Option.some.inj (hk.symm.trans hj)
        exact hin ⟨hbmp.symm, hq⟩
      exact hall j q' ((s.pxDrop_of_ne hjk keep).trans hj) hbmp hq
  · rw [hcard]
    exact h.screen c hc

end PxShows

/-- The loop over the overlapped proxies : what the proxy that lends its slot had is to be drawn. -/
def PxLends (m : LendMode) (x : GdiSpec α) (b : α) (r : Rect) (we : ℕ)
    (z : Option (Fin 160) × PxState α) : Prop :=
  ∃ f : Pixel → UInt8, (∀ q ∉ r, f q = x.bits b q) ∧ (z.1 = none → f = x.bits b) ∧
    PxShows m (fun _ => False) (x.set b f) z.2 ∧ (z.2.world.heap b).dib = true ∧
      ∀ e, z.1 = some e → z.2.Unowned e ∧ (z.2.entry e).w = we ∧
        (z.2.entry e).h = r.bottom - r.top

theorem PxLends.next {we : ℕ} {z : Option (Fin 160) × PxState α} (h : PxLends m x b r we z)
    (k : Fin 16) : PxLends m x b r we (PxState.pxLendAt b r we z k) := by
  obtain ⟨f, hout, hnone, hshows, hdib, hlent⟩ := h
  unfold PxState.pxLendAt
  cases hk : z.2.px k with
  | none => exact ⟨f, hout, hnone, hshows, hdib, hlent⟩
  | some o =>
    dsimp only
    split_ifs with hmeets hlends
    · obtain ⟨hfree, hin, hw, hh⟩ := hlends
      obtain ⟨rfl, -⟩ := hmeets
      have hdrop := hshows.dropLost hk true
      rw [x.set_set, x.set_bits_self] at hdrop
      refine ⟨_, fun q hq => ?_, by simp, hdrop, ?_, ?_⟩
      · rw [Rect.paint_not_mem fun hq' => hq (hin.mem hq')]
        exact hout q hq
      · rwa [(z.2.pxDrop_world k true).1]
      · rintro e ⟨⟩
        have hentry : (z.2.pxDrop k true).entry = z.2.entry := by
          rw [PxState.pxDrop_some hk]
          rfl
        refine ⟨fun j q hj heq => ?_, by rw [hentry]; exact hw, ?_⟩
        · have hne : j ≠ k := by
            rintro rfl
            rw [PxState.pxDrop_self] at hj
            exact absurd hj (by simp)
          exact hne (hshows.holds.own ((PxLess.drop hshows.holds k true).px hj) hk heq)
        · rw [hentry, ← hh]
          exact (hshows.fits hk).2
    · have hgoes := PxGoes.writeback hshows.holds k true
      refine ⟨f, hout, hnone, hshows.writeback k true, by rwa [hgoes.heap], fun e he => ?_⟩
      obtain ⟨hun, hw, hh⟩ := hlent e he
      dsimp only
      rw [z.2.pxWriteback_entry k true hun]
      exact ⟨hgoes.toPxLess.unowned hun, hw, hh⟩
    · exact ⟨f, hout, hnone, hshows, hdib, hlent⟩

theorem PxLends.foldl {we : ℕ} : ∀ (l : List (Fin 16)) {z : Option (Fin 160) × PxState α},
    PxLends m x b r we z → PxLends m x b r we (l.foldl (PxState.pxLendAt b r we) z)
  | [], _, h => h
  | k :: l, _, h => PxLends.foldl l (h.next k)

theorem PxShows.lend (h : PxShows m (fun _ => False) x s) (hdib : (s.world.heap b).dib = true)
    (r : Rect) (we : ℕ) : PxLends m x b r we (s.pxLend b r we) :=
  .foldl _ ⟨x.bits b, fun _ _ => rfl, fun _ => rfl, by rwa [x.set_self], hdib, by simp⟩

theorem LendMode.Listed.width_le (hm : m.Listed) : m.width ≤ 1024 := by
  unfold LendMode.Listed m8Modes at hm
  simp only [List.mem_cons, Prod.mk.injEq, List.not_mem_nil, or_false] at hm
  omega

/-- With a slot to reuse there is a proxy. -/
theorem PxState.pxNew_lent (s : PxState α) (b : α) {r : Rect} {lead : ℕ} (e : Fin 160)
    (hfits : ¬ M8_PX_MAX_PX < evenUp (lead + (r.right - r.left).toNat) * (r.bottom - r.top).toNat) :
    (s.pxNew m b r lead (some e)).1 = some s.pxNext := by
  unfold PxState.pxNew
  dsimp only
  rw [if_neg hfits]

namespace PxShows

variable {o : Pixel}

/-- The engine copies the screen into a slot. -/
theorem filled (h : PxShows m M x s) {k : Fin 16} {p : PxEntry α} (hk : s.px k = some p)
    (hr : ∀ q ∈ r, q ∈ p.rect) (hM : M k → ∀ q ∈ p.rect, q ∈ r) (src dst : Pixel) (w hgt : ℤ)
    (hslot : ∀ c ∈ (Rect.mk dst.1 dst.2 (dst.1 + w) (dst.2 + hgt)),
      c ∈ OffScreen.slot (s.entry p.e))
    (hfrom : ∀ q ∈ r, s.held p q ∈ (Rect.mk dst.1 dst.2 (dst.1 + w) (dst.2 + hgt)) ∧
      (src.1 + ((s.held p q).1 - dst.1), src.2 + ((s.held p q).2 - dst.2)) = r.shift o q)
    (hout : ∀ q ∈ p.rect, q ∉ r → s.held p q ∉ Rect.mk dst.1 dst.2 (dst.1 + w) (dst.2 + hgt))
    (hscreen : (r.sameAt o).Inside (OffScreen.screen m)) :
    PxShows m (fun j => M j ∧ j ≠ k) (x.ink p.bmp r fun q _ => x.screen (r.shift o q))
      (s.pxFilled m k src dst w hgt) := by
  unfold PxState.pxFilled
  rw [hk]
  refine (h.touchEntry p.e).redraw hk _ _ _ _
    (fun c hc => Rect.paint_not_mem fun hin => hc (hslot c hin)) (fun q hq => ?_)
    (fun q hq => Rect.paint_not_mem fun hin => hq (hr q hin)) (fun _ _ _ => rfl)
    (fun hun => absurd hun Bool.false_ne_true) fun _ _ => rfl
  have hheld : (s.touchEntry m p.e).held p q = s.held p q := rfl
  rw [hheld]
  by_cases hin : q ∈ r
  · obtain ⟨hmem, hplace⟩ := hfrom q hin
    rw [Rect.paint_mem hmem, Rect.paint_mem hin, hplace]
    exact h.screen _ (hscreen.mem (Rect.shift_mem hin))
  · rw [Rect.paint_not_mem (hout q hq hin), Rect.paint_not_mem hin]
    exact h.slot hk (fun hMk => hin (hM hMk q hq)) q hq

/-- Into a new slot. -/
theorem pxSave_new (h : PxShows m (fun _ => False) x s) (hm : m.Listed)
    (hdib : (s.world.heap d).dib = true) (hleft : r.left < r.right) (htop : r.top < r.bottom)
    (hwidth : 0 ≤ o.1 ∧ o.1 + (r.right - r.left) ≤ m.width)
    (hfits : ¬ M8_PX_MAX_PX < evenUp ((o.1 - o.1 / 2 * 2).toNat + (r.right - r.left).toNat) *
      (r.bottom - r.top).toNat)
    (hscreen : (r.sameAt o).Inside (OffScreen.screen m)) :
    let we := evenUp ((o.1 - o.1 / 2 * 2).toNat + (r.right - r.left).toNat)
    let t := s.pxLend d r we
    PxEnds m x (x.ink d r fun q _ => x.screen (r.shift o q))
      (match t.2.pxNew m d r (o.1 - o.1 / 2 * 2).toNat t.1 with
        | (none, s) => (false, s)
        | (some k, s) =>
          (true, ((s.px k).map fun p => s.pxFilled m k (o.1 / 2 * 2, o.2)
            ((s.entry p.e).x, (s.entry p.e).y) we (r.bottom - r.top)).getD s)) := by
  intro we t
  have hmode := hm.width_le
  have hwide : we < 32768 := by
    unfold we evenUp
    omega
  have hlends := h.lend hdib r we
  have hgone := (h.holds.lend d r we).gone
  unfold t
  generalize s.pxLend d r we = y at hlends hgone ⊢
  obtain ⟨e, u⟩ := y
  obtain ⟨f, hout, hnone, hshows, hdib', hlent⟩ := hlends
  dsimp only at hnone hshows hdib' hlent hgone ⊢
  have hnew := hshows.pxNew d (o.1 - o.1 / 2 * 2).toNat e hleft htop hwide hdib' hlent
    fun j q hj => hgone j (List.mem_finRange j) q hj
  have hlentNew : e ≠ none → (u.pxNew m d r (o.1 - o.1 / 2 * 2).toNat e).1 = some u.pxNext := by
    cases e with
    | none => exact fun hne => absurd rfl hne
    | some e => exact fun _ => u.pxNew_lent d e hfits
  generalize u.pxNew m d r (o.1 - o.1 / 2 * 2).toNat e = z at hnew hlentNew ⊢
  generalize u.pxNext = k at hnew hlentNew
  obtain ⟨hfail, hshows'⟩ | ⟨hk, hshows', p, hp, rfl, rfl, hlead, hw, hh⟩ := hnew
  · obtain ⟨_ | _, v⟩ := z
    · by_cases he : e = none
      · rw [hnone he, x.set_self] at hshows'
        exact .undone hshows'
      · exact absurd (hlentNew he) (by simp)
    · exact absurd hfail (by simp)
  obtain ⟨_ | k', v⟩ := z
  · exact absurd hk (by simp)
  obtain rfl : k' = k := Option.some.inj hk
  dsimp only at hshows' hp hw hh ⊢
  rw [hp]
  have heven := le_evenUp ((o.1 - o.1 / 2 * 2).toNat + (p.rect.right - p.rect.left).toNat)
  have hslots := le_evenUp (v.entry p.e).w
  have hall := hshows'.filled (o := o) hp (fun q hq => hq) (fun _ q hq => hq)
    (o.1 / 2 * 2, o.2) ((v.entry p.e).x, (v.entry p.e).y) we (p.rect.bottom - p.rect.top)
    (fun c hc => ?_) (fun q hq => ?_) (fun q hq hout => absurd hq hout) hscreen
  · have hsame : ((x.set p.bmp f).ink p.bmp p.rect fun q _ =>
        (x.set p.bmp f).screen (p.rect.shift o q)) =
        x.ink p.bmp p.rect fun q _ => x.screen (p.rect.shift o q) :=
      x.ink_set p.bmp p.rect hout _
    rw [hsame] at hall
    exact .done (hall.none_new fun j hj => absurd (hj.1.resolve_right id) hj.2)
  · rw [Rect.mem_iff] at hc ⊢
    unfold OffScreen.slot
    dsimp only at hc ⊢
    omega
  · rw [Rect.mem_iff] at hq ⊢
    unfold PxState.held Rect.shift
    dsimp only
    refine ⟨by omega, ?_⟩
    ext
    · dsimp only
      omega
    · dsimp only
      omega

theorem pxSave (hm : m.Listed) (h : PxShows m (fun _ => False) x s) (hr : r.wrapped = r)
    (hscreen : (r.sameAt o).Inside (OffScreen.screen m)) :
    PxEnds m x (x.ink d r fun q _ => x.screen (r.shift o q)) (s.pxSave m d r o.1 o.2) := by
  obtain ⟨hsame, hfound⟩ := h.find d r
  rw [hr] at hfound
  unfold PxState.pxSave
  dsimp only
  split
  · exact .undone h
  next hno =>
  have hok : s.pxOk d r = true := (Bool.not_eq_false _).mp fun hok => hno (.inl hok)
  obtain ⟨hleft, htop⟩ := PxState.pxOk_size hok
  have hdib := (PxState.pxOk_inside hok).1
  generalize s.pxFind d r = z at hsame hfound ⊢
  obtain ⟨_ | k, t⟩ := z
  · obtain rfl : t = s := hsame
    dsimp only
    split
    · exact .undone h
    next hfits =>
    have hwithin : o.1 + (r.right - r.left) ≤ m.width := hscreen.2.2.1
    exact h.pxSave_new hm hdib hleft htop (by omega) hfits hscreen
  · obtain rfl : t = s := hsame
    obtain ⟨p, hp, rfl, hin⟩ := hfound k rfl
    dsimp only
    rw [hp]
    have hall := h.filled (o := o) hp (fun q hq => hin.mem hq) (fun hM => hM.elim) o
      (t.held p (r.left, r.top)) (r.right - r.left) (r.bottom - r.top) (fun c hc => ?_)
      (fun q hq => ?_) (fun q hq hout hin' => hout ?_) hscreen
    · exact .done (hall.none_new fun j hj => hj.1.elim)
    · have hq : t.unheld p c ∈ p.rect := hin.mem (by
        rw [Rect.mem_iff] at hc ⊢
        unfold PxState.held at hc
        unfold PxState.unheld
        dsimp only at hc ⊢
        omega)
      have hmem := (h.held_mem hp hq).2
      rwa [t.held_unheld] at hmem
    · rw [Rect.mem_iff] at hq ⊢
      unfold PxState.held Rect.shift
      dsimp only
      refine ⟨by omega, ?_⟩
      ext
      · dsimp only
        omega
      · dsimp only
        omega
    · rw [Rect.mem_iff] at hin' ⊢
      unfold PxState.held at hin'
      dsimp only at hin'
      omega

theorem shift_sameAt {o c : Pixel} (hc : c ∈ r.sameAt o) :
    (r.sameAt o).shift (r.left, r.top) c ∈ r := by
  rw [Rect.mem_iff] at hc ⊢
  unfold Rect.shift
  unfold Rect.sameAt at hc ⊢
  dsimp only at hc ⊢
  omega

theorem pxRestore (h : PxShows m (fun _ => False) x s) (hr : r.wrapped = r)
    (hscreen : (r.sameAt o).Inside (OffScreen.screen m)) (mix : UInt8 → UInt8 → UInt8) :
    PxEnds m x (x.onScreen (r.sameAt o) fun c =>
      mix (x.bits b ((r.sameAt o).shift (r.left, r.top) c))) (s.pxRestore m b r o mix) := by
  obtain ⟨hsame, hfound⟩ := h.find b r
  rw [hr] at hfound
  unfold PxState.pxRestore
  generalize s.pxFind b r = z at hsame hfound ⊢
  obtain ⟨_ | k, t⟩ := z
  · obtain rfl : t = s := hsame
    exact .undone h
  obtain rfl : t = s := hsame
  obtain ⟨p, hp, rfl, hin⟩ := hfound k rfl
  dsimp only
  rw [hp]
  refine .done ((h.touchEntry p.e).cardInk hscreen fun c hc v => ?_)
  have hmem := hin.mem (shift_sameAt hc)
  have hplace : (r.sameAt o).shift (t.held p (r.left, r.top)) c =
      t.held p ((r.sameAt o).shift (r.left, r.top) c) := by
    unfold Rect.shift PxState.held
    ext
    · dsimp only
      omega
    · dsimp only
      omega
  show mix (t.off.card ((r.sameAt o).shift (t.held p (r.left, r.top)) c)) v = _
  rw [hplace, h.slot hp id _ hmem]

theorem bcDraw (h : PxShows m (fun _ => False) x s)
    (hscreen : (r.sameAt o).Inside (OffScreen.screen m)) (hsize : r.left < r.right)
    (hwide : r.right - r.left < 32767) (mix : UInt8 → UInt8 → UInt8) (hclear : s.Clear b r)
    (hno : s.NoCollision b r) : PxEnds m x (x.onScreen (r.sameAt o) fun c =>
      mix (x.bits b ((r.sameAt o).shift (r.left, r.top) c))) (s.bcDraw m b r o mix) := by
  have hlook := h.pxLookup hsize hwide hclear hno false
  unfold PxState.bcDraw
  generalize s.pxLookup m b r false = z at hlook ⊢
  obtain ⟨_ | e, t⟩ := z
  · exact .undone hlook.1
  obtain ⟨hshows, -, hfound⟩ := hlook
  have hfound := hfound e rfl
  refine .done (hshows.cardInk hscreen fun c hc v => ?_)
  have hpixel := hfound.pixel _ (shift_sameAt hc)
  have hplace : r.shift ((t.entry e).x, (t.entry e).y) ((r.sameAt o).shift (r.left, r.top) c) =
      (r.sameAt o).shift ((t.entry e).x, (t.entry e).y) c := by
    unfold Rect.shift Rect.sameAt
    ext
    · dsimp only
      omega
    · dsimp only
      omega
  rw [hplace] at hpixel
  rw [hpixel]

/-- `m8_px_upload` : the slot has what is in RAM. -/
theorem pxUpload (h : PxShows m (fun _ => False) x s) (b : α) :
    PxShows m (fun _ => False) x (s.pxUpload m b).2 := by
  unfold PxState.pxUpload
  dsimp only
  split
  · exact h
  next hno =>
  have hok : s.pxOk b (s.pxWhole b) = true :=
    (Bool.not_eq_false _).mp fun hok => hno (.inr (.inr (.inl hok)))
  obtain ⟨hleft, htop⟩ := PxState.pxOk_size hok
  obtain ⟨hdib, -⟩ := PxState.pxOk_inside hok
  have hmax := (h.sound b hdib).2.2
  have horigin : (s.pxWhole b).left = 0 ∧ (s.pxWhole b).top = 0 := ⟨rfl, rfl⟩
  have hwide : evenUp (0 + ((s.pxWhole b).right - (s.pxWhole b).left).toNat) < 32768 := by
    have hright : (s.pxWhole b).right = asInt (s.world.heap b).width := rfl
    unfold evenUp
    omega
  have hclear : s.Clear b (s.pxWhole b) := by
    intro k p hk hbmp
    refine absurd ?_ fun hhas : s.pxHas b = true => hno (.inr (.inr (.inr (.inr (.inr hhas)))))
    unfold PxState.pxHas PxState.pxFirst
    rw [List.find?_isSome]
    exact ⟨k, List.mem_finRange k, by simp [hk, hbmp]⟩
  have hnew := h.pxNew (m := m) b 0 none hleft htop hwide hdib (by simp) hclear
  generalize s.pxWhole b = r at *
  generalize s.pxNext = k at hnew
  generalize s.pxNew m b r 0 none = z at hnew ⊢
  obtain ⟨hfail, hshows⟩ | ⟨hk, hshows, p, hp, rfl, rfl, hlead, hw, hh⟩ := hnew
  · obtain ⟨_ | _, t⟩ := z
    · exact hshows
    · exact absurd hfail (by simp)
  obtain ⟨_ | k', t⟩ := z
  · exact absurd hk (by simp)
  obtain rfl : k' = k := Option.some.inj hk
  dsimp only at hshows hp hw hh ⊢
  rw [hp]
  have hun : p.unfilled = true := hshows.new hp (.inl rfl)
  have hram (q : Pixel) (hq : q ∈ p.rect) : t.world.ram p.bmp q = x.bits p.bmp q :=
    hshows.ram _ q fun j p' hj hbmp hin => by
      by_cases hne : j = k'
      · subst hne
        obtain rfl : p = p' := Option.some.inj (hp.symm.trans hj)
        exact hun
      · exact absurd hq (hshows.holds.apart hj hp hne hbmp q hin)
  have hall := hshows.redraw hp (x.bits p.bmp) ((OffScreen.slot (t.entry p.e)).paint
      (fun q => t.world.ram p.bmp (q.1 - (t.entry p.e).x, q.2 - (t.entry p.e).y)) t.off.card)
    t.world.ram true (fun c hc => Rect.paint_not_mem hc) (fun q hq => ?_) (fun _ _ => rfl)
    (fun _ _ _ => rfl) (fun _ q hq => hram q hq) fun _ _ => rfl
  · have hpx : Function.update t.px k' (some { p with unfilled := true }) = t.px := by
      rw [← Function.update_eq_self k' t.px, hp, ← hun]
      simp
    rw [x.set_self, hpx] at hall
    exact hall.none_new fun j hj => absurd (hj.1.resolve_right id) hj.2
  · have hmem : t.held p q ∈ OffScreen.slot (t.entry p.e) := (hshows.held_mem hp hq).2
    rw [Rect.paint_mem hmem, ← hram q hq]
    congr 1
    unfold PxState.held
    ext
    · dsimp only
      omega
    · dsimp only
      omega

theorem pxUploaded (h : PxShows m (fun _ => False) x s) (hr : r.wrapped = r)
    (hscreen : (r.sameAt o).Inside (OffScreen.screen m)) (mix : UInt8 → UInt8 → UInt8) :
    PxEnds m x (x.onScreen (r.sameAt o) fun c =>
      mix (x.bits b ((r.sameAt o).shift (r.left, r.top) c))) (s.pxUploaded m b r o mix) := by
  have hupload := h.pxUpload b
  unfold PxState.pxUploaded
  generalize s.pxUpload m b = z at hupload ⊢
  obtain ⟨_ | _, t⟩ := z
  · exact .undone hupload
  · exact hupload.pxRestore hr hscreen mix

theorem contentDraw (h : PxShows m (fun _ => False) x s)
    (hscreen : (r.sameAt o).Inside (OffScreen.screen m)) (hsize : r.left < r.right)
    (hwide : r.right - r.left < 32767) (mix : UInt8 → UInt8 → UInt8)
    (hcontent : s.pxByContent b = true → s.Clear b r ∧ s.NoCollision b r) :
    PxEnds m x (x.onScreen (r.sameAt o) fun c =>
      mix (x.bits b ((r.sameAt o).shift (r.left, r.top) c))) (s.contentDraw m b r o mix) := by
  unfold PxState.contentDraw
  split_ifs with hby
  · obtain ⟨hclear, hno⟩ := hcontent hby
    exact h.bcDraw hscreen hsize hwide mix hclear hno
  · exact .undone h

end PxShows

end Inboard
