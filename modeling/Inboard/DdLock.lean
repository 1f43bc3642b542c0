import Inboard.Pixels

/-!
# M8DD32.DLL at 8 bpp : Lock and Unlock

The card has no frame buffer the CPU can see, so `m8dd_lock` reads the locked rectangle from
the card into a shadow in RAM and `m8dd_unlock` writes it back. All locks share the shadow,
and their rectangles are widened to even columns.
-/

set_option linter.unusedSectionVars false

namespace Inboard

/-! ## Data -/

/-- The head of `M8DD_SHARE` : what this HAL reads of it at 8 bpp. -/
structure M8ddShare where
  height : ℕ
  pitch : ℕ
  shadow : ℕ
  heapTop : ℕ
  heapRows : ℕ
  deriving Repr

/-- A surface's global part, at the offsets `M8DD_GBL_*`. -/
structure M8ddGbl where
  vidMem : ℕ
  pitch : ℤ
  width : ℕ
  height : ℕ
  deriving Repr

/-- `M8DD_SURF` : a surface's card position and size. -/
structure M8ddSurf where
  x : ℤ
  y : ℤ
  w : ℤ
  h : ℤ
  deriving Repr

/-- `M8DD_HELD` : a rectangle that Unlock writes back. -/
structure M8ddHeld where
  lcl : ℕ
  r : Rect
  deriving DecidableEq, Repr

def M8DD_HELD_MAX : ℕ := 8

/-- The card's pixels, the shadow by the offset from `m8dd->shadow`, and `m8dd_held`. -/
structure DdMem where
  card : Pixel → UInt8
  shadow : ℤ → UInt8
  held : ℕ → Option M8ddHeld

/-- What a transfer meets : `hot[H_HW_OFF]`, an engine that comes to be idle, and then data
(on a read) or idleness again (on a write). -/
structure DdEngine where
  hwOff : Bool
  idle : Bool
  done : Bool
  deriving Repr

/-- `DDHAL_DRIVER_NOTHANDLED`, or handled with `ddRVal` ; `ok` carries what is returned. -/
inductive DdReply (α : Type)
  | notHandled
  | generic
  | ok (a : α)
  deriving DecidableEq, Repr

variable (d : M8ddShare)

/-- Where a pixel is in the shadow. -/
def shadowAt (p : Pixel) : ℤ := p.2 * d.pitch + p.1

/-! ## Routines -/

/-- What the words of a host transfer carry : two pixels each, `w / 2` of them a row. -/
def hostRect (r : Rect) : Rect := { r with right := r.left + (r.right - r.left) / 2 * 2 }

/-- `m8dd_transfer`. -/
def m8ddTransfer (e : DdEngine) (r : Rect) (toCard : Bool) (s : DdMem) : Bool × DdMem :=
  if e.hwOff || r.right - r.left ≤ 0 || r.bottom - r.top ≤ 0 then (!e.hwOff, s)
  else if e.idle then
    if toCard then
      (e.done, { s with card := (hostRect r).store id (fun p => s.shadow (shadowAt d p)) s.card })
    else if e.done then (true, { s with shadow := (hostRect r).store (shadowAt d) s.card s.shadow })
    else (false, s)
  else (false, s)

/-- `m8dd_surf`, of a surface's global part. -/
def m8ddSurf (gbl : Option M8ddGbl) : Option M8ddSurf :=
  match gbl with
  | none => none
  | some gbl =>
    if gbl.pitch ≠ d.pitch then none
    else
      let rows := if d.heapRows ≠ 0 then d.heapTop + d.heapRows else d.height
      if gbl.vidMem < d.shadow ∨ d.pitch * rows ≤ gbl.vidMem - d.shadow then none
      else
        let off := gbl.vidMem - d.shadow
        let s : M8ddSurf := ⟨(off % d.pitch : ℕ), (off / d.pitch : ℕ), gbl.width, gbl.height⟩
        if d.pitch < s.x + s.w ∨ rows < s.y + s.h then none else some s

/-- `m8dd_to_card`. -/
def m8ddToCard (r : Rect) (s : M8ddSurf) : Rect where
  left := max r.left 0 + s.x
  top := max r.top 0 + s.y
  right := min r.right s.w + s.x
  bottom := min r.bottom s.h + s.y

/-- The rectangle of `M8DD_LOCK`, or all of the surface. -/
def lockRect (area : Option Rect) (s : M8ddSurf) : Rect :=
  m8ddToCard (area.getD ⟨0, 0, s.w, s.h⟩) s

/-- The first free entry of `m8dd_held`. -/
def freeHeld (s : DdMem) : Option ℕ := (List.range M8DD_HELD_MAX).find? fun k => (s.held k).isNone

/-- The last entry of `m8dd_held` for a surface. -/
def lastHeld (lcl : ℕ) (s : DdMem) : Option ℕ :=
  (List.range M8DD_HELD_MAX).reverse.find? fun k => ((s.held k).map M8ddHeld.lcl) == some lcl

/-- `m8dd_lock` of surface `lcl` ; `lpSurfData` is an offset in the shadow. -/
def m8ddLock (gbl : ℕ → Option M8ddGbl) (lcl : ℕ) (area : Option Rect) (e : DdEngine) (s : DdMem) :
    DdReply ℤ × DdMem :=
  match m8ddSurf d (gbl lcl) with
  | none => (.notHandled, s)
  | some surf =>
    match freeHeld s with
    | none => (.generic, s)
    | some k =>
      let r := lockRect area surf
      match m8ddTransfer d e r.even false s with
      | (false, s) => (.generic, s)
      | (true, s) =>
        (.ok (shadowAt d (r.left, r.top)),
          { s with held := Function.update s.held k (some ⟨lcl, r.even⟩) })

/-- `m8dd_unlock` of surface `lcl`. -/
def m8ddUnlock (gbl : ℕ → Option M8ddGbl) (lcl : ℕ) (e : DdEngine) (s : DdMem) :
    DdReply Unit × DdMem :=
  match m8ddSurf d (gbl lcl) with
  | none => (.notHandled, s)
  | some _ =>
    match lastHeld lcl s with
    | none => (.generic, s)
    | some k =>
      match s.held k with
      | none => (.generic, s)
      | some h =>
        match m8ddTransfer d e h.r true s with
        | (ok, s) =>
            (if ok then .ok () else .generic, { s with held := Function.update s.held k none })

/-! ## Holders -/

/-- What a holder has : the surface and rectangle it locked, the entry of `m8dd_held`, and the
pointer it was given. -/
structure Holding where
  lcl : ℕ
  rect : Rect
  slot : ℕ
  ptr : ℤ

/-- The driver and its callers : `want` is the byte last written to a pixel, or the card's
first. -/
structure DdRun (ι : Type*) where
  mem : DdMem
  holders : ι → Option Holding
  want : Pixel → UInt8

/-- What a caller does. -/
inductive DdCall (ι : Type*)
  | lock (i : ι) (lcl : ℕ) (area : Option Rect) (e : DdEngine)
  | write (i : ι) (p : Pixel) (v : UInt8)
  | unlock (i : ι) (e : DdEngine)

variable {ι : Type*} [DecidableEq ι] (gbl : ℕ → Option M8ddGbl)

/-- The rectangle a lock is for, on the card. -/
def askedRect (lcl : ℕ) (area : Option Rect) : Rect :=
  match m8ddSurf d (gbl lcl) with
  | none => ⟨0, 0, 0, 0⟩
  | some surf => lockRect area surf

/-- Where a holder finds pixel `p` through the pointer it was given. -/
def Holding.at (h : Holding) (p : Pixel) : ℤ :=
  h.ptr + (p.2 - h.rect.top) * d.pitch + (p.1 - h.rect.left)

/-- A holder's write. -/
def DdMem.poke (o : ℤ) (v : UInt8) (s : DdMem) : DdMem :=
  { s with shadow := Function.update s.shadow o v }

/-- A call, as it changes the driver and its callers. -/
def ddStep (s : DdRun ι) : DdCall ι → DdRun ι
  | .lock i lcl area e =>
    match m8ddLock d gbl lcl area e s.mem with
    | (.ok ptr, mem) =>
      let h : Holding := ⟨lcl, askedRect d gbl lcl area, (freeHeld s.mem).getD 0, ptr⟩
      { s with mem := mem, holders := Function.update s.holders i (some h) }
    | (_, mem) => { s with mem := mem }
  | .write i p v =>
    match s.holders i with
    | none => s
    | some h =>
      { s with mem := s.mem.poke (h.at d p) v, want := Function.update s.want p v }
  | .unlock i e =>
    match s.holders i with
    | none => s
    | some h =>
      { s with
        mem := (m8ddUnlock d gbl h.lcl e s.mem).2, holders := Function.update s.holders i none }

/-- A pixel that a holder has locked. -/
def DdRun.Locked (s : DdRun ι) (p : Pixel) : Prop := ∃ i h, s.holders i = some h ∧ p ∈ h.rect

/-- What callers do : one lock at a time, of pixels nobody holds ; writes inside it ; its end. -/
def DdRun.Legal (s : DdRun ι) : DdCall ι → Prop
  | .lock i lcl area _ => s.holders i = none ∧ ∀ p ∈ askedRect d gbl lcl area, ¬ s.Locked p
  | .write i p _ => ∃ h, s.holders i = some h ∧ p ∈ h.rect
  | .unlock i _ => ∃ h, s.holders i = some h

/-- A lock that reads no pixel where a holder's byte is not on the card, and an Unlock for
which the driver finds its own holder's entry and the engine. -/
def DdRun.Safe (s : DdRun ι) : DdCall ι → Prop
  | .lock _ lcl area _ => ∀ p ∈ (askedRect d gbl lcl area).even, s.Locked p →
      s.mem.shadow (shadowAt d p) = s.mem.card p
  | .write _ _ _ => True
  | .unlock i e => e.hwOff = false ∧ e.idle = true ∧
      ∀ h, s.holders i = some h → lastHeld h.lcl s.mem = some h.slot

/-- No locks. -/
structure DdRun.Start (s : DdRun ι) : Prop where
  held : ∀ k, s.mem.held k = none
  holders : ∀ i, s.holders i = none
  want : s.want = s.mem.card

/-- A run of calls. -/
def ddRun (s : DdRun ι) (calls : List (DdCall ι)) : DdRun ι := calls.foldl (ddStep d gbl) s

/-- Every call of a run is `P` of the state it is made in. -/
def DdRun.Each (P : DdRun ι → DdCall ι → Prop) : DdRun ι → List (DdCall ι) → Prop
  | _, [] => True
  | s, c :: cs => P s c ∧ DdRun.Each P (ddStep d gbl s c) cs

/-! ## Rectangles -/

/-- A pixel in the columns of the shadow. -/
def OnPitch (p : Pixel) : Prop := 0 ≤ p.1 ∧ p.1 < d.pitch

variable {d gbl}

theorem shadowAt_inj {p q : Pixel} (hp : OnPitch d p) (hq : OnPitch d q)
    (h : shadowAt d p = shadowAt d q) : p = q := by
  obtain ⟨hp0, hp1⟩ := hp
  obtain ⟨hq0, hq1⟩ := hq
  have hcol (x : Pixel) (h0 : 0 ≤ x.1) (h1 : x.1 < d.pitch) : shadowAt d x % d.pitch = x.1 := by
    rw [shadowAt, Int.add_comm, Int.add_mul_emod_self_right, Int.emod_eq_of_lt h0 h1]
  have hx : p.1 = q.1 := by rw [← hcol p hp0 hp1, ← hcol q hq0 hq1, h]
  have hy : p.2 * d.pitch = q.2 * d.pitch := by
    rw [shadowAt, shadowAt, hx] at h
    omega
  exact Prod.ext hx (Int.eq_of_mul_eq_mul_right (by omega) hy)

theorem m8ddSurf_bounds {g : Option M8ddGbl} {s : M8ddSurf} (h : m8ddSurf d g = some s) :
    0 ≤ s.x ∧ s.x + s.w ≤ d.pitch := by
  unfold m8ddSurf at h
  cases g with
  | none => exact absurd h (by simp)
  | some g =>
    dsimp only at h
    split_ifs at h with hpitch hrows hmem hfit hmem hfit
    · obtain rfl := Option.some.inj h
      dsimp only at hfit ⊢
      omega
    · obtain rfl := Option.some.inj h
      dsimp only at hfit ⊢
      omega

/-- A locked rectangle stays in the columns of the shadow when it is widened. -/
theorem askedRect_onPitch (hpitch : d.pitch % 2 = 0) {lcl : ℕ} {area : Option Rect} {p : Pixel}
    (hp : p ∈ (askedRect d gbl lcl area).even) : OnPitch d p := by
  unfold askedRect at hp
  cases hsurf : m8ddSurf d (gbl lcl) with
  | none =>
    rw [hsurf, Rect.even, Rect.mem_iff] at hp
    dsimp only at hp
    omega
  | some surf =>
    obtain ⟨hx, hw⟩ := m8ddSurf_bounds hsurf
    rw [hsurf, Rect.even, Rect.mem_iff] at hp
    dsimp only [lockRect, m8ddToCard] at hp
    unfold OnPitch
    omega

/-! ## Transfers -/

/-- Host words take all of a rectangle with even edges. -/
theorem hostRect_even (r : Rect) : hostRect r.even = r.even := by
  ext <;> simp only [hostRect, Rect.even]
  omega

variable {s : DdMem} {r : Rect} {e : DdEngine}

/-- A read that succeeds. -/
theorem m8ddTransfer_read (hr : ∀ p ∈ r.even, OnPitch d p)
    (h : (m8ddTransfer d e r.even false s).1 = true) :
    ∃ shadow, (m8ddTransfer d e r.even false s).2 = { s with shadow := shadow } ∧
      (∀ p ∈ r.even, shadow (shadowAt d p) = s.card p) ∧
      ∀ p, OnPitch d p → p ∉ r.even → shadow (shadowAt d p) = s.shadow (shadowAt d p) := by
  unfold m8ddTransfer at h ⊢
  simp only [hostRect_even, Bool.false_eq_true, ↓reduceIte] at h ⊢
  split_ifs at h ⊢ with hempty hidle hread
  · refine ⟨s.shadow, rfl, fun p hp => ?_, fun _ _ _ => rfl⟩
    rw [Rect.mem_iff] at hp
    simp only [Bool.or_eq_true, decide_eq_true_iff] at hempty
    rcases hempty with (hoff | hw) | hh
    · simp [hoff] at h
    · omega
    · omega
  · refine ⟨_, rfl, fun p hp => ?_, fun p hon hp => ?_⟩
    · exact Rect.store_of_mem (fun p hp q hq => shadowAt_inj (hr p hp) (hr q hq)) hp
    · refine Rect.store_of_ne fun q hq heq => hp ?_
      rwa [← shadowAt_inj (hr q hq) hon heq]

theorem m8ddTransfer_refused (h : (m8ddTransfer d e r false s).1 = false) :
    (m8ddTransfer d e r false s).2 = s := by
  unfold m8ddTransfer at h ⊢
  simp only [Bool.false_eq_true, ↓reduceIte] at h ⊢
  split_ifs at h ⊢ <;> rfl

/-- A write with the engine there. -/
theorem m8ddTransfer_write (hoff : e.hwOff = false) (hidle : e.idle = true) :
    ∃ card, (m8ddTransfer d e r.even true s).2 = { s with card := card } ∧
      (∀ p ∈ r.even, card p = s.shadow (shadowAt d p)) ∧ ∀ p, p ∉ r.even → card p = s.card p := by
  unfold m8ddTransfer
  simp only [hostRect_even, hoff, hidle, Bool.false_or, ↓reduceIte]
  split_ifs with hempty
  · refine ⟨s.card, rfl, fun p hp => ?_, fun _ _ => rfl⟩
    rw [Rect.mem_iff] at hp
    simp only [Bool.or_eq_true, decide_eq_true_iff] at hempty
    omega
  · refine ⟨_, rfl, fun p hp => ?_, fun p hp => ?_⟩
    · exact @Rect.store_of_mem r.even p _ _ _ id _ _ (fun _ _ _ _ h => h) hp
    · exact Rect.store_of_ne fun q hq heq => hp (by rwa [← heq])

/-! ## The invariant -/

/-- A holder's entry of `m8dd_held` and its pointer. -/
structure Holding.Held (d : M8ddShare) (gbl : ℕ → Option M8ddGbl) (h : Holding) (s : DdMem) :
    Prop where
  surf : ∃ surf, m8ddSurf d (gbl h.lcl) = some surf
  slot : h.slot < M8DD_HELD_MAX
  held : s.held h.slot = some ⟨h.lcl, h.rect.even⟩
  ptr : h.ptr = shadowAt d (h.rect.left, h.rect.top)
  onPitch : ∀ p ∈ h.rect.even, OnPitch d p

/-- A pixel that is locked has its byte in the shadow, any other on the card ; in the margins
of the rectangles the shadow is the card. -/
structure DdRun.Inv (d : M8ddShare) (gbl : ℕ → Option M8ddGbl) (s : DdRun ι) : Prop where
  holding : ∀ i h, s.holders i = some h → h.Held d gbl s.mem
  slots : ∀ i j h h', s.holders i = some h → s.holders j = some h' → h.slot = h'.slot → i = j
  apart : ∀ i j h h' p, s.holders i = some h → s.holders j = some h' → p ∈ h.rect → p ∈ h'.rect →
    i = j
  locked : ∀ p, s.Locked p → s.mem.shadow (shadowAt d p) = s.want p
  free : ∀ p, ¬ s.Locked p → s.mem.card p = s.want p
  margin : ∀ i h p, s.holders i = some h → p ∈ h.rect.even → ¬ s.Locked p →
    s.mem.shadow (shadowAt d p) = s.mem.card p

theorem DdRun.Start.inv {s : DdRun ι} (h : s.Start) : s.Inv d gbl := by
  have hnone (i : ι) (x : Holding) : s.holders i ≠ some x := by
    rw [h.holders i]
    exact nofun
  refine ⟨fun i x hx => (hnone i x hx).elim, fun i _ x _ hx => (hnone i x hx).elim,
    fun i _ x _ _ hx => (hnone i x hx).elim, fun p ⟨i, x, hx, _⟩ => (hnone i x hx).elim,
    fun p _ => by rw [h.want], fun i x _ hx => (hnone i x hx).elim⟩

section Step

variable {t : DdRun ι} {i : ι}

theorem Locked.onPitch {s : DdRun ι} (h : s.Inv d gbl) {p : Pixel} (hp : s.Locked p) :
    OnPitch d p := by
  obtain ⟨i, x, hx, hmem⟩ := hp
  exact (h.holding i x hx).onPitch p (Rect.mem_even hmem)

/-- The pointer leads to the pixel. -/
theorem Holding.Held.at {x : Holding} {m : DdMem} (h : x.Held d gbl m) (p : Pixel) :
    x.at d p = shadowAt d p := by
  rw [Holding.at, h.ptr, shadowAt, shadowAt]
  dsimp only
  rw [Int.sub_mul]
  omega

/-- A write goes to the shadow, where its pixel is. -/
theorem DdRun.Inv.write {s : DdRun ι} (h : s.Inv d gbl) {p : Pixel} (v : UInt8) {x : Holding}
    (hx : s.holders i = some x) (hp : p ∈ x.rect) :
    ({ s with mem := s.mem.poke (x.at d p) v, want := Function.update s.want p v } : DdRun ι).Inv
      d gbl := by
  have hlocked : s.Locked p := ⟨i, x, hx, hp⟩
  rw [(h.holding i x hx).at p]
  have hshadow (q : Pixel) (hq : OnPitch d q) (hne : q ≠ p) :
      (s.mem.poke (shadowAt d p) v).shadow (shadowAt d q) = s.mem.shadow (shadowAt d q) :=
    Function.update_of_ne (fun heq => hne (shadowAt_inj hq (Locked.onPitch h hlocked) heq)) ..
  refine ⟨fun j y hy => ?_, h.slots, h.apart, fun q hq => ?_, fun q hq => ?_,
    fun j y q hy hq hfree => ?_⟩
  · obtain ⟨hsurf, hslot, hheld, hptr, hon⟩ := h.holding j y hy
    exact ⟨hsurf, hslot, hheld, hptr, hon⟩
  · by_cases heq : q = p
    · rw [heq]
      exact (Function.update_self ..).trans (Function.update_self (f := s.want) ..).symm
    · exact (hshadow q (Locked.onPitch h hq) heq).trans
        ((h.locked q hq).trans (Function.update_of_ne heq ..).symm)
  · have hne : q ≠ p := fun heq => hq (heq ▸ hlocked)
    exact (h.free q hq).trans (Function.update_of_ne hne ..).symm
  · have hne : q ≠ p := fun heq => hfree (heq ▸ hlocked)
    exact (hshadow q ((h.holding j y hy).onPitch q hq) hne).trans (h.margin j y q hy hq hfree)

/-- A lock reads what the card holds, over nothing that is not there. -/
theorem DdRun.Inv.lock {s : DdRun ι} (h : s.Inv d gbl) {x : Holding} {shadow : ℤ → UInt8}
    (hi : s.holders i = none) (hfree : ∀ p ∈ x.rect, ¬ s.Locked p)
    (hheld : s.mem.held x.slot = none) (hx : x.Held d gbl
      { s.mem with held := Function.update s.mem.held x.slot (some ⟨x.lcl, x.rect.even⟩) })
    (hread : ∀ p ∈ x.rect.even, shadow (shadowAt d p) = s.mem.card p)
    (hrest : ∀ p, OnPitch d p → p ∉ x.rect.even →
      shadow (shadowAt d p) = s.mem.shadow (shadowAt d p))
    (hsafe : ∀ p ∈ x.rect.even, s.Locked p → s.mem.shadow (shadowAt d p) = s.mem.card p) :
    ({ s with
        mem := { s.mem with
          shadow := shadow
          held := Function.update s.mem.held x.slot (some ⟨x.lcl, x.rect.even⟩) }
        holders := Function.update s.holders i (some x) } : DdRun ι).Inv d gbl := by
  have hcases {j : ι} {y : Holding} (hy : Function.update s.holders i (some x) j = some y) :
      j = i ∧ y = x ∨ j ≠ i ∧ s.holders j = some y := by
    by_cases hj : j = i
    · rw [hj, Function.update_self] at hy
      exact .inl ⟨hj, (Option.some.inj hy).symm⟩
    · rw [Function.update_of_ne hj] at hy
      exact .inr ⟨hj, hy⟩
  have hslot {j : ι} {y : Holding} (hy : s.holders j = some y) : y.slot ≠ x.slot := by
    intro heq
    have := (h.holding j y hy).held
    rw [heq, hheld] at this
    exact nomatch this
  have hsame {p : Pixel} (hp : s.Locked p) : shadow (shadowAt d p) = s.mem.shadow
      (shadowAt d p) := by
    by_cases hmem : p ∈ x.rect.even
    · exact (hread p hmem).trans (hsafe p hmem hp).symm
    · exact hrest p (Locked.onPitch h hp) hmem
  have hstay {p : Pixel} (hp : s.Locked p) : ∃ j y, Function.update s.holders i (some x) j =
      some y ∧
      p ∈ y.rect := by
    obtain ⟨j, y, hy, hmem⟩ := hp
    refine ⟨j, y, ?_, hmem⟩
    rw [Function.update_of_ne]
    · exact hy
    · rintro rfl
      rw [hi] at hy
      exact nomatch hy
  refine ⟨fun j y hy => ?_, fun j k y z hy hz heq => ?_, fun j k y z p hy hz hpy hpz => ?_,
    fun p hp => ?_, fun p hp => ?_, fun j y p hy hp hnot => ?_⟩
  · rcases hcases hy with ⟨-, rfl⟩ | ⟨-, hy⟩
    · exact ⟨hx.surf, hx.slot, hx.held, hx.ptr, hx.onPitch⟩
    · obtain ⟨hsurf, hlt, hheld, hptr, hon⟩ := h.holding j y hy
      exact ⟨hsurf, hlt, (Function.update_of_ne (hslot hy) ..).trans hheld, hptr, hon⟩
  · rcases hcases hy with ⟨rfl, rfl⟩ | ⟨-, hold⟩ <;> rcases hcases hz with ⟨rfl, rfl⟩ | ⟨-, hzold⟩
    · rfl
    · exact absurd heq.symm (hslot hzold)
    · exact absurd heq (hslot hold)
    · exact h.slots j k y z hold hzold heq
  · rcases hcases hy with ⟨rfl, rfl⟩ | ⟨-, hold⟩ <;> rcases hcases hz with ⟨rfl, rfl⟩ | ⟨-, hzold⟩
    · rfl
    · exact absurd ⟨k, z, hzold, hpz⟩ (hfree p hpy)
    · exact absurd ⟨j, y, hold, hpy⟩ (hfree p hpz)
    · exact h.apart j k y z p hold hzold hpy hpz
  · obtain ⟨j, y, hy, hmem⟩ := hp
    rcases hcases hy with ⟨-, rfl⟩ | ⟨-, hy⟩
    · exact (hread p (Rect.mem_even hmem)).trans (h.free p (hfree p hmem))
    · exact (hsame ⟨j, y, hy, hmem⟩).trans (h.locked p ⟨j, y, hy, hmem⟩)
  · exact h.free p fun hlocked => hp (hstay hlocked)
  · by_cases hmem : p ∈ x.rect.even
    · exact hread p hmem
    · rcases hcases hy with ⟨-, rfl⟩ | ⟨-, hy⟩
      · exact absurd hp hmem
      · exact (hrest p ((h.holding j y hy).onPitch p hp) hmem).trans
          (h.margin j y p hy hp fun hlocked => hnot (hstay hlocked))

/-- An Unlock of the holder's own entry puts its bytes on the card. -/
theorem DdRun.Inv.unlock {s : DdRun ι} (h : s.Inv d gbl) {x : Holding} {card : Pixel → UInt8}
    (hx : s.holders i = some x)
    (hwrite : ∀ p ∈ x.rect.even, card p = s.mem.shadow (shadowAt d p))
    (hrest : ∀ p, p ∉ x.rect.even → card p = s.mem.card p) :
    ({ s with
        mem := { s.mem with card := card, held := Function.update s.mem.held x.slot none }
        holders := Function.update s.holders i none } : DdRun ι).Inv d gbl := by
  have hcases {j : ι} {y : Holding} (hy : Function.update s.holders i none j = some y) :
      j ≠ i ∧ s.holders j = some y := by
    by_cases hj : j = i
    · rw [hj, Function.update_self] at hy
      exact nomatch hy
    · rw [Function.update_of_ne hj] at hy
      exact ⟨hj, hy⟩
  have hstay {j : ι} {y : Holding} (hj : j ≠ i) (hy : s.holders j = some y) :
      Function.update s.holders i none j = some y := by
    rw [Function.update_of_ne hj, hy]
  have hcard {p : Pixel} (hp : ¬ ∃ j y, Function.update s.holders i none j = some y ∧ p ∈ y.rect) :
      card p = s.want p := by
    by_cases hown : p ∈ x.rect
    · exact (hwrite p (Rect.mem_even hown)).trans (h.locked p ⟨i, x, hx, hown⟩)
    · have hfree : ¬ s.Locked p := by
        rintro ⟨j, y, hy, hmem⟩
        by_cases hj : j = i
        · rw [hj, hx] at hy
          obtain rfl := Option.some.inj hy
          exact hown hmem
        · exact hp ⟨j, y, hstay hj hy, hmem⟩
      by_cases hmem : p ∈ x.rect.even
      · exact (hwrite p hmem).trans ((h.margin i x p hx hmem hfree).trans (h.free p hfree))
      · exact (hrest p hmem).trans (h.free p hfree)
  refine ⟨fun j y hy => ?_, fun j k y z hy hz heq => ?_, fun j k y z p hy hz hpy hpz => ?_,
    fun p ⟨j, y, hy, hmem⟩ => ?_, fun p hp => hcard hp, fun j y p hy hp hnot => ?_⟩
  · obtain ⟨hj, hy⟩ := hcases hy
    obtain ⟨hsurf, hlt, hheld, hptr, hon⟩ := h.holding j y hy
    refine ⟨hsurf, hlt, (Function.update_of_ne (fun heq => hj ?_) ..).trans hheld, hptr, hon⟩
    exact h.slots j i y x hy hx heq
  · exact h.slots j k y z (hcases hy).2 (hcases hz).2 heq
  · exact h.apart j k y z p (hcases hy).2 (hcases hz).2 hpy hpz
  · exact h.locked p ⟨j, y, (hcases hy).2, hmem⟩
  · obtain ⟨hj, hy⟩ := hcases hy
    have hon : OnPitch d p := (h.holding j y hy).onPitch p hp
    by_cases hown : p ∈ x.rect
    · exact (hwrite p (Rect.mem_even hown)).symm
    · by_cases hmem : p ∈ x.rect.even
      · exact (hwrite p hmem).symm
      · refine (h.margin j y p hy hp ?_).trans (hrest p hmem).symm
        rintro ⟨k, z, hz, hpz⟩
        by_cases hk : k = i
        · rw [hk, hx] at hz
          obtain rfl := Option.some.inj hz
          exact hown hpz
        · exact hnot ⟨k, z, hstay hk hz, hpz⟩

end Step

/-! ## Runs -/

theorem freeHeld_spec {m : DdMem} {k : ℕ} (h : freeHeld m = some k) :
    k < M8DD_HELD_MAX ∧ m.held k = none := by
  have hmem := List.mem_of_find?_eq_some h
  have hnone := List.find?_some h
  exact ⟨List.mem_range.1 hmem, Option.isNone_iff_eq_none.1 hnone⟩

/-- What `m8dd_lock` does : nothing, or a read and an entry. -/
theorem m8ddLock_spec (gbl : ℕ → Option M8ddGbl) (hpitch : d.pitch % 2 = 0) (lcl : ℕ)
    (area : Option Rect) (e : DdEngine)
    (m : DdMem) : (m8ddLock d gbl lcl area e m).1 = .notHandled ∧
        (m8ddLock d gbl lcl area e m).2 = m ∨
      (m8ddLock d gbl lcl area e m).1 = .generic ∧ (m8ddLock d gbl lcl area e m).2 = m ∨
      ∃ (x : Holding) (shadow : ℤ → UInt8), x.lcl = lcl ∧ x.rect = askedRect d gbl lcl area ∧
        freeHeld m = some x.slot ∧ m8ddLock d gbl lcl area e m = (.ok x.ptr,
          { m with
            shadow := shadow
            held := Function.update m.held x.slot (some ⟨x.lcl, x.rect.even⟩) }) ∧
        x.Held d gbl { m with held := Function.update m.held x.slot (some ⟨x.lcl, x.rect.even⟩) } ∧
        (∀ p ∈ x.rect.even, shadow (shadowAt d p) = m.card p) ∧
        ∀ p, OnPitch d p → p ∉ x.rect.even → shadow (shadowAt d p) = m.shadow (shadowAt d p) := by
  have hon (p : Pixel) (hp : p ∈ (askedRect d gbl lcl area).even) : OnPitch d p :=
    askedRect_onPitch hpitch hp
  unfold m8ddLock
  cases hsurf : m8ddSurf d (gbl lcl) with
  | none => exact .inl ⟨rfl, rfl⟩
  | some surf =>
    have hasked : askedRect d gbl lcl area = lockRect area surf := by rw [askedRect, hsurf]
    rw [hasked] at hon
    cases hfree : freeHeld m with
    | none => exact .inr (.inl ⟨rfl, rfl⟩)
    | some k =>
      have hread := m8ddTransfer_read (e := e) (s := m) hon
      have hrefused := m8ddTransfer_refused (d := d) (e := e) (s := m)
          (r := (lockRect area surf).even)
      dsimp only
      generalize m8ddTransfer d e (lockRect area surf).even false m = q at hread hrefused ⊢
      obtain ⟨ok, u⟩ := q
      cases ok with
      | false => exact .inr (.inl ⟨rfl, hrefused rfl⟩)
      | true =>
        obtain ⟨shadow, hu, hcard, hrest⟩ := hread rfl
        obtain rfl : u = _ := hu
        refine .inr (.inr ⟨⟨lcl, lockRect area surf, k, _⟩, shadow, rfl, hasked.symm, rfl, rfl, ?_,
          hcard, hrest⟩)
        exact ⟨⟨surf, hsurf⟩, (freeHeld_spec hfree).1, Function.update_self .., rfl, hon⟩

/-- What one call keeps. -/
theorem DdRun.Inv.step (hpitch : d.pitch % 2 = 0) {s : DdRun ι} (h : s.Inv d gbl) {c : DdCall ι}
    (hlegal : s.Legal d gbl c) (hsafe : s.Safe d gbl c) : (ddStep d gbl s c).Inv d gbl := by
  cases c with
  | lock i lcl area e =>
    obtain ⟨hi, hfree⟩ := hlegal
    rw [ddStep]
    obtain ⟨hreply, hmem⟩ | ⟨hreply, hmem⟩ |
        ⟨x, shadow, hlcl, hrect, hslot, heq, hx, hread, hrest⟩ :=
      m8ddLock_spec gbl hpitch lcl area e s.mem
    · generalize m8ddLock d gbl lcl area e s.mem = q at hreply hmem ⊢
      obtain ⟨reply, u⟩ := q
      obtain rfl : reply = _ := hreply
      obtain rfl : u = _ := hmem
      exact h
    · generalize m8ddLock d gbl lcl area e s.mem = q at hreply hmem ⊢
      obtain ⟨reply, u⟩ := q
      obtain rfl : reply = _ := hreply
      obtain rfl : u = _ := hmem
      exact h
    · rw [heq]
      dsimp only
      rw [hslot, Option.getD_some, ← hrect, ← hlcl]
      exact h.lock hi (hrect ▸ hfree) (freeHeld_spec hslot).2 hx hread hrest (hrect ▸ hsafe)
  | write i p v =>
    obtain ⟨x, hx, hp⟩ := hlegal
    rw [ddStep, hx]
    exact h.write v hx hp
  | unlock i e =>
    obtain ⟨x, hx⟩ := hlegal
    obtain ⟨hoff, hidle, hslot⟩ := hsafe
    obtain ⟨⟨surf, hsurf⟩, -, hheld, -⟩ := h.holding i x hx
    obtain ⟨card, htransfer, hwrite, hrest⟩ :=
      m8ddTransfer_write (d := d) (r := x.rect) (s := s.mem) hoff hidle
    rw [ddStep, hx]
    dsimp only
    rw [m8ddUnlock, hsurf]
    dsimp only
    rw [hslot x hx]
    dsimp only
    rw [hheld]
    dsimp only
    generalize m8ddTransfer d e x.rect.even true s.mem = q at htransfer ⊢
    obtain ⟨ok, u⟩ := q
    obtain rfl : u = _ := htransfer
    exact h.unlock hx hwrite hrest

/-- What a run keeps. -/
theorem DdRun.Inv.run (hpitch : d.pitch % 2 = 0) : ∀ (calls : List (DdCall ι)) {s : DdRun ι},
    s.Inv d gbl → s.Each d gbl (DdRun.Legal d gbl) calls → s.Each d gbl (DdRun.Safe d gbl) calls →
      (ddRun d gbl s calls).Inv d gbl
  | [], _, h, _, _ => h
  | _ :: cs, _, h, ⟨hlegal, hlegals⟩, ⟨hsafe, hsafes⟩ =>
    DdRun.Inv.run hpitch cs (h.step hpitch hlegal hsafe) hlegals hsafes

/-- Where each lock reads over no byte that is not on the card and each Unlock ends the lock it
is called for, a pixel that nobody has locked holds on the card the byte written last, or the
first. -/
theorem m8dd_unlock_keeps (hpitch : d.pitch % 2 = 0) {s : DdRun ι} (h : s.Start)
    (calls : List (DdCall ι)) (hlegal : s.Each d gbl (DdRun.Legal d gbl) calls)
    (hsafe : s.Each d gbl (DdRun.Safe d gbl) calls) (p : Pixel)
    (hp : ¬ (ddRun d gbl s calls).Locked p) :
    (ddRun d gbl s calls).mem.card p = (ddRun d gbl s calls).want p :=
  (h.inv.run hpitch calls hlegal hsafe).free p hp

/-- A screen of 640 by 480 with no rows for surfaces, and two surfaces that are all of it. -/
def share640 : M8ddShare := ⟨480, 640, 0x1000, 0, 0⟩

def gbl640 : ℕ → Option M8ddGbl := fun _ => some ⟨0x1000, 640, 640, 480⟩

/-- A black card. -/
def blackRun : DdRun Bool := ⟨⟨fun _ => 0, fun _ => 0, fun _ => none⟩, fun _ => none, fun _ => 0⟩

theorem blackRun_start : blackRun.Start := ⟨fun _ => rfl, fun _ => rfl, rfl⟩

def idleEngine : DdEngine := ⟨false, true, true⟩

/-- Two locks that meet at column `m`, and a write just left of it. -/
def meetCalls (m : ℤ) : List (DdCall Bool) :=
  [.lock false 1 (some ⟨0, 0, m, 1⟩) idleEngine, .write false (m - 1, 0) 7,
    .lock true 2 (some ⟨m, 0, m + 2, 1⟩) idleEngine, .unlock false idleEngine,
    .unlock true idleEngine]

theorem askedRect_640 (lcl : ℕ) (r : Rect) : askedRect share640 gbl640 lcl (some r) =
    ⟨max r.left 0, max r.top 0, min r.right 640, min r.bottom 480⟩ := by
  ext <;> simp [askedRect, gbl640, share640, m8ddSurf, lockRect, m8ddToCard]

theorem meetCalls_legal {m : ℤ} (hm : m = 3 ∨ m = 4) : blackRun.Each share640 gbl640
    (DdRun.Legal share640 gbl640) (meetCalls m) := by
  rcases hm with rfl | rfl
  all_goals
    refine ⟨⟨rfl, ?_⟩, ⟨_, rfl, by decide⟩, ⟨rfl, ?_⟩, ⟨_, rfl⟩, ⟨_, rfl⟩, trivial⟩
    · rintro p - ⟨i, h, hh, -⟩
      exact nomatch hh
    · rintro p hp ⟨i, h, hh, hmem⟩
      cases i with
      | true => exact nomatch hh
      | false =>
        obtain rfl := Option.some.inj hh
        rw [askedRect_640, Rect.mem_iff] at hp hmem
        simp at hp hmem
        omega

theorem meetCalls_safe : blackRun.Each share640 gbl640
    (DdRun.Safe share640 gbl640) (meetCalls 4) := by
  refine ⟨?_, trivial, ?_, ⟨rfl, rfl, ?_⟩, ⟨rfl, rfl, ?_⟩, trivial⟩
  · rintro p - ⟨i, h, hh, -⟩
    exact nomatch hh
  · rintro p hp ⟨i, h, hh, hmem⟩
    cases i with
    | true => exact nomatch hh
    | false =>
      obtain rfl := Option.some.inj hh
      rw [askedRect_640, Rect.even, Rect.mem_iff] at hp
      rw [askedRect_640, Rect.mem_iff] at hmem
      simp at hp hmem
      omega
  · intro h hh
    obtain rfl := Option.some.inj hh
    decide
  · intro h hh
    obtain rfl := Option.some.inj hh
    decide

theorem m8dd_unlock_keeps_even :
    (ddRun share640 gbl640 blackRun (meetCalls 4)).mem.card (3, 0) =
      (ddRun share640 gbl640 blackRun (meetCalls 4)).want (3, 0) ∧
    (ddRun share640 gbl640 blackRun (meetCalls 4)).want (3, 0) = 7 := by
  refine ⟨m8dd_unlock_keeps (by decide) blackRun_start (meetCalls 4)
    (meetCalls_legal (.inr rfl)) meetCalls_safe (3, 0) ?_, by decide⟩
  rintro ⟨i, h, hh, -⟩
  cases i <;> exact nomatch hh

/-- The second lock reads the card over the byte that the first one has written. -/
theorem m8dd_unlock_loses : blackRun.Start ∧
    blackRun.Each share640 gbl640 (DdRun.Legal share640 gbl640) (meetCalls 3) ∧
    (∀ i, (ddRun share640 gbl640 blackRun (meetCalls 3)).holders i = none) ∧
    (ddRun share640 gbl640 blackRun (meetCalls 3)).want (2, 0) = 7 ∧
    (ddRun share640 gbl640 blackRun (meetCalls 3)).mem.card (2, 0) = 0 := by
  refine ⟨blackRun_start, meetCalls_legal (.inl rfl), fun i => ?_, by decide, by decide⟩
  cases i <;> rfl

end Inboard
