import Inboard.OffShelves

/-!
# Off-screen memory is given once

Over any operations of a mode : the bitmaps' slots are on their shelves, the strings' in the string
cache, and none has a pixel of another's, of the screen, of the rows lent, of the cursor's corner or
of a menu's rows. So what is drawn in any of these leaves a menu's rows as they were saved.

The widths of a bitmap and of a string are computed in an `int` of 16 bits, and one that does not
fit gets a place outside of all of these (`m8_off_screen_given_twice`).
-/

set_option linter.unusedSectionVars false

namespace Inboard

open OffScreen (slot screen below)

/-! ## Strings -/

/-- The string cache's rows, left of the corner. -/
def stringCache (m : LendMode) : Rect := ⟨0, m.scTop, M8_SC_W, m.scTop + m.scRows⟩

/-- The strings are in their rows and apart, and the next place is behind those of its plane. -/
structure ScOk (m : LendMode) (s : ScCache) : Prop where
  next : 0 ≤ s.x ∧ 0 ≤ s.y ∧ 0 ≤ s.shelf
  inside : ∀ e ∈ s.sc, e.slot.Inside (stringCache m)
  behind : ∀ e ∈ s.sc, e.plane < s.plane ∨ e.plane = s.plane ∧
    (e.y + e.h ≤ m.scTop + s.y ∨ e.y + e.h ≤ m.scTop + s.y + s.shelf ∧ e.x + e.w ≤ s.x)
  apart : s.sc.Pairwise fun e f => e.plane = f.plane → e.slot.Apart f.slot

namespace ScOk

variable {m : LendMode} {s : ScCache} {w h : ℤ}

theorem scFlush : ScOk m .scFlush where
  next := ⟨Int.le_refl 0, Int.le_refl 0, Int.le_refl 0⟩
  inside _ he := nomatch he
  behind _ he := nomatch he
  apart := List.Pairwise.nil

/-- The next shelf of a plane. -/
theorem nextShelf (hok : ScOk m s) : ScOk m { s with y := s.y + s.shelf, x := 0, shelf := 0 } := by
  obtain ⟨hx, hy, hshelf⟩ := hok.next
  refine ⟨⟨Int.le_refl 0, Int.add_nonneg hy hshelf, Int.le_refl 0⟩, hok.inside, fun e he => ?_,
    hok.apart⟩
  rcases hok.behind e he with hlt | ⟨heq, hrow⟩
  · exact Or.inl hlt
  · exact Or.inr ⟨heq, Or.inl (by dsimp only; omega)⟩

/-- The next plane. -/
theorem nextPlane (hok : ScOk m s) :
    ScOk m { s with plane := s.plane + 1, x := 0, y := 0, shelf := 0 } := by
  refine ⟨⟨Int.le_refl 0, Int.le_refl 0, Int.le_refl 0⟩, hok.inside, fun e he => Or.inl ?_,
    hok.apart⟩
  have hle := hok.behind e he
  dsimp only
  omega

/-- The next place is given. -/
theorem place (hok : ScOk m s) (hw : 0 ≤ w) (hh : 0 ≤ h) (hx : s.x + w ≤ M8_SC_W)
    (hy : s.y + h ≤ m.scRows) :
    ScOk m { s with
      x := s.x + w
      shelf := if s.shelf < h then h else s.shelf
      sc := s.sc ++ [⟨s.x, m.scTop + s.y, w, h, s.plane⟩] } := by
  obtain ⟨hx0, hy0, hshelf⟩ := hok.next
  have hmax : s.shelf ≤ (if s.shelf < h then h else s.shelf) ∧
      h ≤ (if s.shelf < h then h else s.shelf) := by
    split_ifs <;> omega
  generalize (if s.shelf < h then h else s.shelf) = shelf at hmax ⊢
  refine ⟨⟨by dsimp only; omega, hy0, by dsimp only; omega⟩, fun e he => ?_, fun e he => ?_, ?_⟩
  · rcases List.mem_append.1 he with he | he
    · exact hok.inside e he
    · rw [List.mem_singleton.1 he]
      unfold Rect.Inside ScEntry.slot stringCache
      dsimp only
      omega
  · rcases List.mem_append.1 he with he | he
    · have hbehind := hok.behind e he
      dsimp only
      omega
    · rw [List.mem_singleton.1 he]
      dsimp only
      omega
  · refine List.pairwise_append.2 ⟨hok.apart, List.pairwise_singleton _ _, fun e he f hf => ?_⟩
    rw [List.mem_singleton.1 hf]
    intro hplane p hp hq
    have hbehind := hok.behind e he
    unfold ScEntry.slot at hp hq
    rw [Rect.mem_iff] at hp hq
    dsimp only at hp hq hplane
    omega

/-- A string put in the place that it is given. -/
theorem scAllocIn (hw : 0 ≤ w) (hh : 0 ≤ h) (hfit : w ≤ M8_SC_W) {p : Pixel} {t : ScCache} :
    ∀ {n : ℕ} {s : ScCache}, ScOk m s → s.scAllocIn m w h n = (some p, t) →
      ScOk m { t with sc := t.sc ++ [⟨p.1, p.2, w, h, t.plane⟩] }
  | 0, s, hok, heq => by cases heq
  | n + 1, s, hok, heq => by
    rw [ScCache.scAllocIn] at heq
    have hok' : ScOk m (if M8_SC_W < s.x + w then
          { s with y := s.y + s.shelf, x := 0, shelf := 0 } else s) ∧
        (if M8_SC_W < s.x + w then
          { s with y := s.y + s.shelf, x := 0, shelf := 0 } else s).x + w ≤ M8_SC_W := by
      split_ifs with hwide
      · exact ⟨hok.nextShelf, by dsimp only; omega⟩
      · exact ⟨hok, by omega⟩
    generalize (if M8_SC_W < s.x + w then
      { s with y := s.y + s.shelf, x := 0, shelf := 0 } else s) = t at heq hok'
    by_cases hrow : t.y + h ≤ m.scRows
    · rw [if_pos hrow] at heq
      cases heq
      exact hok'.1.place hw hh hok'.2 hrow
    · rw [if_neg hrow] at heq
      exact scAllocIn hw hh hfit hok'.1.nextPlane heq

end ScOk

/-! ## What is kept -/

/-- The parts of the memory : those of its users, the string cache and a menu's rows. -/
inductive OffPart
  | user (u : OffUser)
  | strings
  | saved

/-- A shelf, as wide as its area. -/
def shelfRect (m : LendMode) (a : Fin 2) (t : BcShelf) : Rect :=
  ⟨m.areaX a, t.y, m.areaX a + m.areaW a, t.y + t.h⟩

namespace OffScreen

variable (m : LendMode) (s : OffScreen)

/-- The pixels of a part. -/
def Part : OffPart → Pixel → Prop
  | .user u, p => s.Has m u p
  | .strings, p => p ∈ stringCache m
  | .saved, p => ∃ r, s.ssb = some r ∧ p ∈ below m r

/-- Shelves in order and in their rows, slots on them, and nothing given twice. -/
structure GivenOnce : Prop where
  shelves : ∀ a, ∃ y0 y1, Shelved y0 (s.bcs.shelves a) y1 ∧ m.areaTop a ≤ y0 ∧
    (s.bcs.shelves a ≠ [] → y1 ≤ s.offEnd m)
  onShelf : ∀ k, (s.bcs.bc k).w ≠ 0 → ∃ a, ∃ t ∈ s.bcs.shelves a,
    (slot (s.bcs.bc k)).Inside (shelfRect m a t)
  slots : ∀ k part, part ≠ .user (.slot k) → ∀ p, s.Has m (.slot k) p → ¬ s.Part m part p
  saved : ∀ part, part ≠ .saved → ∀ p, s.Part m .saved p → ¬ s.Part m part p
  strings : ∀ e ∈ s.scs.sc, e.slot.Inside (stringCache m) ∧ ∀ p ∈ e.slot,
    p ∉ screen m ∧ p ∉ cursorCorner ∧ ¬ s.Lent m p
  stringsApart : s.scs.sc.Pairwise fun e f => e.plane = f.plane → e.slot.Apart f.slot

/-- To restore a menu puts back the pixels of `saved` there, and no others. -/
def PutsBack (saved : Pixel → UInt8) : Prop :=
  ∀ r, s.ssb = some r → (s.ssbRestore m).1 = true ∧
    ∀ p, (s.ssbRestore m).2.card p = if p ∈ r then saved p else s.card p

end OffScreen

/-- A step, and the card as it was when a menu was last saved. -/
def savedStep (m : LendMode) (s : OffScreen × (Pixel → UInt8)) (op : OffOp) :
    OffScreen × (Pixel → UInt8) :=
  (offStep m s.1 op,
    match op with
    | .ssbSave r => if (s.1.ssbSave m r).1 = true then s.1.card else s.2
    | _ => s.2)

/-- A run from where a mode is set. -/
def offRun (m : LendMode) (s : OffScreen) (ops : List OffOp) : OffScreen × (Pixel → UInt8) :=
  ops.foldl (savedStep m) (s.screenInit m, s.card)

/-- What is to be stored fits the `int`s its width is computed in. -/
def OffOp.Fits : OffOp → Prop
  | .bcStore w _ _ => evenUp w < 32768
  | .scStore wb _ _ _ => wb * 8 < 32768
  | _ => True

/-! ## The invariant -/

namespace OffScreen

variable (m : LendMode) (s : OffScreen)

/-- The rows of a menu that is saved. -/
def ssbRows : ℤ := (s.ssb.map fun r => r.bottom - r.top).getD 0

/-- The first row of an area that no menu has. -/
def first (a : Fin 2) : ℤ := m.areaTop a + if a = 1 then s.ssbRows else 0

end OffScreen

structure OffOk (m : LendMode) (s : OffScreen) (saved : Pixel → UInt8) : Prop where
  bcs : BcOk m (s.first m) (fun _ => s.offEnd m) s.bcs
  scs : ScOk m s.scs
  off : s.scOff = true → s.scs.sc = []
  lent : s.offEnd m ≤ m.scTop
  ssb : ∀ r, s.ssb = some r → r.Inside (screen m) ∧ r.left < r.right ∧ r.top < r.bottom ∧
    m.height + (r.bottom - r.top) ≤ s.offEnd m ∧
    ∀ p ∈ r, s.card (p.1 - r.left, m.height + (p.2 - r.top)) = saved p

namespace OffOk

variable {m : LendMode} {s : OffScreen} {saved : Pixel → UInt8}

theorem scTop_le : m.scTop ≤ M8_CURSOR_MASK_Y := by
  unfold LendMode.scTop M8_CURSOR_MASK_Y
  split_ifs <;> omega

theorem width_le_besideX : (m.width : ℤ) ≤ m.besideX := by
  unfold LendMode.besideX evenUp
  omega

/-- A slot is beside the screen and left of the corner, or below the screen and its menu. -/
theorem slot_where (h : OffOk m s saved) {k : Fin 160} {p : Pixel} (hp : s.Has m (.slot k) p) :
    p.2 < s.offEnd m ∧ (m.besideX ≤ p.1 ∨ m.height + s.ssbRows ≤ p.2) := by
  obtain ⟨a, hfirst, hlast, hleft, hright⟩ := h.bcs.slot_bounds hp.1 hp.2
  refine ⟨hlast, ?_⟩
  match a with
  | 0 => exact Or.inl hleft
  | 1 => exact Or.inr hfirst

theorem lent_le {p : Pixel} (hp : s.Lent m p) : s.offEnd m ≤ p.2 := by
  rw [OffScreen.offEnd, if_pos hp.1]
  exact hp.2.1

theorem ssbRows_of {r : Rect} (hr : s.ssb = some r) : s.ssbRows = r.bottom - r.top := by
  rw [OffScreen.ssbRows, hr]
  rfl

theorem ssbRows_nonneg (h : OffOk m s saved) : 0 ≤ s.ssbRows := by
  unfold OffScreen.ssbRows
  cases hr : s.ssb with
  | none => exact Int.le_refl 0
  | some r =>
    obtain ⟨_, _, hlt, _⟩ := h.ssb r hr
    show 0 ≤ r.bottom - r.top
    omega

/-- No slot has a pixel of another part. -/
theorem slot_apart (h : OffOk m s saved) {k : Fin 160} {part : OffPart}
    (hpart : part ≠ .user (.slot k)) {p : Pixel} (hp : s.Has m (.slot k) p) :
    ¬ s.Part m part p := by
  obtain ⟨hend, hwhere⟩ := h.slot_where hp
  have hlent := h.lent
  have htop := scTop_le (m := m)
  have hbeside := width_le_besideX (m := m)
  have hrows := h.ssbRows_nonneg
  intro hq
  match part with
  | .user .screen =>
    obtain ⟨_, hx, _, hy⟩ := hq
    unfold screen at hx hy
    dsimp only at hx hy
    omega
  | .user (.slot j) =>
    exact h.bcs.apart k j (fun hkj => hpart (by rw [hkj])) hp.1 hq.1 p hp.2 hq.2
  | .user .lent =>
    have hle := lent_le hq
    omega
  | .user .corner =>
    obtain ⟨_, _, hy, _⟩ := hq
    unfold cursorCorner at hy
    dsimp only at hy
    omega
  | .strings =>
    obtain ⟨_, _, hy, _⟩ := hq
    unfold stringCache at hy
    dsimp only at hy
    omega
  | .saved =>
    obtain ⟨r, hr, _, hx, _, hy⟩ := hq
    obtain ⟨hin, _⟩ := h.ssb r hr
    rw [ssbRows_of hr] at hwhere
    unfold below at hx hy
    unfold Rect.Inside screen at hin
    dsimp only at hx hy hin
    omega

/-- No pixel of a menu's rows is of another part. -/
theorem saved_apart (h : OffOk m s saved) {part : OffPart} (hpart : part ≠ .saved) {p : Pixel}
    (hp : s.Part m .saved p) : ¬ s.Part m part p := by
  obtain ⟨r, hr, hmem⟩ := hp
  obtain ⟨hin, _, _, hend, _⟩ := h.ssb r hr
  obtain ⟨_, _, htop, hbot⟩ := id hmem
  have hlent := h.lent
  have hsc := scTop_le (m := m)
  unfold below at htop hbot
  dsimp only at htop hbot
  intro hq
  match part with
  | .user .screen =>
    obtain ⟨_, _, _, hy⟩ := hq
    unfold screen at hy
    dsimp only at hy
    omega
  | .user (.slot k) =>
    have hne : OffPart.saved ≠ .user (.slot k) := fun heq => by cases heq
    exact h.slot_apart hne hq ⟨r, hr, hmem⟩
  | .user .lent =>
    have hle := lent_le hq
    omega
  | .user .corner =>
    obtain ⟨_, _, hy, _⟩ := hq
    unfold cursorCorner at hy
    dsimp only at hy
    omega
  | .strings =>
    obtain ⟨_, _, hy, _⟩ := hq
    unfold stringCache at hy
    dsimp only at hy
    omega
  | .saved => exact hpart rfl

/-- A string's pixels are its own. -/
theorem string_apart (h : OffOk m s saved) (hm : m.Listed) {e : ScEntry} (he : e ∈ s.scs.sc)
    {p : Pixel} (hp : p ∈ e.slot) : p ∉ screen m ∧ p ∉ cursorCorner ∧ ¬ s.Lent m p := by
  obtain ⟨hleft, htop, hright, hbot⟩ := (h.scs.inside e he).mem hp
  unfold stringCache at htop hright
  dsimp only at htop hright
  refine ⟨fun hq => ?_, fun hq => ?_, fun hq => ?_⟩
  · obtain ⟨_, _, _, hy⟩ := hq
    unfold screen at hy
    dsimp only at hy
    have hscTop : (m.height : ℤ) ≤ m.scTop := by
      unfold LendMode.Listed m8Modes at hm
      unfold LendMode.scTop
      simp only [List.mem_cons, Prod.mk.injEq, List.not_mem_nil, or_false] at hm
      rcases hm with ⟨_, hh⟩ | ⟨_, hh⟩ | ⟨_, hh⟩ <;> rw [hh] <;> decide
    omega
  · obtain ⟨hx, _, _, _⟩ := hq
    unfold cursorCorner at hx
    have hedge : M8_SC_W = M8_CURSOR_SAVE_X := rfl
    dsimp only at hx
    omega
  · rcases hq.2.2.1 with hoff | hlt
    · rw [h.off hoff] at he
      cases he
    · omega

theorem givenOnce (h : OffOk m s saved) (hm : m.Listed) : s.GivenOnce m where
  shelves a := by
    obtain ⟨y0, hfirst, hst⟩ := h.bcs.stacked a
    have hrows := h.ssbRows_nonneg
    refine ⟨y0, _, hst, ?_, h.bcs.ends a⟩
    unfold OffScreen.first at hfirst
    split_ifs at hfirst <;> omega
  onShelf k hk := by
    obtain ⟨a, t, ht, hy, hh, hx, hright⟩ := h.bcs.on k hk
    have hwidth := (h.bcs.width a t ht).2
    exact ⟨a, t, ht, hx, hy.ge, by unfold slot shelfRect; dsimp only; omega,
      by unfold slot shelfRect; dsimp only; omega⟩
  slots _ _ hpart _ hp := h.slot_apart hpart hp
  saved _ hpart _ hp := h.saved_apart hpart hp
  strings e he := ⟨h.scs.inside e he, fun _ hp => h.string_apart hm he hp⟩
  stringsApart := h.scs.apart

theorem putsBack (h : OffOk m s saved) : s.PutsBack m saved := by
  intro r hr
  obtain ⟨hin, _, _, _, hcard⟩ := h.ssb r hr
  unfold Rect.Inside screen at hin
  dsimp only at hin
  unfold OffScreen.ssbRestore
  rw [hr]
  dsimp only
  rw [if_neg (by omega)]
  refine ⟨rfl, fun p => ?_⟩
  dsimp only
  split_ifs with hp
  · rw [Rect.paint_mem hp]
    exact hcard p hp
  · rw [Rect.paint_not_mem hp]

/-! ## Steps -/

/-- What is painted outside of a menu's rows changes none of what is kept. -/
theorem paint (h : OffOk m s saved) {f : Pixel → UInt8}
    (hf : ∀ p, s.Part m .saved p → f p = s.card p) : OffOk m { s with card := f } saved := by
  refine ⟨h.bcs, h.scs, h.off, h.lent, fun r hr => ?_⟩
  obtain ⟨hin, hlr, htb, hend, hcard⟩ := h.ssb r hr
  refine ⟨hin, hlr, htb, hend, fun p hp => (hf _ ⟨r, hr, ?_⟩).trans (hcard p hp)⟩
  rw [Rect.mem_iff] at hp ⊢
  unfold below
  dsimp only
  omega

/-- What a part's rectangle is painted with. -/
theorem paintPart (h : OffOk m s saved) (part : OffPart) (hpart : part ≠ .saved) {r : Rect}
    (hr : ∀ p ∈ r, s.Part m part p) (bits : Pixel → UInt8) :
    OffOk m { s with card := r.paint bits s.card } saved :=
  h.paint fun p hp => Rect.paint_not_mem fun hin => h.saved_apart hpart hp (hr p hin)

theorem withBcs (h : OffOk m s saved) {bcs : BcCache}
    (hbcs : BcOk m (s.first m) (fun _ => s.offEnd m) bcs) : OffOk m { s with bcs := bcs } saved :=
  ⟨hbcs, h.scs, h.off, h.lent, h.ssb⟩

theorem bcStore (h : OffOk m s saved) {w : ℕ} (hw : evenUp w < 32768) (hgt : ℕ)
    (bits : Pixel → UInt8) : OffOk m (s.bcStore m w hgt bits) saved := by
  unfold OffScreen.bcStore
  by_cases hcheck : int16 w ≤ 0 ∨ hgt = 0 ∨ M8_PX_MAX_PX < evenUp w * hgt
  · rw [if_pos hcheck]
    exact h
  rw [if_neg hcheck]
  have hslot := h.bcs.bcSlot
  generalize s.bcs.bcSlot m = found at hslot ⊢
  obtain ⟨_ | k, bcs⟩ := found
  · exact h.withBcs hslot
  dsimp only at hslot ⊢
  have hpos : 0 < hgt := by omega
  have hgiven := hslot.bcAlloc (fun _ => rfl) (Int.natCast_nonneg (evenUp w)) hpos
  rw [int16_eq (by omega)]
  generalize bcs.bcAlloc m (s.offEnd m) (evenUp w) hgt = given at hgiven ⊢
  obtain ⟨_ | p, bcs'⟩ := given
  · exact h.withBcs hgiven.1
  dsimp only
  have hfree : bcs'.Free m (evenUp w) hgt p := hgiven.2 p rfl
  have hput := hgiven.1.put (e := ⟨w, hgt, p.1, p.2⟩) hfree k
  refine (h.withBcs hput).paintPart (.user (.slot k)) (fun heq => by cases heq) (fun q hq => ?_)
    bits
  show (Function.update bcs'.bc k _ k).w ≠ 0 ∧ q ∈ slot (Function.update bcs'.bc k _ k)
  rw [Function.update_self]
  refine ⟨?_, hq⟩
  rintro rfl
  exact hcheck (Or.inl (by decide))

theorem withScs (h : OffOk m s saved) {scs : ScCache} (hscs : ScOk m scs)
    (hoff : s.scOff = true → scs.sc = []) : OffOk m { s with scs := scs } saved :=
  ⟨h.bcs, hscs, hoff, h.lent, h.ssb⟩

theorem scStore (h : OffOk m s saved) {wb : ℕ} (hwb : wb * 8 < 32768) (hgt maxH : ℕ)
    (bits : Pixel → UInt8) : OffOk m (s.scStore m wb hgt maxH bits) saved := by
  unfold OffScreen.scStore
  rw [int16_eq (by omega)]
  by_cases hcheck : s.scOff = true ∨ M8_SC_W < (wb : ℤ) * 8 ∨ maxH < hgt ∨ m.scRows < hgt
  · rw [if_pos hcheck]
    exact h
  rw [if_neg hcheck]
  dsimp only
  have hscs : ScOk m (if M8_SC_ENTRIES ≤ s.scs.sc.length then .scFlush else s.scs) := by
    split_ifs
    · exact .scFlush
    · exact h.scs
  generalize (if M8_SC_ENTRIES ≤ s.scs.sc.length then ScCache.scFlush else s.scs) = scs at hscs ⊢
  have hput := fun p t => ScOk.scAllocIn (p := p) (t := t) (n := 8 - scs.plane)
    (w := (wb : ℤ) * 8) (h := hgt) (by omega) (by omega) (by omega) hscs
  rw [ScCache.scAlloc]
  generalize scs.scAllocIn m ((wb : ℤ) * 8) hgt (8 - scs.plane) = given at hput ⊢
  obtain ⟨_ | p, scs'⟩ := given
  · exact h.withScs .scFlush fun _ => rfl
  · dsimp only
    have hok := hput p scs' rfl
    refine (h.withScs hok fun hoff => absurd (Or.inl hoff) hcheck).paintPart .strings
      (fun heq => by cases heq) (fun q hq => ?_) bits
    exact (hok.inside _ (List.mem_append_right _ List.mem_cons_self)).mem hq

/-- A menu that goes gives its rows back. -/
theorem dropSsb (h : OffOk m s saved) : OffOk m { s with ssb := none } saved := by
  refine ⟨h.bcs.mono (fun a => ?_) fun _ => Int.le_refl _, h.scs, h.off, h.lent,
    fun r hr => by cases hr⟩
  have hrows := h.ssbRows_nonneg
  unfold OffScreen.first
  show m.areaTop a + (if a = 1 then 0 else 0) ≤ _
  split_ifs <;> omega

theorem ssbRestore (h : OffOk m s saved) : OffOk m (s.ssbRestore m).2 saved := by
  unfold OffScreen.ssbRestore
  cases hr : s.ssb with
  | none => exact h
  | some r =>
    dsimp only
    split_ifs
    · exact h.dropSsb
    · exact h.dropSsb.paint fun p hp => by
        obtain ⟨r', hr', _⟩ := hp
        cases hr'

theorem ssbSave (h : OffOk m s saved) (r : Rect) :
    OffOk m (s.ssbSave m r).2 (if (s.ssbSave m r).1 = true then s.card else saved) := by
  unfold OffScreen.ssbSave
  by_cases hused : s.ssb.isSome = true
  · rw [if_pos hused]
    exact h
  rw [if_neg hused]
  have hin : (r.inter (screen m)).Inside (screen m) := by
    unfold Rect.Inside Rect.inter
    dsimp only
    omega
  dsimp only
  generalize r.inter (screen m) = r at hin ⊢
  by_cases hno : r.right - r.left ≤ 0 ∨ r.bottom - r.top ≤ 0 ∨ M8_PITCH < r.right - r.left ∨
      s.offEnd m - m.height < r.bottom - r.top
  · rw [if_pos hno]
    exact h
  rw [if_neg hno]
  refine ⟨h.bcs.bcClaim (Int.le_of_eq rfl) (le_max_of_le_right (Int.le_of_eq rfl)), h.scs, h.off,
    h.lent, fun r' hr' => ?_⟩
  obtain rfl := Option.some.inj hr'
  refine ⟨hin, by omega, by omega, ?_, fun p hp => ?_⟩
  · show _ ≤ s.offEnd m
    omega
  · rw [Rect.mem_iff] at hp
    have hmem : (p.1 - r.left, m.height + (p.2 - r.top)) ∈ below m r := by
      rw [Rect.mem_iff]
      unfold below
      dsimp only
      omega
    rw [if_pos rfl]
    dsimp only
    rw [Rect.paint_mem hmem]
    congr 1
    ext
    · dsimp only
      omega
    · dsimp only
      omega

theorem lendFrom (h : OffOk m s saved) {top : ℤ} (hne : top ≠ 0) (hle : top ≤ m.scTop) :
    OffOk m (s.lendFrom m top) saved := by
  have hend : (s.lendFrom m top).offEnd m = top := if_pos hne
  have hssb : ∀ r, (s.lendFrom m top).ssb = some r →
      s.ssb = some r ∧ m.height + (r.bottom - r.top) ≤ top := fun r hr => by
    obtain ⟨hsome, hkeep⟩ := Option.filter_eq_some_iff.1 hr
    exact ⟨hsome, of_decide_eq_true hkeep⟩
  refine ⟨?_, h.scs, h.off, by rw [hend]; exact hle, fun r hr => ?_⟩
  · have h0 : BcOk m (s.first m) (fun a => if a = 0 then top else s.offEnd m)
        (s.bcs.lendArea m top 0) :=
      h.bcs.lendArea (fun b hb => by rw [if_neg hb]) (Int.le_of_eq rfl)
    have h1 : BcOk m (s.first m) (fun _ => top) ((s.bcs.lendArea m top 0).lendArea m top 1) :=
      h0.lendArea (fun b hb => by rw [if_pos (by omega)]) (Int.le_refl _)
    refine h1.mono (fun a => ?_) fun _ => by rw [hend]
    have hrows : (s.lendFrom m top).ssbRows ≤ s.ssbRows := by
      cases hr : (s.lendFrom m top).ssb with
      | none =>
        rw [OffScreen.ssbRows, hr]
        exact h.ssbRows_nonneg
      | some r => rw [ssbRows_of hr, ssbRows_of (hssb r hr).1]
    unfold OffScreen.first
    split_ifs <;> omega
  · obtain ⟨hsome, hkeep⟩ := hssb r hr
    obtain ⟨hin, hlr, htb, _, hcard⟩ := h.ssb r hsome
    rw [hend]
    exact ⟨hin, hlr, htb, hkeep, hcard⟩

theorem ddLend (h : OffOk m s saved) (on : ℕ) : OffOk m (s.ddLend m on) saved := by
  unfold OffScreen.ddLend
  dsimp only
  by_cases htwo : on = 2
  · rw [if_pos htwo]
    have hflush : OffOk m { s with scOff := decide (on = 2), scs := .scFlush } saved :=
      ⟨h.bcs, .scFlush, fun _ => rfl, h.lent, h.ssb⟩
    refine hflush.lendFrom (by decide) ?_
    unfold LendMode.scTop
    split_ifs <;> decide
  rw [if_neg htwo, decide_eq_false htwo]
  have hnot : OffOk m { s with scOff := false } saved :=
    ⟨h.bcs, h.scs, nofun, h.lent, h.ssb⟩
  by_cases hback : on = 0 ∨ m.rows = 0
  · rw [if_pos hback]
    have hend : ({ s with scOff := false, lent := 0 } : OffScreen).offEnd m = m.scTop := rfl
    have hlent := h.lent
    refine ⟨h.bcs.mono (fun _ => Int.le_refl _) fun _ => hlent, h.scs, nofun,
      Int.le_refl _, fun r hr => ?_⟩
    obtain ⟨hin, hlr, htb, hle, hcard⟩ := h.ssb r hr
    exact ⟨hin, hlr, htb, hle.trans hlent, hcard⟩
  · rw [if_neg hback]
    have hrows := m.rows_bounds
    have htop : m.top = m.scTop - m.rows := rfl
    have hsc : 864 ≤ m.scTop := by
      unfold LendMode.scTop
      split_ifs <;> decide
    exact hnot.lendFrom (by omega) (by omega)

theorem screenInit (s : OffScreen) (saved : Pixel → UInt8) : OffOk m (s.screenInit m) saved :=
  ⟨.bcFlush fun a => by
      show m.areaTop a + (if a = 1 then 0 else 0) ≤ m.areaTop a
      split_ifs <;> omega,
    .scFlush, fun _ => rfl, Int.le_refl _, nofun⟩

theorem resync (h : OffOk m s saved) : OffOk m (s.resync m) saved :=
  ⟨.bcFlush fun a => by
      show m.areaTop a + (if a = 1 then 0 else 0) ≤ m.areaTop a
      split_ifs <;> omega,
    .scFlush, fun _ => rfl, h.lent, nofun⟩

theorem bcDrop (h : OffOk m s saved) (k : Fin 160) : OffOk m (s.bcDrop k) saved := by
  refine h.withBcs (h.bcs.drop fun j hj => ?_)
  by_cases hjk : j = k
  · rw [hjk, Function.update_self] at hj
    exact absurd rfl hj
  · rw [Function.update_of_ne hjk]

theorem bcClaim (h : OffOk m s saved) (y1 : ℤ) :
    OffOk m { s with bcs := s.bcs.bcClaim m y1 } saved :=
  h.withBcs (h.bcs.bcClaim (Int.le_refl _) (le_max_left _ _))

theorem draw (h : OffOk m s saved) (u : OffUser) (bits : Pixel → UInt8) :
    OffOk m (s.draw m u bits) saved := by
  refine h.paint fun p hp => if_neg ?_
  have hne : OffPart.user u ≠ .saved := fun heq => by cases heq
  exact h.saved_apart hne hp

/-- What one step keeps. -/
theorem step (h : OffOk m s saved) {op : OffOp} (hop : op.Fits) :
    OffOk m (savedStep m (s, saved) op).1 (savedStep m (s, saved) op).2 := by
  cases op <;> dsimp only [savedStep, offStep, OffOp.Fits] at hop ⊢
  case bcStore w hgt bits => exact h.bcStore hop hgt bits
  case bcDrop k => exact h.bcDrop k
  case bcSlot => exact h.withBcs h.bcs.bcSlot
  case bcClaim y1 => exact h.bcClaim y1
  case bcTouch x y => exact h.withBcs (h.bcs.bcTouch x y)
  case scStore wb hgt maxH bits => exact h.scStore hop hgt maxH bits
  case scFlush => exact h.withScs .scFlush fun _ => rfl
  case ssbSave r => exact h.ssbSave r
  case ssbRestore => exact h.ssbRestore
  case ssbDiscard => exact h.dropSsb
  case ddLend on => exact h.ddLend on
  case resync => exact h.resync
  case screenInit => exact screenInit s saved
  case draw u bits => exact h.draw u bits

/-- What a run keeps. -/
theorem run : ∀ (ops : List OffOp) {s : OffScreen × (Pixel → UInt8)}, OffOk m s.1 s.2 →
    (∀ op ∈ ops, op.Fits) → OffOk m (ops.foldl (savedStep m) s).1 (ops.foldl (savedStep m) s).2
  | [], _, h, _ => h
  | op :: ops, _, h, hops => by
    rw [List.foldl_cons]
    exact run ops (h.step (hops op List.mem_cons_self))
      fun op' hop' => hops op' (List.mem_cons_of_mem _ hop')

end OffOk

/-! ## The claim -/

/-- Where no width overflows an `int`, off-screen memory is given once, and a menu's pixels are put
back as they were saved. -/
theorem m8_off_screen_given_once (m : LendMode) (hm : m.Listed) (s : OffScreen)
    (ops : List OffOp) (hops : ∀ op ∈ ops, op.Fits) :
    (offRun m s ops).1.GivenOnce m ∧ (offRun m s ops).1.PutsBack m (offRun m s ops).2 := by
  have hok : OffOk m (offRun m s ops).1 (offRun m s ops).2 :=
    OffOk.run ops (OffOk.screenInit s s.card) hops
  exact ⟨hok.givenOnce hm, hok.putsBack⟩

/-- The screen of 640 x 480. -/
def mode640 : LendMode := ⟨640, 480, false, false⟩

/-- A menu opens over a bitmap's shelves, and the rows are lent while it is open. -/
theorem m8_off_screen_given_once_menu :
    let r := offRun mode640 .loaded [.bcStore 32 32 fun _ => 1, .bcStore 500 16 fun _ => 2,
      .ssbSave ⟨10, 10, 90, 40⟩, .draw .screen fun _ => 3, .ddLend 1, .draw .lent fun _ => 4,
      .scStore 4 16 32 fun _ => 5]
    r.1.ssb = some ⟨10, 10, 90, 40⟩ ∧ r.1.GivenOnce mode640 ∧ r.1.PutsBack mode640 r.2 :=
  ⟨by decide +kernel, m8_off_screen_given_once mode640 (by decide) .loaded _
    (by simp [OffOp.Fits, evenUp])⟩

/-- A string of 4096 bytes a row is given 32768 columns, the cursor's among them, and a bitmap 32767
wide more than its shelf has. -/
theorem m8_off_screen_given_twice :
    ¬ (offRun mode640 .loaded [.scStore 124 96 128 fun _ => 1, .scStore 1 8 128 fun _ => 2,
      .scStore 4096 8 128 fun _ => 3]).1.GivenOnce mode640 ∧
    ¬ (offRun mode640 .loaded [.bcStore 32767 1 fun _ => 1]).1.GivenOnce mode640 := by
  constructor
  · intro h
    have hstring := (h.strings ⟨8, 960, 32768, 8, 0⟩ (by decide +kernel)).2 (992, 960) (by decide)
    exact hstring.2.1 (by decide)
  · intro h
    obtain ⟨a, t, _, hin⟩ := h.onShelf 0 (by decide +kernel)
    have hright := hin.2.2.1
    have hslot : (slot ((offRun mode640 .loaded [.bcStore 32767 1 fun _ => 1]).1.bcs.bc 0)).right =
        33408 := by decide +kernel
    have harea : ∀ a, mode640.areaX a + mode640.areaW a ≤ M8_PITCH := by decide
    have hpitch : M8_PITCH = 1024 := rfl
    unfold shelfRect at hright
    dsimp only at hright
    have hle := harea a
    omega

end Inboard
