import Inboard.Strip

/-!
# Drawing in strips

What the engine cannot draw, `m8_fallback_aligned` of screen.c has the DIB Engine draw into a
buffer, `m8_dst`, a strip of rows at a time : the strip's rows are read from the screen if they
count, the callback (`M8Draw`) draws, and `m8_strip_write` puts the strip back. A strip's edges
are even columns, so that columns the callback must not draw come along ; these are read if
nothing else is. And where the driver cannot tell if the callback covers its rectangle, it
draws twice over different fillings, and what comes out equal was covered (`m8Covered`).

A callback acts on each pixel of its clip by a function of what was there (`M8Strip.act`). The
invariant of the loop is that the rows so far are as the callback makes them and the rest of
the screen is as it was (`StripsDone`), so that a strip still sees the screen the whole call
began with. A copy from the screen does too, if it takes the strips from the side that its
source is not on.
-/

set_option linter.unusedSectionVars false

namespace Inboard

/-! ## Strips -/

/-- `m8_modes` : `m8_scr_x` and `m8_scr_y`. -/
structure M8Mode where
  x : ℕ
  y : ℕ
  ok : (x, y) = (640, 480) ∨ (x, y) = (800, 600) ∨ (x, y) = (1024, 768)

/-- `m8_rect_screen`. -/
def M8Mode.screen (m : M8Mode) : Rect := ⟨0, 0, m.x, m.y⟩

/-- `M8_STRIP` : its buffer, and the rectangle that `m8_strip_place` put it at. -/
structure M8Strip where
  bits : ℕ → UInt8
  pitch : ℕ
  place : Rect

/-- The screen, `m8_dst` and `m8_src`. -/
structure FallbackState where
  card : Card
  dst : M8Strip
  src : M8Strip

/-- The strip whose device a callback gets. -/
inductive StripDev
  | dst
  | src

/-- `M8_DRAW`, with what it knows (`ctx`) : a device and its clip. -/
abbrev M8Draw := StripDev → Rect → FallbackState → FallbackState

/-- `M8_BUF_BYTES`. -/
def M8_BUF_BYTES : ℕ := 0xFFF0

/-- `M8_READ_IF_UNCOVERED`. -/
def M8_READ_IF_UNCOVERED : ℕ := 2

/-- `m8_rect_align`. -/
def m8RectAlign (m : M8Mode) (r : Rect) : Rect :=
  { r with
    left := r.left / 2 * 2
    right := min ((r.right + 1) / 2 * 2) m.x }

/-- The pitch of `m8_strip_rows`. -/
def m8StripPitch (r : Rect) : ℕ := ((r.right - r.left + 3) / 4 * 4).toNat

/-- `m8_strip_rows`. -/
def m8StripRows (r : Rect) : ℕ := M8_BUF_BYTES / (m8StripPitch r + 4)

/-- `m8_hw_read_rect` to `base` of a buffer. -/
def m8HwReadRect (card : Card) (x y w h : ℤ) (base pitch : ℕ) (bits : ℕ → UInt8) : ℕ → UInt8 :=
  (Rect.at x y (w / 2 * 2) h).store
    (fun p => base + (p.2 - y).toNat * pitch + (p.1 - x).toNat) card bits

namespace M8Strip

variable (s : M8Strip)

/-- Where a pixel is in the buffer. -/
def addr (p : Pixel) : ℕ := (p.2 - s.place.top).toNat * s.pitch + (p.1 - s.place.left).toNat

/-- The pixels of the device. -/
def pix : Card := fun p => s.bits (s.addr p)

/-- What the callbacks do : on each pixel of the clip, `f` of what is there. -/
def act (f : Pixel → UInt8 → UInt8) (clip : Rect) : M8Strip :=
  { s with bits := clip.store s.addr (fun p => f p (s.pix p)) s.bits }

/-- `m8_strip_read` of `r`. -/
def read (card : Card) (r : Rect) : M8Strip :=
  { s with
    bits := m8HwReadRect card r.left r.top (r.right - r.left) (r.bottom - r.top) 0 s.pitch s.bits }

/-- `m8_strip_read_edges`. -/
def readEdges (card : Card) (r area : Rect) : M8Strip :=
  let h := r.bottom - r.top
  let bits :=
    if r.left ≠ area.left then m8HwReadRect card r.left r.top 2 h 0 s.pitch s.bits else s.bits
  let bits :=
    if r.right ≠ area.right then
      m8HwReadRect card (r.right - 2) r.top 2 h (r.right - 2 - r.left).toNat s.pitch bits
    else bits
  { s with bits := bits }

/-- `_fmemset` of the buffer's first `n` bytes. -/
def memset (v : UInt8) (n : ℕ) : M8Strip :=
  { s with bits := fun i => if i < n then v else s.bits i }

/-- The outer columns that the alignment added, from another buffer. -/
def copyEdges (e : M8Strip) (r area : Rect) : M8Strip :=
  let bits :=
    if r.left ≠ area.left then
      (Rect.at r.left r.top 1 (r.bottom - r.top)).store s.addr e.pix s.bits
    else s.bits
  let bits :=
    if r.right ≠ area.right then
      (Rect.at (r.right - 1) r.top 1 (r.bottom - r.top)).store s.addr e.pix bits
    else bits
  { s with bits := bits }

end M8Strip

/-! ## The fallback -/

/-- A test of each pixel, row by row. -/
def Rect.all (r : Rect) (test : Pixel → Bool) : Bool :=
  (List.range (r.bottom - r.top).toNat).all fun y =>
    (List.range (r.right - r.left).toNat).all fun x => test (r.left + x, r.top + y)

/-- `m8_covered` of strip `s`. -/
def m8Covered (draw : M8Draw) (s area clip : Rect) (st : FallbackState) : Bool × FallbackState :=
  let n := (s.bottom - s.top).toNat * st.dst.pitch
  let src := { st.src with pitch := st.dst.pitch, place := s }
  let st := { st with dst := st.dst.memset 0x00 n, src := src.memset 0xFF n }
  let st := draw .src clip (draw .dst clip st)
  (Rect.all ⟨area.left, s.top, area.right, s.bottom⟩ fun p => st.dst.pix p == st.src.pix p, st)

/-- `m8_strip_write` of `m8_dst` to `s`. -/
def FallbackState.write (st : FallbackState) (s : Rect) : FallbackState :=
  { st with
    card := applyAll (m8StripWrite st.dst.bits st.dst.pitch s.left s.top
      (s.right - s.left).toNat (s.bottom - s.top).toNat) st.card }

/-- Rows `n.1` to `n.1 + n.2` of the bound, from the top or from the bottom. -/
def stripRect (bound : Rect) (bottomUp : Bool) (n : ℕ × ℕ) : Rect :=
  if bottomUp then ⟨bound.left, bound.bottom - n.1 - n.2, bound.right, bound.bottom - n.1⟩
  else ⟨bound.left, bound.top + n.1, bound.right, bound.top + n.1 + n.2⟩

/-- The DIB Engine's clip in strip `s`. -/
def stripClip (area s : Rect) : Rect :=
  ⟨area.left, if s.top > area.top then s.top else area.top, area.right, s.bottom⟩

/-- A strip of `m8_fallback_aligned`, before it is written. -/
def fallbackDraw (draw : M8Draw) (read : ℕ) (bound area s : Rect) (st : FallbackState) :
    FallbackState :=
  let clip := stripClip area s
  let st := { st with dst := { st.dst with place := s } }
  let (covered, st) :=
    if read = M8_READ_IF_UNCOVERED then m8Covered draw s area clip st else (false, st)
  if covered then
    if bound.left ≠ area.left ∨ bound.right ≠ area.right then
      let st := { st with src := st.src.readEdges st.card s area }
      { st with dst := st.dst.copyEdges st.src s area }
    else st
  else
    let dst :=
      if read ≠ 0 then st.dst.read st.card s
      else if bound.left ≠ area.left ∨ bound.right ≠ area.right then
        st.dst.readEdges st.card s area
      else st.dst
    draw .dst clip { st with dst := dst }

/-- The area widened to even columns, and to multiples of `align`. -/
def alignedBound (m : M8Mode) (align : ℕ) (area : Rect) : Rect :=
  let bound := m8RectAlign m area
  if align > 2 then
    { bound with left := bound.left / align * align, top := bound.top / align * align }
  else bound

/-- `rows`. -/
def alignedRows (align : ℕ) (bound : Rect) : ℕ :=
  if align > 2 then m8StripRows bound / align * align else m8StripRows bound

/-- `m8_fallback_aligned` of a callback that changes the screen. The pointer is off the strips'
rows while it draws. -/
def m8FallbackAligned (m : M8Mode) (boundIn : Rect) (read : ℕ) (bottomUp : Bool) (draw : M8Draw)
    (align : ℕ) (st : FallbackState) : FallbackState :=
  let area := boundIn.inter m.screen
  if area.Empty then st
  else
    let bound := alignedBound m align area
    let st := { st with dst := { st.dst with pitch := m8StripPitch bound } }
    (strips (alignedRows align bound) (bound.bottom - bound.top).toNat 0).foldl (fun st n =>
      (fallbackDraw draw read bound area (stripRect bound bottomUp n) st).write
        (stripRect bound bottomUp n)) st

/-! ## BitBlt's callback -/

/-- `M8_BLT`. `src` is a memory source's pixels, `dib` what `DIB_BitBlt` makes of a pixel, its
source and what is there, with the ROP and the brush. -/
structure M8Blt where
  dx : ℤ
  dy : ℤ
  sx : ℤ
  sy : ℤ
  src : Card
  srcScreen : Bool
  dib : Pixel → UInt8 → UInt8 → UInt8

/-- `m8_draw_bitblt`. What it reads past the screen's edge is `past`. -/
def m8DrawBitblt (m : M8Mode) (b : M8Blt) (past : Card) : M8Draw := fun dev c st =>
  let sx := b.sx + (c.left - b.dx)
  let sy := b.sy + (c.top - b.dy)
  let source : Pixel → Pixel := fun p => (p.1 - c.left + sx, p.2 - c.top + sy)
  let sr := m8RectAlign m
    ((Rect.mk sx sy (sx + (c.right - c.left)) (sy + (c.bottom - c.top))).inter m.screen)
  let src := { st.src with pitch := m8StripPitch sr, place := sr }.read st.card sr
  let st := if b.srcScreen then { st with src := src } else st
  let pel : Pixel → UInt8 := fun q =>
    if b.srcScreen then (if q ∈ sr then src.pix q else past q) else b.src q
  match dev with
  | .dst => { st with dst := st.dst.act (fun p => b.dib p (pel (source p))) c }
  | .src => { st with src := st.src.act (fun p => b.dib p (pel (source p))) c }

/-! ## What a strip holds -/

namespace M8Strip

variable {s : M8Strip} {p q : Pixel} {card : Card}

/-- A row of the strip fits its pitch. -/
def Fits (s : M8Strip) : Prop := s.place.right - s.place.left ≤ s.pitch

theorem addr_inj (hs : s.Fits) (hp : p ∈ s.place) (hq : q ∈ s.place)
    (heq : s.addr p = s.addr q) : p = q := by
  unfold addr at heq
  unfold Fits at hs
  rw [Rect.mem_iff] at hp hq
  have hrow : (p.2 - s.place.top).toNat = (q.2 - s.place.top).toNat := by
    rcases Nat.lt_trichotomy (p.2 - s.place.top).toNat (q.2 - s.place.top).toNat with h | h | h
    · have hmul := Nat.mul_le_mul_right s.pitch (Nat.succ_le_of_lt h)
      rw [Nat.succ_mul] at hmul
      omega
    · exact h
    · have hmul := Nat.mul_le_mul_right s.pitch (Nat.succ_le_of_lt h)
      rw [Nat.succ_mul] at hmul
      omega
  rw [hrow] at heq
  exact Prod.ext (by omega) (by omega)

/-- A loop that stores pixels of the strip where they are. -/
theorem pix_store {r : Rect} {place : Pixel → ℕ} {v : Card} (hs : s.Fits)
    (hplace : ∀ p ∈ r, place p = s.addr p) (hin : ∀ p ∈ r, p ∈ s.place) (hp : p ∈ s.place) :
    r.store place v s.bits (s.addr p) = if p ∈ r then v p else s.pix p := by
  by_cases hr : p ∈ r
  · rw [if_pos hr, ← hplace p hr]
    refine Rect.store_of_mem (fun a ha b hb heq => ?_) hr
    rw [hplace a ha, hplace b hb] at heq
    exact addr_inj hs (hin a ha) (hin b hb) heq
  · rw [if_neg hr]
    refine Rect.store_of_ne fun q hq heq => hr ?_
    rw [hplace q hq] at heq
    rwa [← addr_inj hs (hin q hq) hp heq]

theorem pix_act {f : Pixel → UInt8 → UInt8} {clip : Rect} (hs : s.Fits)
    (hin : ∀ p ∈ clip, p ∈ s.place) (hp : p ∈ s.place) :
    (s.act f clip).pix p = if p ∈ clip then f p (s.pix p) else s.pix p :=
  pix_store (v := fun p => f p (s.pix p)) hs (fun _ _ => rfl) hin hp

/-- A read of columns of the strip. -/
theorem pix_readRect (card : Card) (x : ℤ) {w h : ℤ} (base : ℕ) (hs : s.Fits) (hw : 2 ∣ w)
    (hx : s.place.left ≤ x) (hxw : x + w ≤ s.place.right)
    (hh : h = s.place.bottom - s.place.top) (hbase : (base : ℤ) = x - s.place.left)
    (hp : p ∈ s.place) :
    m8HwReadRect card x s.place.top w h base s.pitch s.bits (s.addr p) =
      if x ≤ p.1 ∧ p.1 < x + w then card p else s.pix p := by
  have heven : w / 2 * 2 = w := Int.ediv_mul_cancel hw
  unfold m8HwReadRect
  rw [heven, pix_store hs (fun q hq => ?_) (fun q hq => ?_) hp]
  · refine if_congr ?_ rfl rfl
    rw [Rect.mem_iff] at hp
    rw [Rect.mem_at]
    omega
  · rw [Rect.mem_at] at hq
    unfold addr
    omega
  · rw [Rect.mem_at] at hq
    rw [Rect.mem_iff]
    omega

theorem pix_read (hs : s.Fits) (hw : 2 ∣ s.place.right - s.place.left) (hp : p ∈ s.place) :
    (s.read card s.place).pix p = card p := by
  have hread := pix_readRect card s.place.left 0 hs hw (Int.le_refl _)
    (by omega) rfl (by simp) hp
  rw [Rect.mem_iff] at hp
  rw [if_pos (by omega)] at hread
  exact hread

/-- The columns at the edges are read, where the area is narrower. -/
theorem pix_readEdges (card : Card) (area : Rect) (hs : s.Fits)
    (hw : 2 ≤ s.place.right - s.place.left)
    (hp : p ∈ s.place) :
    (s.readEdges card s.place area).pix p =
      if s.place.left ≠ area.left ∧ p.1 < s.place.left + 2 ∨
        s.place.right ≠ area.right ∧ s.place.right - 2 ≤ p.1 then card p else s.pix p := by
  have hmem := Rect.mem_iff.1 hp
  let t : M8Strip :=
    { s with
      bits := if s.place.left ≠ area.left then
          m8HwReadRect card s.place.left s.place.top 2 (s.place.bottom - s.place.top) 0 s.pitch
            s.bits
        else s.bits }
  have hleft : t.pix p =
      if s.place.left ≠ area.left ∧ p.1 < s.place.left + 2 then card p else s.pix p := by
    by_cases h : s.place.left ≠ area.left
    · have hread := pix_readRect card s.place.left 0 hs (Int.dvd_refl 2) (Int.le_refl _)
        (by omega) rfl (by simp) hp
      have ht : t.pix p = _ := congrFun (if_pos h) (s.addr p)
      rw [ht, hread]
      refine if_congr ?_ rfl rfl
      omega
    · have ht : t.pix p = s.pix p := congrFun (if_neg h) (s.addr p)
      rw [ht, if_neg (fun h' => h h'.1)]
  have hright : (s.readEdges card s.place area).pix p =
      if s.place.right ≠ area.right ∧ s.place.right - 2 ≤ p.1 then card p else t.pix p := by
    by_cases h : s.place.right ≠ area.right
    · have hread := pix_readRect (s := t) card (s.place.right - 2)
        (s.place.right - 2 - s.place.left).toNat hs (Int.dvd_refl 2)
        (show s.place.left ≤ _ by omega) (show _ ≤ s.place.right by omega) rfl
        (show _ = _ - s.place.left by omega) hp
      have ht : (s.readEdges card s.place area).pix p = _ := congrFun (if_pos h) (s.addr p)
      rw [ht]
      refine hread.trans (if_congr ?_ rfl rfl)
      omega
    · have ht : (s.readEdges card s.place area).pix p = t.pix p := congrFun (if_neg h) (s.addr p)
      rw [ht, if_neg (fun h' => h h'.1)]
  rw [hright, hleft]
  split_ifs <;> first | rfl | omega

theorem pix_copyEdges (e : M8Strip) (area : Rect) (hs : s.Fits) (hp : p ∈ s.place) :
    (s.copyEdges e s.place area).pix p =
      if s.place.left ≠ area.left ∧ p.1 = s.place.left ∨
        s.place.right ≠ area.right ∧ p.1 = s.place.right - 1 then e.pix p else s.pix p := by
  have hmem := Rect.mem_iff.1 hp
  have hcol : ∀ x, s.place.left ≤ x → x < s.place.right →
      ∀ q ∈ Rect.at x s.place.top 1 (s.place.bottom - s.place.top), q ∈ s.place := by
    intro x hl hr q hq
    rw [Rect.mem_at] at hq
    rw [Rect.mem_iff]
    omega
  let t : M8Strip :=
    { s with
      bits := if s.place.left ≠ area.left then
          (Rect.at s.place.left s.place.top 1 (s.place.bottom - s.place.top)).store s.addr e.pix
            s.bits
        else s.bits }
  have hleft : t.pix p =
      if s.place.left ≠ area.left ∧ p.1 = s.place.left then e.pix p else s.pix p := by
    by_cases h : s.place.left ≠ area.left
    · have hstore := pix_store (v := e.pix) hs (fun _ _ => rfl)
        (hcol s.place.left (Int.le_refl _) (by omega)) hp
      have ht : t.pix p = _ := congrFun (if_pos h) (s.addr p)
      rw [ht, hstore]
      refine if_congr ?_ rfl rfl
      rw [Rect.mem_at]
      omega
    · have ht : t.pix p = s.pix p := congrFun (if_neg h) (s.addr p)
      rw [ht, if_neg (fun h' => h h'.1)]
  have hright : (s.copyEdges e s.place area).pix p =
      if s.place.right ≠ area.right ∧ p.1 = s.place.right - 1 then e.pix p else t.pix p := by
    by_cases h : s.place.right ≠ area.right
    · have hstore := pix_store (s := t) (v := e.pix) hs (fun _ _ => rfl)
        (hcol (s.place.right - 1) (by omega) (by omega)) hp
      have ht : (s.copyEdges e s.place area).pix p = _ := congrFun (if_pos h) (s.addr p)
      rw [ht]
      refine hstore.trans (if_congr ?_ rfl rfl)
      rw [Rect.mem_at]
      omega
    · have ht : (s.copyEdges e s.place area).pix p = t.pix p :=
        congrFun (if_neg h) (s.addr p)
      rw [ht, if_neg (fun h' => h h'.1)]
  rw [hright, hleft]
  split_ifs <;> first | rfl | omega

/-- The buffer's bytes up to the strip's last row are all it holds. -/
theorem addr_lt (hs : s.Fits) (hp : p ∈ s.place) :
    s.addr p < (s.place.bottom - s.place.top).toNat * s.pitch := by
  unfold addr
  unfold Fits at hs
  rw [Rect.mem_iff] at hp
  have hmul := Nat.mul_le_mul_right s.pitch
    (show (p.2 - s.place.top).toNat + 1 ≤ (s.place.bottom - s.place.top).toNat by omega)
  rw [Nat.succ_mul] at hmul
  omega

theorem pix_memset {v : UInt8} (hs : s.Fits) (hp : p ∈ s.place) :
    (s.memset v ((s.place.bottom - s.place.top).toNat * s.pitch)).pix p = v :=
  if_pos (addr_lt hs hp)

end M8Strip

theorem Rect.all_iff {r : Rect} {test : Pixel → Bool} :
    r.all test ↔ ∀ p ∈ r, test p := by
  simp only [Rect.all, List.all_eq_true, List.mem_range]
  refine ⟨fun h p hp => ?_, fun h y hy x hx => h _ ?_⟩
  · rw [Rect.mem_iff] at hp
    have hpx := h (p.2 - r.top).toNat (by omega) (p.1 - r.left).toNat (by omega)
    have heq : (r.left + ((p.1 - r.left).toNat : ℤ), r.top + ((p.2 - r.top).toNat : ℤ)) = p :=
      Prod.ext (by dsimp only; omega) (by dsimp only; omega)
    rwa [heq] at hpx
  · rw [Rect.mem_iff]
    dsimp only
    omega

/-! ## What is drawn in a strip -/

/-- A function of a pixel whose bits are each a function of the bit in its place. -/
def Bitwise (g : UInt8 → UInt8) : Prop :=
  ∀ x y i, x.toNat.testBit i = y.toNat.testBit i → (g x).toNat.testBit i = (g y).toNat.testBit i

/-- What comes out the same over both fillings does not depend on what is there. -/
theorem Bitwise.eq_of_covered {g : UInt8 → UInt8} (hg : Bitwise g) (h : g 0x00 = g 0xFF)
    (x : UInt8) : g x = g 0x00 := by
  have hones : ∀ i < 8, (0xFF : UInt8).toNat.testBit i = true := by decide
  refine UInt8.toNat_inj.1 (Nat.eq_of_testBit_eq fun i => ?_)
  by_cases hi : i < 8
  · by_cases hx : x.toNat.testBit i
    · rw [h]
      exact hg _ _ _ (hx.trans (hones i hi).symm)
    · exact hg _ _ _ ((Bool.eq_false_iff.2 hx).trans (Nat.zero_testBit i).symm)
  · refine hg _ _ _ ?_
    rw [Nat.testBit_lt_two_pow, Nat.testBit_lt_two_pow]
    · exact Nat.lt_of_lt_of_le (by decide) (Nat.pow_le_pow_right (by decide) (Nat.not_lt.1 hi))
    · exact Nat.lt_of_lt_of_le x.toNat_lt (Nat.pow_le_pow_right (by decide) (Nat.not_lt.1 hi))

/-- The callback draws `f` in `m8_dst`. -/
structure DrawsDst (draw : M8Draw) (f : Pixel → UInt8 → UInt8) (clip : Rect)
    (st : FallbackState) : Prop where
  card : (draw .dst clip st).card = st.card
  place : (draw .dst clip st).dst.place = st.dst.place
  pitch : (draw .dst clip st).dst.pitch = st.dst.pitch
  pix : ∀ p ∈ st.dst.place, (draw .dst clip st).dst.pix p =
    if p ∈ clip then f p (st.dst.pix p) else st.dst.pix p

/-- A clip inside a strip whose rows fit. -/
def M8Strip.Holds (s : M8Strip) (clip : Rect) : Prop := s.Fits ∧ ∀ p ∈ clip, p ∈ s.place

/-- The callback draws `f` in either buffer and leaves all else alone. -/
structure DrawsRam (draw : M8Draw) (f : Pixel → UInt8 → UInt8) : Prop where
  dst : ∀ clip st, st.dst.Holds clip → draw .dst clip st = { st with dst := st.dst.act f clip }
  src : ∀ clip st, st.src.Holds clip → draw .src clip st = { st with src := st.src.act f clip }

theorem DrawsRam.drawsDst {draw : M8Draw} {f : Pixel → UInt8 → UInt8} (h : DrawsRam draw f)
    {clip : Rect} {st : FallbackState} (hs : st.dst.Holds clip) : DrawsDst draw f clip st := by
  refine ⟨?_, ?_, ?_, fun p hp => ?_⟩ <;> rw [h.dst clip st hs]
  · rfl
  · rfl
  · exact M8Strip.pix_act hs.1 hs.2 hp

/-- What `alignedBound` makes of an area : even edges, and no more than `align` asks. -/
structure Widened (m : M8Mode) (align : ℕ) (area bound : Rect) : Prop where
  left : 0 ≤ bound.left ∧ bound.left ≤ area.left
  right : area.right ≤ bound.right ∧ bound.right ≤ area.right + 1 ∧ bound.right ≤ m.x
  top : 0 ≤ bound.top ∧ bound.top ≤ area.top
  bottom : bound.bottom = area.bottom ∧ bound.bottom ≤ m.y
  width : area.left < area.right ∧ area.top < area.bottom
  even : 2 ∣ bound.left ∧ 2 ∣ bound.right
  two : align = 2 → area.left ≤ bound.left + 1 ∧ bound.top = area.top
  eight : align = 8 → (8 ∣ bound.left ∧ 8 ∣ bound.top) ∧ area.left < bound.left + 8 ∧
    area.top < bound.top + 8

variable {m : M8Mode} {align : ℕ} {boundIn area bound : Rect}

theorem alignedBound_widened (hne : ¬ (boundIn.inter m.screen).Empty)
    (halign : align = 2 ∨ align = 8) :
    Widened m align (boundIn.inter m.screen) (alignedBound m align (boundIn.inter m.screen)) := by
  have hx : 2 ∣ m.x := by
    have h := m.ok
    simp only [Prod.mk.injEq] at h
    omega
  unfold Rect.Empty at hne
  have hin : 0 ≤ (boundIn.inter m.screen).left ∧ 0 ≤ (boundIn.inter m.screen).top ∧
      (boundIn.inter m.screen).right ≤ m.x ∧ (boundIn.inter m.screen).bottom ≤ m.y := by
    unfold Rect.inter M8Mode.screen
    dsimp only
    omega
  generalize boundIn.inter m.screen = area at *
  unfold alignedBound m8RectAlign
  rcases halign with rfl | rfl
  · rw [if_neg (by decide)]
    exact ⟨by dsimp only; omega, by dsimp only; omega, by dsimp only; omega, by dsimp only; omega,
      by omega,
      by dsimp only; omega, fun _ => by dsimp only; omega, fun h => by omega⟩
  · rw [if_pos (by decide)]
    exact ⟨by dsimp only; omega, by dsimp only; omega, by dsimp only; omega, by dsimp only; omega,
      by omega,
      by dsimp only; omega, fun h => by omega, fun _ => by dsimp only; omega⟩

/-- A strip of the bound. -/
structure StripOf (bound s : Rect) : Prop where
  left : s.left = bound.left
  right : s.right = bound.right
  top : bound.top ≤ s.top
  bottom : s.bottom ≤ bound.bottom

section Draw

variable {s : Rect} {p : Pixel} {f : Pixel → UInt8 → UInt8} {draw : M8Draw} {read : ℕ}
  {st st' : FallbackState}

theorem mem_stripClip (hw : Widened m align area bound) (hs : StripOf bound s) :
    p ∈ stripClip area s ↔ p ∈ area ∧ p ∈ s := by
  have hleft := hw.left
  have hright := hw.right
  have hbottom := hw.bottom
  have h1 := hs.left
  have h2 := hs.right
  have h3 := hs.bottom
  rw [Rect.mem_iff, Rect.mem_iff, Rect.mem_iff]
  unfold stripClip
  dsimp only
  omega

/-- Of a strip that is drawn : `m8_dst` holds what the screen is to be. -/
structure StripDrawn (area s : Rect) (f : Pixel → UInt8 → UInt8) (st st' : FallbackState) :
    Prop where
  card : st'.card = st.card
  place : st'.dst.place = s
  pitch : st'.dst.pitch = st.dst.pitch
  pix : ∀ p ∈ s, st'.dst.pix p = if p ∈ area then f p (st.card p) else st.card p

/-- A row of the bound fits the pitch of its strips. -/
theorem strip_fits (hs : StripOf bound s) {d : M8Strip} (hplace : d.place = s)
    (hpitch : d.pitch = m8StripPitch bound) : d.Fits := by
  have h1 := hs.left
  have h2 := hs.right
  unfold M8Strip.Fits
  rw [hplace, hpitch]
  unfold m8StripPitch
  omega

/-- A draw over pixels that count only outside the area, or as the screen has them. -/
theorem drawn_over (hw : Widened m align area bound) (hs : StripOf bound s)
    (hdraw : DrawsDst draw f (stripClip area s) st') (hcard : st'.card = st.card)
    (hplace : st'.dst.place = s) (hpitch : st'.dst.pitch = st.dst.pitch)
    (hpix : ∀ p ∈ s, st'.dst.pix p = st.card p ∨ p ∈ area ∧ ∀ x y, f p x = f p y) :
    StripDrawn area s f st (draw .dst (stripClip area s) st') := by
  refine ⟨hdraw.card.trans hcard, hdraw.place.trans hplace, hdraw.pitch.trans hpitch,
    fun p hp => ?_⟩
  rw [hdraw.pix p (hplace ▸ hp)]
  by_cases harea : p ∈ area
  · rw [if_pos ((mem_stripClip hw hs).2 ⟨harea, hp⟩), if_pos harea]
    rcases hpix p hp with h | ⟨-, h⟩
    · rw [h]
    · exact h _ _
  · rw [if_neg fun h => harea ((mem_stripClip hw hs).1 h).1, if_neg harea]
    exact (hpix p hp).resolve_right fun h => harea h.1

/-- A strip that is not covered : read, in whole or at the edges, and drawn. -/
theorem drawn_uncovered (st' : FallbackState) (hw : Widened m align area bound)
    (hs : StripOf bound s)
    (halign : align = 2 ∨ align = 8 ∧ read = 1) (hconst : read = 0 → ∀ p x y, f p x = f p y)
    (hcard : st'.card = st.card) (hplace : st'.dst.place = s)
    (hpitch : st'.dst.pitch = st.dst.pitch) (hst : st.dst.pitch = m8StripPitch bound)
    (hdraw : ∀ t, t.card = st.card → t.dst.place = s → t.dst.pitch = st.dst.pitch →
      DrawsDst draw f (stripClip area s) t) :
    let dst :=
      if read ≠ 0 then st'.dst.read st'.card s
      else if bound.left ≠ area.left ∨ bound.right ≠ area.right then
        st'.dst.readEdges st'.card s area
      else st'.dst
    StripDrawn area s f st (draw .dst (stripClip area s) { st' with dst := dst }) := by
  have hfits := strip_fits hs hplace (hpitch.trans hst)
  have hleft := hw.left
  have hright := hw.right
  have hwidth := hw.width
  have heven := hw.even
  have h1 := hs.left
  have h2 := hs.right
  by_cases hread : read ≠ 0
  · rw [if_pos hread]
    refine drawn_over hw hs (hdraw _ hcard hplace hpitch) hcard hplace hpitch
      fun p hp => .inl ?_
    rw [hcard]
    subst hplace
    exact M8Strip.pix_read hfits (by omega) hp
  · obtain rfl : read = 0 := by omega
    have htwo := hw.two (halign.resolve_right (by omega))
    have hconst := hconst rfl
    rw [if_neg hread]
    have harea : ∀ p ∈ s, p ∉ area → bound.left ≠ area.left ∧ p.1 < s.left + 2 ∨
        bound.right ≠ area.right ∧ s.right - 2 ≤ p.1 := fun p hp hn => by
      have hbottom := hw.bottom
      have htop := hs.top
      have hsb := hs.bottom
      rw [Rect.mem_iff] at hp hn
      omega
    by_cases hedges : bound.left ≠ area.left ∨ bound.right ≠ area.right
    · rw [if_pos hedges]
      refine drawn_over hw hs (hdraw _ hcard hplace hpitch) hcard hplace hpitch
        fun p hp => ?_
      by_cases hin : p ∈ area
      · exact .inr ⟨hin, hconst p⟩
      · refine .inl ?_
        have hcols := harea p hp hin
        rw [hcard]
        subst hplace
        rw [← h1, ← h2] at hcols
        exact (M8Strip.pix_readEdges _ _ hfits (by omega) hp).trans (if_pos hcols)
    · rw [if_neg hedges]
      rw [not_or, not_not, not_not] at hedges
      refine drawn_over hw hs (hdraw _ hcard hplace hpitch) hcard hplace hpitch
        fun p hp => .inr ⟨?_, hconst p⟩
      by_contra hn
      rcases harea p hp hn with h | h
      · exact h.1 hedges.1
      · exact h.1 hedges.2

/-- What `m8_covered` leaves alone, and what it has found when it says yes. -/
theorem m8Covered_spec (st : FallbackState) (hw : Widened m align area bound) (hs : StripOf bound s)
    (hram : DrawsRam draw f) (hbit : ∀ p, Bitwise (f p)) (hplace : st.dst.place = s)
    (hpitch : st.dst.pitch = m8StripPitch bound) :
    let r := m8Covered draw s area (stripClip area s) st
    (r.2.card = st.card ∧ r.2.dst.place = s ∧ r.2.dst.pitch = st.dst.pitch ∧
      r.2.src.place = s ∧ r.2.src.pitch = st.dst.pitch) ∧
      (r.1 = true → ∀ p ∈ s, area.left ≤ p.1 → p.1 < area.right →
        p ∈ area ∧ ∀ x, r.2.dst.pix p = f p x) := by
  unfold m8Covered
  dsimp only
  have hdst : st.dst.Fits := strip_fits hs hplace hpitch
  have hsrc : M8Strip.Fits { st.src with pitch := st.dst.pitch, place := s } :=
    strip_fits hs rfl hpitch
  have hclip : ∀ q ∈ stripClip area s, q ∈ s := fun q hq => ((mem_stripClip hw hs).1 hq).2
  rw [hram.dst _ ⟨_, st.dst.memset 0x00 _, _⟩ ⟨hdst, fun q hq => hplace ▸ hclip q hq⟩,
    hram.src _ ⟨_, _, M8Strip.memset ⟨st.src.bits, st.dst.pitch, s⟩ 0xFF _⟩ ⟨hsrc, hclip⟩]
  refine ⟨⟨rfl, hplace, rfl, rfl, rfl⟩, fun hcov p hp hl hr => ?_⟩
  have hcol : p ∈ Rect.mk area.left s.top area.right s.bottom := by
    rw [Rect.mem_iff] at hp ⊢
    dsimp only
    omega
  have heq := eq_of_beq (Rect.all_iff.1 hcov p hcol)
  have hdstpix : ((st.dst.memset 0x00 ((s.bottom - s.top).toNat * st.dst.pitch)).act f
      (stripClip area s)).pix p = _ :=
    M8Strip.pix_act hdst (fun q hq => hplace ▸ hclip q hq) (hplace ▸ hp)
  have hsrcpix : ((M8Strip.memset ⟨st.src.bits, st.dst.pitch, s⟩ 0xFF
      ((s.bottom - s.top).toNat * st.dst.pitch)).act f (stripClip area s)).pix p = _ :=
    M8Strip.pix_act hsrc hclip hp
  have hzero : (st.dst.memset 0x00 ((s.bottom - s.top).toNat * st.dst.pitch)).pix p = 0x00 := by
    rw [← hplace]
    exact M8Strip.pix_memset hdst (hplace ▸ hp)
  have hones : (M8Strip.memset ⟨st.src.bits, st.dst.pitch, s⟩ 0xFF
      ((s.bottom - s.top).toNat * st.dst.pitch)).pix p = 0xFF := M8Strip.pix_memset hsrc hp
  rw [hzero] at hdstpix
  rw [hones] at hsrcpix
  rw [hdstpix, hsrcpix] at heq
  by_cases hin : p ∈ stripClip area s
  · rw [if_pos hin, if_pos hin] at heq
    refine ⟨((mem_stripClip hw hs).1 hin).1, fun x => ?_⟩
    rw [hdstpix, if_pos hin]
    exact ((hbit p).eq_of_covered heq x).symm
  · rw [if_neg hin, if_neg hin] at heq
    exact absurd heq (by decide)

/-- Before it is written, a strip is what the screen is to be. -/
theorem fallbackDraw_spec (hw : Widened m align area bound) (hs : StripOf bound s)
    (halign : align = 2 ∨ align = 8 ∧ read = 1) (hconst : read = 0 → ∀ p x y, f p x = f p y)
    (hram : read = M8_READ_IF_UNCOVERED → DrawsRam draw f ∧ ∀ p, Bitwise (f p))
    (hpitch : st.dst.pitch = m8StripPitch bound)
    (hdraw : ∀ t, t.card = st.card → t.dst.place = s → t.dst.pitch = st.dst.pitch →
      DrawsDst draw f (stripClip area s) t) :
    StripDrawn area s f st (fallbackDraw draw read bound area s st) := by
  unfold fallbackDraw
  by_cases hread : read = M8_READ_IF_UNCOVERED
  · obtain ⟨hram, hbit⟩ := hram hread
    have htwo := hw.two (halign.resolve_right (by unfold M8_READ_IF_UNCOVERED at hread; omega))
    have hcov := m8Covered_spec { st with dst := { st.dst with place := s } } hw hs hram
      hbit rfl hpitch
    simp only [if_pos hread]
    dsimp only at hcov
    generalize m8Covered draw s area (stripClip area s)
      { st with dst := { st.dst with place := s } } = r at hcov ⊢
    obtain ⟨⟨hcard, hplace, hpitch', hsplace, hspitch⟩, hcov⟩ := hcov
    obtain ⟨covered, t⟩ := r
    dsimp only at hcard hplace hpitch' hsplace hspitch hcov ⊢
    by_cases hyes : covered = true
    · have hcov := hcov hyes
      rw [if_pos hyes]
      have hleft := hw.left
      have hright := hw.right
      have hwidth := hw.width
      have heven := hw.even
      have h1 := hs.left
      have h2 := hs.right
      have hdst := strip_fits hs hplace (hpitch'.trans hpitch)
      have hsrc := strip_fits hs hsplace (hspitch.trans hpitch)
      by_cases hedges : bound.left ≠ area.left ∨ bound.right ≠ area.right
      · rw [if_pos hedges]
        refine ⟨hcard, hplace, hpitch', fun p hp => ?_⟩
        have hcopy := M8Strip.pix_copyEdges (t.src.readEdges t.card s area) area hdst
            (hplace.symm ▸ hp)
        have hedge := M8Strip.pix_readEdges t.card area hsrc
          (by rw [hsplace]; omega) (hsplace.symm ▸ hp)
        rw [hplace] at hcopy
        rw [hsplace] at hedge
        have hmem := Rect.mem_iff.1 hp
        by_cases hcols : area.left ≤ p.1 ∧ p.1 < area.right
        · obtain ⟨hin, hpix⟩ := hcov p hp hcols.1 hcols.2
          rw [if_neg (by omega)] at hcopy
          rw [if_pos hin]
          exact hcopy.trans (hpix _)
        · rw [if_pos (by omega)] at hcopy
          rw [if_pos (by omega)] at hedge
          rw [if_neg fun hin => hcols (by rw [Rect.mem_iff] at hin; omega), ← hcard]
          exact hcopy.trans hedge
      · rw [if_neg hedges]
        rw [not_or, not_not, not_not] at hedges
        refine ⟨hcard, hplace, hpitch', fun p hp => ?_⟩
        have hmem := Rect.mem_iff.1 hp
        obtain ⟨hin, hpix⟩ := hcov p hp (by omega) (by omega)
        rw [if_pos hin]
        exact hpix _
    · rw [if_neg hyes]
      exact drawn_uncovered _ hw hs halign hconst hcard hplace hpitch' hpitch hdraw
  · simp only [if_neg hread]
    exact drawn_uncovered { st with dst := { st.dst with place := s } } hw hs halign hconst rfl rfl
      rfl hpitch hdraw

end Draw

/-! ## The whole fallback -/

/-- Rows of the bound that the first `d` from the top, or from the bottom, are. -/
def DoneRow (bound : Rect) (bottomUp : Bool) (d : ℕ) (p : Pixel) : Prop :=
  if bottomUp then bound.bottom - d ≤ p.2 else p.2 < bound.top + d

section Run

variable {f : Pixel → UInt8 → UInt8} {draw : M8Draw} {read : ℕ} {bottomUp : Bool}
  {st : FallbackState} {c₀ : Card}

/-- The first `d` rows are as the callback makes them, the rest of the screen as it was. -/
def StripsDone (area bound : Rect) (bottomUp : Bool) (f : Pixel → UInt8 → UInt8) (c₀ : Card)
    (d : ℕ) (card : Card) : Prop :=
  Painted (fun p => p ∈ area ∧ DoneRow bound bottomUp d p) (fun p => f p (c₀ p)) c₀ card

theorem stripRect_of (bottomUp : Bool) {d k : ℕ} (hd : d + k ≤ (bound.bottom - bound.top).toNat)
    (hk : 0 < k) :
    StripOf bound (stripRect bound bottomUp (d, k)) := by
  unfold stripRect
  cases bottomUp
  · rw [if_neg Bool.false_ne_true]
    exact ⟨rfl, rfl, by dsimp only; omega, by dsimp only; omega⟩
  · rw [if_pos rfl]
    exact ⟨rfl, rfl, by dsimp only; omega, by dsimp only; omega⟩

/-- The rows of a strip are those between the rows before it and after it. -/
theorem mem_stripRect {d k : ℕ} {p : Pixel} :
    p ∈ stripRect bound bottomUp (d, k) ↔ (bound.left ≤ p.1 ∧ p.1 < bound.right) ∧
      ¬ DoneRow bound bottomUp d p ∧ DoneRow bound bottomUp (d + k) p := by
  unfold stripRect DoneRow
  rw [Rect.mem_iff]
  cases bottomUp
  · simp only [Bool.false_eq_true, if_false]
    omega
  · simp only [if_true]
    omega

/-- A strip, written. -/
theorem strip_written (hw : Widened m align area bound) {d k : ℕ} (hk : 0 < k)
    (hd : d + k ≤ (bound.bottom - bound.top).toNat)
    (hdone : StripsDone area bound bottomUp f c₀ d st.card)
    {st' : FallbackState} (hdrawn : StripDrawn area (stripRect bound bottomUp (d, k)) f st st') :
    StripsDone area bound bottomUp f c₀ (d + k)
      (st'.write (stripRect bound bottomUp (d, k))).card := by
  have hs := stripRect_of bottomUp hd hk
  have heven := hw.even
  have hleft := hw.left
  have hright := hw.right
  have hwidth := hw.width
  have h1 := hs.left
  have h2 := hs.right
  have hbottom := hs.bottom
  have hsrow : ∀ p, p ∈ stripRect bound bottomUp (d, k) ↔ _ := fun p => mem_stripRect
  generalize stripRect bound bottomUp (d, k) = s at hs hdrawn hsrow h1 h2 hbottom ⊢
  unfold FallbackState.write
  dsimp only
  rw [(m8StripWrite_spec _ _ _ (by omega) (by omega)).1]
  intro p
  have hrect : p ∈ Rect.at s.left s.top (s.right - s.left).toNat (s.bottom - s.top).toNat ↔
      p ∈ s := by
    rw [Rect.mem_at, Rect.mem_iff]
    omega
  by_cases hp : p ∈ s
  · have hpix : stripPixels st'.dst.bits st'.dst.pitch s.left s.top p = st'.dst.pix p := by
      have hplace := hdrawn.place
      subst hplace
      rfl
    rw [Rect.paint_mem (hrect.2 hp), hpix, hdrawn.pix p hp]
    have hrows := (hsrow p).1 hp
    have hbefore := (hdone p).2 fun h => hrows.2.1 h.2
    rw [hbefore]
    by_cases hin : p ∈ area
    · rw [if_pos hin]
      exact ⟨fun _ => rfl, fun hn => absurd ⟨hin, hrows.2.2⟩ hn⟩
    · rw [if_neg hin]
      exact ⟨fun h => absurd h.1 hin, fun _ => rfl⟩
  · rw [Rect.paint_not_mem fun h => hp (hrect.1 h), hdrawn.card]
    have hsame : (p ∈ area ∧ DoneRow bound bottomUp (d + k) p) ↔
        (p ∈ area ∧ DoneRow bound bottomUp d p) := by
      refine and_congr_right fun hin => ⟨fun h => ?_, fun h => ?_⟩
      · by_contra hn
        rw [Rect.mem_iff] at hin
        exact hp ((hsrow p).2 ⟨by omega, hn, h⟩)
      · unfold DoneRow at h ⊢
        split_ifs at h ⊢ <;> omega
    dsimp only
    rw [hsame]
    exact hdone p

/-- How a caller sets `read` : 1 unless the callback covers all of its clip with what does not
depend on the screen, or may be tested for it. Only `Output` aligns to 8, and reads. -/
structure ReadSet (align read : ℕ) (draw : M8Draw) (f : Pixel → UInt8 → UInt8) : Prop where
  align : align = 2 ∨ align = 8 ∧ read = 1
  whole : read = 0 → ∀ p x y, f p x = f p y
  tested : read = M8_READ_IF_UNCOVERED → DrawsRam draw f ∧ ∀ p, Bitwise (f p)

/-- A strip has rows, and a multiple of 8 of them where it is asked. -/
theorem alignedRows_pos (hw : Widened m align area bound) (halign : align = 2 ∨ align = 8) :
    0 < alignedRows align bound ∧ (align = 8 → 8 ∣ alignedRows align bound) := by
  have hx : m.x ≤ 1024 := by
    have h := m.ok
    simp only [Prod.mk.injEq] at h
    omega
  have hleft := hw.left
  have hright := hw.right
  have hpitch : m8StripPitch bound + 4 ≤ 1028 := by
    unfold m8StripPitch
    omega
  have hrows : 63 ≤ m8StripRows bound := by
    unfold m8StripRows M8_BUF_BYTES
    rw [Nat.le_div_iff_mul_le (by omega)]
    omega
  unfold alignedRows
  rcases halign with rfl | rfl
  · rw [if_neg (by decide)]
    omega
  · rw [if_pos (by decide)]
    exact ⟨by omega, fun _ => Nat.dvd_mul_left 8 _⟩

/-- The fallback, with a callback that draws `f` in each strip as the screen then is. -/
theorem fallback_run (hread : ReadSet align read draw f)
    (hdraw : ∀ area bound, area = boundIn.inter m.screen → bound = alignedBound m align area →
      Widened m align area bound → ∀ d k t, 0 < k → d + k ≤ (bound.bottom - bound.top).toNat →
      alignedRows align bound ∣ d → (align = 8 → 8 ∣ d) →
      k = min (alignedRows align bound) ((bound.bottom - bound.top).toNat - d) →
      StripsDone area bound bottomUp f st.card d t.card →
      t.dst.place = stripRect bound bottomUp (d, k) → t.dst.pitch = m8StripPitch bound →
      DrawsDst draw f (stripClip area (stripRect bound bottomUp (d, k))) t) :
    (m8FallbackAligned m boundIn read bottomUp draw align st).card =
      (boundIn.inter m.screen).paint (fun p => f p (st.card p)) st.card := by
  unfold m8FallbackAligned
  dsimp only
  by_cases hne : (boundIn.inter m.screen).Empty
  · rw [if_pos hne]
    funext p
    rw [Rect.paint_not_mem hne.not_mem]
  have halign := hread.align.imp_right And.left
  have hw := alignedBound_widened hne halign
  have hdraw := hdraw _ _ rfl rfl hw
  rw [if_neg hne]
  generalize boundIn.inter m.screen = area at *
  generalize alignedBound m align area = bound at *
  obtain ⟨hrows, height⟩ := alignedRows_pos hw halign
  have hleft := hw.left
  have hright := hw.right
  have htop := hw.top
  have hbottom := hw.bottom
  have hend := strips_induct (P := fun d (t : FallbackState) =>
      ((bound.bottom - bound.top).toNat = d ∨ alignedRows align bound ∣ d) ∧
        t.dst.pitch = m8StripPitch bound ∧ StripsDone area bound bottomUp f st.card d t.card)
    (fun t n => (fallbackDraw draw read bound area (stripRect bound bottomUp n) t).write
      (stripRect bound bottomUp n)) (fun d k t hk hmin hP => ?_) hrows
    (Nat.zero_le (bound.bottom - bound.top).toNat)
    (s := { st with dst := { st.dst with pitch := m8StripPitch bound } })
    ⟨.inr (Nat.dvd_zero _), rfl, ?_⟩
  · refine Painted.eq_paint (hend.2.2.congr fun p => ⟨fun h => ⟨h, ?_⟩, And.left⟩)
    rw [Rect.mem_iff] at h
    unfold DoneRow
    split_ifs <;> omega
  · obtain ⟨hd, hpitch, hdone⟩ := hP
    have hdvd : alignedRows align bound ∣ d := hd.resolve_left (by omega)
    have hle : d + k ≤ (bound.bottom - bound.top).toNat := by omega
    have hdrawn := fallbackDraw_spec (f := f) hw (stripRect_of bottomUp hle hk)
      hread.align hread.whole hread.tested hpitch fun t' hcard hplace hpitch' =>
        hdraw d k t' hk hle hdvd (fun h => Nat.dvd_trans (height h) hdvd) hmin (hcard ▸ hdone)
          hplace (hpitch'.trans hpitch)
    refine ⟨?_, hdrawn.pitch.trans hpitch, strip_written hw hk hle hdone hdrawn⟩
    by_cases hlast : d + k = (bound.bottom - bound.top).toNat
    · exact .inl hlast.symm
    · have hfull : k = alignedRows align bound := by omega
      rw [hfull]
      exact .inr (Nat.dvd_add hdvd (Nat.dvd_refl _))
  · refine (Painted.start _ _).congr fun p => ⟨fun h => ?_, False.elim⟩
    obtain ⟨hin, hrow⟩ := h
    rw [Rect.mem_iff] at hin
    unfold DoneRow at hrow
    split_ifs at hrow <;> omega

/-- A callback of its own is one that draws as the screen was before. -/
theorem fallback_ram (hread : ReadSet align read draw f) (hram : DrawsRam draw f) :
    (m8FallbackAligned m boundIn read bottomUp draw align st).card =
      (boundIn.inter m.screen).paint (fun p => f p (st.card p)) st.card := by
  refine fallback_run hread fun area bound _ _ hw d k t hk hd _ _ _ _ hplace hpitch => ?_
  have hs := stripRect_of bottomUp hd hk
  refine hram.drawsDst ⟨strip_fits hs hplace hpitch, fun p hp => ?_⟩
  rw [hplace]
  exact ((mem_stripClip hw hs).1 hp).2

end Run

/-! ## Copies from the screen -/

section Blt

variable {b : M8Blt} {past : Card} {read : ℕ} {bottomUp : Bool} {st : FallbackState}

namespace M8Blt

/-- A pixel's source. -/
def source (b : M8Blt) (p : Pixel) : Pixel := (p.1 - b.dx + b.sx, p.2 - b.dy + b.sy)

/-- What a copy makes of a pixel of the screen as a whole. -/
def onScreen (b : M8Blt) (m : M8Mode) (past card : Card) (p : Pixel) (old : UInt8) : UInt8 :=
  b.dib p (if b.source p ∈ m.screen then card (b.source p) else past (b.source p)) old

end M8Blt

/-- The source strip holds the screen, as far as there is one. -/
theorem source_pix {r : Rect} {q : Pixel} {card : Card} {src : M8Strip} (hq : q ∈ r)
    (hplace : src.place = m8RectAlign m (r.inter m.screen))
    (hpitch : src.pitch = m8StripPitch (m8RectAlign m (r.inter m.screen))) :
    (if q ∈ m8RectAlign m (r.inter m.screen) then
        (src.read card (m8RectAlign m (r.inter m.screen))).pix q else past q) =
      if q ∈ m.screen then card q else past q := by
  have hx : 2 ∣ m.x := by
    have h := m.ok
    simp only [Prod.mk.injEq] at h
    omega
  have hiff : q ∈ m8RectAlign m (r.inter m.screen) ↔ q ∈ m.screen := by
    rw [Rect.mem_iff] at hq
    unfold m8RectAlign Rect.inter M8Mode.screen
    rw [Rect.mem_iff, Rect.mem_iff]
    dsimp only
    omega
  have heven : 2 ∣ (m8RectAlign m (r.inter m.screen)).right -
      (m8RectAlign m (r.inter m.screen)).left := by
    unfold m8RectAlign
    dsimp only
    omega
  have hfits : src.Fits := by
    unfold M8Strip.Fits
    rw [hplace, hpitch]
    unfold m8StripPitch
    omega
  rw [if_congr hiff rfl rfl]
  split_ifs with h
  · rw [← hplace] at hiff heven ⊢
    exact M8Strip.pix_read hfits heven (hiff.2 h)
  · rfl

/-- A callback with a memory source draws in either buffer. -/
theorem m8DrawBitblt_ram (past : Card) (hsrc : b.srcScreen = false) :
    DrawsRam (m8DrawBitblt m b past) fun p => b.dib p (b.src (b.source p)) := by
  have hsource : ∀ c : Rect, ∀ p : Pixel,
      (p.1 - c.left + (b.sx + (c.left - b.dx)), p.2 - c.top + (b.sy + (c.top - b.dy))) =
        b.source p := fun c p =>
    Prod.ext (show _ = p.1 - b.dx + b.sx by omega) (show _ = p.2 - b.dy + b.sy by omega)
  refine ⟨fun c t _ => ?_, fun c t _ => ?_⟩ <;> unfold m8DrawBitblt <;>
    simp only [hsrc, hsource, Bool.false_eq_true, if_false]

/-- A copy from the screen draws the source's pixels as they are on the screen. -/
theorem m8DrawBitblt_dst (past : Card) (hsrc : b.srcScreen = true) {c : Rect}
    (hs : st.dst.Holds c) :
    DrawsDst (m8DrawBitblt m b past) (b.onScreen m past st.card) c st := by
  unfold m8DrawBitblt
  refine ⟨by simp only [hsrc, if_true], by simp only [hsrc, if_true]; rfl,
    by simp only [hsrc, if_true]; rfl, fun p hp => ?_⟩
  simp only [hsrc, if_true]
  refine (M8Strip.pix_act hs.1 hs.2 hp).trans ?_
  by_cases hc : p ∈ c
  · rw [if_pos hc, if_pos hc]
    have hsource :
        (p.1 - c.left + (b.sx + (c.left - b.dx)), p.2 - c.top + (b.sy + (c.top - b.dy))) =
          b.source p :=
      Prod.ext (show _ = p.1 - b.dx + b.sx by omega) (show _ = p.2 - b.dy + b.sy by omega)
    rw [hsource]
    unfold M8Blt.onScreen
    congr 1
    refine source_pix ?_ rfl rfl
    have hsource' : b.source p = (p.1 - b.dx + b.sx, p.2 - b.dy + b.sy) := rfl
    rw [Rect.mem_iff] at hc ⊢
    rw [hsource']
    dsimp only
    omega
  · rw [if_neg hc, if_neg hc]

/-- The strips go from the side that the source is not on. -/
theorem fallback_blt (hsrc : b.srcScreen = true)
    (hread : ReadSet align read (m8DrawBitblt m b past) (b.onScreen m past st.card))
    (hup : b.sy ≤ b.dy ∧ bottomUp = true ∨ b.dy ≤ b.sy ∧ bottomUp = false) :
    (m8FallbackAligned m boundIn read bottomUp (m8DrawBitblt m b past) align st).card =
      (boundIn.inter m.screen).paint (fun p => b.onScreen m past st.card p (st.card p))
        st.card := by
  refine fallback_run hread fun area bound _ _ hw d k t hk hd _ _ _ hdone hplace hpitch => ?_
  have hs := stripRect_of bottomUp hd hk
  have hdraw := m8DrawBitblt_dst (m := m) past hsrc ⟨strip_fits hs hplace hpitch,
    fun p hp => hplace ▸ ((mem_stripClip hw hs).1 hp).2⟩
  refine ⟨hdraw.card, hdraw.place, hdraw.pitch, fun p hp => ?_⟩
  rw [hdraw.pix p hp]
  by_cases hc : p ∈ stripClip area (stripRect bound bottomUp (d, k))
  · rw [if_pos hc, if_pos hc]
    have hrow := (mem_stripRect.1 ((mem_stripClip hw hs).1 hc).2).2.1
    have hsource : ¬ DoneRow bound bottomUp d (b.source p) := by
      unfold DoneRow M8Blt.source at *
      rcases hup with ⟨hsy, rfl⟩ | ⟨hsy, rfl⟩
      · rw [if_pos rfl] at hrow ⊢
        dsimp only
        omega
      · rw [if_neg Bool.false_ne_true] at hrow ⊢
        dsimp only
        omega
    have hsame : t.card (b.source p) = st.card (b.source p) :=
      (hdone (b.source p)).2 fun h => hsource h.2
    unfold M8Blt.onScreen
    rw [hsame]
  · rw [if_neg hc, if_neg hc]

end Blt

/-- For every rectangle, and every callback that draws a function of each pixel bit by bit :
aligned to 2 with each way to read, and aligned to 8 where all is read, the screen is as if the
callback had drawn once on the whole of it. So it is for a copy from the screen, with the
strips from the bottom if its source is above. -/
theorem m8_fallback_aligned_eq (m : M8Mode) (boundIn : Rect) (align read : ℕ) (bottomUp : Bool)
    (st : FallbackState)
    (hread : align = 2 ∧ (read = 0 ∨ read = 1 ∨ read = M8_READ_IF_UNCOVERED) ∨
      align = 8 ∧ read = 1) :
    (∀ draw f, DrawsRam draw f → (∀ p, Bitwise (f p)) → (read = 0 → ∀ p x y, f p x = f p y) →
      (m8FallbackAligned m boundIn read bottomUp draw align st).card =
        (boundIn.inter m.screen).paint (fun p => f p (st.card p)) st.card) ∧
    ∀ (b : M8Blt) (past : Card), b.srcScreen = true → (∀ p z, Bitwise (b.dib p z)) →
      read ≠ M8_READ_IF_UNCOVERED → (read = 0 → ∀ p z x y, b.dib p z x = b.dib p z y) →
      (b.sy ≤ b.dy ∧ bottomUp = true ∨ b.dy ≤ b.sy ∧ bottomUp = false) →
      (m8FallbackAligned m boundIn read bottomUp (m8DrawBitblt m b past) align st).card =
        (boundIn.inter m.screen).paint (fun p => b.onScreen m past st.card p (st.card p))
          st.card := by
  have halign : align = 2 ∨ align = 8 ∧ read = 1 := hread.imp_left And.left
  refine ⟨fun draw f hram hbit hwhole => ?_, fun b past hsrc _ htested hwhole hup => ?_⟩
  · exact fallback_ram ⟨halign, hwhole, fun _ => ⟨hram, hbit⟩⟩ hram
  · exact fallback_blt hsrc ⟨halign, fun h0 p x y => hwhole h0 p _ x y, fun h => absurd h htested⟩
      hup

/-- A memory bitmap copied to columns 3 to 8, which are tested. -/
theorem m8_fallback_aligned_eq_odd :
    let st : FallbackState := ⟨fun _ => 0, ⟨fun _ => 9, 0, ⟨0, 0, 0, 0⟩⟩,
      ⟨fun _ => 9, 0, ⟨0, 0, 0, 0⟩⟩⟩
    let b : M8Blt := ⟨3, 1, 0, 0, fun _ => 7, false, fun _ z _ => z⟩
    let card := (m8FallbackAligned ⟨640, 480, by decide⟩ ⟨3, 1, 9, 5⟩ M8_READ_IF_UNCOVERED false
      (m8DrawBitblt ⟨640, 480, by decide⟩ b fun _ => 0) 2 st).card
    card (3, 1) = 7 ∧ card (2, 1) = 0 := by
  intro st b card
  have h : card = _ := (m8_fallback_aligned_eq ⟨640, 480, by decide⟩ ⟨3, 1, 9, 5⟩ 2
    M8_READ_IF_UNCOVERED false st (.inl ⟨rfl, .inr (.inr rfl)⟩)).1 _ _
      (m8DrawBitblt_ram (b := b) (fun _ => 0) rfl) (fun _ _ _ _ _ => rfl)
      fun h => absurd h (by decide)
  rw [h]
  exact ⟨rfl, rfl⟩

/-- Aligned to 8 with the edges read alone, column 3 of a strip from column 0 goes to the screen
as the buffer had it. -/
theorem not_m8_fallback_aligned_eq :
    let m : M8Mode := ⟨640, 480, by decide⟩
    let st : FallbackState := ⟨fun _ => 0, ⟨fun _ => 9, 0, ⟨0, 0, 0, 0⟩⟩,
      ⟨fun _ => 9, 0, ⟨0, 0, 0, 0⟩⟩⟩
    let b : M8Blt := ⟨5, 0, 0, 0, fun _ => 7, false, fun _ z _ => z⟩
    let draw := m8DrawBitblt m b fun _ => 0
    (DrawsRam draw (fun _ _ => 7) ∧ Bitwise (fun _ => 7)) ∧
      ((3, 0) : Pixel) ∉ Rect.mk 5 0 16 8 ∧ st.card (3, 0) = 0 ∧
        (m8FallbackAligned m ⟨5, 0, 16, 8⟩ 0 false draw 8 st).card (3, 0) = 9 := by
  intro m st b draw
  refine ⟨⟨m8DrawBitblt_ram _ rfl, fun _ _ _ _ => rfl⟩, by decide, rfl, ?_⟩
  have hstrips : strips (alignedRows 8 ⟨0, 0, 16, 8⟩) 8 0 = [(0, 8)] := by
    have hrows : alignedRows 8 ⟨0, 0, 16, 8⟩ = 3272 := by decide
    rw [hrows, strips, dif_pos (by decide)]
    dsimp only
    rw [strips, dif_neg (by decide)]
    rfl
  have hrun : m8FallbackAligned m ⟨5, 0, 16, 8⟩ 0 false draw 8 st =
      (strips (alignedRows 8 ⟨0, 0, 16, 8⟩) 8 0).foldl (fun st n =>
        (fallbackDraw draw 0 ⟨0, 0, 16, 8⟩ ⟨5, 0, 16, 8⟩ (stripRect ⟨0, 0, 16, 8⟩ false n)
          st).write (stripRect ⟨0, 0, 16, 8⟩ false n))
        { st with dst := { st.dst with pitch := 16 } } := rfl
  rw [hrun, hstrips, List.foldl_cons, List.foldl_nil]
  unfold FallbackState.write
  dsimp only
  rw [(m8StripWrite_spec _ _ _ (by decide) (by decide)).1, Rect.paint_mem (by decide)]
  decide +kernel

end Inboard
