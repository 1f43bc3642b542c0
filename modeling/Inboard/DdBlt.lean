import Inboard.DdDesc

/-!
# M8DD32.DLL at 16 bpp : Blt, Lock, Flip and triangles

The two buffers of a flipping primary, and what `m8dd_blt16_do`, `m8dd_lock16`, `m8d3d_record`
and `m8dd_flip16` do to them. What goes to the card on the way is left to a `CardSide`.
-/

set_option linter.unusedSectionVars false

namespace Inboard

/-! ## Data -/

/-- What this HAL reads of `M8DD_SHARE` at 16 bpp, and `m8dd_back`. -/
structure M8ddShare16 where
  width : ℕ
  height : ℕ
  fbLin : ℕ
  back : ℕ
  deriving Repr

/-- The screen, `all` in the routines. -/
def M8ddShare16.all (d : M8ddShare16) : Rect := ⟨0, 0, d.width, d.height⟩

/-- The card as this HAL reaches it : `M8_ESC_FB16SEND` and `M8_ESC_FB16COPY`, which read RAM,
`m8dd_card.known = 0`, and what Flip does to show a buffer. -/
structure CardSide (σ : Type*) where
  send : (Fin 2 → Pixel → UInt16) → Rect → ℕ → σ → σ
  copied : (Fin 2 → Pixel → UInt16) → ℤ → ℤ → Rect → σ → σ
  unknown : σ → σ
  flip : (Fin 2 → Buffer) → Fin 2 → σ → σ

/-- The buffers, `m8dd_front`, `m8dd_held`, and the card. -/
structure Dd16 (σ : Type*) where
  buf : Fin 2 → Buffer
  front : Fin 2
  held : ℕ → Option M8ddHeld
  card : σ

/-- A surface in system memory : its size and pixels. -/
structure SysMem where
  w : ℤ
  h : ℤ
  px : Pixel → UInt16

/-- `DDCOLORKEY`. -/
structure DdColorKey where
  low : ℕ
  high : ℕ
  deriving Repr

/-- A source surface : its memory, what `m8dd_sysmem16` makes of it, and its own colour key. -/
structure BltSurf where
  mem : Option ℕ
  sys : Option SysMem
  key : DdColorKey

/-- `dwFlags` ; `other` is any flag that is not `DDBLT_WAIT`, `DDBLT_ASYNC` or one of these. -/
structure BltFlags where
  colorFill : Bool
  rop : Bool
  keySrc : Bool
  keySrcOverride : Bool
  other : Bool
  deriving DecidableEq, Repr

/-- `M8DD_BLT`. -/
structure M8ddBlt where
  flags : BltFlags
  dest : Option ℕ
  rDest : Rect
  src : Option BltSurf
  rSrc : Rect
  rop : ℕ
  fillColor : ℕ
  srcColorkey : DdColorKey
  isClipped : Bool
  rOrigDest : Rect
  rOrigSrc : Rect
  destRects : List Rect

def M8DD_SRCCOPY : ℕ := 0x00CC0020

/-- The pixels of a copy come from a buffer or from system memory. -/
inductive BltSource
  | buf (k : Fin 2)
  | sys (m : SysMem)

/-- A blit that this HAL does : a fill, or a copy that may leave a colour out. -/
inductive BltWork
  | fill (c : UInt16)
  | copy (src : BltSource) (key : Option UInt16)

/-- What the checks at the head of `m8dd_blt16_do` make of a blit. -/
structure BltPlan where
  dk : Fin 2
  work : BltWork
  od : Rect
  os : Rect
  rects : List Rect

variable {σ : Type*} (io : CardSide σ) (d : M8ddShare16)

/-- What `m8dd_create16` leaves : both buffers described as black, RAM as it was. -/
def m8ddCreate16 (s : Dd16 σ) : Dd16 σ where
  buf k := { s.buf k with desc := ⟨true, false, 0, []⟩, tris := [] }
  front := 0
  held := s.held
  card := io.unknown s.card

/-! ## Surfaces -/

/-- `m8dd_buf`, of a surface's memory. -/
def m8ddBuf : Option ℕ → Option (Fin 2)
  | none => none
  | some m => if m = d.fbLin then some 0 else if d.back ≠ 0 ∧ m = d.back then some 1 else none

/-- `m8dd_clip_fb`. -/
def m8ddClipFb (r : Rect) : Rect where
  left := max r.left 0
  top := max r.top 0
  right := min r.right d.width
  bottom := min r.bottom d.height

/-- `f` on buffer `k`. -/
def Dd16.on (k : Fin 2) (f : Buffer → Buffer) (s : Dd16 σ) : Dd16 σ :=
  { s with buf := Function.update s.buf k (f (s.buf k)) }

/-- Buffer `k`'s RAM is written. -/
def Dd16.draw (k : Fin 2) (f : Pixel → UInt16) (s : Dd16 σ) : Dd16 σ :=
  s.on k fun b => { b with ram := f }

/-- RAM, as the card's side reads it. -/
def Dd16.ram (s : Dd16 σ) (k : Fin 2) : Pixel → UInt16 := (s.buf k).ram

/-- `m8dd_send`. -/
def m8ddSend (r : Rect) (solid : ℕ) (s : Dd16 σ) : Dd16 σ :=
  if r.right ≤ r.left ∨ r.bottom ≤ r.top then s
  else { s with card := io.send s.ram r solid s.card }

/-! ## Blt -/

/-- The source of a copy, and the size it is checked against. -/
def bltSource (src : BltSurf) : Option (BltSource × ℤ × ℤ) :=
  match m8ddBuf d src.mem with
  | some sk => some (.buf sk, d.width, d.height)
  | none => src.sys.map fun m => (.sys m, m.w, m.h)

/-- The key of a keyed copy, if it is one colour. -/
def bltKey (bd : M8ddBlt) (src : BltSurf) : Option UInt16 :=
  let ck := if bd.flags.keySrcOverride then bd.srcColorkey else src.key
  if ck.low ≠ ck.high ∨ ck.low > 0xFFFF then none else some (UInt16.ofNat ck.low)

/-- The pixels are read from the buffer they are written to. -/
def BltWork.self (dk : Fin 2) : BltWork → Bool
  | .copy (.buf sk) _ => sk == dk
  | _ => false

/-- `keyed`. -/
def M8ddBlt.keyed (bd : M8ddBlt) : Bool := bd.flags.keySrc || bd.flags.keySrcOverride

/-- The checks of a copy to buffer `dk`. -/
def bltCopy (bd : M8ddBlt) (dk : Fin 2) (od os : Rect) (surf : BltSurf) : Option BltWork :=
  match bltSource d surf with
  | none => none
  | some (src, sw, sh) =>
    if bd.keyed && (BltWork.copy src none).self dk then none
    else if os.right - os.left ≠ od.right - od.left ∨ os.bottom - os.top ≠ od.bottom - od.top ∨
        os.left < 0 ∨ os.top < 0 ∨ os.right > sw ∨ os.bottom > sh then none
    else if bd.keyed then (bltKey bd surf).map fun key => .copy src (some key)
    else some (.copy src none)

/-- The checks of `m8dd_blt16_do` up to what is drawn ; `none` goes back to DDRAW. -/
def bltWork (bd : M8ddBlt) (dk : Fin 2) (od os : Rect) : Option BltWork :=
  if bd.flags.colorFill then
    if bd.keyed then none else some (.fill (UInt16.ofNat bd.fillColor))
  else
    match bd.src with
    | none => none
    | some surf =>
      if bd.flags.rop && bd.rop != M8DD_SRCCOPY then none else bltCopy d bd dk od os surf

/-- And those of the rectangles. -/
def bltPlan (bd : M8ddBlt) : Option BltPlan :=
  let od := if bd.isClipped then bd.rOrigDest else bd.rDest
  let os := if bd.isClipped then bd.rOrigSrc else bd.rSrc
  if bd.flags.other then none
  else
    match m8ddBuf d bd.dest with
    | none => none
    | some dk =>
      match bltWork d bd dk od os with
      | none => none
      | some work =>
        if bd.isClipped then
          if work.self dk && bd.destRects.length > 1 then none
          else some ⟨dk, work, od, os, bd.destRects⟩
        else some ⟨dk, work, od, os, [od]⟩

/-- The pixel of a copy's source. -/
def BltSource.px (ram : Fin 2 → Pixel → UInt16) : BltSource → Pixel → UInt16
  | .buf k => ram k
  | .sys m => m.px

/-- The source's pixel for a pixel of the clipped rectangle `c`. -/
def BltPlan.from (p : BltPlan) (c : Rect) (q : Pixel) : Pixel :=
  (c.left - p.od.left + p.os.left + (q.1 - c.left), c.top - p.od.top + p.os.top + q.2 - c.top)

/-- The rows of a fill, two pixels a store. -/
def fillRows (c : Rect) (colour : UInt16) (f : Pixel → UInt16) : Pixel → UInt16 :=
  Rect.loop (fun y => m8ddFill16 (c.left, y) (c.right - c.left) colour)
    (c.bottom - c.top).toNat c.top f

/-- A row of a copy : `memmove`, or what is not the key pixel by pixel. -/
def moveRow (p : BltPlan) (src : BltSource) (key : Option UInt16) (c : Rect) (y : ℤ)
    (ram : Fin 2 → Pixel → UInt16) : Pixel → UInt16 :=
  (c.row y).paint (fun q =>
    if some (src.px ram (p.from c q)) = key then ram p.dk q else src.px ram (p.from c q)) (ram p.dk)

/-- The rows of a rectangle, from the last to the first when each is overwritten by those
below it. -/
def moveOrder (up : Bool) (c : Rect) : List ℤ :=
  let ys := (List.range (c.bottom - c.top).toNat).map fun i : ℕ => c.top + (i : ℤ)
  if up then ys.reverse else ys

/-- The rows of a copy, in an order that reads each before it is overwritten. -/
def moveRows (p : BltPlan) (src : BltSource) (key : Option UInt16) (c : Rect) (s : Dd16 σ) :
    Dd16 σ :=
  let up := (BltWork.copy src key).self p.dk && decide (c.top > c.top - p.od.top + p.os.top)
  (moveOrder up c).foldl (fun s y => s.draw p.dk (moveRow p src key c y s.ram)) s

/-- The pixels at the head of a row that are the same, from number `a` on. -/
def leadSame (same : ℕ → Bool) : ℕ → ℕ → ℕ
  | 0, a => a
  | n + 1, a => if same a then leadSame same n (a + 1) else a

/-- The end of a row without the pixels at its tail that are the same. -/
def trailSame (same : ℕ → Bool) : ℕ → ℕ
  | 0 => 0
  | b + 1 => if same b then trailSame same b else b + 1

/-- `m8dd_diff_close`. -/
def m8ddDiffClose (gs : Option Rect × Dd16 σ) : Option Rect × Dd16 σ :=
  match gs.1 with
  | none => gs
  | some r => (none, m8ddSend io r 2 gs.2)

/-- `m8dd_diff_row` : row `y` of the shown buffer from column `l`, `w` pixels, given `px`. -/
def m8ddDiffRow (l w : ℤ) (px : Pixel → UInt16) (gs : Option Rect × Dd16 σ) (y : ℤ) :
    Option Rect × Dd16 σ :=
  let row := gs.2.ram gs.2.front
  let same := fun i : ℕ => row (l + i, y) == px (l + i, y)
  let a := leadSame same w.toNat 0
  if a = w.toNat then m8ddDiffClose io gs
  else
    let b := trailSame same w.toNat
    let part : Rect := ⟨l + a, y, l + b, y + 1⟩
    let g : Rect :=
      match gs.1 with
      | none => part
      | some r => ⟨min part.left r.left, r.top, max part.right r.right, y + 1⟩
    (some g, gs.2.draw gs.2.front (part.paint px row))

/-- A copy over the screen from elsewhere : only what differs is copied and sent. -/
def diffRows (p : BltPlan) (src : BltSource) (c : Rect) (s : Dd16 σ) : Dd16 σ :=
  (m8ddDiffClose io ((moveOrder false c).foldl
    (fun gs y => m8ddDiffRow io c.left (c.right - c.left)
      (fun q => src.px gs.2.ram (p.from c q)) gs y) (none, s))).2

/-- One rectangle of a blit. -/
def bltRect (p : BltPlan) (back : Bool) (s : Dd16 σ) (r : Rect) : Dd16 σ :=
  let c := m8ddClipFb d r
  if c.right - c.left ≤ 0 ∨ c.bottom ≤ c.top then s
  else
    let sx := c.left - p.od.left + p.os.left
    let sy := c.top - p.od.top + p.os.top
    let s := if back then s.on p.dk (m8ddReady c) else s
    let s := if back && p.work.self p.dk then
      s.on p.dk (m8ddReady ⟨sx, sy, sx + (c.right - c.left), sy + (c.bottom - c.top)⟩) else s
    match p.work with
    | .fill colour =>
      let s := s.draw p.dk (fillRows c colour (s.ram p.dk))
      if back then s.on p.dk (m8ddDirty c) else m8ddSend io c 1 s
    | .copy src key =>
      if !p.work.self p.dk && key.isNone && !back then diffRows io p src c s
      else
        let s := moveRows p src key c s
        if back then s.on p.dk (m8ddDirty c)
        else if p.work.self p.dk then { s with card := io.copied s.ram sx sy c s.card }
        else m8ddSend io c 0 s

/-- A clear of the whole back buffer. -/
def BltPlan.clears (p : BltPlan) : Option UInt16 :=
  match p.work, p.rects with
  | .fill colour, [r] => if m8ddClipFb d r = d.all then some colour else none
  | _, _ => none

/-- The buffer a copy reads, when it is not the one it writes. -/
def BltPlan.other (p : BltPlan) : Option (Fin 2) :=
  match p.work with
  | .copy (.buf sk) _ => if sk ≠ p.dk then some sk else none
  | _ => none

/-- What is put in RAM before the rectangles. On the shown buffer RAM is the truth from here. -/
def bltStart (p : BltPlan) (back : Bool) (s : Dd16 σ) : Dd16 σ :=
  let s :=
    if back then s.on p.dk m8ddTrisToRam
    else
      let s := s.on p.dk (m8ddReadyAll d.all)
      let s := s.on p.dk fun b => { b with desc := { b.desc with known := false } }
      { s with card := io.unknown s.card }
  match p.other with
  | none => s
  | some sk => s.on sk (m8ddReadyAll d.all)

/-- What follows the checks of `m8dd_blt16_do`. -/
def bltRun (p : BltPlan) (s : Dd16 σ) : Dd16 σ :=
  let back := decide (p.dk ≠ s.front)
  match p.clears d, back with
  | some colour, true =>
    s.on p.dk fun b => { b with desc := ⟨true, false, colour, []⟩, tris := [] }
  | _, _ => p.rects.foldl (bltRect io d p back) (bltStart io d p back s)

/-- `m8dd_blt16_do` : whether it is handled. -/
def m8ddBlt16Do (bd : M8ddBlt) (s : Dd16 σ) : Bool × Dd16 σ :=
  match bltPlan d bd with
  | none => (false, s)
  | some p => (true, bltRun io d p s)

/-! ## Lock and Unlock -/

/-- `M8DD_LOCK` : the surface and its memory, the area, and `DDLOCK_READONLY`. -/
structure M8ddLock16 where
  lcl : ℕ
  mem : Option ℕ
  area : Option Rect
  readonly : Bool

/-- The rectangle of a lock. -/
def lock16Rect (ld : M8ddLock16) : Rect := m8ddClipFb d (ld.area.getD d.all)

/-- `m8dd_lock16` : the buffer that `lpSurfData` points into. -/
def m8ddLock16 (ld : M8ddLock16) (s : Dd16 σ) : Option (Fin 2) × Dd16 σ :=
  match m8ddBuf d ld.mem with
  | none => (none, s)
  | some b =>
    let s := s.on b (m8ddReadyAll d.all)
    if ld.readonly then (some b, s)
    else
      let s := s.on b fun x => { x with desc := { x.desc with known := false } }
      if b ≠ s.front then (some b, s)
      else
        let free := (List.range M8DD_HELD_MAX).find? fun k => (s.held k).isNone
        let held :=
          match free with
          | some k => Function.update s.held k (some ⟨ld.lcl, lock16Rect d ld⟩)
          | none => Function.update s.held 0 (some ⟨ld.lcl, d.all⟩)
        (some b, { s with held := held, card := io.unknown s.card })

/-- `m8dd_unlock16`. -/
def m8ddUnlock16 (lcl : ℕ) (mem : Option ℕ) (s : Dd16 σ) : Bool × Dd16 σ :=
  match m8ddBuf d mem with
  | none => (false, s)
  | some _ =>
    match (List.range M8DD_HELD_MAX).find? fun k => (s.held k).map M8ddHeld.lcl == some lcl with
    | none => (true, s)
    | some k =>
      match s.held k with
      | none => (true, s)
      | some h => (true, { m8ddSend io h.r 0 s with held := Function.update s.held k none })

/-! ## Triangles and Flip -/

/-- `m8d3d_record`. -/
def m8d3dRecord (mem : Option ℕ) (t : Tri) (s : Dd16 σ) : Bool × Dd16 σ :=
  match m8ddBuf d mem with
  | none => (false, s)
  | some k =>
    if k = s.front ∨ (s.buf k).desc.known = false then
      let s' := s.on k (m8ddTriRam t)
      if k = s.front then (true, m8ddSend io d.all 0 { s' with card := io.unknown s'.card })
      else (true, s')
    else
      let s := if (s.buf k).tris.length = M8DD_TRIS_MAX then s.on k m8ddTrisToRam else s
      (true, s.on k fun b => { b with tris := b.tris ++ [t] })

/-- `m8dd_flip16`. -/
def m8ddFlip16 (mem : Option ℕ) (s : Dd16 σ) : Bool × Dd16 σ :=
  match m8ddBuf d mem with
  | none => (false, s)
  | some k =>
    if d.back = 0 then (false, s)
    else (true, { s with front := k, card := io.flip s.buf k s.card })

end Inboard
