import Inboard.ProxyPieces

/-!
# Drawing with the proxies

`BitBlt` between memory bitmaps and the screen, `Pixel`, and the entries that draw with the DIB
Engine, with what each does about the proxies. `GdiSpec` is what they are to come to : bitmaps and a
screen, without a card. What a ROP makes of a pixel is a function of the source's and its own ;
`fresh` is that the ROP ignores its own.

A memory source of a `BitBlt` to the screen is one of the DIB Engine's of 8 bits, and GDI has
clipped the rectangle that is drawn.
-/

set_option linter.unusedSectionVars false

namespace Inboard

/-- The rectangle of `r`'s size at `o`. -/
def Rect.sameAt (r : Rect) (o : Pixel) : Rect :=
  ⟨o.1, o.2, o.1 + (r.right - r.left), o.2 + (r.bottom - r.top)⟩

/-- The pixel at `o` as `q` is in `r`. -/
def Rect.shift (r : Rect) (o q : Pixel) : Pixel := (o.1 + (q.1 - r.left), o.2 + (q.2 - r.top))

/-- What of the card is on the screen. -/
def shown (m : LendMode) (card : Pixel → UInt8) : Pixel → UInt8 := fun c =>
  if c ∈ OffScreen.screen m then card c else 0

namespace PxState

variable {α : Type*} [DecidableEq α] (m : LendMode) (s : PxState α)

/-- `m8_px_n` is not 0. -/
def pxAny : Bool := (s.pxFirst fun _ => true).isSome

/-- The bitmap's pixel that a place of the slot is for. -/
def unheld (p : PxEntry α) (c : Pixel) : Pixel :=
  (c.1 - (s.entry p.e).x - p.lead + p.rect.left, c.2 - (s.entry p.e).y + p.rect.top)

/-- The card with a rectangle of the bitmap drawn in the proxy's slot. -/
def pxInk (p : PxEntry α) (r : Rect) (ink : Pixel → UInt8 → UInt8) : Pixel → UInt8 := fun c =>
  if s.unheld p c ∈ r then ink (s.unheld p c) (s.off.card c) else s.off.card c

/-- The screen is drawn on. -/
def cardInk (r : Rect) (ink : Pixel → UInt8 → UInt8) : PxState α :=
  { s with off := { s.off with card := r.paint (fun c => ink c (s.off.card c)) s.off.card } }

/-! ## Into a memory bitmap -/

/-- A piece is drawn : the source's slot was used, if it is a proxy's, and the piece's. -/
def pxDrawAt (via : Option (Fin 160)) (ink : (Pixel → UInt8) → Pixel → UInt8 → UInt8)
    (s : PxState α) (a : PxPiece) : PxState α :=
  match s.px a.p with
  | none => s
  | some p =>
    let s := (via.elim s (s.touchEntry m)).touchEntry m p.e
    { s with
      off := { s.off with card := s.pxInk p a.rect (ink s.off.card) }
      px := Function.update s.px a.p (some { p with unfilled := false }) }

/-- A slot is written with a rectangle of pixels, and 0 in the column that makes it even. -/
def bcWrite (e : Fin 160) (r : Rect) (bits : Pixel → UInt8) : PxState α :=
  let o : Pixel := ((s.entry e).x, (s.entry e).y)
  { s with off := { s.off with
    card := (OffScreen.slot (s.entry e)).paint (fun c =>
      if c.1 - o.1 < r.right - r.left then bits (r.left + (c.1 - o.1), r.top + (c.2 - o.2))
      else 0) s.off.card } }

/-- `m8_bc_lookup`, with the pixels written : they were read before an entry was made. -/
def pxLookup (b : α) (r : Rect) (force : Bool) : Option (Fin 160) × PxState α :=
  match s.bcLookup m b r force with
  | (none, t) => (none, t)
  | (some (e, false), t) => (some e, t)
  | (some (e, true), t) => (some e, t.bcWrite e r (s.world.ram b))

/-- Where a source's rectangle is on the card, and the proxy's slot that it is in : `j` is the proxy
that was found before the pieces were made. -/
def pxFrom (d b : α) (r : Rect) (j : Option (Fin 16)) (force : Bool) :
    Option (Pixel × Option (Fin 160)) × PxState α :=
  match j with
  | some j =>
    (((s.px j).filter fun p => decide (p.bmp = b)).map fun p =>
      (s.held p (r.left, r.top), some p.e), s)
  | none =>
    if b = d ∨ r.left < 0 ∨ r.top < 0 ∨ asInt (s.world.heap b).width < r.wrapped.right ∨
        asInt (s.world.heap b).height < r.wrapped.bottom then (none, s)
    else
      match (s.pxTouchRect b r).pxLookup m b r force with
      | (none, s) => (none, s)
      | (some e, s) => (some (((s.entry e).x, (s.entry e).y), none), s)

/-- `m8_px_m2m` of the rectangle of `b` at `o`. -/
def pxM2m (d : α) (r : Rect) (b : α) (o : Pixel) (mix : UInt8 → UInt8 → UInt8) (fresh : Bool) :
    Bool × PxState α :=
  if s.hwOff = true ∨ s.pxAny = false ∨ r.right ≤ r.left ∨ r.bottom ≤ r.top ∨
      (s.world.heap b).dib = false then (false, s)
  else
    let f := s.pxFind b (r.sameAt o)
    let t := f.2.pxPieces m d r (fresh && (f.1.isSome || f.2.pxHas d))
    if t.1 = [] then (false, t.2)
    else
      match t.2.pxFrom m d b (r.sameAt o) f.1 (!t.1.any PxPiece.made) with
      | (none, s) => (false, s.pxPiecesDrop d t.1)
      | (some (place, via), s) =>
        match s.pxPiecesLive d t.1 with
        | (false, s) => (false, s.pxPiecesDrop d t.1)
        | (true, s) =>
          (true, t.1.foldl (pxDrawAt m via fun card q => mix (card (r.shift place q))) s)

/-! ## GDI's calls -/

/-- `m8_px_restore` onto the screen at `o`. -/
def pxRestore (b : α) (r : Rect) (o : Pixel) (mix : UInt8 → UInt8 → UInt8) : Bool × PxState α :=
  match s.pxFind b r with
  | (none, s) => (false, s)
  | (some k, s) =>
    (true, ((s.px k).map fun p =>
      let s := s.touchEntry m p.e
      let place := s.held p (r.left, r.top)
      s.cardInk (r.sameAt o) fun c => mix (s.off.card ((r.sameAt o).shift place c))).getD s)

/-- `m8_bc_draw` : whether there is an entry. -/
def bcDraw (b : α) (r : Rect) (o : Pixel) (mix : UInt8 → UInt8 → UInt8) : Bool × PxState α :=
  match s.pxLookup m b r false with
  | (none, s) => (false, s)
  | (some e, s) =>
    (true, s.cardInk (r.sameAt o) fun c =>
      mix (s.off.card ((r.sameAt o).shift ((s.entry e).x, (s.entry e).y) c)))

/-- `m8_px_upload` and then `m8_px_restore`. -/
def pxUploaded (b : α) (r : Rect) (o : Pixel) (mix : UInt8 → UInt8 → UInt8) : Bool × PxState α :=
  match s.pxUpload m b with
  | (false, s) => (false, s)
  | (true, s) => s.pxRestore m b r o mix

/-- `m8_px_by_content`. -/
def pxByContent (b : α) : Bool :=
  let d := s.world.heap b
  decide (s.gone = some b ∧ d.dib = true ∧ d.bitsPixel = 8 ∧
    evenUp d.width % 65536 * d.height ≤ 4096)

/-- `m8_bc_draw` of a bitmap that is to be found by its content. -/
def contentDraw (b : α) (r : Rect) (o : Pixel) (mix : UInt8 → UInt8 → UInt8) : Bool × PxState α :=
  if s.pxByContent b = true then s.bcDraw m b r o mix else (false, s)

end PxState

/-! ## Runs -/

inductive GdiOp (α : Type*)
  | fill (d : α) (r : Rect) (ink : UInt8 → UInt8) (fresh : Bool)
  | pattern (d : α) (r : Rect) (ink : Pixel → UInt8 → UInt8)
  | copy (d : α) (r : Rect) (b : α) (o : Pixel) (mix : UInt8 → UInt8 → UInt8) (fresh : Bool)
  | grab (d : α) (r : Rect) (o : Pixel) (mix : UInt8 → UInt8 → UInt8) (plain : Bool)
  | toScreen (b : α) (r : Rect) (o : Pixel) (mix : UInt8 → UInt8 → UInt8)
  | pixel (d : α) (q : Pixel) (ink : UInt8 → UInt8)
  | entry (d b : α) (f : (Pixel → UInt8) → (Pixel → UInt8) → Pixel → UInt8)
  | screen (b : α) (f : (Pixel → UInt8) → (Pixel → UInt8) → Pixel → UInt8)
  | forward (f : (α → Pixel → UInt8) → α → Pixel → UInt8)
  | realize (b : α) (header : DibHeader) (bits : Pixel → UInt8)
  | dos (card : Pixel → UInt8)
  | off (op : OffOp)

/-- Bitmaps and a screen, and the screen as it was when a menu was last saved. -/
structure GdiSpec (α : Type*) where
  bits : α → Pixel → UInt8
  screen : Pixel → UInt8
  saved : Pixel → UInt8

namespace GdiSpec

variable {α : Type*} [DecidableEq α] (m : LendMode) (x : GdiSpec α)

/-- A bitmap's pixels become others. -/
def set (d : α) (f : Pixel → UInt8) : GdiSpec α := { x with bits := Function.update x.bits d f }

/-- A rectangle of a bitmap is drawn. -/
def ink (d : α) (r : Rect) (f : Pixel → UInt8 → UInt8) : GdiSpec α :=
  x.set d (r.paint (fun q => f q (x.bits d q)) (x.bits d))

/-- A rectangle of the screen is drawn. -/
def onScreen (r : Rect) (f : Pixel → UInt8 → UInt8) : GdiSpec α :=
  { x with screen := r.paint (fun c => f c (x.screen c)) x.screen }

/-- The off-screen memory's steps change the screen where a menu closes and where its users draw. -/
def offStep (s : OffScreen) : OffOp → GdiSpec α
  | .ssbSave r => if (s.ssbSave m r).1 = true then { x with saved := x.screen } else x
  | .ssbRestore => (s.ssb.map fun r => { x with screen := r.paint x.saved x.screen }).getD x
  | .draw u bits => { x with screen := fun p => if s.Has m u p then bits p else x.screen p }
  | _ => x

def step (s : OffScreen) : GdiOp α → GdiSpec α
  | .fill d r f _ => x.ink d r fun _ => f
  | .pattern d r f => x.ink d r f
  | .copy d r b o mix _ => x.ink d r fun q => mix (x.bits b (r.shift o q))
  | .grab d r o mix _ => x.ink d r fun q => mix (x.screen (r.shift o q))
  | .toScreen b r o mix =>
    x.onScreen (r.sameAt o) fun c => mix (x.bits b ((r.sameAt o).shift (r.left, r.top) c))
  | .pixel d q f => x.ink d ⟨q.1, q.2, q.1 + 1, q.2 + 1⟩ fun _ => f
  | .entry d b f => x.set d (f (x.bits b) (x.bits d))
  | .screen b f => x.onScreen (OffScreen.screen m) fun c _ => f (x.bits b) (shown m x.screen) c
  | .forward f => { x with bits := f x.bits }
  | .realize b _ bits => x.set b bits
  | .dos card => { x with screen := card }
  | .off op => x.offStep m s op

end GdiSpec

end Inboard
