import Inboard.StringCache

/-!
# Memory bitmaps kept on the card

The bitmap cache finds a rectangle's pixels again by two hashes of them, or, if the bitmap has not
been written since, by asking for the same rectangle twice.

A proxy holds a rectangle of a memory bitmap in a slot of the bitmap cache. What is drawn into the
bitmap goes to the slot, and back to the bitmap's RAM when the bitmap is used otherwise, when the
cache takes the slot or when the table of proxies is full. `m8_px_pieces` cuts a rectangle into
pieces, each held by a proxy, some of them made for it ; the engine then draws into their slots if
`m8_px_pieces_live` finds every proxy still there.

A rectangle is given by its edges. GDI clips what is drawn into to its bitmap, so the edges there
are sums that do not leave an `int` ; those of a source may (`Rect.wrapped`). What the engine and
the processor write besides, and what the heap of GDI does, is an arbitrary step (`PxOp.world`).
-/

set_option linter.unusedSectionVars false

namespace Inboard

/-! ## Data -/

def M8_BC_MAX_PX : ℕ := 8192

/-- `DIBENGINE` : whether it can be read at all, `deType == TYPE_DIBENG`, `deBitsPixel`, whether
`SELECTEDDIB` is set, whether `OFFSCREEN` or `NOT_FRAMEBUFFER` is, the bits' place and the size. -/
structure DibHeader where
  readable : Bool
  dib : Bool
  bitsPixel : ℕ
  selected : Bool
  foreign : Bool
  sel : ℕ
  off : ℕ
  delta : ℕ
  width : ℕ
  height : ℕ

/-- `M8_PXENTRY`, in use. -/
structure PxEntry (α : Type*) where
  bmp : α
  sel : ℕ
  off : ℕ
  delta : ℕ
  bw : ℕ
  bh : ℕ
  rect : Rect
  lead : ℕ
  e : Fin 160
  unfilled : Bool

/-- `m8_bc_memo`, not forgotten. -/
structure BcMemo (α : Type*) where
  bmp : α
  sel : ℕ
  off : ℕ
  bw : ℕ
  bh : ℕ
  rect : Rect
  e : Fin 160
  key : UInt32 × UInt32

/-- What is not the driver's : the bitmaps' headers, whether bits at a selector and an offset can be
written, the screen's `PALETTE_XLAT`, and the bitmaps' pixels. -/
structure PxWorld (α : Type*) where
  heap : α → DibHeader
  writable : ℕ → ℕ → Bool
  xlat : Bool
  ram : α → Pixel → UInt8

/-- The card, the entries' `px` flags and hashes, the last lookup, the hashes seen once, the table
and `m8_px_gone`, with `m8_hw_off` and whether there is an `m8_bc_sel`. -/
structure PxState (α : Type*) where
  off : OffScreen
  flag : Fin 160 → Bool
  key : Fin 160 → UInt32 × UInt32
  memo : Option (BcMemo α)
  seen : Fin 64 → UInt32
  seenNext : Fin 64
  gone : Option α
  px : Fin 16 → Option (PxEntry α)
  world : PxWorld α
  hwOff : Bool
  bcSel : Bool

/-- `M8_PXPIECE`. -/
structure PxPiece where
  p : Fin 16
  rect : Rect
  made : Bool

/-- The data as the driver is loaded. -/
def PxState.loaded {α : Type*} (world : PxWorld α) : PxState α where
  off := .loaded
  flag := fun _ => false
  key := fun _ => (0, 0)
  memo := none
  seen := fun _ => 0
  seenNext := 0
  gone := none
  px := fun _ => none
  world := world
  hwOff := false
  bcSel := false

/-- An unsigned number as the driver's `int`. -/
def asInt (n : ℕ) : ℤ := int16 n

/-- The pixels of a bitmap in its slot, which is an even number of columns wide. -/
def BcEntry.rect (e : BcEntry) : Rect := ⟨e.x, e.y, e.x + e.w, e.y + e.h⟩

/-- A rectangle as the driver compares it with others : a left edge and a width are summed in an
`int`, and so are a top edge and a height. -/
def Rect.wrapped (r : Rect) : Rect := ⟨r.left, r.top, int16 r.right, int16 r.bottom⟩

/-- Two rectangles overlap, as the driver compares them. -/
def Rect.Overlaps (a b : Rect) : Prop :=
  a.left < b.right ∧ b.left < a.right ∧ a.top < b.bottom ∧ b.top < a.bottom

instance (a b : Rect) : Decidable (a.Overlaps b) := by unfold Rect.Overlaps; infer_instance

/-- The hashes of a rectangle's pixels, a row after the other. -/
def rectKey (bits : Pixel → UInt8) (r : Rect) : UInt32 × UInt32 :=
  let w := (r.right - r.left).toNat
  let h := (r.bottom - r.top).toNat
  let hs := (List.range h).foldl
    (fun hs (row : ℕ) => m8HashBytes (fun i => bits (r.left + i, r.top + row)) (w % 65536) hs)
    (m8HashInit (UInt16.ofNat w))
  (m8HashH1 hs, m8HashH2 hs (UInt16.ofNat h))

namespace PxState

variable {α : Type*} [DecidableEq α] (m : LendMode) (s : PxState α)

/-! ## The table -/

/-- The cache's entry `e`. -/
def entry (e : Fin 160) : BcEntry := s.off.bcs.bc e

/-- `M8_PX_SX` and `M8_PX_SY` : where the slot holds a pixel of the bitmap. -/
def held (p : PxEntry α) (q : Pixel) : Pixel :=
  ((s.entry p.e).x + p.lead + (q.1 - p.rect.left), (s.entry p.e).y + (q.2 - p.rect.top))

/-- The first entry that `f` holds of. -/
def pxFirst (f : PxEntry α → Bool) : Option (Fin 16) :=
  (List.finRange 16).find? fun k => (s.px k).any f

/-- The first free entry. -/
def pxFree : Option (Fin 16) := (List.finRange 16).find? fun k => (s.px k).isNone

/-- `m8_px_valid`. -/
def pxValid (p : PxEntry α) : Bool :=
  let b := s.world.heap p.bmp
  decide (b.readable = true ∧ b.dib = true ∧ b.sel = p.sel ∧ b.off = p.off ∧ b.delta = p.delta ∧
    b.width = p.bw ∧ b.height = p.bh ∧ s.world.writable p.sel p.off = true)

/-- `m8_px_has`. -/
def pxHas (b : α) : Bool := (s.pxFirst fun p => decide (p.bmp = b)).isSome

/-- `m8_bc_forget`, of every bitmap if `dev` is none. -/
def bcForget (dev : Option α) : PxState α :=
  { s with memo := s.memo.filter fun μ => dev.any fun d => decide (μ.bmp ≠ d) }

/-- `m8_px_drop`. -/
def pxDrop (k : Fin 16) (keepSlot : Bool) : PxState α :=
  match s.px k with
  | none => s
  | some p =>
    { s with
      off := if keepSlot then s.off else s.off.bcDrop p.e
      flag := if keepSlot then s.flag else Function.update s.flag p.e false
      gone := some p.bmp
      px := Function.update s.px k none }

/-- The slot's pixels in the bitmap's RAM. -/
def pxCopied (p : PxEntry α) : PxWorld α :=
  { s.world with
    ram := Function.update s.world.ram p.bmp
      (p.rect.paint (fun q => s.off.card (s.held p q)) (s.world.ram p.bmp)) }

/-- `m8_px_writeback` ; `room` is that it is for another proxy. -/
def pxWriteback (k : Fin 16) (room : Bool) : PxState α :=
  match s.px k with
  | none => s
  | some p =>
    if p.unfilled = true ∨ s.hwOff = true ∨ s.pxValid p = false then s.pxDrop k false
    else
      let t := { s.bcForget (some p.bmp) with world := s.pxCopied p }.pxDrop k false
      { t with gone := if room then s.gone else t.gone }

/-- The proxies that `f` holds of are written back. -/
def pxBack (f : PxEntry α → Bool) : PxState α :=
  (List.finRange 16).foldl (fun s k => if (s.px k).any f then s.pxWriteback k false else s) s

/-- `m8_px_flush`, of every bitmap if `dev` is none. -/
def pxFlush (dev : Option α) : PxState α := s.pxBack fun p => dev.all fun d => decide (p.bmp = d)

/-- `m8_px_touch_rect`. -/
def pxTouchRect (dev : α) (r : Rect) : PxState α :=
  s.pxBack fun p => decide (p.bmp = dev ∧ p.rect.Overlaps r.wrapped)

/-- The proxies of a bitmap that is deleted go. -/
def pxDeleted (b : α) : PxState α :=
  (List.finRange 16).foldl
    (fun s k => if (s.px k).any fun p => decide (p.bmp = b) then s.pxDrop k false else s) s

/-- `M8PXREALIZE` of a bitmap that is deleted. -/
def pxRealize (b : α) : PxState α :=
  let s := (s.pxDeleted b).bcForget (some b)
  { s with gone := s.gone.filter fun d => decide (d ≠ b) }

/-- `m8_px_find`. -/
def pxFind (b : α) (r : Rect) : Option (Fin 16) × PxState α :=
  match s.pxFirst fun p => decide (p.bmp = b ∧ r.wrapped.Inside p.rect) with
  | none => (none, s)
  | some k => if (s.px k).any s.pxValid then (some k, s) else (none, s.pxDrop k false)

/-- `m8_bc_on`. -/
def bcOn : Bool := s.bcSel && !s.hwOff

/-- `m8_px_ok`, of a rectangle that GDI has clipped. -/
def pxOk (b : α) (r : Rect) : Bool :=
  let d := s.world.heap b
  decide (s.bcOn = true ∧ d.dib = true ∧ d.bitsPixel = 8 ∧ d.selected = false ∧ d.foreign = false ∧
    s.world.xlat = false ∧ r.left < r.right ∧ r.top < r.bottom ∧ 0 ≤ r.left ∧ 0 ≤ r.top ∧
    r.right ≤ asInt d.width ∧ r.bottom ≤ asInt d.height)

/-! ## The cache under the table -/

/-- `m8_px_evicted`. -/
def pxEvicted (e : Fin 160) : PxState α :=
  match s.pxFirst fun p => decide (p.e = e) with
  | none => s
  | some k => s.pxWriteback k true

/-- `m8_bc_free_rows` evicts a proxy before it empties its entry, as `c` has it. -/
def pxEvictAt (c : BcCache) (s : PxState α) (e : Fin 160) : PxState α :=
  if (s.entry e).w ≠ 0 ∧ (c.bc e).w = 0 ∧ s.flag e = true then s.pxEvicted e else s

def pxEvict (c : BcCache) : PxState α := (List.finRange 160).foldl (pxEvictAt c) s

/-- The cache has become `c`, that empties entries. -/
def withCache (c : BcCache) : PxState α :=
  let s := s.pxEvict c
  { s with off := { s.off with bcs := c } }

/-- An entry is given other fields. -/
def setEntry (e : Fin 160) (v : BcEntry) : PxState α :=
  { s with off := { s.off with
      bcs := { s.off.bcs with bc := Function.update s.off.bcs.bc e v } } }

/-- `m8_bc_touch` of an entry. -/
def touchEntry (e : Fin 160) : PxState α :=
  { s with off := { s.off with bcs := s.off.bcs.bcTouch m (s.entry e).x (s.entry e).y } }

/-- `m8_bc_slot`. -/
def bcSlot : Option (Fin 160) × PxState α :=
  let r := s.off.bcs.bcSlot m
  (r.1, s.withCache r.2)

/-- `m8_bc_alloc` for an entry : whether there is a place. -/
def bcAlloc (e : Fin 160) (we h : ℕ) : Bool × PxState α :=
  let r := s.off.bcs.bcAlloc m (s.off.offEnd m) (asInt we) h
  let s := s.withCache r.2
  match r.1 with
  | none => (false, s)
  | some q => (true, s.setEntry e { s.entry e with x := q.1, y := q.2 })

/-- A free entry with a place. -/
def bcRoom (we h : ℕ) : Option (Fin 160) × PxState α :=
  match s.bcSlot m with
  | (none, s) => (none, s)
  | (some e, s) =>
    match s.bcAlloc m e we h with
    | (false, s) => (none, s)
    | (true, s) => (some e, s)

/-- An entry for a bitmap that no entry holds, without its pixels and their hashes. -/
def bcPlace (w h : ℕ) : Option (Fin 160) × PxState α :=
  if M8_PX_MAX_PX < evenUp w * h ∨ h = 0 ∨ asInt w ≤ 0 then (none, s)
  else
    match s.bcRoom m (evenUp w) h with
    | (none, s) => (none, s)
    | (some e, s) =>
      (some e, { s.setEntry e { s.entry e with w := w, h := h } with
        flag := Function.update s.flag e false })

/-- The entry of the last lookup, if it was for the same rectangle. -/
def memoHit (b : α) (r : Rect) : Option (Fin 160) :=
  let d := s.world.heap b
  (s.memo.filter fun μ => decide (μ.bmp = b ∧ d.sel = μ.sel ∧ d.off = μ.off ∧ d.width = μ.bw ∧
    d.height = μ.bh ∧ μ.rect = r ∧ s.flag μ.e = false ∧
    (s.entry μ.e).w = (r.right - r.left).toNat ∧ (s.entry μ.e).h = (r.bottom - r.top).toNat ∧
    s.key μ.e = μ.key)).map BcMemo.e

/-- `m8_bc_remember`. -/
def bcRemember (b : α) (r : Rect) (e : Fin 160) : PxState α :=
  let d := s.world.heap b
  { s with memo := some ⟨b, d.sel, d.off, d.width, d.height, r, e, s.key e⟩ }

/-- The first entry with the hashes and the size. -/
def bcFound (w h : ℕ) (key : UInt32 × UInt32) : Option (Fin 160) :=
  (List.finRange 160).find? fun e => decide (s.flag e = false ∧ (s.entry e).w = w ∧
    (s.entry e).h = h ∧ s.key e = key)

/-- `m8_bc_seen_before`. -/
def bcSeenBefore (v : UInt32) : Bool × PxState α :=
  if ∃ k, s.seen k = v then (true, s)
  else (false, { s with
    seen := Function.update s.seen s.seenNext v
    seenNext := s.seenNext + 1 })

/-- `m8_bc_lookup` : the entry, and whether it is a new one, with its pixels still to be written. -/
def bcLookup (b : α) (r : Rect) (force : Bool) : Option (Fin 160 × Bool) × PxState α :=
  let d := s.world.heap b
  let w := (r.right - r.left).toNat
  let h := (r.bottom - r.top).toNat
  if s.bcOn = false ∨ d.bitsPixel ≠ 8 ∨ d.selected = true ∨ M8_BC_MAX_PX < evenUp w * h then
    (none, s)
  else
    match s.memoHit b r with
    | some e => (some (e, false), s.touchEntry m e)
    | none =>
      let key := rectKey (s.world.ram b) r
      match s.bcFound w h key with
      | some e => (some (e, false), (s.touchEntry m e).bcRemember b r e)
      | none =>
        let before := s.bcSeenBefore (key.1 ^^^ key.2)
        if before.1 = false ∧ force = false then (none, before.2)
        else
          match before.2.bcPlace m w h with
          | (none, s) => (none, s)
          | (some e, s) =>
            (some (e, true), { s with key := Function.update s.key e key }.bcRemember b r e)

/-! ## A new proxy -/

/-- The entry that a new proxy gets : the first free one, or the first one of a full table. -/
def pxNext : Fin 16 := s.pxFree.getD 0

/-- The end of `m8_px_new` : the proxy of `r` of `b`, in slot `e`. -/
def pxPut (k : Fin 16) (b : α) (r : Rect) (lead we h : ℕ) (e : Fin 160) : PxState α :=
  let d := s.world.heap b
  let t := s.setEntry e { s.entry e with w := we, h := h }
  { t with
    flag := Function.update s.flag e true
    key := Function.update s.key e (0, 0)
    px := Function.update s.px k
      (some ⟨b, d.sel, d.off, d.delta, d.width, d.height, r, lead, e, true⟩) }.touchEntry m e

/-- `m8_px_new`. -/
def pxNew (b : α) (r : Rect) (lead : ℕ) (e : Option (Fin 160)) : Option (Fin 16) × PxState α :=
  let h := (r.bottom - r.top).toNat
  let we := evenUp (lead + (r.right - r.left).toNat)
  if M8_PX_MAX_PX < we * h then (none, s)
  else
    let k := s.pxNext
    let s := if s.pxFree.isNone then s.pxWriteback 0 true else s
    match e with
    | some e => (some k, s.pxPut m k b r lead we h e)
    | none =>
      match s.bcRoom m we h with
      | (none, s) => (none, s)
      | (some e, s) => (some k, s.pxPut m k b r lead we h e)

/-! ## The screen into a bitmap, and a bitmap onto the card -/

/-- A proxy of `b` that `r` overlaps : the first inside it with a slot of the same size lends its
slot, the rest go back to RAM. -/
def pxLendAt (b : α) (r : Rect) (we : ℕ) (t : Option (Fin 160) × PxState α) (k : Fin 16) :
    Option (Fin 160) × PxState α :=
  match t.2.px k with
  | none => t
  | some o =>
    if ¬ (o.bmp = b ∧ o.rect.Overlaps r) then t
    else if t.1 = none ∧ o.rect.Inside r ∧ (t.2.entry o.e).w = we ∧
        o.rect.bottom - o.rect.top = r.bottom - r.top then
      (some o.e, t.2.pxDrop k true)
    else (t.1, t.2.pxWriteback k true)

def pxLend (b : α) (r : Rect) (we : ℕ) : Option (Fin 160) × PxState α :=
  (List.finRange 16).foldl (pxLendAt b r we) (none, s)

/-- The proxy's slot is filled by an engine copy of `w` by `h` pixels. -/
def pxFilled (k : Fin 16) (src dst : Pixel) (w h : ℤ) : PxState α :=
  match s.px k with
  | none => s
  | some p =>
    { s.touchEntry m p.e with
      off := { (s.touchEntry m p.e).off with
        card := (Rect.mk dst.1 dst.2 (dst.1 + w) (dst.2 + h)).paint
          (fun q => s.off.card (src.1 + (q.1 - dst.1), src.2 + (q.2 - dst.2))) s.off.card }
      px := Function.update s.px k (some { p with unfilled := false }) }

/-- `m8_px_save` of the screen from (`sx`, `sy`) on : whether it is done. -/
def pxSave (b : α) (r : Rect) (sx sy : ℤ) : Bool × PxState α :=
  let w := r.right - r.left
  let h := r.bottom - r.top
  let sx0 := sx / 2 * 2
  let lead := (sx - sx0).toNat
  let we := evenUp (lead + w.toNat)
  if s.pxOk b r = false ∨ sx < 0 ∨ sy < 0 ∨ m.width < int16 (sx + w) ∨
      m.height < int16 (sy + h) then (false, s)
  else
    match s.pxFind b r with
    | (some k, s) =>
      (true, ((s.px k).map fun p => s.pxFilled m k (sx, sy) (s.held p (r.left, r.top)) w h).getD s)
    | (none, s) =>
      if M8_PX_MAX_PX < we * h.toNat then (false, s)
      else
        let t := s.pxLend b r we
        match t.2.pxNew m b r lead t.1 with
        | (none, s) => (false, s)
        | (some k, s) =>
          (true, ((s.px k).map fun p =>
            s.pxFilled m k (sx0, sy) ((s.entry p.e).x, (s.entry p.e).y) we h).getD s)

/-- A whole bitmap. -/
def pxWhole (b : α) : Rect :=
  ⟨0, 0, asInt (s.world.heap b).width, asInt (s.world.heap b).height⟩

/-- `m8_px_upload` : whether it is done. The proxy is left unfilled, for the RAM is current. -/
def pxUpload (b : α) : Bool × PxState α :=
  let d := s.world.heap b
  let r := s.pxWhole b
  let we := evenUp r.right.toNat
  if d.dib = false ∨ s.hwOff = true ∨ s.pxOk b r = false ∨ d.delta < we ∨
      0x10000 < d.off + d.delta * r.bottom.toNat ∨ s.pxHas b = true then (false, s)
  else
    match s.pxNew m b r 0 none with
    | (none, s) => (false, s)
    | (some k, s) =>
      (true, ((s.px k).map fun p => { s with off := { s.off with
        card := (OffScreen.slot (s.entry p.e)).paint
          (fun q => s.world.ram b (q.1 - (s.entry p.e).x, q.2 - (s.entry p.e).y))
          s.off.card } }).getD s)

/-! ## Pieces -/

end PxState

/-- The rest of `r` beside `o` : above, below, to the left and to the right of it. -/
def Rect.bands (r o : Rect) : List Rect :=
  let mt := max r.top o.top
  let mb := min r.bottom o.bottom
  (if r.top < o.top then [⟨r.left, r.top, r.right, o.top⟩] else []) ++
    (if o.bottom < r.bottom then [⟨r.left, o.bottom, r.right, r.bottom⟩] else []) ++
    (if r.left < o.left then [⟨r.left, mt, o.left, mb⟩] else []) ++
    (if o.right < r.right then [⟨o.right, mt, r.right, mb⟩] else [])

namespace PxState

variable {α : Type*} [DecidableEq α] (m : LendMode) (d : α)

/-- `m8_px_pieces_drop`. -/
def pxPiecesDrop (pc : List PxPiece) (s : PxState α) : PxState α :=
  pc.foldl (fun s a => if a.made = true ∧ (s.px a.p).any (fun p => decide (p.bmp = d)) = true then
    s.pxDrop a.p false else s) s

/-- The loop of `m8_px_pieces` over the bands, after the pieces `pc`. -/
def pxBands : List Rect → List PxPiece → PxState α → List PxPiece × PxState α
  | [], pc, s => (pc, s)
  | b :: bs, pc, s =>
    match s.pxNew m d b 0 none with
    | (none, s) => ([], s.pxPiecesDrop d pc)
    | (some k, s) => pxBands bs (pc ++ [⟨k, b, true⟩]) s

/-- The proxies that overlap the rectangle. -/
def pxOver (r : Rect) (s : PxState α) : List (Fin 16 × PxEntry α) :=
  (List.finRange 16).filterMap fun k =>
    ((s.px k).filter fun p => decide (p.bmp = d ∧ p.rect.Overlaps r)).map (Prod.mk k)

/-- The bands to make proxies for, and the pieces there are, with the proxy that overlaps the
rectangle if one does. -/
def pxCut (r : Rect) (fresh : Bool) :
    Option (Fin 16 × PxEntry α) → Option (List Rect × List PxPiece)
  | none => if fresh = true then some ([r], []) else none
  | some (k, p) =>
    if r.Inside p.rect then some ([], [⟨k, r, false⟩])
    else if fresh = true then some (r.bands p.rect, [⟨k, r.inter p.rect, false⟩])
    else none

/-- `m8_px_pieces` up to its loop over the bands. -/
def pxPlan (r : Rect) (fresh : Bool) (s : PxState α) :
    Option (List Rect × List PxPiece) × PxState α :=
  if s.pxOk d r = false then (none, s)
  else
    let alone := pxCut r fresh (none : Option (Fin 16 × PxEntry α))
    match s.pxOver d r with
    | [] => (alone, s)
    | [(k, p)] =>
      if s.pxValid p = false then (alone, s.pxDrop k false)
      else (pxCut r fresh (some (k, p)), s)
    | _ :: _ :: _ => (none, s)

/-- `m8_px_pieces` : the pieces, none if it is not possible. -/
def pxPieces (r : Rect) (fresh : Bool) (s : PxState α) : List PxPiece × PxState α :=
  match s.pxPlan d r fresh with
  | (none, s) => ([], s)
  | (some (bs, pc), s) => s.pxBands m d bs pc

/-- `m8_px_pieces_live`. -/
def pxPiecesLive (pc : List PxPiece) (s : PxState α) : Bool × PxState α :=
  if pc.all fun a => (s.px a.p).any fun p => decide (p.bmp = d) then (true, s)
  else (false, s.pxPiecesDrop d pc)

end PxState

/-! ## Runs -/

/-- What a caller does between `m8_px_pieces` and `m8_px_pieces_live` : it looks its source up in
the cache, and has the proxies of the source written back. -/
inductive PxUse (α : Type*)
  | touchEntry (e : Fin 160)
  | touchRect (dev : α) (r : Rect)
  | bcLookup (b : α) (r : Rect) (force : Bool)

/-- A call of `m8_px_pieces` as `m8_px_fill`, `m8_px_m2m` and `m8_px_pixel` make it : whether the
source is found, whether the slots drawn into are then filled, and the card once all is drawn. -/
structure PxCall (α : Type*) where
  d : α
  r : Rect
  fresh : Bool
  between : List (PxUse α)
  found : Bool
  fills : Bool
  card : Pixel → UInt8

inductive PxOp (α : Type*)
  | world (world : PxWorld α) (card : Pixel → UInt8)
  | hwOff (on : Bool)
  | bcSel (on : Bool)
  | off (op : OffOp)
  | flush (dev : Option α)
  | touchRect (dev : α) (r : Rect)
  | realize (b : α)
  | find (b : α) (r : Rect)
  | save (b : α) (r : Rect) (sx sy : ℤ)
  | upload (b : α)
  | call (c : PxCall α)

namespace PxState

variable {α : Type*} [DecidableEq α] (m : LendMode)

def pxUse (s : PxState α) : PxUse α → PxState α
  | .touchEntry e => s.touchEntry m e
  | .touchRect dev r => s.pxTouchRect dev r
  | .bcLookup b r force => (s.bcLookup m b r force).2

/-- A call : the pieces, whether they are drawn into, and what is left when the proxies have been
looked at. -/
def pxCall (c : PxCall α) (s : PxState α) : List PxPiece × Bool × PxState α :=
  match s.pxPieces m c.d c.r c.fresh with
  | ([], s) => ([], false, s)
  | (a :: pc, s) =>
    let s := c.between.foldl (pxUse m) s
    if c.found = false then (a :: pc, false, s.pxPiecesDrop c.d (a :: pc))
    else (a :: pc, s.pxPiecesLive c.d (a :: pc))

/-- The pieces drawn into are filled. -/
def pxDrawn (pc : List PxPiece) (s : PxState α) : PxState α :=
  pc.foldl (fun s a =>
    let p := (s.px a.p).map fun p => { p with unfilled := false }
    { s with px := Function.update s.px a.p p }) s

/-- The off-screen memory's steps under the table. The flushes of the cache do not look at it. -/
def pxOff (s : PxState α) (op : OffOp) : PxState α :=
  match op with
  | .bcStore w h bits =>
    match s.bcPlace m w h with
    | (none, s) => s
    | (some e, s) =>
      let card := (OffScreen.slot (s.entry e)).paint bits s.off.card
      { s with
        off := { s.off with card := card }
        key := Function.update s.key e (rectKey card (s.entry e).rect) }
  | .resync => { s with off := s.off.resync m, seen := fun _ => 0, seenNext := 0 }
  | .screenInit => { s with off := s.off.screenInit m, seen := fun _ => 0, seenNext := 0 }
  | op =>
    let t := s.pxEvict (offStep m s.off op).bcs
    { t with off := offStep m s.off op }

end PxState

def pxStep {α : Type*} [DecidableEq α] (m : LendMode) (s : PxState α) : PxOp α → PxState α
  | .world world card => { s with world := world, off := { s.off with card := card } }
  | .hwOff on => { s with hwOff := on }
  | .bcSel on => { s with bcSel := on }
  | .off op => s.pxOff m op
  | .flush dev => s.pxFlush dev
  | .touchRect dev r => s.pxTouchRect dev r
  | .realize b => s.pxRealize b
  | .find b r => (s.pxFind b r).2
  | .save b r sx sy => (s.pxSave m b r sx sy).2
  | .upload b => (s.pxUpload m b).2
  | .call c =>
    match s.pxCall m c with
    | (_, false, s) => s
    | (pc, true, s) =>
      let s := if c.fills = true then s.pxDrawn pc else s
      { s with off := { s.off with card := c.card } }

/-- A run. -/
def pxRun {α : Type*} [DecidableEq α] (m : LendMode) (s : PxState α) (ops : List (PxOp α)) :
    PxState α :=
  ops.foldl (pxStep m) s

end Inboard
