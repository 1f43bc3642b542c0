import Inboard.DdLend

/-!
# Off-screen memory

Below and beside the screen lie the bitmap cache's two areas of shelves, the rows that
`SaveScreenBitmap` keeps a menu's background in, the rows lent to DirectDraw, the string cache's
planes and the cursor's corner. Of a bitmap's entry its slot is kept here, not its hashes, and of a
string's its place.
-/

set_option linter.unusedSectionVars false

namespace Inboard

/-! ## Data -/

def M8_BC_SHELVES : ℕ := 64
def M8_BC_MAX_H : ℤ := 400
def M8_PX_MAX_PX : ℕ := 0xFFF0
def M8_CURSOR_SAVE_X : ℤ := M8_PITCH - 32
def M8_CURSOR_MASK_Y : ℤ := M8_CURSOR_SAVE_Y - 32
def M8_SC_W : ℤ := M8_CURSOR_SAVE_X
def M8_SC_ENTRIES : ℕ := 384

/-- `M8_BCENTRY` ; free if `w` is 0. -/
structure BcEntry where
  w : ℕ
  h : ℕ
  x : ℤ
  y : ℤ
  deriving DecidableEq

/-- `M8_BCSHELF`. -/
structure BcShelf where
  y : ℤ
  h : ℤ
  x : ℤ
  used : UInt32

/-- The bitmap cache : its entries, and the shelves of its areas with the first row in none. -/
structure BcCache where
  bc : Fin 160 → BcEntry
  shelves : Fin 2 → List BcShelf
  bottom : Fin 2 → ℤ
  clock : UInt32

/-- `M8_SCENTRY`, `w` pixels wide. -/
structure ScEntry where
  x : ℤ
  y : ℤ
  w : ℤ
  h : ℤ
  plane : ℕ
  deriving DecidableEq

/-- The pixels of a string, of its plane. -/
def ScEntry.slot (e : ScEntry) : Rect := ⟨e.x, e.y, e.x + e.w, e.y + e.h⟩

/-- The string cache : its entries, and where the next one goes. -/
structure ScCache where
  sc : List ScEntry
  plane : ℕ
  x : ℤ
  y : ℤ
  shelf : ℤ

/-- The allocators of a mode, and the card's pixels. -/
structure OffScreen where
  bcs : BcCache
  scs : ScCache
  scOff : Bool
  lent : ℤ
  ssb : Option Rect
  card : Pixel → UInt8

/-- The data as the driver is loaded. -/
def OffScreen.loaded : OffScreen where
  bcs := ⟨fun _ => ⟨0, 0, 0, 0⟩, fun _ => [], fun _ => 0, 0⟩
  scs := ⟨[], 0, 0, 0, 0⟩
  scOff := false
  lent := 0
  ssb := none
  card := fun _ => 0

/-- An even width that holds `w`. -/
def evenUp (w : ℕ) : ℕ := (w + 1) / 2 * 2

/-- `m8_modes`. -/
def m8Modes : List (ℕ × ℕ) := [(640, 480), (800, 600), (1024, 768)]

namespace LendMode

variable (m : LendMode)

/-- The mode is one of the driver's. -/
def Listed : Prop := (m.width, m.height) ∈ m8Modes

instance : Decidable m.Listed := by unfold Listed; infer_instance

/-- `m8_sc_rows`. -/
def scRows : ℤ := if 768 ≤ m.height then 96 else 128

/-- The left of area 0. -/
def besideX : ℤ := evenUp m.width

/-- The width of area 0, none if there is little beside the screen. -/
def besideW : ℤ :=
  let w0 := M8_CURSOR_SAVE_X - m.besideX
  if w0 < 32 then 0 else w0

/-- `m8_bc_area_x`. -/
def areaX (a : Fin 2) : ℤ := if a = 0 then m.besideX else 0

/-- `m8_bc_area_w`. -/
def areaW (a : Fin 2) : ℤ :=
  if a = 0 then m.besideW else if 0 < m.besideW then m.besideX else M8_PITCH

/-- `m8_bc_area_top`. -/
def areaTop (a : Fin 2) : ℤ := if a = 0 then 0 else m.height

/-- `m8_bc_area_of`. -/
def areaOf (x : ℤ) : Fin 2 := if 0 < m.besideW ∧ m.besideX ≤ x then 0 else 1

end LendMode

/-! ## The bitmap cache -/

namespace BcCache

variable (m : LendMode) (s : BcCache)

/-- `m8_bc_flush`. -/
def bcFlush : BcCache where
  bc := fun k => { s.bc k with w := 0 }
  shelves := fun _ => []
  bottom := m.areaTop
  clock := 0

/-- `m8_bc_free_rows` : a proxy there is written back to its bitmap, which changes nothing here. -/
def bcFreeRows (a : Fin 2) (y0 y1 : ℤ) : BcCache :=
  { s with
    bc := fun k =>
      let e := s.bc k
      if e.w ≠ 0 ∧ y0 ≤ e.y ∧ e.y < y1 ∧ m.areaOf e.x = a then { e with w := 0 } else e }

/-- An area's shelves and the first row in none. -/
def setArea (a : Fin 2) (shelves : List BcShelf) (bottom : ℤ) : BcCache :=
  { s with
    shelves := Function.update s.shelves a shelves
    bottom := Function.update s.bottom a bottom }

/-- The first shelf of a list that holds row `y` was used now. -/
def touchShelf (clock : UInt32) (y : ℤ) : List BcShelf → List BcShelf
  | [] => []
  | t :: ts => if t.y ≤ y ∧ y < t.y + t.h then { t with used := clock } :: ts
    else t :: touchShelf clock y ts

/-- `m8_bc_touch`. -/
def bcTouch (x y : ℤ) : BcCache :=
  let a := m.areaOf x
  { s with clock := s.clock + 1 }.setArea a (touchShelf (s.clock + 1) y (s.shelves a)) (s.bottom a)

end BcCache

/-- A run of shelves from the first of a list until it is `hc` rows tall : its length, its rows and
its age. -/
def shelfRun (hc : ℤ) : List BcShelf → ℤ → UInt32 → ℕ × ℤ × UInt32
  | [], sum, age => (0, sum, age)
  | t :: ts, sum, age =>
    if sum < hc then
      let r := shelfRun hc ts (sum + t.h) (if age < t.used then t.used else age)
      (r.1 + 1, r.2)
    else (0, sum, age)

/-- A run of shelves to clear. -/
structure BestRun where
  first : ℕ
  n : ℕ
  sum : ℤ
  age : UInt32

/-- The least recently used run, the shortest of those. -/
def bestRun (hc : ℤ) : List BcShelf → ℕ → Option BestRun → Option BestRun
  | [], _, best => best
  | t :: ts, i, best =>
    let r := shelfRun hc (t :: ts) 0 0
    if r.2.1 < hc then best
    else
      let run : BestRun := ⟨i, r.1, r.2.1, r.2.2⟩
      bestRun hc ts (i + 1) <|
        match best with
        | none => some run
        | some b =>
          if run.age < b.age ∨ run.age = b.age ∧ run.sum < b.sum then some run else some b

/-- `m8_bc_shelf_set`. -/
def bcShelfSet (y h : ℤ) : BcShelf := ⟨y, h, 0, 0⟩

/-- `m8_bc_splice`, with the contents set. -/
def bcSplice (first remove : ℕ) (insert shelves : List BcShelf) : List BcShelf :=
  shelves.take first ++ insert ++ shelves.drop (first + remove)

/-- The shelves that a run of `sum` rows is cut into for one of `hc`, if two fit. -/
def cutShelves (y hc sum : ℤ) (two : Bool) : List BcShelf :=
  if hc < sum ∧ two = true then [bcShelfSet y hc, bcShelfSet (y + hc) (sum - hc)]
  else [bcShelfSet y sum]

namespace BcCache

variable (m : LendMode)

/-- `m8_bc_evict`. -/
def bcEvict (a : Fin 2) (hc : ℤ) (s : BcCache) : Option ℕ × BcCache :=
  match bestRun hc (s.shelves a) 0 none with
  | none => (none, s)
  | some b =>
    let y := (((s.shelves a)[b.first]?).map BcShelf.y).getD 0
    let new := cutShelves y hc b.sum
      (decide ((s.shelves a).length - b.n + 2 ≤ M8_BC_SHELVES))
    (some b.first, (s.bcFreeRows m a y (y + b.sum)).setArea a
      (bcSplice b.first b.n new (s.shelves a)) (s.bottom a))

/-- A place of width `w` on shelf `k`. -/
def bcTake (a : Fin 2) (k : ℕ) (w : ℤ) (s : BcCache) : Option Pixel × BcCache :=
  match (s.shelves a)[k]? with
  | none => (none, s)
  | some t =>
    (some (m.areaX a + t.x, t.y), { s with clock := s.clock + 1 }.setArea a
      ((s.shelves a).set k { t with x := t.x + w, used := s.clock + 1 }) (s.bottom a))

/-- A shelf at the end of an area. -/
def bcAppend (a : Fin 2) (h : ℤ) (s : BcCache) : BcCache :=
  s.setArea a (s.shelves a ++ [bcShelfSet (s.bottom a) h]) (s.bottom a + h)

/-- `m8_bc_alloc_in`, with `m8_off_end()` at `bottom`. Where nothing fits the rows left at the
bottom join the area as one empty shelf. -/
def bcAllocIn (bottom : ℤ) (a : Fin 2) (w : ℤ) (h : ℕ) (s : BcCache) : Option Pixel × BcCache :=
  let hc : ℤ := (h + 15) / 16 * 16
  let width := m.areaW a
  if width < w ∨ M8_BC_MAX_H < h ∨ bottom - m.areaTop a < hc then (none, s)
  else
    match (s.shelves a).findIdx? fun t => decide (t.h = hc ∧ t.x + w ≤ width) with
    | some k => s.bcTake m a k w
    | none =>
      if (s.shelves a).length < M8_BC_SHELVES ∧ s.bottom a + hc ≤ bottom then
        (s.bcAppend a hc).bcTake m a (s.shelves a).length w
      else
        let s := if s.bottom a < bottom ∧ (s.shelves a).length < M8_BC_SHELVES then
            s.bcAppend a (bottom - s.bottom a)
          else s
        match s.bcEvict m a hc with
        | (none, s) => (none, s)
        | (some k, s) => s.bcTake m a k w

/-- `m8_bc_alloc`. -/
def bcAlloc (bottom w : ℤ) (h : ℕ) (s : BcCache) : Option Pixel × BcCache :=
  match s.bcAllocIn m bottom 0 w h with
  | (some p, s) => (some p, s)
  | (none, s) => s.bcAllocIn m bottom 1 w h

/-- The shelves of area 1 that reach into the rows before `y1` go. -/
def claimShelves (y1 : ℤ) (s : BcCache) : BcCache :=
  let n := ((s.shelves 1).takeWhile fun t => decide (t.y < y1)).length
  match (s.shelves 1)[0]?, (s.shelves 1)[n - 1]? with
  | some t, some l =>
    if 0 < n then
      (s.bcFreeRows m 1 t.y (l.y + l.h)).setArea 1 (bcSplice 0 n [] (s.shelves 1)) (s.bottom 1)
    else s
  | _, _ => s

/-- `m8_bc_claim`. -/
def bcClaim (y1 : ℤ) (s : BcCache) : BcCache :=
  let s := s.claimShelves m y1
  if s.shelves 1 = [] ∧ s.bottom 1 < y1 then s.setArea 1 [] y1 else s

/-- A free entry. -/
def bcFree (s : BcCache) : Option (Fin 160) :=
  (List.finRange 160).find? fun k => decide ((s.bc k).w = 0)

/-- The least recently used of an area's shelves in use, or `old` if that is older : its area and
its index. -/
def oldestShelf (a : Fin 2) : List BcShelf → ℕ → Option (Fin 2 × ℕ × BcShelf) →
    Option (Fin 2 × ℕ × BcShelf)
  | [], _, old => old
  | t :: ts, k, old =>
    oldestShelf a ts (k + 1) <|
      if t.used ≠ 0 then
        match old with
        | none => some (a, k, t)
        | some o => if t.used < o.2.2.used then some (a, k, t) else some o
      else old

/-- `m8_bc_slot`. -/
def bcSlot (s : BcCache) : Option (Fin 160) × BcCache :=
  match s.bcFree with
  | some k => (some k, s)
  | none =>
    match oldestShelf 1 (s.shelves 1) 0 (oldestShelf 0 (s.shelves 0) 0 none) with
    | none => (none, s)
    | some (a, k, t) =>
      let s := (s.bcFreeRows m a t.y (t.y + t.h)).setArea a
        ((s.shelves a).set k { t with x := 0, used := 0 }) (s.bottom a)
      (s.bcFree, s)

/-- The shelves of an area that reach below `top` go, for `m8_dd_lend`. -/
def lendArea (top : ℤ) (a : Fin 2) (s : BcCache) : BcCache :=
  let k := ((s.shelves a).takeWhile fun t => decide (t.y + t.h ≤ top)).length
  match (s.shelves a)[k]? with
  | none => s
  | some t => (s.bcFreeRows m a t.y (s.bottom a)).setArea a ((s.shelves a).take k) t.y

end BcCache

/-! ## The string cache -/

namespace ScCache

variable (m : LendMode)

/-- `m8_sc_flush`. -/
def scFlush : ScCache := ⟨[], 0, 0, 0, 0⟩

/-- `m8_sc_alloc`, with `n` planes left. -/
def scAllocIn (w h : ℤ) : ℕ → ScCache → Option Pixel × ScCache
  | 0, s => (none, s)
  | n + 1, s =>
    let s := if M8_SC_W < s.x + w then { s with y := s.y + s.shelf, x := 0, shelf := 0 } else s
    if s.y + h ≤ m.scRows then
      (some (s.x, m.scTop + s.y),
        { s with x := s.x + w, shelf := if s.shelf < h then h else s.shelf })
    else scAllocIn w h n { s with plane := s.plane + 1, x := 0, y := 0, shelf := 0 }

def scAlloc (w h : ℤ) (s : ScCache) : Option Pixel × ScCache := s.scAllocIn m w h (8 - s.plane)

end ScCache

namespace OffScreen

variable (m : LendMode) (s : OffScreen)

/-- `m8_sc_flush`. -/
def scFlush : OffScreen := { s with scs := .scFlush }

/-- `m8_sc_get_h` of a bitmap of `h` rows of `wb` bytes that is to be stored. -/
def scStore (wb h maxH : ℕ) (bits : Pixel → UInt8) : OffScreen :=
  if s.scOff = true ∨ M8_SC_W < int16 (wb * 8) ∨ maxH < h ∨ m.scRows < h then s
  else
    let scs := if M8_SC_ENTRIES ≤ s.scs.sc.length then .scFlush else s.scs
    match scs.scAlloc m (int16 (wb * 8)) h with
    | (none, _) => s.scFlush
    | (some p, scs) =>
      let e : ScEntry := ⟨p.1, p.2, wb * 8, h, scs.plane⟩
      { s with
        scs := { scs with sc := scs.sc ++ [e] }
        card := e.slot.paint bits s.card }

/-- `m8_off_end`. -/
def offEnd : ℤ := if s.lent ≠ 0 then s.lent else m.scTop

/-! ## The screen's menus -/

/-- The screen. -/
def screen : Rect := ⟨0, 0, m.width, m.height⟩

/-- The rows below the screen that a menu over `r` is kept in. -/
def below (r : Rect) : Rect :=
  ⟨0, m.height, r.right - r.left, m.height + (r.bottom - r.top)⟩

/-- `SaveScreenBitmap` to save : whether it does. USER's rectangle is not inverted. -/
def ssbSave (r : Rect) : Bool × OffScreen :=
  if s.ssb.isSome then (false, s)
  else
    let r := r.inter (screen m)
    let w := r.right - r.left
    let h := r.bottom - r.top
    if w ≤ 0 ∨ h ≤ 0 ∨ M8_PITCH < w ∨ s.offEnd m - m.height < h then (false, s)
    else
      (true, { s with
        bcs := s.bcs.bcClaim m (m.height + h)
        card := (below m r).paint (fun p => s.card (r.left + p.1, r.top + (p.2 - m.height))) s.card
        ssb := some r })

/-- `SaveScreenBitmap` to restore : whether it does. -/
def ssbRestore : Bool × OffScreen :=
  match s.ssb with
  | none => (false, s)
  | some r =>
    if r.left < 0 ∨ r.top < 0 ∨ m.width < r.right ∨ m.height < r.bottom then
      (false, { s with ssb := none })
    else
      (true, { s with
        card := r.paint (fun p => s.card (p.1 - r.left, m.height + (p.2 - r.top))) s.card
        ssb := none })

/-- `SaveScreenBitmap` to discard. -/
def ssbDiscard : OffScreen := { s with ssb := none }

/-! ## DirectDraw's rows -/

/-- The part of `m8_dd_lend` from its first row lent on. -/
def lendFrom (top : ℤ) : OffScreen :=
  { s with
    bcs := (s.bcs.lendArea m top 0).lendArea m top 1
    ssb := s.ssb.filter fun r => decide (m.height + (r.bottom - r.top) ≤ top)
    lent := top }

/-- `m8_dd_lend`. -/
def ddLend (on : ℕ) : OffScreen :=
  let s := { s with scOff := decide (on = 2) }
  if on = 2 then s.scFlush.lendFrom m M8_PAGE1_Y
  else if on = 0 ∨ m.rows = 0 then { s with lent := 0 }
  else s.lendFrom m m.top

/-! ## A bitmap stored, and the card given away -/

/-- The pixels of an entry's slot. -/
def slot (e : BcEntry) : Rect := ⟨e.x, e.y, e.x + evenUp e.w, e.y + e.h⟩

/-- `m8_bc_slot` and `m8_bc_alloc` for a bitmap or a proxy that passes its caller's checks, which is
then given its pixels. -/
def bcStore (w h : ℕ) (bits : Pixel → UInt8) : OffScreen :=
  if int16 w ≤ 0 ∨ h = 0 ∨ M8_PX_MAX_PX < evenUp w * h then s
  else
    match s.bcs.bcSlot m with
    | (none, bcs) => { s with bcs := bcs }
    | (some k, bcs) =>
      match bcs.bcAlloc m (s.offEnd m) (int16 (evenUp w)) h with
      | (none, bcs) => { s with bcs := bcs }
      | (some p, bcs) =>
        let e : BcEntry := ⟨w, h, p.1, p.2⟩
        { s with
          bcs := { bcs with bc := Function.update bcs.bc k e }
          card := (slot e).paint bits s.card }

/-- `m8_px_drop` of a proxy that does not keep its slot. -/
def bcDrop (k : Fin 160) : OffScreen :=
  { s with
    bcs := { s.bcs with bc := Function.update s.bcs.bc k { s.bcs.bc k with w := 0 } } }

/-- What `m8_screen_suspend` and `m8_screen_resume` do here. -/
def resync : OffScreen := { s with bcs := s.bcs.bcFlush m, scs := .scFlush, ssb := none }

/-- What `m8_screen_init` does here. -/
def screenInit : OffScreen := { s.resync m with lent := 0 }

end OffScreen

/-! ## Runs -/

/-- Who else draws, and where : in the visible screen, in a bitmap's slot, in the rows lent, in the
cursor's corner. -/
inductive OffUser
  | screen
  | slot (k : Fin 160)
  | lent
  | corner

/-- The cursor's save area and its masks. -/
def cursorCorner : Rect :=
  ⟨M8_CURSOR_SAVE_X, M8_CURSOR_MASK_Y, M8_PITCH, M8_CURSOR_SAVE_Y + 32⟩

namespace OffScreen

variable (m : LendMode) (s : OffScreen)

/-- The rows lent : up to the string cache, or with `m8_sc_off` all below, but for the corner. -/
def Lent (p : Pixel) : Prop :=
  s.lent ≠ 0 ∧ s.lent ≤ p.2 ∧ (s.scOff = true ∨ p.2 < m.scTop) ∧ p ∉ cursorCorner

instance : DecidablePred (s.Lent m) := fun p => by unfold Lent; infer_instance

/-- The pixels that are a user's. -/
def Has : OffUser → Pixel → Prop
  | .screen, p => p ∈ screen m
  | .slot k, p => (s.bcs.bc k).w ≠ 0 ∧ p ∈ slot (s.bcs.bc k)
  | .lent, p => s.Lent m p
  | .corner, p => p ∈ cursorCorner

instance (u : OffUser) : DecidablePred (s.Has m u) := fun p => by
  unfold Has
  cases u <;> infer_instance

/-- A user draws. -/
def draw (u : OffUser) (bits : Pixel → UInt8) : OffScreen :=
  { s with card := fun p => if s.Has m u p then bits p else s.card p }

end OffScreen

/-- What is done with the memory. -/
inductive OffOp
  | bcStore (w h : ℕ) (bits : Pixel → UInt8)
  | bcDrop (k : Fin 160)
  | bcSlot
  | bcClaim (y1 : ℤ)
  | bcTouch (x y : ℤ)
  | scStore (wb h maxH : ℕ) (bits : Pixel → UInt8)
  | scFlush
  | ssbSave (r : Rect)
  | ssbRestore
  | ssbDiscard
  | ddLend (on : ℕ)
  | resync
  | screenInit
  | draw (u : OffUser) (bits : Pixel → UInt8)

def offStep (m : LendMode) (s : OffScreen) : OffOp → OffScreen
  | .bcStore w h bits => s.bcStore m w h bits
  | .bcDrop k => s.bcDrop k
  | .bcSlot => { s with bcs := (s.bcs.bcSlot m).2 }
  | .bcClaim y1 => { s with bcs := s.bcs.bcClaim m y1 }
  | .bcTouch x y => { s with bcs := s.bcs.bcTouch m x y }
  | .scStore wb h maxH bits => s.scStore m wb h maxH bits
  | .scFlush => s.scFlush
  | .ssbSave r => (s.ssbSave m r).2
  | .ssbRestore => (s.ssbRestore m).2
  | .ssbDiscard => s.ssbDiscard
  | .ddLend on => s.ddLend m on
  | .resync => s.resync m
  | .screenInit => s.screenInit m
  | .draw u bits => s.draw m u bits

end Inboard
