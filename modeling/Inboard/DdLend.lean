import Inboard.Pixels
import Mathlib.Data.Fintype.Card
import Mathlib.Data.Fin.Basic

/-!
# Lent rows

GDI's caches stop at `m8_dd_lent`. DirectDraw's surfaces and Direct3D's contexts have it set for the
rows they are placed in, and a program's polygons for theirs. Each gives the rows back when it
thinks it is the last : M8DD32.DLL by a count of what it has placed, a context at 16 bpp and the
polygons at once.
-/

set_option linter.unusedSectionVars false

namespace Inboard

/-! ## Data -/

def M8_PITCH : ℤ := 1024
def M8_PAGE1_Y : ℤ := 512
def M8_CURSOR_SAVE_Y : ℤ := M8_PITCH - 32

/-- A screen mode, and whether there was memory for the heap's shadow. -/
structure LendMode where
  width : ℕ
  height : ℕ
  fb16 : Bool
  shadow : Bool

/-- What a placed rectangle is held under : a surface's, or a context's. -/
inductive HeapKey (α : Type*)
  | surface (gbl : α)
  | context (k : Fin 4)
  deriving DecidableEq

/-- The lend flag, the heap, the contexts' scratches and the polygons' rows. -/
structure LendState (α : Type*) where
  lent : ℤ
  scOff : Bool
  placed : Fin 32 → Option (HeapKey α × Rect)
  placedN : ℤ
  ctx : Fin 4 → Option Rect
  poly : Option Rect

/-- Which of an entry's escapes reach the driver : to lend, and to take back. -/
structure LendDc where
  lend : Bool
  back : Bool
  last : Bool

/-! ## Rows -/

namespace LendMode

variable (m : LendMode)

/-- `m8_sc_top`. -/
def scTop : ℤ := M8_CURSOR_SAVE_Y - (if 768 ≤ m.height then 96 else 128)

/-- The `rows` of `m8_dd_heap`. -/
def rows : ℤ :=
  let n := m.scTop - m.height - 32
  let n := if 256 < n then 256 else n
  if 0 < n then n else 0

/-- The `top` of `m8_dd_heap`. -/
def top : ℤ := m.scTop - m.rows

theorem rows_bounds : 0 ≤ m.rows ∧ m.rows ≤ 256 := by
  unfold rows
  dsimp only
  split_ifs <;> omega

/-- `heap_rows`. -/
def heapRows : ℤ := if m.shadow then m.rows else 0

/-- `heap_top`. -/
def heapTop : ℤ := if 0 < m.heapRows then m.top else 0

end LendMode

section Functions

variable {α : Type*} [DecidableEq α] (m : LendMode) (dc : LendDc)

/-- `m8_dd_lend`. -/
def m8DdLend (on : ℕ) (s : LendState α) : LendState α :=
  let s := { s with scOff := decide (on = 2) }
  if on = 2 then { s with lent := M8_PAGE1_Y }
  else if on = 0 ∨ m.rows = 0 then { s with lent := 0 }
  else { s with lent := m.top }

/-- `m8dd_lend`. -/
def m8ddLend (reaches : Bool) (on : ℕ) (s : LendState α) : Bool × LendState α :=
  if reaches then (true, m8DdLend m on s) else (false, s)

/-! ## The heap -/

/-- `m8dd_fits`. -/
def m8ddFits (s : LendState α) (x y w h : ℤ) : Bool :=
  !(decide (m.width < x + w) || decide (m.heapTop + m.heapRows < y + h)) &&
    (List.finRange 32).all fun k =>
      match s.placed k with
      | none => true
      | some (_, p) =>
        !(decide (x < p.right) && decide (p.left < x + w) && decide (y < p.bottom) &&
          decide (p.top < y + h))

/-- The candidate corners : the heap's, and right of or below each placed one. -/
def placeCorners (s : LendState α) : List Pixel :=
  (0, m.heapTop) :: (List.finRange 32).flatMap fun k =>
    match s.placed k with
    | none => []
    | some (_, p) => [(p.right, p.top), (p.left, p.bottom)]

/-- `m8dd_place`. -/
def m8ddPlace (w h : ℕ) (s : LendState α) : Option Rect :=
  let best := (placeCorners m s).foldl (fun (best : Option Pixel) c =>
    if m8ddFits m s c.1 c.2 w h then
      match best with
      | none => some c
      | some b => if c.2 < b.2 ∨ c.2 = b.2 ∧ c.1 < b.1 then some c else some b
    else best) none
  best.map fun c => ⟨c.1, c.2, c.1 + w, c.2 + h⟩

/-- The first free entry. -/
def placedFree (s : LendState α) : Option (Fin 32) :=
  (List.finRange 32).find? fun k => (s.placed k).isNone

/-- An entry taken for `key`. -/
def LendState.putPlaced (s : LendState α) (k : Fin 32) (key : HeapKey α) (r : Rect) :
    LendState α :=
  { s with placed := Function.update s.placed k (some (key, r)), placedN := s.placedN + 1 }

/-- `m8dd_unplace`. -/
def m8ddUnplace (key : HeapKey α) (s : LendState α) : LendState α :=
  match (List.finRange 32).find? fun k => decide ((s.placed k).map Prod.fst = some key) with
  | none => s
  | some k =>
    let s := { s with placed := Function.update s.placed k none, placedN := s.placedN - 1 }
    if s.placedN = 0 then (m8ddLend m dc.back 0 s).2 else s

/-- The surfaces of a list, once the rows are lent. Those placed go if one is not. -/
def m8ddPlaceAll : List α → List (α × ℕ × ℕ) → LendState α → LendState α
  | _, [], s => s
  | done, (gbl, w, h) :: rest, s =>
    match m8ddPlace m w h s with
    | none =>
      let s := done.foldl (fun s gbl => m8ddUnplace m dc (.surface gbl) s) s
      if s.placedN = 0 then (m8ddLend m dc.last 0 s).2 else s
    | some r =>
      match placedFree s with
      | none => s
      | some k => m8ddPlaceAll (gbl :: done) rest (s.putPlaced k (.surface gbl) r)

/-- `m8dd_create_surface`. Surfaces at 16 bpp take none of the card's rows ; `plain` is that none of
the list is one DDRAW has to keep. -/
def m8ddCreateSurface (plain : Bool) (list : List (α × ℕ × ℕ)) (s : LendState α) : LendState α :=
  if m.fb16 then s
  else if m.heapRows = 0 ∨ list = [] then s
  else if !plain then s
  else if 32 < s.placedN + list.length then s
  else if s.placedN = 0 then
    let r := m8ddLend m dc.lend 1 s
    if r.1 then m8ddPlaceAll m dc [] list r.2 else r.2
  else m8ddPlaceAll m dc [] list s

/-- `m8dd_destroy_surface`. -/
def m8ddDestroySurface (gbl : α) (s : LendState α) : LendState α :=
  m8ddUnplace m dc (.surface gbl) s

/-! ## Contexts -/

/-- `m8d3d_scratch`, for a target of `w` x `h`. -/
def m8d3dScratch (k : Fin 4) (w h : ℕ) (s : LendState α) : Option Rect × LendState α :=
  if m.fb16 then
    if m.width = 640 ∧ m.height = 480 then
      let r := m8ddLend m dc.lend 2 s
      if r.1 then (some ⟨640, M8_PAGE1_Y, 640 + 352, M8_PAGE1_Y + 480⟩, r.2) else (none, r.2)
    else
      let r := m8ddLend m dc.lend 1 s
      if r.1 then (some ⟨0, m.top, w, m.top + m.rows⟩, r.2) else (none, r.2)
  else if m.heapRows = 0 then (none, s)
  else
    match m8ddPlace m w h s with
    | none => (none, s)
    | some r =>
      match placedFree s with
      | none => (none, s)
      | some j =>
        let l := if s.placedN = 0 then m8ddLend m dc.lend 1 s else (true, s)
        if l.1 then (some r, l.2.putPlaced j (.context k) r) else (none, l.2)

/-- `m8d3d_scratch_free`. -/
def m8d3dScratchFree (k : Fin 4) (s : LendState α) : LendState α :=
  if m.fb16 then (m8ddLend m dc.back 0 s).2 else m8ddUnplace m dc (.context k) s

/-- `m8d3d_context_create`, for a target that is one of DirectDraw's surfaces or buffers. -/
def LendState.contextCreate (target : Option (ℕ × ℕ)) (s : LendState α) : LendState α :=
  match (List.finRange 4).find? fun k => (s.ctx k).isNone, target with
  | some k, some (w, h) =>
    match m8d3dScratch m dc k w h s with
    | (none, s) => s
    | (some r, s) => { s with ctx := Function.update s.ctx k (some r) }
  | _, _ => s

/-- `m8d3d_context_free`. -/
def LendState.contextFree (k : Fin 4) (s : LendState α) : LendState α :=
  match s.ctx k with
  | none => s
  | some _ =>
    let s := m8d3dScratchFree m dc k s
    { s with ctx := Function.update s.ctx k none }

end Functions

end Inboard
