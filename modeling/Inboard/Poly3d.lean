import Inboard.DdLend
import Inboard.Fallback
import Inboard.M8Draw

/-!
# Polygons for a program

`m8p_begin` takes rows off the screen for a program, and `m8p_frame` fills its polygons there, or on
the screen, and copies a part of them to its window. The bounds are compared in an `int`, after the
sums : a window at the far right, or a rectangle that starts far to the right of it, passes
(`m8p_stays_in_rows_iff` says when). What the pointer's own lifting puts back is not the frame's.
-/

set_option linter.unusedSectionVars false

namespace Inboard

/-! ## What the card draws -/

def M8P_MAX_COUNT : ℤ := 1024

/-- What the card is told, at the pixels it is told. -/
inductive PolyOp
  /-- `m8_hw_fill`. -/
  | fill (x y w h : ℤ) (color : BitVec 8)
  /-- A side of the outline in the scratch, in one plane. -/
  | outline (plane : BitVec 8) (p q : Pixel)
  /-- The fill between the outline's pixels, by rows. -/
  | between (sx sy : ℤ) (box : Rect) (plane color : BitVec 8)
  /-- A side of the outline in the polygon's colour. -/
  | side (color : BitVec 8) (p q : Pixel)
  /-- `m8_hw_copy`. -/
  | copy (sx sy dx dy w h : ℤ)

/-- The pixels of the card's lines and of its polygon fill. A line lies between its ends, and one
that leaves off its last pixel has its first. -/
structure PolyCard where
  outline : Pixel → Pixel → Pixel → Prop
  line : Pixel → Pixel → Pixel → Prop
  between : Rect → Pixel → Prop
  outline_box : ∀ {p q z : Pixel}, outline p q z →
    (min p.1 q.1 ≤ z.1 ∧ z.1 ≤ max p.1 q.1) ∧ min p.2 q.2 ≤ z.2 ∧ z.2 ≤ max p.2 q.2
  line_box : ∀ {p q z : Pixel}, line p q z →
    (min p.1 q.1 ≤ z.1 ∧ z.1 ≤ max p.1 q.1) ∧ min p.2 q.2 ≤ z.2 ∧ z.2 ≤ max p.2 q.2
  line_first : ∀ {p q : Pixel}, p ≠ q → line p q p
  between_box : ∀ {r : Rect} {z : Pixel}, between r z → z ∈ r

/-- The pixels written. -/
def PolyOp.Writes (c : PolyCard) : PolyOp → Pixel → Prop
  | .fill x y w h _, z => z ∈ (⟨x, y, x + w, y + h⟩ : Rect)
  | .outline _ p q, z => c.outline p q z
  | .between _ _ box _ _, z => c.between box z
  | .side _ p q, z => c.line p q z
  | .copy _ _ dx dy w h, z => z ∈ (⟨dx, dy, dx + w, dy + h⟩ : Rect)

/-- All of them lie in a set of pixels. -/
def StayIn (c : PolyCard) (ops : List PolyOp) (S : Pixel → Prop) : Prop :=
  ∀ op ∈ ops, ∀ z, op.Writes c z → S z

section StayIn

variable {c : PolyCard} {S T : Pixel → Prop}

theorem stayIn_nil : StayIn c [] S := fun _ h => absurd h List.not_mem_nil

theorem stayIn_append {l m : List PolyOp} : StayIn c (l ++ m) S ↔ StayIn c l S ∧ StayIn c m S := by
  constructor
  · exact fun h => ⟨fun op hop => h op (List.mem_append_left _ hop),
      fun op hop => h op (List.mem_append_right _ hop)⟩
  · rintro ⟨hl, hm⟩ op hop
    rcases List.mem_append.mp hop with hop | hop
    · exact hl op hop
    · exact hm op hop

theorem StayIn.mono {l : List PolyOp} (h : StayIn c l S) (hST : ∀ z, S z → T z) : StayIn c l T :=
  fun op hop z hz => hST z (h op hop z hz)

end StayIn

/-- `m8_hw_fill`, with what goes to the queue. -/
def polyFill (x y w h : ℤ) (color : BitVec 8) : List PolyOp :=
  if w ≤ 0 ∨ h ≤ 0 then [] else [.fill x y w h color]

/-- `m8_hw_copy`. -/
def polyCopy (sx sy dx dy w h : ℤ) : List PolyOp :=
  if w ≤ 0 ∨ h ≤ 0 then [] else [.copy sx sy dx dy w h]

/-! ## m8_hw_poly -/

/-- Which of the queue's sends the card took. -/
structure PolySends where
  first : Bool
  sent : ℕ → ℕ → Bool

/-- A vertex at an origin. -/
def polyAt (ox oy : ℤ) (p : Pixel) : Pixel := (int16 (ox + p.1), int16 (oy + p.2))

/-- The sides from `p` through `v`. -/
def polySides (op : Pixel → Pixel → PolyOp) : Pixel → List Pixel → List PolyOp
  | _, [] => []
  | p, q :: v => op p q :: polySides op q v

/-- The vertices' box, its last column and row in it. -/
def polyBox (p : Pixel) (v : List Pixel) : Rect :=
  v.foldl (fun r q => ⟨min r.left q.1, min r.top q.2, max r.right q.1, max r.bottom q.2⟩)
    ⟨p.1, p.2, p.1, p.2⟩

/-- `m8_hw_poly` of the vertices `p :: v`, with its three sends : the outline into the scratch, the
fill, and the outline in colour. A send that the card did not take may have drawn. -/
def m8HwPolyOps (dx dy sx sy : ℤ) (p : Pixel) (v : List Pixel) (plane color : BitVec 8)
    (sent : ℕ → Bool) : Bool × List PolyOp :=
  let r := polyBox p v
  if v.length + 1 < 3 ∨ M8_POLY_MAX < v.length + 1 then (false, [])
  else if int16 (r.bottom - r.top) < 2 then (true, [])
  else
    let outline := polySides (.outline plane) (polyAt sx sy p) (v.map (polyAt sx sy) ++
      [polyAt sx sy p])
    let between := [PolyOp.between (int16 (sx + r.left)) (int16 (sy + r.top + 1))
      ⟨int16 (dx + r.left), int16 (dy + r.top + 1), int16 (dx + r.right + 1),
        int16 (dy + r.bottom)⟩ plane color]
    let sides := polySides (.side color) (polyAt dx dy p) (v.map (polyAt dx dy) ++
      [polyAt dx dy p])
    if sent 0 = false then (false, outline)
    else if sent 1 = false then (false, outline ++ between)
    else (sent 2, outline ++ between ++ sides)

/-! ## m8p -/

/-- `m8p_on` and what goes with it, and the box of what the scratch's planes hold. -/
structure M8p where
  on : Bool
  w : ℤ
  h : ℤ
  top : ℤ
  sl : ℤ
  st : ℤ
  sr : ℤ
  sb : ℤ

/-- The words of an escape's input. -/
structure PolyBlock where
  word : ℕ → BitVec 16

/-- A word taken as a `short`. -/
def PolyBlock.short (b : PolyBlock) (i : ℕ) : ℤ := (b.word i).toInt

/-- `n` vertices from a word on. -/
def PolyBlock.vertices (b : PolyBlock) (i n : ℕ) : List Pixel :=
  (List.range n).map fun k => (b.short (i + 2 * k), b.short (i + 2 * k + 1))

namespace M8p

variable (m : M8Mode) (s : M8p)

/-- The rows of `m8_dd_heap`. -/
def heap : LendMode := ⟨m.x, m.y, false, false⟩

/-- `m8p_scratch_clear`. -/
def m8pScratchClear : List PolyOp × M8p :=
  (if s.sr > s.sl then
    polyFill (int16 (s.w + s.sl)) (int16 (s.top + s.st)) (int16 (s.sr - s.sl))
      (int16 (s.sb - s.st)) 0 else [],
    { s with sl := 0x7FFF, st := 0x7FFF, sr := 0, sb := 0 })

/-- `m8p_begin` : 0 and 1, what is drawn, and the state. -/
def m8pBegin (heap : LendMode) (usable : Bool) (blk : PolyBlock) : Bool × List PolyOp × M8p :=
  let w := (blk.word 1).toNat
  let h := (blk.word 2).toNat
  if s.on = true ∨ usable = false ∨ w < 16 ∨ h < 16 ∨ (2 * w : ℤ) % 65536 > M8_PITCH ∨
      h > heap.rows then (false, [], s)
  else
    (true, polyFill 0 heap.top (int16 (2 * int16 w)) (int16 h) 0,
      ⟨true, int16 w, int16 h, heap.top, 0x7FFF, 0x7FFF, 0, 0⟩)

/-- A vertex added to the scratch's box. -/
def addVertex (p : Pixel) : M8p :=
  { s with
    sl := if p.1 < s.sl then p.1 else s.sl
    sr := if int16 (p.1 + 1) > s.sr then int16 (p.1 + 1) else s.sr
    st := if p.2 < s.st then p.2 else s.st
    sb := if int16 (p.2 + 1) > s.sb then int16 (p.2 + 1) else s.sb }

/-- A vertex of the buffer. -/
def Has (p : Pixel) : Prop := ¬(p.1 < 0 ∨ p.1 ≥ s.w ∨ p.2 < 0 ∨ p.2 ≥ s.h)

instance (p : Pixel) : Decidable (s.Has p) := by unfold Has; infer_instance

/-- `m8p_inside`, and the box after it. -/
def m8pInside (v : List Pixel) : Option M8p :=
  if ∀ p ∈ v, s.Has p then some (v.foldl addVertex s) else none

/-- The polygons : `k` counts those read, `drawn` those drawn, and `pos` is the next one's word. -/
def polys (blk : PolyBlock) (sends : PolySends) (dx dy : ℤ) :
    ℕ → ℕ → ℕ → ℕ → M8p → List PolyOp × M8p
  | 0, _, _, _, s => ([], s)
  | more + 1, k, drawn, pos, s =>
    let n := blk.short (pos + 1)
    if n < 3 ∨ n > M8_POLY_MAX then ([], s)
    else
      let p := (blk.short (pos + 2), blk.short (pos + 3))
      let v := blk.vertices (pos + 4) (n.toNat - 1)
      match s.m8pInside (p :: v) with
      | none => polys blk sends dx dy more (k + 1) drawn (pos + (2 + 2 * n.toNat)) s
      | some s =>
        match m8HwPolyOps dx dy s.w s.top p v (1#8 <<< (drawn % 8)) ((blk.word pos).setWidth 8)
          (sends.sent k) with
        | (false, ops) => (ops, s)
        | (true, ops) =>
          let next := if (drawn + 1) % 8 = 0 then s.m8pScratchClear else ([], s)
          let r := polys blk sends dx dy more (k + 1) (drawn + 1) (pos + (2 + 2 * n.toNat)) next.2
          (ops ++ (next.1 ++ r.1), r.2)

/-- An edge cut to the buffer. -/
def cutLow (l : ℤ) : ℤ := if l < 0 then 0 else l

def cutHigh (r w : ℤ) : ℤ := if r > w then w else r

/-- The part of the window on the screen, along one axis : the window is at `wx`. -/
def presentLow (wx l : ℤ) : ℤ := if int16 (wx + cutLow l) < 0 then int16 (-wx) else cutLow l

def presentHigh (wx r w size : ℤ) : ℤ :=
  if int16 (wx + cutHigh r w) > size then int16 (size - wx) else cutHigh r w

end M8p

/-- What a frame does : what it returns, draws, copies to the window, and leaves. -/
structure PolyDrawn where
  ret : Bool
  ops : List PolyOp
  window : List PolyOp
  s : M8p

/-- A frame of a program, and how the card takes it. -/
structure PolyFrame where
  usable : Bool
  blk : PolyBlock

namespace PolyFrame

variable (f : PolyFrame)

/-- `M8P_DIRECT`. -/
def Direct : Prop := (f.blk.word 1).getLsbD 0 = true

instance : Decidable f.Direct := by unfold Direct; infer_instance

/-- `wx`. -/
def wx : ℤ := f.blk.short 2

/-- `wy`. -/
def wy : ℤ := f.blk.short 3

end PolyFrame

namespace M8p

variable (m : M8Mode) (s : M8p) (f : PolyFrame) (sends : PolySends)

/-- The rectangle to clear. -/
def clearOps (ox oy : ℤ) : List PolyOp :=
  let l := cutLow (f.blk.short 5)
  let t := cutLow (f.blk.short 6)
  let r := cutHigh (f.blk.short 7) s.w
  let b := cutHigh (f.blk.short 8) s.h
  if r > l ∧ b > t then
    polyFill (int16 (ox + l)) (int16 (oy + t)) (int16 (r - l)) (int16 (b - t))
      ((f.blk.word 4).setWidth 8)
  else []

/-- The copy to the window. -/
def presentOps (ox oy : ℤ) : List PolyOp :=
  let l := presentLow f.wx (f.blk.short 9)
  let t := presentLow f.wy (f.blk.short 10)
  let r := presentHigh f.wx (f.blk.short 11) s.w m.x
  let b := presentHigh f.wy (f.blk.short 12) s.h m.y
  if r > l ∧ b > t then
    polyCopy (int16 (ox + l)) (int16 (oy + t)) (int16 (f.wx + l)) (int16 (f.wy + t))
      (int16 (r - l)) (int16 (b - t))
  else []

/-- A direct frame's window is not on the screen. -/
def OffScreen : Prop :=
  f.wx < 0 ∨ f.wy < 0 ∨ int16 (f.wx + s.w) > m.x ∨ int16 (f.wy + s.h) > m.y

instance : Decidable (OffScreen m s f) := by unfold OffScreen; infer_instance

/-- `m8p_frame`. -/
def m8pFrame : PolyDrawn :=
  let count := f.blk.short 13
  if (s.on && f.usable) = false ∨ count > M8P_MAX_COUNT then ⟨false, [], [], s⟩
  else if f.Direct ∧ OffScreen m s f then ⟨false, [], [], s⟩
  else
    let ox := if f.Direct then f.wx else 0
    let oy := if f.Direct then f.wy else s.top
    let clear := s.clearOps f ox oy
    if sends.first = false then ⟨false, clear, [], s⟩
    else
      let r := s.polys f.blk sends ox oy count.toNat 0 0 14
      ⟨true, clear ++ (r.1 ++ r.2.m8pScratchClear.1),
        if f.Direct then [] else presentOps m s f ox oy, r.2.m8pScratchClear.2⟩

end M8p

/-! ## The scratch -/

namespace M8p

/-- `m8_dd_heap`'s rows are between the screen and the pointer's. -/
theorem heap_rows (m : M8Mode) :
    0 ≤ (heap m).top ∧ (heap m).top + (heap m).rows ≤ 896 ∧ (heap m).rows ≤ 256 := by
  obtain ⟨x, y, hxy⟩ := m
  rcases hxy with h | h | h
  all_goals
    cases h
    decide

/-- What `m8p_begin` leaves, between frames and in them. -/
structure Ready (m : M8Mode) (W H : ℤ) (s : M8p) : Prop where
  on : s.on = true
  w : s.w = int16 W
  h : s.h = H
  top : s.top = (heap m).top
  wide : 16 ≤ W ∧ W < 65536 ∧ 2 * W % 65536 ≤ 1024
  high : 16 ≤ H ∧ H ≤ (heap m).rows
  scratch : (s.sl = 0x7FFF ∧ s.st = 0x7FFF ∧ s.sr = 0 ∧ s.sb = 0) ∨
    (0 ≤ s.sl ∧ s.sl < s.sr ∧ s.sr ≤ s.w) ∧ 0 ≤ s.st ∧ s.st < s.sb ∧ s.sb ≤ s.h

/-- The rows begin took : the buffer and the scratch beside it. -/
def Rows (m : M8Mode) (W H : ℤ) (z : Pixel) : Prop :=
  0 ≤ z.1 ∧ z.1 < 2 * W ∧ (heap m).top ≤ z.2 ∧ z.2 < (heap m).top + H

/-- A pixel of the buffer, at an origin. -/
def Buffer (ox oy : ℤ) (s : M8p) (z : Pixel) : Prop :=
  ∃ p, s.Has p ∧ z = polyAt ox oy p

section Ready

variable {m : M8Mode} {W H : ℤ} {s : M8p} {c : PolyCard}

theorem stayIn_fill {x y w h : ℤ} {color : BitVec 8} {S : Pixel → Prop}
    (hS : 0 < w → 0 < h → ∀ z : Pixel, x ≤ z.1 → z.1 < x + w → y ≤ z.2 → z.2 < y + h → S z) :
    StayIn c (polyFill x y w h color) S := by
  unfold polyFill
  split_ifs with hempty
  · exact stayIn_nil
  · intro op hop z hz
    rw [List.mem_singleton] at hop
    subst hop
    obtain ⟨h1, h2, h3, h4⟩ := hz
    exact hS (by omega) (by omega) z h1 h2 h3 h4

/-- A buffer with pixels has no more columns than fit twice. -/
theorem Ready.narrow (hs : Ready m W H s) (hpos : 0 < s.w) : s.w = W ∧ W ≤ 512 := by
  have hw := hs.w
  have hwide := hs.wide
  unfold int16 at hw
  omega

theorem scratchClear_ready (hs : Ready m W H s) : Ready m W H s.m8pScratchClear.2 :=
  ⟨hs.on, hs.w, hs.h, hs.top, hs.wide, hs.high, Or.inl ⟨rfl, rfl, rfl, rfl⟩⟩

/-- The scratch is cleared where it was drawn into. -/
theorem scratchClear_stay (hs : Ready m W H s) : StayIn c s.m8pScratchClear.1 (Rows m W H) := by
  unfold m8pScratchClear
  dsimp only
  split_ifs with hempty
  · have hheap := heap_rows m
    have htop := hs.top
    have hh := hs.h
    have hhigh := hs.high
    rcases hs.scratch with hbox | ⟨⟨hsl, hsr, hw⟩, hst, hsb, hh⟩
    · omega
    · have hnarrow := hs.narrow (by omega)
      rw [int16_eq (x := s.w + s.sl) (by omega), int16_eq (x := s.top + s.st) (by omega),
        int16_eq (x := s.sr - s.sl) (by omega), int16_eq (x := s.sb - s.st) (by omega)]
      refine stayIn_fill fun _ _ z h1 h2 h3 h4 => ?_
      unfold Rows
      omega
  · exact stayIn_nil

/-- Vertices of the buffer keep the scratch's box in it. -/
theorem addVertex_ready (hs : Ready m W H s) {p : Pixel} (hp : s.Has p) :
    Ready m W H (s.addVertex p) := by
  refine ⟨hs.on, hs.w, hs.h, hs.top, hs.wide, hs.high, ?_⟩
  have hscratch := hs.scratch
  have hnarrow := hs.narrow
  have hh := hs.h
  have hhigh := hs.high
  have hheap := heap_rows m
  unfold Has at hp
  unfold addVertex
  dsimp only
  rw [int16_eq (x := p.1 + 1) (by omega), int16_eq (x := p.2 + 1) (by omega)]
  split_ifs <;> omega

end Ready

end M8p

/-! ## Polygons -/

section Sides

variable {c : PolyCard} {op : Pixel → Pixel → PolyOp} {r : Rect}

/-- Lines between points of a rectangle lie in it. -/
theorem polySides_stay (hop : ∀ p q z, (op p q).Writes c z →
    (min p.1 q.1 ≤ z.1 ∧ z.1 ≤ max p.1 q.1) ∧ min p.2 q.2 ≤ z.2 ∧ z.2 ≤ max p.2 q.2) :
    ∀ (p : Pixel) (v : List Pixel), p ∈ r → (∀ q ∈ v, q ∈ r) →
      StayIn c (polySides op p v) (· ∈ r)
  | _, [], _, _ => stayIn_nil
  | p, q :: v, hp, hv => by
    have hq := hv q List.mem_cons_self
    have ih := polySides_stay hop q v hq fun q' hq' => hv q' (List.mem_cons_of_mem _ hq')
    intro o ho z hz
    rcases List.mem_cons.mp ho with rfl | ho
    · have hbox := hop p q z hz
      rw [Rect.mem_iff] at hp hq ⊢
      omega
    · exact ih o ho z hz

/-- Lines through points that are not all one have a point of these. -/
theorem polySides_point (hop : ∀ p q, p ≠ q → (op p q).Writes c p) :
    ∀ (p : Pixel) (v : List Pixel), (∃ q ∈ v, q ≠ p) →
      ∃ o ∈ polySides op p v, ∃ z ∈ p :: v, o.Writes c z
  | p, [], h => by simp at h
  | p, q :: v, h => by
    by_cases hpq : p = q
    · subst hpq
      obtain ⟨q, hq, hne⟩ := h
      rcases List.mem_cons.mp hq with hq | hq
      · exact absurd hq hne
      · obtain ⟨o, ho, z, hz, hwrites⟩ := polySides_point hop p v ⟨q, hq, hne⟩
        exact ⟨o, List.mem_cons_of_mem _ ho, z, List.mem_cons_of_mem _ hz, hwrites⟩
    · exact ⟨op p q, List.mem_cons_self, p, List.mem_cons_self, hop p q hpq⟩

end Sides

/-- The box holds the vertices it was made of, and no more. -/
theorem polyBox_fold {P : ℤ → Prop} {Q : ℤ → Prop} : ∀ (v : List Pixel) (r : Rect),
    (P r.left ∧ P r.right ∧ r.left ≤ r.right) → (Q r.top ∧ Q r.bottom ∧ r.top ≤ r.bottom) →
    (∀ q ∈ v, P q.1 ∧ Q q.2) →
    let b := v.foldl (fun r q => (⟨min r.left q.1, min r.top q.2, max r.right q.1,
      max r.bottom q.2⟩ : Rect)) r
    (P b.left ∧ P b.right ∧ b.left ≤ b.right) ∧ Q b.top ∧ Q b.bottom ∧ b.top ≤ b.bottom
  | [], _, hx, hy, _ => ⟨hx, hy⟩
  | q :: v, r, hx, hy, hv => by
    obtain ⟨hqx, hqy⟩ := hv q List.mem_cons_self
    refine polyBox_fold v _ ⟨?_, ?_, ?_⟩ ⟨?_, ?_, ?_⟩ fun q' hq' =>
      hv q' (List.mem_cons_of_mem _ hq')
    · exact min_rec' P hx.1 hqx
    · exact max_rec' P hx.2.1 hqx
    · exact (min_le_left _ _).trans (hx.2.2.trans (le_max_left _ _))
    · exact min_rec' Q hy.1 hqy
    · exact max_rec' Q hy.2.1 hqy
    · exact (min_le_left _ _).trans (hy.2.2.trans (le_max_left _ _))

theorem polyBox_of {P Q : ℤ → Prop} {p : Pixel} {v : List Pixel}
    (h : ∀ q ∈ p :: v, P q.1 ∧ Q q.2) :
    (P (polyBox p v).left ∧ P (polyBox p v).right ∧ (polyBox p v).left ≤ (polyBox p v).right) ∧
      Q (polyBox p v).top ∧ Q (polyBox p v).bottom ∧ (polyBox p v).top ≤ (polyBox p v).bottom := by
  obtain ⟨hx, hy⟩ := h p List.mem_cons_self
  exact polyBox_fold v _ ⟨hx, hx, le_refl _⟩ ⟨hy, hy, le_refl _⟩ fun q hq =>
    h q (List.mem_cons_of_mem _ hq)

namespace M8p

section Poly

variable {m : M8Mode} {W H dx dy : ℤ} {s : M8p} {c : PolyCard} {p : Pixel} {v : List Pixel}
  {plane color : BitVec 8} {sent : ℕ → Bool}

/-- A buffer's vertex at an origin from where nothing wraps. -/
theorem polyAt_mem (hp : s.Has p) (hdx : 0 ≤ dx ∧ dx + s.w ≤ 0x7FFF)
    (hdy : 0 ≤ dy ∧ dy + s.h ≤ 0x7FFF) :
    polyAt dx dy p ∈ (⟨dx, dy, dx + s.w, dy + s.h⟩ : Rect) := by
  unfold Has at hp
  rw [polyAt, int16_eq (by omega), int16_eq (by omega), Rect.mem_iff]
  dsimp only
  omega

/-- A polygon of the buffer is drawn in the scratch and, at its place, in the buffer. -/
theorem poly_stay (hs : Ready m W H s) (hv : ∀ q ∈ p :: v, s.Has q)
    (hdx : 0 ≤ dx ∧ dx + s.w ≤ 0x7FFF) (hdy : 0 ≤ dy ∧ dy + s.h ≤ 0x7FFF) :
    StayIn c (m8HwPolyOps dx dy s.w s.top p v plane color sent).2
      (fun z => Rows m W H z ∨ z ∈ (⟨dx, dy, dx + s.w, dy + s.h⟩ : Rect)) := by
  have hheap := heap_rows m
  have hhigh := hs.high
  have hh := hs.h
  have htop := hs.top
  have hpos : 0 < s.w := by
    have hp := hv p List.mem_cons_self
    unfold Has at hp
    omega
  have hnarrow := hs.narrow hpos
  have hbox := polyBox_of (P := fun x => 0 ≤ x ∧ x < s.w) (Q := fun y => 0 ≤ y ∧ y < s.h)
    (p := p) (v := v) fun q hq => by
      have hq' := hv q hq
      unfold Has at hq'
      omega
  have hends : ∀ {ox oy : ℤ} {op : Pixel → Pixel → PolyOp} {S : Pixel → Prop},
      (∀ p q z, (op p q).Writes c z →
        (min p.1 q.1 ≤ z.1 ∧ z.1 ≤ max p.1 q.1) ∧ min p.2 q.2 ≤ z.2 ∧ z.2 ≤ max p.2 q.2) →
      (0 ≤ ox ∧ ox + s.w ≤ 0x7FFF) → (0 ≤ oy ∧ oy + s.h ≤ 0x7FFF) →
      (∀ z ∈ (⟨ox, oy, ox + s.w, oy + s.h⟩ : Rect), S z) →
      StayIn c (polySides op (polyAt ox oy p) (v.map (polyAt ox oy) ++ [polyAt ox oy p])) S := by
    intro ox oy op S hop hox hoy hS
    refine (polySides_stay hop _ _ (polyAt_mem (hv p List.mem_cons_self) hox hoy)
      fun q hq => ?_).mono hS
    rcases List.mem_append.mp hq with hq | hq
    · obtain ⟨q', hq', rfl⟩ := List.mem_map.mp hq
      exact polyAt_mem (hv q' (List.mem_cons_of_mem _ hq')) hox hoy
    · rw [List.mem_singleton.mp hq]
      exact polyAt_mem (hv p List.mem_cons_self) hox hoy
  have houtline := @hends s.w s.top (.outline plane)
    (fun z => Rows m W H z ∨ z ∈ (⟨dx, dy, dx + s.w, dy + s.h⟩ : Rect))
    (fun _ _ _ hz => c.outline_box hz) (by omega) (by omega) fun z hz => by
      rw [Rect.mem_iff] at hz
      dsimp only at hz
      left
      unfold Rows
      omega
  have hside := @hends dx dy (.side color)
    (fun z => Rows m W H z ∨ z ∈ (⟨dx, dy, dx + s.w, dy + s.h⟩ : Rect))
    (fun _ _ _ hz => c.line_box hz) hdx hdy fun z hz => Or.inr hz
  have hbetween : StayIn c [PolyOp.between (int16 (s.w + (polyBox p v).left))
      (int16 (s.top + (polyBox p v).top + 1))
      ⟨int16 (dx + (polyBox p v).left), int16 (dy + (polyBox p v).top + 1),
        int16 (dx + (polyBox p v).right + 1), int16 (dy + (polyBox p v).bottom)⟩ plane color]
      (fun z => Rows m W H z ∨ z ∈ (⟨dx, dy, dx + s.w, dy + s.h⟩ : Rect)) := by
    intro op hop z hz
    rw [List.mem_singleton] at hop
    subst hop
    have hz' := c.between_box hz
    rw [int16_eq (x := dx + (polyBox p v).left) (by omega),
      int16_eq (x := dy + (polyBox p v).top + 1) (by omega),
      int16_eq (x := dx + (polyBox p v).right + 1) (by omega),
      int16_eq (x := dy + (polyBox p v).bottom) (by omega), Rect.mem_iff] at hz'
    dsimp only at hz'
    right
    rw [Rect.mem_iff]
    dsimp only
    omega
  unfold m8HwPolyOps
  dsimp only
  split_ifs
  · exact stayIn_nil
  · exact stayIn_nil
  · exact houtline
  · exact stayIn_append.mpr ⟨houtline, hbetween⟩
  · exact stayIn_append.mpr ⟨stayIn_append.mpr ⟨houtline, hbetween⟩, hside⟩

/-- One of more than two rows, once sent, has a side with a pixel. -/
theorem poly_point (hv : ∀ q ∈ p :: v, s.Has q) (hhigh : s.h ≤ 256)
    (hcount : ¬(v.length + 1 < 3 ∨ M8_POLY_MAX < v.length + 1)) (hsent : ∀ i, sent i = true)
    (htall : 2 ≤ (polyBox p v).bottom - (polyBox p v).top) :
    ∃ op ∈ (m8HwPolyOps dx dy s.w s.top p v plane color sent).2, ∃ z, op.Writes c z ∧
      ∃ q, s.Has q ∧ z = polyAt dx dy q := by
  have hbox := polyBox_of (P := fun _ => True) (Q := fun y => 0 ≤ y ∧ y < s.h)
    (p := p) (v := v) fun q hq => by
      have hq' := hv q hq
      unfold Has at hq'
      exact ⟨trivial, by omega⟩
  have hne : ∃ q ∈ v, q.2 ≠ p.2 := by
    by_contra hall
    push Not at hall
    have hflat := polyBox_of (P := fun _ => True) (Q := fun y => y = p.2) (p := p) (v := v)
      fun q hq => by
        rcases List.mem_cons.mp hq with rfl | hq
        · exact ⟨trivial, rfl⟩
        · exact ⟨trivial, hall q hq⟩
    omega
  obtain ⟨q, hq, hrow⟩ := hne
  have hpb := hv p List.mem_cons_self
  have hqb := hv q (List.mem_cons_of_mem _ hq)
  have hat : polyAt dx dy q ≠ polyAt dx dy p := by
    intro heq
    have hsnd := congrArg Prod.snd heq
    unfold Has at hpb hqb
    unfold polyAt int16 at hsnd
    dsimp only at hsnd
    omega
  obtain ⟨op, hop, z, hz, hwrites⟩ := @polySides_point c (.side color)
    (fun _ _ h => c.line_first h) (polyAt dx dy p) (v.map (polyAt dx dy) ++ [polyAt dx dy p])
    ⟨_, List.mem_append_left _ (List.mem_map_of_mem hq), hat⟩
  refine ⟨op, ?_, z, hwrites, ?_⟩
  · unfold m8HwPolyOps
    dsimp only
    rw [if_neg hcount, if_neg (by rw [int16_eq (by omega)]; omega), if_neg (by simp [hsent]),
      if_neg (by simp [hsent])]
    exact List.mem_append_right _ hop
  · rcases List.mem_cons.mp hz with rfl | hz
    · exact ⟨p, hpb, rfl⟩
    rcases List.mem_append.mp hz with hz | hz
    · obtain ⟨q', hq', rfl⟩ := List.mem_map.mp hz
      exact ⟨q', hv q' (List.mem_cons_of_mem _ hq'), rfl⟩
    · exact ⟨p, hpb, List.mem_singleton.mp hz⟩

/-- And lets the next follow. -/
theorem poly_sent (hcount : ¬(v.length + 1 < 3 ∨ M8_POLY_MAX < v.length + 1))
    (hsent : ∀ i, sent i = true) {sx sy : ℤ} :
    (m8HwPolyOps dx dy sx sy p v plane color sent).1 = true := by
  unfold m8HwPolyOps
  dsimp only
  rw [if_neg hcount]
  by_cases htall : int16 ((polyBox p v).bottom - (polyBox p v).top) < 2
  · rw [if_pos htall]
  · rw [if_neg htall, if_neg (by simp [hsent]), if_neg (by simp [hsent])]
    exact hsent 2

end Poly

/-! ## The polygons of a frame -/

/-- A vertex of the buffer of `w` by `h`. -/
def InBuffer (w h : ℤ) (p : Pixel) : Prop := 0 ≤ p.1 ∧ p.1 < w ∧ 0 ≤ p.2 ∧ p.2 < h

/-- One of the polygons from a word on is in the buffer and has more than two rows. -/
def DrawsPoly (blk : PolyBlock) (w h : ℤ) : ℕ → ℕ → Prop
  | 0, _ => False
  | more + 1, pos =>
    let n := blk.short (pos + 1)
    let p := (blk.short (pos + 2), blk.short (pos + 3))
    let v := blk.vertices (pos + 4) (n.toNat - 1)
    (3 ≤ n ∧ n ≤ M8_POLY_MAX) ∧
      ((∀ q ∈ p :: v, InBuffer w h q) ∧ 2 ≤ (polyBox p v).bottom - (polyBox p v).top ∨
        DrawsPoly blk w h more (pos + (2 + 2 * n.toNat)))

section Polys

variable {m : M8Mode} {W H dx dy : ℤ} {c : PolyCard} {blk : PolyBlock} {sends : PolySends}

theorem has_iff {s : M8p} (hs : Ready m W H s) {p : Pixel} :
    s.Has p ↔ InBuffer (int16 W) H p := by
  rw [← hs.w, ← hs.h]
  unfold Has InBuffer
  omega

/-- What `m8p_inside` leaves. -/
theorem inside_ready {s s' : M8p} (hs : Ready m W H s) {v : List Pixel}
    (h : s.m8pInside v = some s') : (∀ p ∈ v, s.Has p) ∧ Ready m W H s' := by
  unfold m8pInside at h
  split_ifs at h with hv
  cases h
  refine ⟨hv, ?_⟩
  have hfold : ∀ (v : List Pixel) (s : M8p), Ready m W H s → (∀ p ∈ v, InBuffer (int16 W) H p) →
      Ready m W H (v.foldl addVertex s) := by
    intro v
    induction v with
    | nil => exact fun _ hs _ => hs
    | cons p v ih =>
      exact fun s hs hv => ih _ (addVertex_ready hs ((has_iff hs).mpr (hv p List.mem_cons_self)))
        fun q hq => hv q (List.mem_cons_of_mem _ hq)
  exact hfold v s hs fun p hp => (has_iff hs).mp (hv p hp)

/-- The scratch's clear after each eighth polygon. -/
theorem next_stay {s : M8p} (hs : Ready m W H s) (drawn : ℕ) :
    StayIn c (if (drawn + 1) % 8 = 0 then s.m8pScratchClear else ([], s)).1 (Rows m W H) := by
  by_cases height : (drawn + 1) % 8 = 0
  · rw [if_pos height]
    exact scratchClear_stay hs
  · rw [if_neg height]
    exact stayIn_nil

theorem next_ready {s : M8p} (hs : Ready m W H s) (drawn : ℕ) :
    Ready m W H (if (drawn + 1) % 8 = 0 then s.m8pScratchClear else ([], s)).2 := by
  by_cases height : (drawn + 1) % 8 = 0
  · rw [if_pos height]
    exact scratchClear_ready hs
  · rw [if_neg height]
    exact hs

/-- An origin from where the buffer does not wrap. -/
def Placed (dx dy W H : ℤ) : Prop := (0 ≤ dx ∧ dx + int16 W ≤ 0x7FFF) ∧ 0 ≤ dy ∧ dy + H ≤ 0x7FFF

/-- The buffer's place, and its rows off the screen. -/
def Drawable (m : M8Mode) (dx dy W H : ℤ) (z : Pixel) : Prop :=
  Rows m W H z ∨ Placed dx dy W H ∧ z ∈ (⟨dx, dy, dx + int16 W, dy + H⟩ : Rect)

/-- A polygon is drawn at its place, if that does not wrap or it has no third row. -/
theorem poly_drawable {s : M8p} (hs : Ready m W H s) {p : Pixel} {v : List Pixel}
    {plane color : BitVec 8} {sent : ℕ → Bool} (hv : ∀ q ∈ p :: v, s.Has q)
    (h : Placed dx dy W H ∨ ¬2 ≤ (polyBox p v).bottom - (polyBox p v).top) :
    StayIn c (m8HwPolyOps dx dy s.w s.top p v plane color sent).2 (Drawable m dx dy W H) := by
  rcases h with hplaced | hflat
  · refine (poly_stay hs hv (by rw [hs.w]; exact hplaced.1)
      (by rw [hs.h]; exact hplaced.2)).mono fun z hz => ?_
    rw [hs.w, hs.h] at hz
    exact hz.imp id fun hz => ⟨hplaced, hz⟩
  · have hhigh := hs.high
    have hh := hs.h
    have hheap := heap_rows m
    have hbox := polyBox_of (P := fun _ => True) (Q := fun y => 0 ≤ y ∧ y < s.h)
      (p := p) (v := v) fun q hq => by
        have hq' := hv q hq
        unfold Has at hq'
        exact ⟨trivial, by omega⟩
    unfold m8HwPolyOps
    dsimp only
    by_cases hcount : v.length + 1 < 3 ∨ M8_POLY_MAX < v.length + 1
    · rw [if_pos hcount]
      exact stayIn_nil
    · rw [if_neg hcount, if_pos (by rw [int16_eq (by omega)]; omega)]
      exact stayIn_nil

/-- The polygons of a frame are drawn at their place, if that does not wrap or none draws. -/
theorem polys_stay : ∀ (more k drawn pos : ℕ) (s : M8p), Ready m W H s →
    (Placed dx dy W H ∨ ¬DrawsPoly blk (int16 W) H more pos) →
      StayIn c (s.polys blk sends dx dy more k drawn pos).1 (Drawable m dx dy W H)
  | 0, _, _, _, _, _, _ => stayIn_nil
  | more + 1, k, drawn, pos, s, hs, h => by
    rw [polys]
    dsimp only
    by_cases hcount : blk.short (pos + 1) < 3 ∨ blk.short (pos + 1) > M8_POLY_MAX
    · rw [if_pos hcount]
      exact stayIn_nil
    rw [if_neg hcount]
    have hrest : Placed dx dy W H ∨ ¬DrawsPoly blk (int16 W) H more
        (pos + (2 + 2 * (blk.short (pos + 1)).toNat)) :=
      h.imp id fun h hdraws => h ⟨by omega, Or.inr hdraws⟩
    cases hin : s.m8pInside ((blk.short (pos + 2), blk.short (pos + 3)) ::
        blk.vertices (pos + 4) ((blk.short (pos + 1)).toNat - 1)) with
    | none => exact polys_stay more (k + 1) drawn _ s hs hrest
    | some s' =>
      obtain ⟨hv, hs'⟩ := inside_ready hs hin
      have hpoly := @poly_drawable _ _ _ _ _ c _ hs' _ _ (1#8 <<< (drawn % 8))
        ((blk.word pos).setWidth 8) (sends.sent k)
        (fun q hq => (has_iff hs').mpr ((has_iff hs).mp (hv q hq)))
        (h.imp id fun h htall => h ⟨by omega, Or.inl ⟨fun q hq => (has_iff hs).mp (hv q hq),
          htall⟩⟩)
      dsimp only
      generalize m8HwPolyOps dx dy s'.w s'.top (blk.short (pos + 2), blk.short (pos + 3))
        (blk.vertices (pos + 4) ((blk.short (pos + 1)).toNat - 1)) (1#8 <<< (drawn % 8))
        ((blk.word pos).setWidth 8) (sends.sent k) = r at *
      obtain ⟨_ | _, ops⟩ := r
      · exact hpoly
      · have hothers := polys_stay more (k + 1) (drawn + 1)
          (pos + (2 + 2 * (blk.short (pos + 1)).toNat)) _ (next_ready hs' drawn) hrest
        exact stayIn_append.mpr ⟨hpoly, stayIn_append.mpr
          ⟨(next_stay hs' drawn).mono fun _ hz => Or.inl hz, hothers⟩⟩

/-- What is left after them. -/
theorem polys_ready : ∀ (more k drawn pos : ℕ) (s : M8p), Ready m W H s →
    Ready m W H (s.polys blk sends dx dy more k drawn pos).2
  | 0, _, _, _, _, hs => hs
  | more + 1, k, drawn, pos, s, hs => by
    rw [polys]
    dsimp only
    by_cases hcount : blk.short (pos + 1) < 3 ∨ blk.short (pos + 1) > M8_POLY_MAX
    · rw [if_pos hcount]
      exact hs
    rw [if_neg hcount]
    cases hin : s.m8pInside ((blk.short (pos + 2), blk.short (pos + 3)) ::
        blk.vertices (pos + 4) ((blk.short (pos + 1)).toNat - 1)) with
    | none => exact polys_ready more (k + 1) drawn _ s hs
    | some s' =>
      have hs' := (inside_ready hs hin).2
      dsimp only
      generalize m8HwPolyOps dx dy s'.w s'.top (blk.short (pos + 2), blk.short (pos + 3))
        (blk.vertices (pos + 4) ((blk.short (pos + 1)).toNat - 1)) (1#8 <<< (drawn % 8))
        ((blk.word pos).setWidth 8) (sends.sent k) = r
      obtain ⟨_ | _, ops⟩ := r
      · exact hs'
      · exact polys_ready more (k + 1) (drawn + 1) _ _ (next_ready hs' drawn)

/-- Where the card takes all, a polygon that draws has a pixel at its place. -/
theorem polys_point (hsent : ∀ k i, sends.sent k i = true) :
    ∀ (more k drawn pos : ℕ) (s : M8p), Ready m W H s → DrawsPoly blk (int16 W) H more pos →
      ∃ op ∈ (s.polys blk sends dx dy more k drawn pos).1, ∃ z, op.Writes c z ∧
        ∃ q, InBuffer (int16 W) H q ∧ z = polyAt dx dy q
  | 0, _, _, _, _, _, h => h.elim
  | more + 1, k, drawn, pos, s, hs, h => by
    obtain ⟨hn, h⟩ := h
    rw [polys]
    dsimp only
    rw [if_neg (by omega)]
    have hlength : (blk.vertices (pos + 4) ((blk.short (pos + 1)).toNat - 1)).length =
        (blk.short (pos + 1)).toNat - 1 := by
      rw [PolyBlock.vertices, List.length_map, List.length_range]
    have hcount : ¬((blk.vertices (pos + 4) ((blk.short (pos + 1)).toNat - 1)).length + 1 < 3 ∨
        M8_POLY_MAX < (blk.vertices (pos + 4) ((blk.short (pos + 1)).toNat - 1)).length + 1) := by
      rw [hlength]
      omega
    cases hin : s.m8pInside ((blk.short (pos + 2), blk.short (pos + 3)) ::
        blk.vertices (pos + 4) ((blk.short (pos + 1)).toNat - 1)) with
    | none =>
      rcases h with ⟨hv, -⟩ | h
      · rw [m8pInside, if_pos fun p hp => (has_iff hs).mpr (hv p hp)] at hin
        cases hin
      · exact polys_point hsent more (k + 1) drawn _ s hs h
    | some s' =>
      obtain ⟨hv, hs'⟩ := inside_ready hs hin
      have hhigh := hs'.high
      have hh := hs'.h
      have hheap := heap_rows m
      have hgoes := @poly_sent dx dy (blk.short (pos + 2), blk.short (pos + 3)) _
        (1#8 <<< (drawn % 8)) ((blk.word pos).setWidth 8) _ hcount (hsent k) s'.w s'.top
      have hpoint := @poly_point dx dy s' c _ _ (1#8 <<< (drawn % 8)) ((blk.word pos).setWidth 8) _
        (fun q hq => (has_iff hs').mpr ((has_iff hs).mp (hv q hq))) (by omega) hcount (hsent k)
      dsimp only
      generalize m8HwPolyOps dx dy s'.w s'.top (blk.short (pos + 2), blk.short (pos + 3))
        (blk.vertices (pos + 4) ((blk.short (pos + 1)).toNat - 1)) (1#8 <<< (drawn % 8))
        ((blk.word pos).setWidth 8) (sends.sent k) = r at *
      obtain ⟨ok, ops⟩ := r
      dsimp only at hgoes hpoint
      subst hgoes
      dsimp only
      rcases h with ⟨-, htall⟩ | h
      · obtain ⟨op, hop, z, hwrites, q, hq, hz⟩ := hpoint htall
        exact ⟨op, List.mem_append_left _ hop, z, hwrites, q, (has_iff hs').mp hq, hz⟩
      · obtain ⟨op, hop, hz⟩ := polys_point hsent more (k + 1) (drawn + 1) _ _
          (next_ready hs' drawn) h
        exact ⟨op, List.mem_append_right _ (List.mem_append_right _ hop), hz⟩

end Polys

end M8p

end Inboard
