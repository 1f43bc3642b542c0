import Inboard.DdDesc
import Inboard.Fb16Send

/-!
# What a flip erases

`m8dd_fill_outside` fills what is in an old box and in none of the new frame's rectangles : it
takes the rectangles one after another, each leaves up to four parts of the box, and each part
goes on with those after it, so that every pixel is filled once (`m8ddFillOutside_countP`).

`m8dd_flip16` puts the fills, then a send of each rectangle, in a batch (`m8ddFlip16Batch`), and
`m8dd_flush` has `m8_fb16_batch` draw them where `GetDC` gives a device context, and drops them
where it does not. The sends come after the fills, and a send goes out to even columns : so what is
beside an odd edge is RAM's again, which a described buffer need not hold there (`flip16_card`).
-/

set_option linter.unusedSectionVars false

namespace Inboard

/-! ## What is outside -/

/-- `m8dd_fill_outside` : what it fills of `o`, given the rectangles from `from` on. -/
def m8ddFillOutside (o : Rect) : List Rect → List Rect
  | [] => [o]
  | n :: rest =>
    if o.right ≤ n.left ∨ n.right ≤ o.left ∨ o.bottom ≤ n.top ∨ n.bottom ≤ o.top then
      m8ddFillOutside o rest
    else
      let top := if o.top > n.top then o.top else n.top
      let bot := if o.bottom < n.bottom then o.bottom else n.bottom
      (if o.top < n.top then m8ddFillOutside { o with bottom := n.top } rest else []) ++
        (if n.bottom < o.bottom then m8ddFillOutside { o with top := n.bottom } rest else []) ++
        (if o.left < n.left then m8ddFillOutside ⟨o.left, top, n.left, bot⟩ rest else []) ++
        (if n.right < o.right then m8ddFillOutside ⟨n.right, top, o.right, bot⟩ rest else [])

/-- How often a pixel is filled. -/
def fillCount (p : Pixel) (rs : List Rect) : ℕ := rs.countP (p ∈ ·)

@[simp] theorem fillCount_append (p : Pixel) (rs rs' : List Rect) :
    fillCount p (rs ++ rs') = fillCount p rs + fillCount p rs' := List.countP_append

/-- The edges are in order, as those of a rectangle with nothing in it may be too. -/
def Rect.Upright (r : Rect) : Prop := r.left ≤ r.right ∧ r.top ≤ r.bottom

/-- A pixel is in none of the rectangles. -/
def OutsideAll (rects : List Rect) (p : Pixel) : Prop := ∀ n ∈ rects, p ∉ n

instance (rects : List Rect) (p : Pixel) : Decidable (OutsideAll rects p) := by
  unfold OutsideAll; infer_instance

theorem outsideAll_cons {n : Rect} {rects : List Rect} {p : Pixel} :
    OutsideAll (n :: rects) p ↔ p ∉ n ∧ OutsideAll rects p := List.forall_mem_cons

/-- A part of a box, if there is one. -/
theorem fillCount_part {c : Prop} [Decidable c] {p : Pixel} {r : Rect} {rest : List Rect}
    (ih : fillCount p (m8ddFillOutside r rest) = if p ∈ r ∧ OutsideAll rest p then 1 else 0) :
    fillCount p (if c then m8ddFillOutside r rest else []) =
      if c ∧ p ∈ r ∧ OutsideAll rest p then 1 else 0 := by
  by_cases hc : c
  · rw [if_pos hc, ih]
    simp only [hc, true_and]
  · rw [if_neg hc, if_neg fun h => hc h.1]
    rfl

/-- Each pixel of the box that is in none of the rectangles is filled once, and no other is. -/
theorem m8ddFillOutside_count (p : Pixel) : ∀ (rects : List Rect) (o : Rect),
    (∀ n ∈ rects, n.Upright) →
      fillCount p (m8ddFillOutside o rects) = if p ∈ o ∧ OutsideAll rects p then 1 else 0
  | [], o, _ => by
    have hclear : OutsideAll [] p := fun n hn => absurd hn List.not_mem_nil
    simp [m8ddFillOutside, fillCount, hclear]
  | n :: rest, o, hup => by
    have ih := fun o => m8ddFillOutside_count p rest o fun r hr => hup r (List.mem_cons_of_mem n hr)
    obtain ⟨hlr, htb⟩ := hup n List.mem_cons_self
    rw [m8ddFillOutside]
    by_cases hapart : o.right ≤ n.left ∨ n.right ≤ o.left ∨ o.bottom ≤ n.top ∨ n.bottom ≤ o.top
    · rw [if_pos hapart, ih]
      refine if_congr (and_congr_right fun hp => ?_) rfl rfl
      rw [outsideAll_cons]
      refine (and_iff_right fun hn => ?_).symm
      rw [Rect.mem_iff] at hp hn
      omega
    · rw [if_neg hapart]
      dsimp only
      simp only [fillCount_append, fillCount_part (ih _), outsideAll_cons, Rect.mem_iff]
      by_cases hclear : OutsideAll rest p
      · simp only [hclear, and_true]
        split_ifs <;> omega
      · simp only [hclear, and_false, if_false]

/-! ## Rectangles on the screen -/

/-- Upright and on the screen. -/
def Rect.OnScreen (m : Fb16Mode) (r : Rect) : Prop :=
  r.Upright ∧ 0 ≤ r.left ∧ r.right ≤ m.scrX ∧ 0 ≤ r.top ∧ r.bottom ≤ m.scrY

/-- What is filled is on the screen, as the box and the rectangles are. -/
theorem m8ddFillOutside_onScreen {m : Fb16Mode} : ∀ {rects : List Rect} {o : Rect},
    (∀ n ∈ rects, n.OnScreen m) → o.OnScreen m → ∀ r ∈ m8ddFillOutside o rects, r.OnScreen m
  | [], o, _, ho, r, hr => by
    obtain rfl := List.mem_singleton.1 hr
    exact ho
  | n :: rest, o, hall, ho, r, hr => by
    have hrest : ∀ q ∈ rest, q.OnScreen m := fun q hq => hall q (List.mem_cons_of_mem n hq)
    have hn := hall n List.mem_cons_self
    unfold Rect.OnScreen Rect.Upright at hn
    rw [m8ddFillOutside] at hr
    by_cases hapart : o.right ≤ n.left ∨ n.right ≤ o.left ∨ o.bottom ≤ n.top ∨ n.bottom ≤ o.top
    · rw [if_pos hapart] at hr
      exact m8ddFillOutside_onScreen hrest ho r hr
    · rw [if_neg hapart] at hr
      unfold Rect.OnScreen Rect.Upright at ho
      simp only [List.mem_append, List.mem_ite_nil_right] at hr
      rcases hr with ((⟨hc, hr⟩ | ⟨hc, hr⟩) | ⟨hc, hr⟩) | ⟨hc, hr⟩
      all_goals
        refine m8ddFillOutside_onScreen hrest ?_ r hr
        unfold Rect.OnScreen Rect.Upright
        dsimp only
        omega

/-! ## Lists of a driver -/

/-- The box of a triangle, `m8dd_note_boxes`. -/
def noteBox (t : Tri) : Rect where
  left := min t.v0.1 (min t.v1.1 t.v2.1)
  top := min t.v0.2 (min t.v1.2 t.v2.2)
  right := max t.v0.1 (max t.v1.1 t.v2.1) + 1
  bottom := max t.v0.2 (max t.v1.2 t.v2.2) + 1

/-- A corner `m8d3d.c` lets through. -/
def CornerOn (m : Fb16Mode) (v : Pixel) : Prop := 0 ≤ v.1 ∧ v.1 < m.scrX ∧ 0 ≤ v.2 ∧ v.2 < m.scrY

theorem noteBox_onScreen {m : Fb16Mode} {t : Tri} (h0 : CornerOn m t.v0) (h1 : CornerOn m t.v1)
    (h2 : CornerOn m t.v2) : (noteBox t).OnScreen m := by
  unfold CornerOn at h0 h1 h2
  unfold noteBox Rect.OnScreen Rect.Upright
  dsimp only
  omega

theorem Rect.OnScreen.union {m : Fb16Mode} {a b : Rect} (ha : a.OnScreen m) (hb : b.OnScreen m) :
    (a.union b).OnScreen m := by
  unfold Rect.OnScreen Rect.Upright at *
  unfold Rect.union Rect.box
  split_ifs
  · exact hb
  · exact ha
  · dsimp only
    omega

/-- `m8dd_dirty` lists nothing that is not on the screen. -/
theorem m8ddDirty_onScreen {m : Fb16Mode} {c : Rect} {b : Buffer}
    (hb : ∀ r ∈ b.desc.d, r.OnScreen m) (hc : c.OnScreen m) :
    ∀ r ∈ (m8ddDirty c b).desc.d, r.OnScreen m := by
  intro r hr
  unfold m8ddDirty at hr
  split_ifs at hr
  · exact hb r hr
  · exact hb r hr
  · rcases List.mem_append.1 hr with hr | hr
    · exact hb r hr
    · obtain rfl := List.mem_singleton.1 hr
      exact hc
  · have hpush : ∀ q ∈ b.desc.d ++ [c], q.OnScreen m := fun q hq =>
      (List.mem_append.1 hq).elim (hb q) fun hq => by
        obtain rfl := List.mem_singleton.1 hq
        exact hc
    have hget : ∀ i, (b.desc.d.getD i c).OnScreen m := fun i => by
      rw [List.getD_eq_getElem?_getD]
      cases hi : b.desc.d[i]? with
      | none => exact hc
      | some q => exact hb q (List.mem_of_getElem? hi)
    simp only [M8ddDesc.replace, m8ddReady_desc, M8ddDesc.push] at hr
    rcases List.mem_or_eq_of_mem_set hr with hr | rfl
    · exact hpush r (List.mem_of_mem_dropLast hr)
    · exact (hget _).union hc

/-! ## The batch -/

/-- The ops of `m8_fb16_batch` that a flip queues : 0, 1, 2 and 5. -/
inductive BatchOp
  | send
  | fill
  | shown
  | drop
  deriving DecidableEq

/-- An entry's six words. -/
structure BatchEntry where
  op : BatchOp
  l : BitVec 16
  t : BitVec 16
  r : BitVec 16
  b : BitVec 16
  arg : UInt16

/-- fb16.c, and the buffer at `m8_fb16_sel` : the back buffer's if it is set. -/
structure FlipDev where
  sel : Bool
  dev : Fb16Dev m8Fb16Tables

section Flip

variable (m : Fb16Mode) (fb : Bool → Mem Unit) (blk : Mem ConvSeg)

/-- One entry of `m8_fb16_batch`. -/
def m8Fb16BatchEntry (s : FlipDev) (e : BatchEntry) : FlipDev :=
  let l := if e.l.toInt < 0 then 0 else e.l.toInt
  let t := if e.t.toInt < 0 then 0 else e.t.toInt
  let r := if e.r.toInt > m.scrX then (m.scrX : ℤ) else e.r.toInt
  let b := if e.b.toInt > m.scrY then (m.scrY : ℤ) else e.b.toInt
  match e.op with
  | .send => { s with dev := m8Fb16SendRect m (fb s.sel) blk l t r b e.arg s.dev }
  | .fill =>
    if r > l ∧ b > t then { s with dev := s.dev.solid m blk l.toNat t.toNat r.toNat b.toNat e.arg }
    else s
  | .shown => { s with sel := e.arg ≠ 0 }
  | .drop =>
    if r > l ∧ b > t then
      { s with dev := { s.dev with hash := s.dev.hash.map (m8Fb16Forget m l t r b) } }
    else s

/-- `M8DD_BATCH_MAX`. -/
def M8DD_BATCH_MAX : ℕ := 24

/-- `m8dd_bl`, the other side of the escape, and how often `GetDC` was called for it. -/
structure FlipBatch where
  bl : List BatchEntry
  dev : FlipDev
  asked : ℕ
  fits : bl.length ≤ M8DD_BATCH_MAX

variable (dc : ℕ → Bool)

/-- `m8dd_flush` : whether each call of `GetDC` gives one is in `dc`. A batch that has none is
dropped. -/
def m8ddFlush (q : FlipBatch) : FlipBatch :=
  if q.bl.isEmpty then q
  else ⟨[], if dc q.asked then q.bl.foldl (m8Fb16BatchEntry m fb blk) q.dev else q.dev,
    q.asked + 1, Nat.zero_le _⟩

/-- The rectangle of `m8dd_op` : `r` NULL is the whole screen. -/
def entryRect (r : Option Rect) : Rect := r.getD ⟨0, 0, m.scrX, m.scrY⟩

/-- The entry of `m8dd_op`. -/
def m8ddEntry (op : BatchOp) (r : Option Rect) (arg : UInt16) : BatchEntry :=
  let r := entryRect m r
  ⟨op, BitVec.ofInt 16 r.left, BitVec.ofInt 16 r.top, BitVec.ofInt 16 r.right,
    BitVec.ofInt 16 r.bottom, arg⟩

theorem m8ddFlush_bl (q : FlipBatch) : (m8ddFlush m fb blk dc q).bl = [] := by
  unfold m8ddFlush
  by_cases hempty : q.bl.isEmpty = true
  · rw [if_pos hempty]
    exact List.isEmpty_iff.1 hempty
  · rw [if_neg hempty]

/-- There is room for an entry once a full batch is flushed. -/
theorem m8ddOp_fits (e : BatchEntry) (q : FlipBatch) :
    ((if q.bl.length = M8DD_BATCH_MAX then m8ddFlush m fb blk dc q else q).bl ++ [e]).length ≤
      M8DD_BATCH_MAX := by
  have hfits := q.fits
  rw [List.length_append, List.length_singleton]
  split_ifs with hfull
  · rw [m8ddFlush_bl]
    decide
  · omega

/-- `m8dd_op`. -/
def m8ddOp (op : BatchOp) (r : Option Rect) (arg : UInt16) (q : FlipBatch) : FlipBatch :=
  let e := m8ddEntry m op r arg
  let t := if q.bl.length = M8DD_BATCH_MAX then m8ddFlush m fb blk dc q else q
  ⟨t.bl ++ [e], t.dev, t.asked, m8ddOp_fits m fb blk dc e q⟩

/-- What the engine draws of the buffer's triangles, when the batch is done. -/
structure Replay where
  on : Pixel → Prop
  draw : Card → Card
  keeps : ∀ c p, ¬ on p → draw c p = c p

/-- A flip of a described card to a buffer : `m8dd_card` and the triangles it shows, the
buffer's description, number and triangles, and `m8dd_fp_stale`. Rectangles come from clipped
areas, and m8d3d.c drops a triangle with a corner off the screen. -/
structure M8ddFlip where
  card : M8ddDesc
  boxes : List Tri
  target : M8ddDesc
  k : Bool
  tris : Replay
  stale : Bool
  card_on : ∀ r ∈ card.d, r.OnScreen m
  boxes_on : ∀ t ∈ boxes, CornerOn m t.v0 ∧ CornerOn m t.v1 ∧ CornerOn m t.v2
  target_on : ∀ r ∈ target.d, r.OnScreen m

variable {m}

/-- What the card is described to have on its colour. -/
def M8ddFlip.old (x : M8ddFlip m) : List Rect := x.card.d ++ x.boxes.map noteBox

/-- The fills of `m8dd_flip16` : what is outside in each old rectangle, or all of the screen. -/
def M8ddFlip.fills (x : M8ddFlip m) : List (Option Rect) :=
  if x.card.known ∧ x.card.colour = x.target.colour then
    (x.old.flatMap fun o => m8ddFillOutside o x.target.d).map some
  else [none]

/-- The batch of `m8dd_flip16`, past its fast path, with the buffer to be shown. -/
def M8ddFlip.opening (x : M8ddFlip m) (q : FlipBatch) : FlipBatch :=
  let q := if x.stale then m8ddOp m fb blk dc .drop none 0 q else q
  m8ddOp m fb blk dc .shown none (if x.k then 1 else 0) q

/-- The batch of `m8dd_flip16`, up to `m8dd_flush`. -/
def m8ddFlip16Batch (x : M8ddFlip m) (q : FlipBatch) : FlipBatch :=
  let q := x.opening fb blk dc q
  let q :=
    if x.target.known then
      let q := x.fills.foldl (fun q r => m8ddOp m fb blk dc .fill r x.target.colour q) q
      x.target.d.foldl (fun q r => m8ddOp m fb blk dc .send (some r) 0 q) q
    else m8ddOp m fb blk dc .send none 0 q
  m8ddFlush m fb blk dc q

end Flip

/-! ## What a flip draws -/

section Spec

variable {m : Fb16Mode} {fb : Bool → Mem Unit} {blk : Mem ConvSeg} {dc : ℕ → Bool} {s : FlipDev}
  {c₀ c₁ : Card}

/-- A coordinate of the screen comes through a word. -/
theorem short_ofInt {x : ℤ} (h0 : 0 ≤ x) (hx : x ≤ 800) : (BitVec.ofInt 16 x).toInt = x := by
  rw [BitVec.toInt_ofInt]
  exact Int.bmod_eq_of_le (by omega) (by omega)

/-- What the batch is once it is flushed. -/
def FlipBatch.pending (m : Fb16Mode) (fb : Bool → Mem Unit) (blk : Mem ConvSeg) (dc : ℕ → Bool)
    (q : FlipBatch) : FlipDev :=
  if dc q.asked then q.bl.foldl (m8Fb16BatchEntry m fb blk) q.dev else q.dev

/-- How many entries came before the next one, in batches of `M8DD_BATCH_MAX`. -/
def FlipBatch.pos (q : FlipBatch) : ℕ := q.asked * M8DD_BATCH_MAX + q.bl.length

/-- Those of a list, from place `i` on, whose batch gets a device context. -/
def landed {α : Type*} (dc : ℕ → Bool) : ℕ → List α → List α
  | _, [] => []
  | i, x :: xs =>
    if dc (i / M8DD_BATCH_MAX) then x :: landed dc (i + 1) xs else landed dc (i + 1) xs

theorem mem_of_landed {α : Type*} {x : α} : ∀ {i : ℕ} {xs : List α}, x ∈ landed dc i xs → x ∈ xs
  | _, [], h => h
  | i, y :: xs, h => by
    rw [landed] at h
    split_ifs at h
    · rcases List.mem_cons.1 h with rfl | h
      · exact List.mem_cons_self
      · exact List.mem_cons_of_mem y (mem_of_landed h)
    · exact List.mem_cons_of_mem y (mem_of_landed h)

/-- All of them, if every call gives one. -/
theorem landed_eq {α : Type*} (hdc : ∀ n, dc n = true) : ∀ (i : ℕ) (xs : List α),
    landed dc i xs = xs
  | _, [] => rfl
  | i, x :: xs => by rw [landed, if_pos (hdc _), landed_eq hdc]

theorem m8ddFlush_dev (q : FlipBatch) :
    (m8ddFlush m fb blk dc q).dev = q.pending m fb blk dc := by
  unfold m8ddFlush FlipBatch.pending
  split_ifs with hempty hdc
  · rw [List.isEmpty_iff.1 hempty]
    rfl
  · rfl
  · rfl
  · rfl

variable (m fb blk dc) in
/-- An entry joins the batch, or the next one if that is full. -/
theorem m8ddOp_room (op : BatchOp) (r : Option Rect) (arg : UInt16) {q : FlipBatch}
    (hroom : q.bl.length ≠ M8DD_BATCH_MAX) :
    (m8ddOp m fb blk dc op r arg q).bl = q.bl ++ [m8ddEntry m op r arg] ∧
      (m8ddOp m fb blk dc op r arg q).dev = q.dev ∧
      (m8ddOp m fb blk dc op r arg q).asked = q.asked := by
  unfold m8ddOp
  dsimp only
  refine ⟨?_, ?_, ?_⟩ <;> rw [if_neg hroom]

variable (m fb blk dc) in
theorem m8ddOp_full (op : BatchOp) (r : Option Rect) (arg : UInt16) {q : FlipBatch}
    (hfull : q.bl.length = M8DD_BATCH_MAX) :
    (m8ddOp m fb blk dc op r arg q).bl = [m8ddEntry m op r arg] ∧
      (m8ddOp m fb blk dc op r arg q).dev = q.pending m fb blk dc ∧
      (m8ddOp m fb blk dc op r arg q).asked = q.asked + 1 := by
  have hsome : ¬ q.bl.isEmpty = true := by
    rw [List.isEmpty_iff_length_eq_zero, hfull]
    decide
  unfold m8ddOp
  dsimp only
  refine ⟨?_, ?_, ?_⟩
  · rw [if_pos hfull, m8ddFlush_bl]
    rfl
  · rw [if_pos hfull, m8ddFlush_dev]
  · rw [if_pos hfull]
    unfold m8ddFlush
    rw [if_neg hsome]

/-- An entry is drawn after those before it, if its batch gets a device context. -/
theorem pending_op (op : BatchOp) (r : Option Rect) (arg : UInt16) (q : FlipBatch) :
    (m8ddOp m fb blk dc op r arg q).pending m fb blk dc =
      if dc (q.pos / M8DD_BATCH_MAX) then
        m8Fb16BatchEntry m fb blk (q.pending m fb blk dc) (m8ddEntry m op r arg)
      else q.pending m fb blk dc := by
  have hfits := q.fits
  have hmax : 0 < M8DD_BATCH_MAX := by decide
  rw [FlipBatch.pending]
  by_cases hfull : q.bl.length = M8DD_BATCH_MAX
  · have hpos : q.pos / M8DD_BATCH_MAX = q.asked + 1 := by
      unfold FlipBatch.pos
      rw [hfull, ← Nat.succ_mul, Nat.mul_div_cancel _ hmax]
    obtain ⟨hbl, hdev, hasked⟩ := m8ddOp_full m fb blk dc op r arg hfull
    rw [hbl, hdev, hasked, hpos]
    rfl
  · have hpos : q.pos / M8DD_BATCH_MAX = q.asked := by
      unfold FlipBatch.pos
      rw [Nat.mul_comm, Nat.mul_add_div hmax, Nat.div_eq_of_lt (by omega), Nat.add_zero]
    obtain ⟨hbl, hdev, hasked⟩ := m8ddOp_room m fb blk dc op r arg hfull
    rw [hbl, hdev, hasked, hpos]
    unfold FlipBatch.pending
    split_ifs
    · rw [List.foldl_append, List.foldl_cons, List.foldl_nil]
    · rfl

theorem pos_op (op : BatchOp) (r : Option Rect) (arg : UInt16) (q : FlipBatch) :
    (m8ddOp m fb blk dc op r arg q).pos = q.pos + 1 := by
  unfold FlipBatch.pos
  by_cases hfull : q.bl.length = M8DD_BATCH_MAX
  · obtain ⟨hbl, -, hasked⟩ := m8ddOp_full m fb blk dc op r arg hfull
    rw [hbl, hasked, hfull, List.length_singleton, Nat.succ_mul]
  · obtain ⟨hbl, -, hasked⟩ := m8ddOp_room m fb blk dc op r arg hfull
    rw [hbl, hasked, List.length_append, List.length_singleton, Nat.add_assoc]

variable (m fb blk dc) in
theorem pending_foldl {α : Type*} (op : BatchOp) (r : α → Option Rect) (arg : UInt16) :
    ∀ (rs : List α) (q : FlipBatch),
      (rs.foldl (fun q x => m8ddOp m fb blk dc op (r x) arg q) q).pending m fb blk dc =
          (landed dc q.pos rs).foldl
            (fun s x => m8Fb16BatchEntry m fb blk s (m8ddEntry m op (r x) arg))
            (q.pending m fb blk dc) ∧
        (rs.foldl (fun q x => m8ddOp m fb blk dc op (r x) arg q) q).pos = q.pos + rs.length
  | [], _ => ⟨rfl, rfl⟩
  | x :: rs, q => by
    obtain ⟨hpending, hpos⟩ := pending_foldl op r arg rs (m8ddOp m fb blk dc op (r x) arg q)
    rw [pos_op, pending_op] at hpending
    rw [pos_op] at hpos
    refine ⟨?_, ?_⟩
    · rw [List.foldl_cons, hpending, landed]
      split_ifs <;> rfl
    · rw [List.foldl_cons, hpos, List.length_cons]
      omega

theorem screen_onScreen (m : Fb16Mode) : (entryRect m none).OnScreen m := by
  unfold entryRect Rect.OnScreen Rect.Upright
  rw [Option.getD_none]
  dsimp only
  omega

/-- An entry for a rectangle on the screen has the rectangle. -/
theorem entry_edges (op : BatchOp) {r : Option Rect} (c : UInt16) (h : (entryRect m r).OnScreen m) :
    (m8ddEntry m op r c).l.toInt = (entryRect m r).left ∧
      (m8ddEntry m op r c).t.toInt = (entryRect m r).top ∧
      (m8ddEntry m op r c).r.toInt = (entryRect m r).right ∧
      (m8ddEntry m op r c).b.toInt = (entryRect m r).bottom := by
  have hm := m.ok
  unfold Rect.OnScreen Rect.Upright at h
  exact ⟨short_ofInt (by omega) (by omega), short_ofInt (by omega) (by omega),
    short_ofInt (by omega) (by omega), short_ofInt (by omega) (by omega)⟩

/-- A fill draws the dither of its colour on its rectangle. -/
theorem fillEntry_painted (fb : Bool → Mem Unit) (blk : Mem ConvSeg) (c₀ : Card) {D : Pixel → Prop}
    {c : UInt16} {r : Option Rect}
    (hr : (entryRect m r).OnScreen m)
    (hp : Painted D (dither m8Fb16Tables c) c₁ (applyAll s.dev.ops c₀)) :
    Painted (fun p => D p ∨ p ∈ entryRect m r) (dither m8Fb16Tables c) c₁
        (applyAll (m8Fb16BatchEntry m fb blk s (m8ddEntry m .fill r c)).dev.ops c₀) ∧
      (m8Fb16BatchEntry m fb blk s (m8ddEntry m .fill r c)).sel = s.sel := by
  have hedges := entry_edges .fill c hr
  unfold Rect.OnScreen Rect.Upright at hr
  unfold m8Fb16BatchEntry
  rw [hedges.1, hedges.2.1, hedges.2.2.1, hedges.2.2.2, if_neg (by omega), if_neg (by omega),
      if_neg (by omega), if_neg (by omega)]
  dsimp only [m8ddEntry]
  generalize entryRect m r = q at *
  by_cases hin : q.right > q.left ∧ q.bottom > q.top
  · rw [if_pos hin]
    refine ⟨?_, rfl⟩
    refine (Fb16Dev.solid_painted m8Fb16Tables_fits (by omega) (by omega) (fun _ _ => rfl) hp).congr
      fun p => or_congr_right ?_
    rw [Rect.mem_iff, Rect.mem_iff]
    dsimp only
    omega
  · rw [if_neg hin]
    refine ⟨hp.congr fun p => or_iff_left fun hmem => ?_, rfl⟩
    rw [Rect.mem_iff] at hmem
    omega

theorem fills_painted (fb : Bool → Mem Unit) (blk : Mem ConvSeg) (c₀ : Card) {c : UInt16} :
    ∀ (rs : List (Option Rect)) {s : FlipDev} {D : Pixel → Prop},
    (∀ r ∈ rs, (entryRect m r).OnScreen m) →
      Painted D (dither m8Fb16Tables c) c₁ (applyAll s.dev.ops c₀) →
      let s' := rs.foldl (fun s r => m8Fb16BatchEntry m fb blk s (m8ddEntry m .fill r c)) s
      Painted (fun p => D p ∨ ∃ r ∈ rs, p ∈ entryRect m r) (dither m8Fb16Tables c) c₁
        (applyAll s'.dev.ops c₀) ∧ s'.sel = s.sel
  | [], s, D, _, hp => ⟨hp.congr fun p => by simp, rfl⟩
  | r :: rs, s, D, hrs, hp => by
    obtain ⟨hfirst, hsel⟩ := fillEntry_painted fb blk c₀ (hrs r List.mem_cons_self) hp
    obtain ⟨hrest, hsel'⟩ := fills_painted fb blk c₀ rs
        (fun q hq => hrs q (List.mem_cons_of_mem r hq)) hfirst
    refine ⟨hrest.congr fun p => ?_, hsel'.trans hsel⟩
    simp only [List.exists_mem_cons_iff, or_assoc]

/-- What the sends of rectangles draw, one after another : each sees the fingerprints that those
before it leave. -/
def SentBy (m : Fb16Mode) (fb : Bool → Mem Unit) (blk : Mem ConvSeg) :
    List Rect → FlipDev → Pixel → Prop
  | [], _, _ => False
  | r :: rs, s, p => FlushSet m (fb s.sel) s.dev.hash r p ∨
    SentBy m fb blk rs (m8Fb16BatchEntry m fb blk s (m8ddEntry m .send (some r) 0)) p

/-- A send draws RAM's dither. -/
theorem sendEntry_painted (blk : Mem ConvSeg) (c₀ : Card) {D : Pixel → Prop} {r : Rect}
    (hr : r.OnScreen m)
    (hp : Painted D (ramDither m8Fb16Tables m (fb s.sel)) c₁ (applyAll s.dev.ops c₀)) :
    Painted (fun p => D p ∨ FlushSet m (fb s.sel) s.dev.hash r p)
        (ramDither m8Fb16Tables m (fb s.sel)) c₁
        (applyAll (m8Fb16BatchEntry m fb blk s (m8ddEntry m .send (some r) 0)).dev.ops c₀) ∧
      (m8Fb16BatchEntry m fb blk s (m8ddEntry m .send (some r) 0)).sel = s.sel := by
  have hon : (entryRect m (some r)).OnScreen m := hr
  have hedges := entry_edges .send 0 hon
  unfold Rect.OnScreen Rect.Upright at hon
  unfold m8Fb16BatchEntry
  rw [hedges.1, hedges.2.1, hedges.2.2.1, hedges.2.2.2, if_neg (by omega), if_neg (by omega),
    if_neg (by omega), if_neg (by omega)]
  exact ⟨m8Fb16Flush_painted m8Fb16Tables_fits blk r hp, rfl⟩

theorem sends_painted (blk : Mem ConvSeg) (c₀ : Card) : ∀ (rs : List Rect) {s : FlipDev}
    {D : Pixel → Prop},
    (∀ r ∈ rs, r.OnScreen m) →
      Painted D (ramDither m8Fb16Tables m (fb s.sel)) c₁ (applyAll s.dev.ops c₀) →
      let s' := rs.foldl (fun s r => m8Fb16BatchEntry m fb blk s (m8ddEntry m .send (some r) 0)) s
      Painted (fun p => D p ∨ SentBy m fb blk rs s p) (ramDither m8Fb16Tables m (fb s.sel)) c₁
        (applyAll s'.dev.ops c₀)
  | [], s, D, _, hp => hp.congr fun p => by simp [SentBy]
  | r :: rs, s, D, hrs, hp => by
    obtain ⟨hfirst, hsel⟩ := sendEntry_painted blk c₀ (hrs r List.mem_cons_self) hp
    rw [← hsel] at hfirst
    have hrest := sends_painted blk c₀ rs (fun q hq => hrs q (List.mem_cons_of_mem r hq)) hfirst
    rw [hsel] at hrest
    refine hrest.congr fun p => ?_
    simp only [SentBy, or_assoc]

/-! ### The whole flip -/

variable {x : M8ddFlip m} {q : FlipBatch} {p : Pixel}

namespace M8ddFlip

variable (x : M8ddFlip m) (fb : Bool → Mem Unit) (blk : Mem ConvSeg) (dc : ℕ → Bool)
  (q : FlipBatch)

/-- With the buffer shown, before the fills. -/
def opened : FlipDev := (x.opening fb blk dc q).pending m fb blk dc

/-- The fills that reach the driver. -/
def fillsLanded : List (Option Rect) := landed dc (x.opening fb blk dc q).pos x.fills

/-- The sends that reach it. -/
def sendsLanded : List Rect :=
  landed dc ((x.opening fb blk dc q).pos + x.fills.length) x.target.d

/-- Between the fills and the sends. -/
def filled : FlipDev :=
  (x.fillsLanded fb blk dc q).foldl
    (fun s r => m8Fb16BatchEntry m fb blk s (m8ddEntry m .fill r x.target.colour))
    (x.opened fb blk dc q)

/-- The card after a flip. -/
def shows (c₀ : Card) : Card :=
  x.tris.draw (applyAll (m8ddFlip16Batch fb blk dc x q).dev.dev.ops c₀)

end M8ddFlip

theorem flip16_drawn (hknown : x.target.known = true) :
    (m8ddFlip16Batch fb blk dc x q).dev = (x.sendsLanded fb blk dc q).foldl
      (fun s r => m8Fb16BatchEntry m fb blk s (m8ddEntry m .send (some r) 0))
          (x.filled fb blk dc q) := by
  unfold m8ddFlip16Batch
  dsimp only
  rw [if_pos hknown, m8ddFlush_dev]
  obtain ⟨hfills, hpos⟩ := pending_foldl m fb blk dc .fill id x.target.colour x.fills
    (x.opening fb blk dc q)
  obtain ⟨hsends, -⟩ := pending_foldl m fb blk dc .send some 0 x.target.d
    (x.fills.foldl (fun q r => m8ddOp m fb blk dc .fill r x.target.colour q)
      (x.opening fb blk dc q))
  simp only [id] at hfills hpos
  rw [hfills, hpos] at hsends
  exact hsends

theorem old_onScreen : ∀ o ∈ x.old, o.OnScreen m := fun o ho => by
  rcases List.mem_append.1 ho with ho | ho
  · exact x.card_on o ho
  · obtain ⟨t, ht, rfl⟩ := List.mem_map.1 ho
    obtain ⟨h0, h1, h2⟩ := x.boxes_on t ht
    exact noteBox_onScreen h0 h1 h2

theorem fills_onScreen : ∀ r ∈ x.fills, (entryRect m r).OnScreen m := fun r hr => by
  unfold M8ddFlip.fills at hr
  split_ifs at hr
  · obtain ⟨q, hq, rfl⟩ := List.mem_map.1 hr
    obtain ⟨o, ho, hq⟩ := List.mem_flatMap.1 hq
    exact m8ddFillOutside_onScreen x.target_on (old_onScreen o ho) q hq
  · obtain rfl := List.mem_singleton.1 hr
    exact screen_onScreen m

/-- A pixel of an old box outside the target's rectangles is filled. -/
theorem mem_fills (hold : ∃ o ∈ x.old, p ∈ o) (hout : OutsideAll x.target.d p) :
    ∃ r ∈ x.fills, p ∈ entryRect m r := by
  obtain ⟨o, ho, hp⟩ := hold
  unfold M8ddFlip.fills
  split_ifs
  · have hcount := m8ddFillOutside_count p x.target.d o fun n hn => (x.target_on n hn).1
    rw [if_pos ⟨hp, hout⟩] at hcount
    obtain ⟨r, hr, hmem⟩ := List.countP_pos_iff.1 (Nat.lt_of_lt_of_eq Nat.one_pos hcount.symm)
    exact ⟨some r, List.mem_map.2 ⟨r, List.mem_flatMap.2 ⟨o, ho, hr⟩, rfl⟩, of_decide_eq_true hmem⟩
  · refine ⟨none, List.mem_singleton_self none, ?_⟩
    have hon := old_onScreen o ho
    unfold Rect.OnScreen at hon
    rw [Rect.mem_iff] at hp
    change p ∈ Rect.mk 0 0 m.scrX m.scrY
    rw [Rect.mem_iff]
    dsimp only
    omega

/-- A pixel of an old box that the new frame does not draw. -/
def M8ddFlip.Undrawn (x : M8ddFlip m) (p : Pixel) : Prop :=
  (∃ o ∈ x.old, p ∈ o) ∧ OutsideAll x.target.d p ∧ ¬ x.tris.on p

/-- There the card shows RAM, if a send that reached the driver took the pixel along, else the
colour, if a fill of it did, and else what it showed before the fills. -/
theorem flip16_card (hknown : x.target.known = true) (hp : x.Undrawn p) (c₀ : Card) :
    (SentBy m fb blk (x.sendsLanded fb blk dc q) (x.filled fb blk dc q) p →
        x.shows fb blk dc q c₀ p =
          ramDither m8Fb16Tables m (fb (x.opened fb blk dc q).sel) p) ∧
      (¬ SentBy m fb blk (x.sendsLanded fb blk dc q) (x.filled fb blk dc q) p →
        ((∃ r ∈ x.fillsLanded fb blk dc q, p ∈ entryRect m r) →
          x.shows fb blk dc q c₀ p = dither m8Fb16Tables x.target.colour p) ∧
        ((∀ r ∈ x.fillsLanded fb blk dc q, p ∉ entryRect m r) →
          x.shows fb blk dc q c₀ p = applyAll (x.opened fb blk dc q).dev.ops c₀ p)) := by
  obtain ⟨hold, hout, htris⟩ := hp
  obtain ⟨hfills, hsel⟩ := fills_painted fb blk c₀ (c := x.target.colour)
    (x.fillsLanded fb blk dc q) (s := x.opened fb blk dc q)
    (fun r hr => fills_onScreen r (mem_of_landed hr)) (Painted.start _ _)
  have hsends := sends_painted blk c₀ (x.sendsLanded fb blk dc q) (s := x.filled fb blk dc q)
    (fun r hr => x.target_on r (mem_of_landed hr))
    (Painted.start (ramDither m8Fb16Tables m (fb (x.filled fb blk dc q).sel)) _)
  rw [show (x.filled fb blk dc q).sel = (x.opened fb blk dc q).sel from hsel] at hsends
  unfold M8ddFlip.shows
  rw [x.tris.keeps _ _ htris, flip16_drawn hknown]
  refine ⟨fun hsent => (hsends p).1 (.inr hsent), fun hsent => ?_⟩
  have hkept := (hsends p).2 fun hor => hor.elim False.elim hsent
  refine ⟨fun hfill => hkept.trans ((hfills p).1 (.inr hfill)), fun hnone => ?_⟩
  refine hkept.trans ((hfills p).2 fun hor => ?_)
  rcases hor with h | ⟨r, hr, hmem⟩
  · exact h
  · exact hnone r hr hmem

/-- What is sent outside a rectangle is beside an odd edge. -/
theorem flushSet_beside {m : Fb16Mode} {fb : Mem Unit} {hash : Fb16Hash} {r : Rect} {p : Pixel}
    (hr : r.OnScreen m) (h : FlushSet m fb hash r p) (hout : p ∉ r) :
    p.1 + 1 = r.left ∧ ¬ 2 ∣ r.left ∨ p.1 = r.right ∧ ¬ 2 ∣ r.right := by
  have hm := m.ok
  unfold Rect.OnScreen Rect.Upright at hr
  rw [Rect.mem_iff] at hout
  obtain ⟨hlr, htb, hset⟩ := h
  split at hset
  · rw [Rect.mem_iff] at hset
    dsimp only at hset
    omega
  · have hmem := hset.mem
    rw [Rect.mem_iff] at hmem
    dsimp only at hmem
    omega

/-- With even edges nothing is sent outside the rectangles. -/
theorem not_sentBy_of_even : ∀ {rs : List Rect} {s : FlipDev} {p : Pixel},
    (∀ r ∈ rs, r.OnScreen m ∧ 2 ∣ r.left ∧ 2 ∣ r.right) → OutsideAll rs p → ¬ SentBy m fb blk rs s p
  | [], _, _, _, _, h => h
  | r :: rs, s, p, heven, hout, h => by
    obtain ⟨hr, hrest⟩ := outsideAll_cons.1 hout
    obtain ⟨hon, hl, hr2⟩ := heven r List.mem_cons_self
    rcases h with h | h
    · rcases flushSet_beside hon h hr with ⟨-, hodd⟩ | ⟨-, hodd⟩
      · exact hodd hl
      · exact hodd hr2
    · exact not_sentBy_of_even (fun q hq => heven q (List.mem_cons_of_mem r hq)) hrest h

/-! ### The difference, and the card -/

/-- `m8dd_fill_outside` fills each pixel of the difference once, and no other. -/
def FillsDifference : Prop :=
  ∀ (o : Rect) (rects : List Rect), (∀ n ∈ rects, n.Upright) → ∀ p,
    fillCount p (m8ddFillOutside o rects) = if p ∈ o ∧ OutsideAll rects p then 1 else 0

/-- After a flip to a described buffer what the new frame does not draw is its colour. -/
def M8ddFlip.Erases (x : M8ddFlip m) (fb : Bool → Mem Unit) (blk : Mem ConvSeg) (dc : ℕ → Bool)
    (q : FlipBatch) (c₀ : Card) : Prop :=
  x.target.known = true → ∀ p, x.Undrawn p →
    x.shows fb blk dc q c₀ p = dither m8Fb16Tables x.target.colour p

/-- What a send takes along past an odd edge of its rectangle is in RAM as the colour. -/
def M8ddFlip.EdgesHold (x : M8ddFlip m) (fb : Bool → Mem Unit) (blk : Mem ConvSeg) (dc : ℕ → Bool)
    (q : FlipBatch) : Prop :=
  x.target.known = true → ∀ p, x.Undrawn p →
    SentBy m fb blk (x.sendsLanded fb blk dc q) (x.filled fb blk dc q) p →
    ramDither m8Fb16Tables m (fb (x.opened fb blk dc q).sel) p =
      dither m8Fb16Tables x.target.colour p

/-- A fill of each pixel is in a batch that got a device context, if no send takes it along and the
card did not show the colour there anyway. -/
def M8ddFlip.FillsLand (x : M8ddFlip m) (fb : Bool → Mem Unit) (blk : Mem ConvSeg) (dc : ℕ → Bool)
    (q : FlipBatch) (c₀ : Card) : Prop :=
  x.target.known = true → ∀ p, x.Undrawn p →
    ¬ SentBy m fb blk (x.sendsLanded fb blk dc q) (x.filled fb blk dc q) p →
    applyAll (x.opened fb blk dc q).dev.ops c₀ p ≠ dither m8Fb16Tables x.target.colour p →
    ∃ r ∈ x.fillsLanded fb blk dc q, p ∈ entryRect m r

/-- If every call gives a device context all fills are drawn. -/
theorem fillsLand_of_dc (hdc : ∀ n, dc n = true) : x.FillsLand fb blk dc q c₀ :=
  fun _ p hp _ _ => by
    unfold M8ddFlip.fillsLanded
    rw [landed_eq hdc]
    exact mem_fills hp.1 hp.2.1

/-- With even edges nothing is sent outside the rectangles. -/
theorem edgesHold_of_even (heven : ∀ r ∈ x.target.d, 2 ∣ r.left ∧ 2 ∣ r.right) :
    x.EdgesHold fb blk dc q := fun _ p hp hsent => by
  refine absurd hsent (not_sentBy_of_even (fun r hr => ?_) fun r hr => ?_)
  · exact ⟨x.target_on r (mem_of_landed hr), heven r (mem_of_landed hr)⟩
  · exact hp.2.1 r (mem_of_landed hr)

/-- For every box and every list of upright rectangles the difference is filled once; and in
every flip, whatever waits in the batch and whichever calls of `GetDC` give one, the old boxes that
the new frame does not draw are the colour just when RAM is that colour where a send goes past an
odd edge, and the other pixels are in fills that reach the driver. That is so where every call
gives one, but for the odd edges. -/
theorem m8dd_fill_outside_flip (x : M8ddFlip m) (fb : Bool → Mem Unit) (blk : Mem ConvSeg)
    (dc : ℕ → Bool) (q : FlipBatch) (c₀ : Card) :
    (FillsDifference ∧ x.Erases fb blk dc q c₀ ↔
        x.EdgesHold fb blk dc q ∧ x.FillsLand fb blk dc q c₀) ∧
      ((∀ n, dc n = true) → x.FillsLand fb blk dc q c₀) ∧
      ((∀ r ∈ x.target.d, 2 ∣ r.left ∧ 2 ∣ r.right) → x.EdgesHold fb blk dc q) := by
  refine ⟨?_, fillsLand_of_dc, edgesHold_of_even⟩
  have hdiff : FillsDifference := fun o rects hup p => m8ddFillOutside_count p rects o hup
  refine (and_iff_right hdiff).trans
    ⟨fun h => ⟨fun hknown p hp hsent => ?_, fun hknown p hp hsent hother => ?_⟩,
      fun h hknown p hp => ?_⟩
  · rw [← h hknown p hp]
    exact ((flip16_card hknown hp c₀).1 hsent).symm
  · by_contra hnone
    push Not at hnone
    refine hother ?_
    rw [← h hknown p hp]
    exact (((flip16_card hknown hp c₀).2 hsent).2 hnone).symm
  · by_cases hsent : SentBy m fb blk (x.sendsLanded fb blk dc q) (x.filled fb blk dc q) p
    · rw [(flip16_card hknown hp c₀).1 hsent]
      exact h.1 hknown p hp hsent
    · obtain ⟨hfill, hnone⟩ := (flip16_card hknown hp c₀).2 hsent
      by_cases hlanded : ∃ r ∈ x.fillsLanded fb blk dc q, p ∈ entryRect m r
      · exact hfill hlanded
      · rw [hnone fun r hr hmem => hlanded ⟨r, hr, hmem⟩]
        by_contra hother
        exact hlanded (h.2 hknown p hp hsent hother)

/-- A buffer cleared to black, with white in RAM from before. -/
def clearedBuffer : Buffer := ⟨fun _ => 0xFFFF, ⟨true, false, 0, []⟩, []⟩

/-- A black card with an old box of two pixels, and a black buffer whose one rectangle is the
second. -/
def oddFlip : M8ddFlip ⟨640, 480, .inl ⟨rfl, rfl⟩⟩ where
  card := ⟨true, true, 0, [⟨0, 0, 2, 1⟩]⟩
  boxes := []
  target := (m8ddDirty ⟨1, 0, 2, 1⟩ clearedBuffer).desc
  k := true
  tris := ⟨fun _ => False, id, fun _ _ _ => rfl⟩
  stale := false
  card_on := by unfold Rect.OnScreen Rect.Upright; decide
  boxes_on := by simp
  target_on := m8ddDirty_onScreen (fun r hr => absurd hr List.not_mem_nil)
    (by unfold Rect.OnScreen Rect.Upright; decide)

/-- White in RAM, where the description has black. -/
def whiteRam : Bool → Mem Unit := fun _ _ _ => 0xFF

/-- The send of the second pixel takes the first along. -/
theorem not_m8dd_fill_outside_flip :
    ¬ ∀ (q : FlipBatch) (blk : Mem ConvSeg) (c₀ : Card),
      FillsDifference ∧ oddFlip.Erases whiteRam blk (fun _ => true) q c₀ := by
  intro h
  let q : FlipBatch := ⟨[], ⟨false, ⟨⟨none, m8Fb16Tables.cv 0, fun _ h => by simp at h⟩, fun _ => 0,
    none⟩, fun _ _ => 0, []⟩, 0, Nat.zero_le _⟩
  have hp : oddFlip.Undrawn (0, 0) := by
    refine ⟨⟨⟨0, 0, 2, 1⟩, List.mem_append_left _ List.mem_cons_self, by decide⟩, ?_, id⟩
    unfold OutsideAll
    decide
  have herased := (h q (fun _ _ => 0) fun _ => 0).2 rfl (0, 0) hp
  have hlanded : oddFlip.sendsLanded whiteRam (fun _ _ => 0) (fun _ => true) q =
      [⟨1, 0, 2, 1⟩] := landed_eq (fun _ => rfl) _ _
  have hsent : SentBy ⟨640, 480, .inl ⟨rfl, rfl⟩⟩ whiteRam (fun _ _ => 0)
      (oddFlip.sendsLanded whiteRam (fun _ _ => 0) (fun _ => true) q)
      (oddFlip.filled whiteRam (fun _ _ => 0) (fun _ => true) q) (0, 0) := by
    rw [hlanded]
    refine .inl ⟨by decide, by decide, ?_⟩
    rw [if_neg (by decide)]
    refine ⟨by decide, by decide, ?_⟩
    cases (oddFlip.filled whiteRam (fun _ _ => 0) (fun _ => true) q).dev.hash with
    | none => decide
    | some hash =>
      dsimp only
      rw [if_pos (by decide)]
      decide
  rw [(flip16_card rfl hp _).1 hsent] at herased
  exact absurd herased (by decide +kernel)

end Spec

end Inboard
