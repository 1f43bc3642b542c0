import Inboard.Fb16Solid

/-!
# RAM to the card

`m8_fb16_send` puts a rectangle of the frame buffer on the card, dithered, in bands of whole
rows; `m8_fb16_flush` takes a rectangle of one colour to `m8_fb16_solid` instead. A host word
is two pixels, so a send goes from an even column to an even column, and of a large send only
the span of pieces whose fingerprint has changed goes, row by row (`m8_fb16_changed`).

So what a send draws is RAM's dither (`ramDither`), on the pixels of `SendSet` : of a small send
the rectangle out to even columns, of a large one what lies between changed pieces.
-/

set_option linter.unusedSectionVars false

namespace Inboard

/-! ## RAM -/

/-- The pixel at column `x` of row `y`, `M8_FB16_PITCH` bytes a row. -/
def ramWord (m : Fb16Mode) (fb : Mem Unit) (y x : ℕ) : UInt16 :=
  let a := y * (m.scrX * 2) + x * 2
  UInt16.ofNat ((fb () a).toNat + 256 * (fb () (a + 1)).toNat)

/-- What the card shows of RAM. -/
def ramDither (T : Fb16Tables) (m : Fb16Mode) (fb : Mem Unit) : Card := fun p =>
  T.ref p.2.toNat p.1.toNat (ramWord m fb p.2.toNat p.1.toNat)

/-- What fb16.c keeps, `m8_fb16_band`, and the calls so far. -/
structure Fb16Dev (T : Fb16Tables) extends Fb16State T where
  band : Mem ConvSeg
  ops : List CardOp

section Send

variable {T : Fb16Tables} (m : Fb16Mode) (fb : Mem Unit)

/-- A call. -/
def Fb16Dev.call (op : CardOp) (s : Fb16Dev T) : Fb16Dev T := { s with ops := s.ops ++ [op] }

/-- `m8_fb16_row` into the band, from byte `di`. -/
def m8Fb16Row (di y l r : ℕ) (s : Fb16Dev T) : Fb16Dev T :=
  if r ≤ l then s
  else
    let src := fun i => if i < r - l then ramWord m fb y (l + i) else s.src i
    let c := m8Fb16Conv s.cv src y l (r - l) di s.band
    { s with cv := c.1, src := src, band := c.2 }

/-- `M8_FB16_HASH_MIN`. -/
def M8_FB16_HASH_MIN : ℕ := 1024

/-- The bytes of `m8_fb16_band`. -/
def M8_FB16_BAND : ℕ := 4096

/-! ### A send of all of it -/

/-- Rows `y` on, as many as a band has. -/
def bandRows (l r y n : ℕ) (s : Fb16Dev T) : Fb16Dev T :=
  (List.range n).foldl (fun s k => m8Fb16Row m fb (k * (r - l)) (y + k) l r s) s

/-- The bands of a send of all of it. At most 800 columns, so that a band has rows. -/
def sendWhole (l t r b : ℕ) (s : Fb16Dev T) : Fb16Dev T :=
  (strips (M8_FB16_BAND / (r - l)) b t).foldl (fun s c =>
    let s := bandRows m fb l r c.1 c.2 s
    s.call (.write l c.1 (r - l : ℕ) c.2 (s.band .dst) (r - l))) s

/-! ### A send of what has changed -/

/-- `m8_fb16_changed` : the span of row `y` that changed, and the fingerprints. -/
def m8Fb16Changed (hash : ℕ → UInt32) (y l r : ℕ) : Option (ℕ × ℕ) × (ℕ → UInt32) :=
  let s0 := l / M8_FB16_SEG_W
  let s1 := (r - 1) / M8_FB16_SEG_W
  let rd := m8Fb16RowDiff fb (y * (m.scrX * 2) + s0 * (M8_FB16_SEG_W * 2))
    (y * M8_FB16_NSEG + s0) (s1 - s0 + 1) 0 hash
  if rd.first < 0 then (none, rd.table)
  else
    let cl := (s0 + rd.first.toNat) * M8_FB16_SEG_W
    let cr := (s0 + rd.last.toNat + 1) * M8_FB16_SEG_W
    (some (if l < cl then cl else l, if cr < r then cr else r), rd.table)

/-- `bl`, `br`, `by` and `bn` : the rows that wait in the band. -/
structure Waiting where
  bl : ℕ
  br : ℕ
  y : ℕ
  bn : ℕ

/-- The waiting rows written. -/
def writeWaiting (s : Fb16Dev T) (g : Waiting) : Fb16Dev T :=
  s.call (.write g.bl g.y (g.br - g.bl : ℕ) g.bn (s.band .dst) (g.br - g.bl))

/-- They are written before a row of another span, or when the band is full. -/
def makeRoom (cl cr : ℕ) (sg : Fb16Dev T × Waiting) : Fb16Dev T × Waiting :=
  let g := sg.2
  if 0 < g.bn ∧ (cl ≠ g.bl ∨ cr ≠ g.br ∨ M8_FB16_BAND < (g.bn + 1) * (g.br - g.bl)) then
    (writeWaiting sg.1 g, { g with bn := 0 })
  else sg

/-- Row `y` waits, if it has a span. -/
def takeRow (cl cr y : ℕ) (sg : Fb16Dev T × Waiting) : Fb16Dev T × Waiting :=
  if cr ≤ cl then sg
  else
    let g : Waiting := if sg.2.bn = 0 then ⟨cl, cr, y, 0⟩ else sg.2
    (m8Fb16Row m fb (g.bn * (g.br - g.bl)) y g.bl g.br sg.1, { g with bn := g.bn + 1 })

/-- The even columns around a span, none if nothing changed. -/
def evenSpan : Option (ℕ × ℕ) → ℕ × ℕ
  | none => (0, 0)
  | some c => (c.1 / 2 * 2, (c.2 + 1) / 2 * 2)

/-- Row `y` of a send of what has changed, beside the fingerprints. -/
def sendRow (l r : ℕ) (sg : (ℕ → UInt32) × Fb16Dev T × Waiting) (y : ℕ) :
    (ℕ → UInt32) × Fb16Dev T × Waiting :=
  let ch := m8Fb16Changed m fb sg.1 y l r
  let c := evenSpan ch.1
  (ch.2, takeRow m fb c.1 c.2 y (makeRoom c.1 c.2 sg.2))

/-- A send of what has changed. -/
def sendChanged (l t r b : ℕ) (hash : ℕ → UInt32) (s : Fb16Dev T) : Fb16Dev T :=
  let sg := (List.range' t (b - t)).foldl (sendRow m fb l r) (hash, s, ⟨0, 0, 0, 0⟩)
  let s := if 0 < sg.2.2.bn then writeWaiting sg.2.1 sg.2.2 else sg.2.1
  { s with hash := some sg.1 }

/-! ### Either -/

/-- `m8_fb16_send`, with `m8_fb16_whole`. -/
def m8Fb16Send (whole : Bool) (l t r b : ℤ) (s : Fb16Dev T) : Fb16Dev T :=
  let l := (max l 0).toNat / 2 * 2
  let t := (max t 0).toNat
  let r := ((min r m.scrX).toNat + 1) / 2 * 2
  let b := (min b m.scrY).toNat
  if r ≤ l ∨ b ≤ t then s
  else
    let whole := whole || (r - l) * (b - t) < M8_FB16_HASH_MIN
    match s.hash with
    | none => sendWhole m fb l t r b s
    | some hash =>
      if whole then sendWhole m fb l t r b { s with hash := some (m8Fb16Forget m l t r b hash) }
      else sendChanged m fb l t r b hash s

/-- `M8_FB16_SOLID_MIN`. -/
def M8_FB16_SOLID_MIN : ℕ := 64

/-- `m8_fb16_uniform`. -/
def m8Fb16Uniform (l t r b : ℕ) : Option UInt16 :=
  let v := ramWord m fb t l
  if (List.range' t (b - t)).all fun y => (List.range' l (r - l)).all fun x =>
    ramWord m fb y x == v then some v else none

/-- `m8_fb16_solid`, with what its block holds before. -/
def Fb16Dev.solid (blk : Mem ConvSeg) (l t r b : ℕ) (c : UInt16) (s : Fb16Dev T) : Fb16Dev T :=
  let left := m8Fb16Solid m l t r b c blk s.toFb16State
  { left.2 with band := s.band, ops := s.ops ++ left.1 }

/-- `m8_fb16_flush`. -/
def m8Fb16Flush (blk : Mem ConvSeg) (d : Rect) (s : Fb16Dev T) : Fb16Dev T :=
  let l := (max d.left 0).toNat
  let t := (max d.top 0).toNat
  let r := (min d.right m.scrX).toNat
  let b := (min d.bottom m.scrY).toNat
  if r ≤ l ∨ b ≤ t then s
  else
    match if M8_FB16_SOLID_MIN ≤ (r - l) * (b - t) then m8Fb16Uniform m fb l t r b else none with
    | some c => s.solid m blk l t r b c
    | none => m8Fb16Send m fb false l t r b s

/-- `m8_fb16_send_rect` : 2 sends what `solid` 0 flushes as it is, and 1 is one colour. -/
def m8Fb16SendRect (blk : Mem ConvSeg) (l t r b : ℤ) (solid : UInt16) (s : Fb16Dev T) : Fb16Dev T :=
  if solid = 2 then m8Fb16Send m fb true l t r b s
  else if solid ≠ 0 then
    let l := (max l 0).toNat
    let t := (max t 0).toNat
    let r := (min r m.scrX).toNat
    let b := (min b m.scrY).toNat
    if l < r ∧ t < b then s.solid m blk l t r b (ramWord m fb t l) else s
  else m8Fb16Flush m fb blk ⟨l, t, r, b⟩ s

end Send

/-! ## What a send of all of it draws -/

section Spec

variable {T : Fb16Tables} {m : Fb16Mode} {fb : Mem Unit} {s : Fb16Dev T}
  {D : Pixel → Prop} {c₀ c₁ : Card}

@[simp] theorem m8Fb16Row_ops (di y l r : ℕ) (s : Fb16Dev T) :
    (m8Fb16Row m fb di y l r s).ops = s.ops := by
  unfold m8Fb16Row
  split_ifs <;> rfl

@[simp] theorem m8Fb16Row_hash (di y l r : ℕ) (s : Fb16Dev T) :
    (m8Fb16Row m fb di y l r s).hash = s.hash := by
  unfold m8Fb16Row
  split_ifs <;> rfl

/-- `n` rows of `w` pixels from (l, y) are in the band. -/
def BandHolds (f : Card) (band : ℕ → UInt8) (l w y n : ℕ) : Prop :=
  ∀ k < n, ∀ i < w, band (k * w + i) = f ((l + i : ℕ), (y + k : ℕ))

theorem BandHolds.row (hT : T.Fits) {l r y n : ℕ} (hlr : l < r)
    (h : BandHolds (ramDither T m fb) (s.band .dst) l (r - l) y n) :
    BandHolds (ramDither T m fb) ((m8Fb16Row m fb (n * (r - l)) (y + n) l r s).band .dst) l
        (r - l) y
      (n + 1) := by
  have hband : (m8Fb16Row m fb (n * (r - l)) (y + n) l r s).band .dst =
      (s.band.fill .dst (n * (r - l)) (r - l) fun i =>
        ramDither T m fb ((l + i : ℕ), (y + n : ℕ))) .dst := by
    unfold m8Fb16Row
    rw [if_neg (by omega)]
    refine (m8Fb16Conv_fill hT _ _ (y + n) l (by omega) _ _).trans ?_
    rw [Mem.fill_congr]
    intro i hi
    rw [if_pos hi]
    rfl
  intro k hk i hi
  rw [hband]
  rcases Nat.eq_or_lt_of_le (Nat.le_of_lt_succ hk) with rfl | hlt
  · rw [Mem.fill_apply_add _ _ hi]
  · have hmul : (k + 1) * (r - l) ≤ n * (r - l) := Nat.mul_le_mul_right _ hlt
    rw [Nat.succ_mul] at hmul
    rw [Mem.fill_apply_of_lt _ _ _ (by omega)]
    exact h k hlt i hi

/-- Rows in the band are what a write of them draws. -/
theorem Painted.writeBand {f : Card} {c : Card} {band : ℕ → UInt8} {l w y n : ℕ}
    (hp : Painted D f c₀ c) (hw : 2 ∣ w) (hband : BandHolds f band l w y n) :
    Painted (fun p => D p ∨ p ∈ Rect.at l y w n) f c₀ ((CardOp.write l y w n band w).apply c) := by
  refine hp.write band w (by omega) fun p hr => ?_
  rw [Rect.mem_at] at hr
  rw [hband _ (by omega) _ (by omega)]
  congr 1
  refine Prod.ext ?_ ?_ <;> dsimp only <;> omega

theorem bandRows_holds (hT : T.Fits) (m : Fb16Mode) (fb : Mem Unit) {l r y : ℕ} (hlr : l < r) :
    ∀ n : ℕ,
    BandHolds (ramDither T m fb) ((bandRows m fb l r y n s).band .dst) l (r - l) y n ∧
      (bandRows m fb l r y n s).ops = s.ops ∧ (bandRows m fb l r y n s).hash = s.hash
  | 0 => ⟨fun k hk => absurd hk (Nat.not_lt_zero k), rfl, rfl⟩
  | n + 1 => by
    obtain ⟨hband, hops, hhash⟩ := bandRows_holds hT m fb (y := y) hlr n
    have hlast : bandRows m fb l r y (n + 1) s =
        m8Fb16Row m fb (n * (r - l)) (y + n) l r (bandRows m fb l r y n s) := by
      rw [bandRows, List.range_succ, List.foldl_append]
      rfl
    rw [hlast, m8Fb16Row_ops, m8Fb16Row_hash]
    exact ⟨BandHolds.row hT hlr hband, hops, hhash⟩

/-- All of it goes. -/
theorem sendWhole_painted (hT : T.Fits) {l t r b : ℕ} (hl : 2 ∣ l) (hr : 2 ∣ r) (hlr : l < r)
    (hw : r ≤ 800)
    (htb : t ≤ b) (hp : Painted D (ramDither T m fb) c₁ (applyAll s.ops c₀)) :
    Painted (fun p => D p ∨ p ∈ Rect.mk l t r b) (ramDither T m fb) c₁
        (applyAll (sendWhole m fb l t r b s).ops c₀) ∧
      (sendWhole m fb l t r b s).hash = s.hash := by
  have hband : 0 < M8_FB16_BAND / (r - l) :=
    Nat.div_pos (by unfold M8_FB16_BAND; omega) (by omega)
  have hend := strips_induct (P := fun (y : ℕ) (s' : Fb16Dev T) => t ≤ y ∧ s'.hash = s.hash ∧
      Painted (fun p => D p ∨ p ∈ Rect.mk l t r y) (ramDither T m fb) c₁ (applyAll s'.ops c₀))
    (fun s c => (bandRows m fb l r c.1 c.2 s).call (.write l c.1 (r - l : ℕ) c.2
      ((bandRows m fb l r c.1 c.2 s).band .dst) (r - l)))
    (fun y n s' hn hle hP => ?_) hband htb (s := s) ⟨Nat.le_refl t, rfl, hp.congr fun p => ?_⟩
  · exact ⟨hend.2.2, hend.2.1⟩
  · obtain ⟨hty, hhash, hpaint⟩ := hP
    obtain ⟨hrows, hops, hhash'⟩ := bandRows_holds hT m fb (s := s') (y := y) hlr n
    refine ⟨by omega, hhash'.trans hhash, ?_⟩
    rw [← hops] at hpaint
    change Painted _ _ _ (applyAll (_ ++ [_]) c₀)
    rw [applyAll_append]
    refine (hpaint.writeBand (by omega) hrows).congr fun p => ?_
    rw [or_assoc]
    refine or_congr_right ?_
    rw [Rect.mem_iff, Rect.mem_iff, Rect.mem_at]
    dsimp only
    omega
  · refine or_iff_left fun hmem => ?_
    rw [Rect.mem_iff] at hmem
    dsimp only at hmem
    omega

/-! ## What a send of what has changed draws -/

/-- Piece `i` of row `y` is not as its fingerprint has it. -/
def RowChanged (m : Fb16Mode) (fb : Mem Unit) (hash : ℕ → UInt32) (y i : ℕ) : Prop :=
  hash (y * M8_FB16_NSEG + i) ≠ rdHash fb (y * (m.scrX * 2) + i * 64)

/-- Column `x` of row `y` has changed pieces on both sides, or is in one. -/
def RowSent (m : Fb16Mode) (fb : Mem Unit) (hash : ℕ → UInt32) (l r y x : ℕ) : Prop :=
  l ≤ x ∧ x < r ∧ (∃ i, l / 32 ≤ i ∧ i ≤ x / 32 ∧ RowChanged m fb hash y i) ∧
    ∃ i, x / 32 ≤ i ∧ i ≤ (r - 1) / 32 ∧ RowChanged m fb hash y i

theorem pieceChanged_iff {hash : ℕ → UInt32} {y s0 i : ℕ} :
    PieceChanged fb (y * (m.scrX * 2) + s0 * (M8_FB16_SEG_W * 2)) (y * M8_FB16_NSEG + s0) hash i ↔
      RowChanged m fb hash y (s0 + i) := by
  have hseg : M8_FB16_SEG_W = 32 := rfl
  have hbytes : y * (m.scrX * 2) + s0 * (32 * 2) + 64 * i =
      y * (m.scrX * 2) + (s0 + i) * 64 := by omega
  rw [PieceChanged, RowChanged, hseg, hbytes, Nat.add_assoc]

/-- The span is the columns that are sent, and later rows keep their fingerprints. -/
theorem m8Fb16Changed_spec (fb : Mem Unit) (hash : ℕ → UInt32) {y l r : ℕ} (hl : 2 ∣ l) (hr : 2 ∣ r)
    (hlr : l < r)
    (hw : r ≤ 800) :
    let c := evenSpan (m8Fb16Changed m fb hash y l r).1
    (∀ x, c.1 ≤ x ∧ x < c.2 ↔ RowSent m fb hash l r y x) ∧ 2 ∣ c.1 ∧ 2 ∣ c.2 ∧
      ∀ e, (y + 1) * M8_FB16_NSEG ≤ e → (m8Fb16Changed m fb hash y l r).2 e = hash e := by
  have hseg : M8_FB16_SEG_W = 32 := rfl
  have hnseg : M8_FB16_NSEG = 25 := rfl
  obtain ⟨hinv, hdx⟩ := m8Fb16RowDiff_inv fb
    (y * (m.scrX * 2) + l / M8_FB16_SEG_W * (M8_FB16_SEG_W * 2))
    (y * M8_FB16_NSEG + l / M8_FB16_SEG_W)
    (show 0 < (r - 1) / M8_FB16_SEG_W - l / M8_FB16_SEG_W + 1 by omega) 0 hash
  have hrest := hinv.rest
  have hspan := hinv.span
  rw [hdx] at hrest hspan
  unfold m8Fb16Changed
  dsimp only
  generalize m8Fb16RowDiff fb _ _ _ 0 hash = rd at *
  have hlater : ∀ e, (y + 1) * M8_FB16_NSEG ≤ e → rd.table e = hash e := fun e he => by
    refine hrest e (.inr ?_)
    rw [hseg]
    rw [Nat.succ_mul, hnseg] at he
    rw [hnseg]
    omega
  unfold SpanOf at hspan
  simp only [pieceChanged_iff] at hspan
  simp only [hseg] at hspan
  rcases hspan with ⟨hfirst, hnone⟩ | ⟨f, g, hf, hg, hgn, hcf, hcg, hall⟩
  · rw [if_pos (by omega)]
    refine ⟨fun x => ⟨fun hx => absurd hx.2 (Nat.not_lt_zero x), ?_⟩, Nat.dvd_zero 2,
      Nat.dvd_zero 2, hlater⟩
    rintro ⟨hlx, hxr, ⟨i, hli, hix, hci⟩, -⟩
    refine absurd ?_ (hnone (i - l / 32) (by omega))
    rwa [Nat.add_sub_of_le hli]
  · rw [if_neg (by omega), hf, hg, hseg]
    simp only [evenSpan, Int.toNat_natCast]
    have hfg := hall g hgn hcg
    refine ⟨fun x => ?_, Nat.dvd_mul_left 2 _, Nat.dvd_mul_left 2 _, hlater⟩
    have hin : ((if l < (l / 32 + f) * 32 then (l / 32 + f) * 32 else l) / 2 * 2 ≤ x ∧
        x < ((if (l / 32 + g + 1) * 32 < r then (l / 32 + g + 1) * 32 else r) + 1) / 2 * 2) ↔
          l ≤ x ∧ x < r ∧ l / 32 + f ≤ x / 32 ∧ x / 32 ≤ l / 32 + g := by
      split_ifs <;> omega
    rw [hin]
    refine ⟨fun ⟨hlx, hxr, hfx, hxg⟩ =>
        ⟨hlx, hxr, ⟨_, by omega, hfx, hcf⟩, _, hxg, by omega, hcg⟩, ?_⟩
    rintro ⟨hlx, hxr, ⟨i, hli, hix, hci⟩, j, hxj, hjr, hcj⟩
    have hfi := hall (i - l / 32) (by omega) (by rwa [Nat.add_sub_of_le hli])
    have hjg := hall (j - l / 32) (by omega) (by rwa [Nat.add_sub_of_le (by omega)])
    omega

/-- Where the waiting rows go. -/
def Waiting.rect (g : Waiting) : Rect := Rect.at g.bl g.y (g.br - g.bl : ℕ) g.bn

/-- Up to row `y`, what is in `E` is on the card or waits. -/
structure SendInv (f c₁ c₀ : Card) (y : ℕ) (E : Pixel → Prop) (sg : Fb16Dev T × Waiting) :
    Prop where
  card : ∃ D, Painted D f c₁ (applyAll sg.1.ops c₀) ∧ ∀ p, E p ↔ D p ∨ p ∈ sg.2.rect
  holds : BandHolds f (sg.1.band .dst) sg.2.bl (sg.2.br - sg.2.bl) sg.2.y sg.2.bn
  waits : 0 < sg.2.bn → sg.2.bl < sg.2.br ∧ 2 ∣ sg.2.bl ∧ 2 ∣ sg.2.br ∧ sg.2.y + sg.2.bn = y

variable {f : Card} {y : ℕ} {E : Pixel → Prop} {sg : Fb16Dev T × Waiting}

theorem Waiting.rect_none {g : Waiting} (h : g.bn = 0) (p : Pixel) : p ∉ g.rect := by
  rw [Waiting.rect, Rect.mem_at, h]
  omega

/-- With the waiting rows written, all of it is on the card. -/
theorem SendInv.written (h : SendInv f c₁ c₀ y E sg) (hbn : 0 < sg.2.bn) :
    Painted E f c₁ (applyAll (writeWaiting sg.1 sg.2).ops c₀) := by
  obtain ⟨D, hp, hE⟩ := h.card
  obtain ⟨hlr, hl, hr, -⟩ := h.waits hbn
  change Painted _ _ _ (applyAll (_ ++ [_]) c₀)
  rw [applyAll_append]
  exact (hp.writeBand (by omega) h.holds).congr hE

theorem makeRoom_inv (h : SendInv f c₁ c₀ y E sg) (cl cr : ℕ) :
    SendInv f c₁ c₀ y E (makeRoom cl cr sg) ∧ ((makeRoom cl cr sg).2.bn = 0 ∨
      cl = (makeRoom cl cr sg).2.bl ∧ cr = (makeRoom cl cr sg).2.br) := by
  unfold makeRoom
  dsimp only
  split_ifs with hfull
  · refine ⟨⟨⟨E, h.written hfull.1, fun p => ?_⟩, fun k hk => ?_, fun hbn => ?_⟩, .inl rfl⟩
    · exact (or_iff_left (Waiting.rect_none rfl p)).symm
    · exact absurd hk (Nat.not_lt_zero k)
    · exact absurd hbn (Nat.lt_irrefl 0)
  · refine ⟨h, ?_⟩
    rcases Nat.eq_zero_or_pos sg.2.bn with h0 | hpos
    · exact .inl h0
    · exact .inr (by
        by_contra hne
        exact hfull ⟨hpos, by omega⟩)

/-- A row's span waits with the rows before it. -/
theorem takeRow_inv (hT : T.Fits) (h : SendInv (ramDither T m fb) c₁ c₀ y E sg) {cl cr : ℕ}
    (hl : 2 ∣ cl) (hr : 2 ∣ cr) (hroom : sg.2.bn = 0 ∨ cl = sg.2.bl ∧ cr = sg.2.br) :
    SendInv (ramDither T m fb) c₁ c₀ (y + 1) (fun p => E p ∨ p ∈ Rect.mk cl y cr (y + 1))
      (takeRow m fb cl cr y sg) := by
  obtain ⟨D, hp, hE⟩ := h.card
  unfold takeRow
  dsimp only
  by_cases hnone : cr ≤ cl
  · rw [if_pos hnone]
    have hbn : sg.2.bn = 0 := by
      rcases Nat.eq_zero_or_pos sg.2.bn with h0 | hpos
      · exact h0
      · have hlr := (h.waits hpos).1
        omega
    refine ⟨⟨D, hp, fun p => ?_⟩, h.holds, fun hpos => ?_⟩
    · rw [← hE]
      refine or_iff_left fun hmem => ?_
      rw [Rect.mem_iff] at hmem
      dsimp only at hmem
      omega
    · omega
  · rw [if_neg hnone]
    generalize hg : (if sg.2.bn = 0 then ⟨cl, cr, y, 0⟩ else sg.2 : Waiting) = g
    have hcase : g.bl = cl ∧ g.br = cr ∧ g.y + g.bn = y ∧
        BandHolds (ramDither T m fb) (sg.1.band .dst) g.bl (g.br - g.bl) g.y g.bn ∧
          ∀ p, p ∈ g.rect ↔ p ∈ sg.2.rect := by
      rcases Nat.eq_zero_or_pos sg.2.bn with h0 | hpos
      · rw [if_pos h0] at hg
        subst hg
        refine ⟨rfl, rfl, rfl, fun k hk => absurd hk (Nat.not_lt_zero k), fun p => ?_⟩
        exact iff_of_false (Waiting.rect_none rfl p) (Waiting.rect_none h0 p)
      · rw [if_neg (by omega)] at hg
        subst hg
        obtain ⟨hcl, hcr⟩ := hroom.resolve_left (by omega)
        exact ⟨hcl.symm, hcr.symm, (h.waits hpos).2.2.2, h.holds, fun p => Iff.rfl⟩
    obtain ⟨hbl, hbr, hy, hholds, hrect⟩ := hcase
    refine ⟨⟨D, ?_, fun p => ?_⟩, ?_, fun _ => ?_⟩
    · rw [m8Fb16Row_ops]
      exact hp
    · rw [hE, ← hrect, or_assoc]
      refine or_congr_right ?_
      rw [Waiting.rect, Waiting.rect, Rect.mem_at, Rect.mem_at, Rect.mem_iff]
      dsimp only
      omega
    · rw [← hy]
      exact BandHolds.row hT (by omega) hholds
    · dsimp only
      omega

/-- The pixels of rows from `t` up to `y` that a send of what has changed sends. -/
def SentBefore (m : Fb16Mode) (fb : Mem Unit) (hash : ℕ → UInt32) (l t r y : ℕ)
    (p : Pixel) : Prop :=
  (t : ℤ) ≤ p.2 ∧ p.2 < y ∧ 0 ≤ p.1 ∧ RowSent m fb hash l r p.2.toNat p.1.toNat

theorem RowSent.congr {hash hash' : ℕ → UInt32} {l r y x : ℕ}
    (h : ∀ e, y * M8_FB16_NSEG ≤ e → hash e = hash' e) :
    RowSent m fb hash l r y x ↔ RowSent m fb hash' l r y x := by
  have hrow : ∀ i, RowChanged m fb hash y i ↔ RowChanged m fb hash' y i := fun i => by
    rw [RowChanged, RowChanged, h _ (Nat.le_add_right _ i)]
  unfold RowSent
  simp only [hrow]

/-- What is sent of the rows up to one, and of that row. -/
theorem sentBefore_succ {hash hash' : ℕ → UInt32} {l t r y : ℕ} (hty : t ≤ y)
    (hlater : ∀ e, y * M8_FB16_NSEG ≤ e → hash' e = hash e) {cl cr : ℕ}
    (hspan : ∀ x, cl ≤ x ∧ x < cr ↔ RowSent m fb hash' l r y x) (p : Pixel) :
    SentBefore m fb hash l t r (y + 1) p ↔
      SentBefore m fb hash l t r y p ∨ p ∈ Rect.mk cl y cr (y + 1) := by
  unfold SentBefore
  rw [Rect.mem_iff]
  by_cases hp : p.2 = y
  · have hy : p.2.toNat = y := by omega
    rw [hy, ← RowSent.congr hlater, ← hspan]
    dsimp only
    omega
  · generalize RowSent m fb hash l r p.2.toNat p.1.toNat = P
    by_cases hP : P
    · simp only [hP, and_true]
      omega
    · simp only [hP, and_false, false_or, false_iff]
      omega

/-- The rows of a send of what has changed. -/
theorem sendRows_inv (hT : T.Fits) (hash : ℕ → UInt32) {l t r : ℕ} (hl : 2 ∣ l) (hr : 2 ∣ r)
    (hlr : l < r) (hw : r ≤ 800)
    (hp : Painted D (ramDither T m fb) c₁ (applyAll s.ops c₀)) : ∀ n : ℕ,
      let sg := (List.range' t n).foldl (sendRow m fb l r) (hash, s, ⟨0, 0, 0, 0⟩)
      SendInv (ramDither T m fb) c₁ c₀ (t + n)
          (fun p => D p ∨ SentBefore m fb hash l t r (t + n) p) sg.2 ∧
        ∀ e, (t + n) * M8_FB16_NSEG ≤ e → sg.1 e = hash e
  | 0 => by
    refine ⟨⟨⟨D, hp, fun p => ?_⟩, fun k hk => absurd hk (Nat.not_lt_zero k),
      fun hbn => absurd hbn (Nat.lt_irrefl 0)⟩, fun _ _ => rfl⟩
    refine or_congr_right (iff_of_false ?_ (Waiting.rect_none rfl p))
    unfold SentBefore
    omega
  | n + 1 => by
    obtain ⟨hinv, hlater⟩ := sendRows_inv hT hash (t := t) hl hr hlr hw hp n
    rw [List.range'_1_concat, List.foldl_append, List.foldl_cons, List.foldl_nil]
    generalize (List.range' t n).foldl (sendRow m fb l r) (hash, s, ⟨0, 0, 0, 0⟩) = sg at *
    obtain ⟨hspan, hcl, hcr, hkeep⟩ :=
      m8Fb16Changed_spec (m := m) fb sg.1 (y := t + n) hl hr hlr hw
    obtain ⟨hroom, hfits⟩ := makeRoom_inv hinv (evenSpan (m8Fb16Changed m fb sg.1 (t + n) l r).1).1
      (evenSpan (m8Fb16Changed m fb sg.1 (t + n) l r).1).2
    refine ⟨?_, fun e he => ?_⟩
    · have hrow := takeRow_inv hT hroom hcl hcr hfits
      refine ⟨?_, hrow.holds, hrow.waits⟩
      obtain ⟨D', hp', hE'⟩ := hrow.card
      refine ⟨D', hp', fun p => ?_⟩
      rw [← Nat.add_assoc, sentBefore_succ (Nat.le_add_right t n) hlater hspan, ← or_assoc]
      exact hE' p
    · refine (hkeep e he).trans (hlater e ?_)
      rw [← Nat.add_assoc, Nat.succ_mul] at he
      omega

/-- What has changed goes, and what lies between in its row. -/
theorem sendChanged_painted (hT : T.Fits) {hash : ℕ → UInt32} {l t r b : ℕ} (hl : 2 ∣ l)
    (hr : 2 ∣ r) (hlr : l < r) (hw : r ≤ 800) (htb : t ≤ b)
    (hp : Painted D (ramDither T m fb) c₁ (applyAll s.ops c₀)) :
    Painted (fun p => D p ∨ SentBefore m fb hash l t r b p) (ramDither T m fb) c₁
      (applyAll (sendChanged m fb l t r b hash s).ops c₀) := by
  obtain ⟨hinv, -⟩ := sendRows_inv hT hash (t := t) hl hr hlr hw hp (b - t)
  rw [Nat.add_sub_of_le htb] at hinv
  unfold sendChanged
  dsimp only
  split_ifs with hbn
  · exact hinv.written hbn
  · obtain ⟨D', hp', hE⟩ := hinv.card
    exact hp'.congr fun p => (hE p).trans (or_iff_left (Waiting.rect_none (by omega) p))

/-! ## What is drawn -/

/-- The pixels that `m8_fb16_send` sends : of a small send the rectangle between even columns,
of a large one what has changed in it. -/
def SendSet (m : Fb16Mode) (fb : Mem Unit) (whole : Bool) (hash : Fb16Hash) (d : Rect)
    (p : Pixel) : Prop :=
  let l := (max d.left 0).toNat / 2 * 2
  let t := (max d.top 0).toNat
  let r := ((min d.right m.scrX).toNat + 1) / 2 * 2
  let b := (min d.bottom m.scrY).toNat
  l < r ∧ t < b ∧
    match hash with
    | none => p ∈ Rect.mk l t r b
    | some hash =>
      if whole || (r - l) * (b - t) < M8_FB16_HASH_MIN then p ∈ Rect.mk l t r b
      else SentBefore m fb hash l t r b p

/-- It stays between the even columns. -/
theorem SendSet.mem {whole : Bool} {hash : Fb16Hash} {d : Rect} {p : Pixel}
    (h : SendSet m fb whole hash d p) :
    p ∈ Rect.mk ((max d.left 0).toNat / 2 * 2 : ℕ) (max d.top 0).toNat
      (((min d.right m.scrX).toNat + 1) / 2 * 2 : ℕ) (min d.bottom m.scrY).toNat := by
  obtain ⟨-, -, hset⟩ := h
  cases hash with
  | none => exact hset
  | some hash =>
    dsimp only at hset
    split_ifs at hset
    · exact hset
    · obtain ⟨ht, hb, h0, hl, hr, -⟩ := hset
      rw [Rect.mem_iff]
      dsimp only
      omega

/-- A send draws RAM's dither on what it sends. -/
theorem m8Fb16Send_painted (hT : T.Fits) (whole : Bool) (l t r b : ℤ)
    (hp : Painted D (ramDither T m fb) c₁ (applyAll s.ops c₀)) :
    Painted (fun p => D p ∨ SendSet m fb whole s.hash ⟨l, t, r, b⟩ p) (ramDither T m fb) c₁
      (applyAll (m8Fb16Send m fb whole l t r b s).ops c₀) := by
  have hfits := m.fits
  have hscr := m.ok
  unfold m8Fb16Send SendSet
  dsimp only
  generalize hl : (max l 0).toNat / 2 * 2 = l'
  generalize ht : (max t 0).toNat = t'
  generalize hr : ((min r m.scrX).toNat + 1) / 2 * 2 = r'
  generalize hb : (min b m.scrY).toNat = b'
  by_cases hnone : r' ≤ l' ∨ b' ≤ t'
  · rw [if_pos hnone]
    refine hp.congr fun p => or_iff_left fun hmem => ?_
    omega
  · rw [if_neg hnone]
    have hl2 : 2 ∣ l' := by omega
    have hr2 : 2 ∣ r' := by omega
    have hin : l' < r' ∧ t' < b' := by omega
    have hw : r' ≤ 800 := by omega
    have hwhole : ∀ s' : Fb16Dev T, s'.ops = s.ops →
        Painted (fun p => D p ∨ l' < r' ∧ t' < b' ∧ p ∈ Rect.mk l' t' r' b') (ramDither T m fb) c₁
          (applyAll (sendWhole m fb l' t' r' b' s').ops c₀) := fun s' hs' => by
      rw [← hs'] at hp
      refine (sendWhole_painted hT hl2 hr2 hin.1 hw hin.2.le hp).1.congr fun p => ?_
      simp only [hin, true_and]
    cases hhash : s.hash with
    | none => exact hwhole s rfl
    | some hash =>
      dsimp only
      split_ifs with hsmall
      · exact hwhole _ rfl
      · refine (sendChanged_painted hT hl2 hr2 hin.1 hw hin.2.le hp).congr fun p => ?_
        simp only [hin, true_and]

/-- The pixels that `m8_fb16_flush` draws. -/
def FlushSet (m : Fb16Mode) (fb : Mem Unit) (hash : Fb16Hash) (d : Rect) (p : Pixel) : Prop :=
  let l := (max d.left 0).toNat
  let t := (max d.top 0).toNat
  let r := (min d.right m.scrX).toNat
  let b := (min d.bottom m.scrY).toNat
  l < r ∧ t < b ∧
    match if M8_FB16_SOLID_MIN ≤ (r - l) * (b - t) then m8Fb16Uniform m fb l t r b else none with
    | some _ => p ∈ Rect.mk l t r b
    | none => SendSet m fb false hash ⟨l, t, r, b⟩ p

theorem m8Fb16Uniform_eq {l t r b : ℕ} {c : UInt16} (h : m8Fb16Uniform m fb l t r b = some c)
    {x y : ℕ} (hx : l ≤ x ∧ x < r) (hy : t ≤ y ∧ y < b) : ramWord m fb y x = c := by
  unfold m8Fb16Uniform at h
  dsimp only at h
  split_ifs at h with hall
  · obtain rfl := Option.some.inj h
    have hrow := List.all_eq_true.1 hall y (List.mem_range'_1.2 (by omega))
    exact eq_of_beq (List.all_eq_true.1 hrow x (List.mem_range'_1.2 (by omega)))

/-- A rectangle of one colour, where RAM has it. -/
theorem Fb16Dev.solid_painted (hT : T.Fits) {blk : Mem ConvSeg} {l t r b : ℕ} {c : UInt16}
    (hlr : l < r) (htb : t < b) (hc : ∀ p ∈ Rect.mk l t r b, f p = dither T c p)
    (hp : Painted D f c₁ (applyAll s.ops c₀)) :
    Painted (fun p => D p ∨ p ∈ Rect.mk l t r b) f c₁
        (applyAll (s.solid m blk l t r b c).ops c₀) := by
  change Painted _ _ _ (applyAll (s.ops ++ _) c₀)
  rw [applyAll_append, m8Fb16Solid_paint hT m hlr htb]
  exact hp.paint fun p hmem => (hc p hmem).symm

/-- So does a flush. -/
theorem m8Fb16Flush_painted (hT : T.Fits) (blk : Mem ConvSeg) (d : Rect)
    (hp : Painted D (ramDither T m fb) c₁ (applyAll s.ops c₀)) :
    Painted (fun p => D p ∨ FlushSet m fb s.hash d p) (ramDither T m fb) c₁
      (applyAll (m8Fb16Flush m fb blk d s).ops c₀) := by
  unfold m8Fb16Flush FlushSet
  dsimp only
  generalize (max d.left 0).toNat = l
  generalize (max d.top 0).toNat = t
  generalize (min d.right m.scrX).toNat = r
  generalize (min d.bottom m.scrY).toNat = b
  by_cases hnone : r ≤ l ∨ b ≤ t
  · rw [if_pos hnone]
    refine hp.congr fun p => or_iff_left fun hmem => ?_
    omega
  · rw [if_neg hnone]
    have hin : l < r ∧ t < b := by omega
    cases hone : if M8_FB16_SOLID_MIN ≤
        (r - l) * (b - t) then m8Fb16Uniform m fb l t r b else none with
    | some c =>
      have huni : m8Fb16Uniform m fb l t r b = some c := by
        split_ifs at hone
        exact hone
      dsimp only
      refine (Fb16Dev.solid_painted hT hin.1 hin.2 (fun p hmem => ?_) hp).congr fun p => ?_
      · rw [Rect.mem_iff] at hmem
        dsimp only at hmem
        rw [ramDither, dither, m8Fb16Uniform_eq huni (by omega) (by omega)]
      · simp only [hin, true_and]
    | none =>
      dsimp only
      refine (m8Fb16Send_painted hT false l t r b hp).congr fun p => ?_
      simp only [hin, true_and]

end Spec

end Inboard
