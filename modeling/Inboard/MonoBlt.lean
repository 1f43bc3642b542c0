import Inboard.Fallback
import Inboard.StringCache

/-!
# Monochrome bitmaps to the screen

`m8_mono_blt` has three ways to draw a part of a bitmap of a bit a pixel : from its copy in the
string cache, from its rows as they lie, or from rows that are packed again to start on a byte. The
first draws the visible part. The other two send all of the part's bits, so that its edges have to
be among the engine's coordinates, and for the first the width of a copy has to be an `int`
(`m8_mono_blt_exact_iff`).
-/

set_option linter.unusedSectionVars false

namespace Inboard

/-! ## The calls -/

/-- `BITMAP`, but for its bits. -/
structure MonoBitmap where
  bmType : ℤ
  bmWidth : ℕ
  bmHeight : ℕ
  bmWidthBytes : ℕ
  bmPlanes : ℕ
  bmBitsPixel : ℕ
  bmSegmentIndex : ℕ

/-- The colours of a `DRAWMODE`. -/
structure DrawColours where
  bkColor : UInt8
  textColor : UInt8

/-- The part of a bitmap that `m8_bitblt` gives to `m8_mono_blt`, and where it goes : a part inside
of the bitmap, and a bitmap of one segment inside of its segment. -/
structure MonoArgs where
  bm : MonoBitmap
  sx : ℤ
  sy : ℤ
  dx : ℤ
  dy : ℤ
  w : ℤ
  h : ℤ
  ints : ∀ z ∈ [sx, sy, dx, dy, w, h], -32768 ≤ z ∧ z < 32768
  inside : 0 ≤ sx ∧ 0 ≤ sy ∧ 0 < w ∧ 0 < h ∧ sx + w ≤ bm.bmWidth ∧ sy + h ≤ bm.bmHeight
  rows : bm.bmWidth ≤ 8 * bm.bmWidthBytes ∧ bm.bmWidthBytes < 65536
  segment : bm.bmSegmentIndex = 0 → bm.bmWidthBytes * bm.bmHeight ≤ 65536

/-- The rest : the bitmap's bits, the ROP's mix and the colours. -/
structure MonoRest where
  bits : ℕ → UInt8
  mix : ℕ
  dm : DrawColours

namespace MonoRest

variable (t : MonoRest)

/-- The two mixes. -/
def ink : MonoInk :=
  ⟨M8_MIX_SRC_FRGD ||| t.mix, t.dm.bkColor, M8_MIX_SRC_BKGD ||| t.mix, t.dm.textColor⟩

/-- The bitmap's bytes from an offset on, in its segment. -/
def bytesFrom (base k : ℕ) : UInt8 := t.bits ((base + k) % 65536)

end MonoRest

namespace MonoArgs

variable (m : LendMode) (a : MonoArgs) (t : MonoRest)

/-- The bytes of a row, from the part's first column on. -/
def wb : ℕ := toWord ((int16 (a.w + 7)).tdiv 8)

/-- Where in its byte the first column is. -/
def shift : ℕ := (a.sx % 8).toNat

/-- The first column's byte in its row. -/
def first : ℕ := toWord (a.sx / 8)

/-- The even bytes that hold a row's part. -/
def wb2 : ℕ := toWord (((int16 (a.shift + a.w + 7)).tdiv 8 + 1) / 2 * 2)

/-- What `m8_mono_blt` draws. -/
def Checks : Prop :=
  a.bm.bmType = 0 ∧ a.bm.bmBitsPixel = 1 ∧ a.bm.bmPlanes = 1 ∧ a.bm.bmSegmentIndex = 0 ∧
    0 < a.w ∧ 0 < a.h ∧ 0 ≤ a.sx ∧ 0 ≤ a.sy ∧ a.wb * a.h ≤ M8_BUF_BYTES

instance : Decidable a.Checks := by unfold Checks; infer_instance

/-- The visible part of the destination. -/
def visible : Rect :=
  (⟨a.dx, a.dy, int16 (a.dx + a.w), int16 (a.dy + a.h)⟩ : Rect).inter (OffScreen.screen m)

/-- The rows can be read as they lie. -/
def InPlace : Prop :=
  (a.first + a.wb2) % 65536 ≤ a.bm.bmWidthBytes ∨ toWord (a.sy + a.h) < a.bm.bmHeight

instance : Decidable a.InPlace := by unfold InPlace; infer_instance

/-- The bitmap. -/
def whole : MonoBits := ⟨a.bm.bmWidthBytes, a.bm.bmHeight, t.bits⟩

/-- A byte of a row that is packed again. -/
def packed (y i : ℕ) : UInt8 :=
  let row := toWord (a.sy + y) * a.bm.bmWidthBytes
  let k := (a.first + i) % 65536
  if a.shift = 0 then t.bytesFrom row k
  else
    UInt8.ofNat ((t.bytesFrom row k).toNat <<< a.shift |||
      if (k + 1) % 65536 < a.bm.bmWidthBytes then
        (t.bytesFrom row ((k + 1) % 65536)).toNat >>> (8 - a.shift)
      else 0)

/-- All of them, as they are put in `m8_dst`. -/
def out : List UInt8 :=
  (List.range a.h.toNat).flatMap fun y => (List.range a.wb).map (a.packed t y)

/-- `m8_mono_cached`. -/
def m8MonoCached (E : MonoEngine) (hwOff : Bool) (s : StringCache) (c : Card) :
    Bool × StringCache × Card :=
  if 0xFFF0 < a.bm.bmWidthBytes * a.bm.bmHeight then (false, s, c)
  else
    match s.m8ScGetH E m hwOff (a.whole t) m.scRows.toNat false c with
    | (none, s, c) => (false, s, c)
    | (some e, s, c) =>
      let r := a.visible m
      (true, s, E.m8HwPlaneMixes hwOff (int16 (e.x + a.sx + (r.left - a.dx)))
        (int16 (e.y + a.sy + (r.top - a.dy))) r.left r.top (r.right - r.left) (r.bottom - r.top)
        e.plane t.ink c)

/-- What is sent if there is no copy. -/
def stream (E : MonoEngine) (hwOff : Bool) (c : Card) : Card :=
  let r := a.visible m
  let clip : Rect := ⟨r.left, r.top, r.right - 1, r.bottom - 1⟩
  if a.InPlace then
    E.m8HwMonoRows hwOff (int16 (a.dx - a.shift)) a.dy a.wb2 a.h.toNat
      (t.bytesFrom (toWord a.sy * a.bm.bmWidthBytes + a.first)) a.bm.bmWidthBytes t.ink clip c
  else E.m8HwMono hwOff a.dx a.dy a.wb a.h.toNat ((a.out t).getD · 0) t.ink clip c

/-- `m8_mono_blt` : whether it draws. -/
def m8MonoBlt (E : MonoEngine) (hwOff : Bool) (s : StringCache) (c : Card) :
    Bool × StringCache × Card :=
  if a.Checks then
    if (a.visible m).Empty then (true, s, c)
    else
      match a.m8MonoCached m t E hwOff s c with
      | (true, s, c) => (true, s, c)
      | (false, s, c) => (true, s, a.stream m t E hwOff c)
  else (false, s, c)

/-! ## What is wanted -/

/-- The source's bit for a pixel. -/
def bit (p : Pixel) : Bool :=
  (a.whole t).pixel (a.sx + (p.1 - a.dx)).toNat (a.sy + (p.2 - a.dy)).toNat

/-- The colours by the source's bits through the mixes, on the screen's part of the destination. -/
def wanted (E : MonoEngine) (c : Card) : Card := fun p =>
  if p ∈ Rect.at a.dx a.dy a.w a.h ∧ p ∈ OffScreen.screen m then
    E.mixed (if a.bit t p = true then t.ink.fgMix else t.ink.bgMix) t.ink.fg t.ink.bg (c p)
  else c p

/-- If it draws, what is wanted, and else nothing ; but for the string cache's rows. -/
def Exact (E : MonoEngine) (s : StringCache) (c : Card) : Prop :=
  ∀ p ∉ stringCache m, (a.m8MonoBlt m t E false s c).2.2 p =
    if (a.m8MonoBlt m t E false s c).1 = true then a.wanted m t E c p else c p

end MonoArgs

/-! ## Rows of bits -/

theorem pixelBit_row (f : ℕ → UInt8) (n i j : ℕ) :
    pixelBit f (j * (8 * n) + i) = (f (j * n + i / 8)).toNat.testBit (7 - i % 8) := by
  have hdiv : (j * (8 * n) + i) / 8 = j * n + i / 8 ∧ (j * (8 * n) + i) % 8 = i % 8 := by
    rw [Nat.mul_left_comm]
    omega
  rw [pixelBit, hdiv.1, hdiv.2]

/-- A byte of two, moved. -/
theorem testBit_packed (a b : UInt8) {s i : ℕ} (hs : 0 < s ∧ s < 8) (hi : i < 8) :
    (UInt8.ofNat (a.toNat <<< s ||| b.toNat >>> (8 - s))).toNat.testBit (7 - i) =
      if i + s < 8 then a.toNat.testBit (7 - (i + s)) else b.toNat.testBit (7 - (i + s - 8)) := by
  have hlow : ∀ n, 8 ≤ n → b.toNat.testBit n = false := fun n hn =>
    Nat.testBit_lt_two_pow (Nat.lt_of_lt_of_le (UInt8.toNat_lt b)
      (Nat.pow_le_pow_right (by decide) hn))
  rw [UInt8.toNat_ofNat', Nat.testBit_mod_two_pow, decide_eq_true (by omega), Bool.true_and,
    Nat.testBit_or, Nat.testBit_shiftLeft, Nat.testBit_shiftRight]
  split_ifs with hlt
  · rw [decide_eq_true (by omega), hlow _ (by omega), Bool.true_and, Bool.or_false]
    congr 1
    omega
  · rw [decide_eq_false (by omega), Bool.false_and, Bool.false_or]
    congr 1
    omega

namespace MonoArgs

variable {m : LendMode} {a : MonoArgs} {t : MonoRest} {E : MonoEngine} {c : Card}

/-- A sum that is divided, or that has wrapped. -/
theorem quot_cases {n : ℤ} (hn : 0 ≤ n ∧ n ≤ 32781) : n ≤ 32767 ∧ (int16 n).tdiv 8 = n / 8 ∨
    32768 ≤ n ∧ -4096 ≤ (int16 n).tdiv 8 ∧ (int16 n).tdiv 8 ≤ -4000 := by
  rcases le_or_gt n 32767 with hle | hgt
  · left
    rw [int16_eq (by omega), Int.tdiv_eq_ediv_of_nonneg hn.1]
    exact ⟨hle, rfl⟩
  · right
    have hwrap : int16 n = -(65536 - n) := by
      unfold int16
      omega
    rw [hwrap, Int.neg_tdiv, Int.tdiv_eq_ediv_of_nonneg (by omega)]
    omega

theorem bounds (a : MonoArgs) : (0 ≤ a.sx ∧ a.sx < 32768) ∧ (0 ≤ a.sy ∧ a.sy < 32768) ∧
    (-32768 ≤ a.dx ∧ a.dx < 32768) ∧ (-32768 ≤ a.dy ∧ a.dy < 32768) ∧ (0 < a.w ∧ a.w < 32768) ∧
    0 < a.h ∧ a.h < 32768 := by
  have hints := a.ints
  have hinside := a.inside
  simp only [List.mem_cons, List.not_mem_nil, or_false, forall_eq_or_imp, forall_eq] at hints
  omega

/-- The first column's byte, and where it is in it. -/
theorem column (a : MonoArgs) : a.sx = 8 * a.first + a.shift ∧ a.shift < 8 ∧ a.first < 4096 := by
  have hb := a.bounds
  unfold first shift toWord
  omega

theorem wb_holds (h : a.wb ≤ 4096) : a.w ≤ 8 * a.wb := by
  have hb := a.bounds
  unfold wb toWord at h ⊢
  rcases @quot_cases (a.w + 7) (by omega) with hq | hq
  · rw [hq.2] at h ⊢
    omega
  · omega

theorem wb2_holds (h : a.wb2 ≤ 4096) : a.shift + a.w ≤ 8 * a.wb2 ∧ a.wb2 % 2 = 0 := by
  have hb := a.bounds
  have hc := a.column
  unfold wb2 toWord at h ⊢
  rcases @quot_cases (a.shift + a.w + 7) (by omega) with hq | hq
  · rw [hq.2] at h ⊢
    omega
  · omega

/-- A row's byte is in the segment. -/
theorem in_segment (hseg : a.bm.bmSegmentIndex = 0) {i j : ℕ} (hi : i < a.bm.bmWidthBytes)
    (hj : j < a.bm.bmHeight) : j * a.bm.bmWidthBytes + i < 65536 := by
  have hle : (j + 1) * a.bm.bmWidthBytes ≤ a.bm.bmHeight * a.bm.bmWidthBytes :=
    Nat.mul_le_mul_right _ hj
  have hsegment := a.segment hseg
  rw [Nat.mul_comm a.bm.bmWidthBytes] at hsegment
  rw [Nat.succ_mul] at hle
  omega

/-- The bits of the rows as they lie. -/
theorem inPlace_bit (hseg : a.bm.bmSegmentIndex = 0) {i j : ℕ} (hi : (i : ℤ) < a.w)
    (hj : (j : ℤ) < a.h) :
    pixelBit (t.bytesFrom (toWord a.sy * a.bm.bmWidthBytes + a.first))
      (j * (8 * a.bm.bmWidthBytes) + (a.shift + i)) =
      (a.whole t).pixel (a.sx.toNat + i) (a.sy.toNat + j) := by
  have hb := a.bounds
  have hc := a.column
  have hin := a.inside
  have hrows := a.rows
  have hsy : toWord a.sy = a.sy.toNat := by
    unfold toWord
    omega
  rw [MonoBits.pixel, pixelBit_row, pixelBit_row, hsy, MonoRest.bytesFrom]
  have hat : a.sy.toNat * a.bm.bmWidthBytes + a.first +
      (j * a.bm.bmWidthBytes + (a.shift + i) / 8) =
        (a.sy.toNat + j) * a.bm.bmWidthBytes + (a.sx.toNat + i) / 8 := by
    rw [Nat.add_mul]
    omega
  rw [hat, Nat.mod_eq_of_lt (in_segment hseg (by omega) (by omega)),
    show (a.shift + i) % 8 = (a.sx.toNat + i) % 8 by omega]
  rfl

/-- The bits of the rows that are packed again. -/
theorem packed_bit (hseg : a.bm.bmSegmentIndex = 0) (hwb : a.wb ≤ 4096) {i j : ℕ}
    (hi : (i : ℤ) < a.w) (hj : (j : ℤ) < a.h) :
    pixelBit ((a.out t).getD · 0) (j * (8 * a.wb) + i) =
      (a.whole t).pixel (a.sx.toNat + i) (a.sy.toNat + j) := by
  have hb := a.bounds
  have hc := a.column
  have hin := a.inside
  have hrows := a.rows
  have hw := wb_holds hwb
  have hrow : toWord (a.sy + j) = a.sy.toNat + j := by
    unfold toWord
    omega
  have hk : (a.first + i / 8) % 65536 = a.first + i / 8 := Nat.mod_eq_of_lt (by omega)
  have hout : (a.out t).getD (j * a.wb + i / 8) 0 = a.packed t j (i / 8) := by
    rw [List.getD_eq_getElem?_getD, out, getElem?_rows (a.packed t) (by omega) (by omega)]
    rfl
  have hbyte : ∀ q, q < a.bm.bmWidthBytes →
      t.bytesFrom ((a.sy.toNat + j) * a.bm.bmWidthBytes) q =
        t.bits ((a.sy.toNat + j) * a.bm.bmWidthBytes + q) := fun q hq => by
    rw [MonoRest.bytesFrom, Nat.mod_eq_of_lt (in_segment hseg hq (by omega))]
  rw [MonoBits.pixel, pixelBit_row, pixelBit_row, hout, packed, hrow, hk, whole]
  dsimp only
  by_cases hzero : a.shift = 0
  · rw [if_pos hzero, hbyte _ (by omega), show (a.sx.toNat + i) / 8 = a.first + i / 8 by omega,
      show (a.sx.toNat + i) % 8 = i % 8 by omega]
  · have hnext : (if (a.first + i / 8 + 1) % 65536 < a.bm.bmWidthBytes then
        (t.bytesFrom ((a.sy.toNat + j) * a.bm.bmWidthBytes)
          ((a.first + i / 8 + 1) % 65536)).toNat >>> (8 - a.shift) else 0) =
        (if (a.first + i / 8 + 1) % 65536 < a.bm.bmWidthBytes then
          t.bytesFrom ((a.sy.toNat + j) * a.bm.bmWidthBytes) ((a.first + i / 8 + 1) % 65536)
        else 0).toNat >>> (8 - a.shift) := by
      split_ifs
      · rfl
      · exact (Nat.zero_shiftRight _).symm
    rw [if_neg hzero, hnext, testBit_packed _ _ (by omega) (by omega)]
    by_cases hlt : i % 8 + a.shift < 8
    · rw [if_pos hlt, hbyte _ (by omega), show (a.sx.toNat + i) / 8 = a.first + i / 8 by omega,
        show (a.sx.toNat + i) % 8 = i % 8 + a.shift by omega]
    · have hq : (a.first + i / 8 + 1) % 65536 = (a.sx.toNat + i) / 8 := by omega
      rw [if_neg hlt, if_pos (by omega), hq, hbyte _ (by omega),
        show (a.sx.toNat + i) % 8 = i % 8 + a.shift - 8 by omega]

/-! ## What each way draws -/

/-- The sums of the destination do not wrap. -/
def Sums (a : MonoArgs) : Prop := a.dx + a.w ≤ 32767 ∧ a.dy + a.h ≤ 32767

/-- The engine takes what would be sent. -/
def Streamed (a : MonoArgs) : Prop :=
  if a.InPlace then MonoEngine.Fits (int16 (a.dx - a.shift)) a.dy a.wb2 a.h.toNat
  else MonoEngine.Fits a.dx a.dy a.wb a.h.toNat

theorem mem_visible (hsums : a.Sums) {p : Pixel} : p ∈ a.visible m ↔
    p ∈ Rect.at a.dx a.dy a.w a.h ∧ p ∈ OffScreen.screen m := by
  have hb := a.bounds
  unfold Sums at hsums
  rw [visible, int16_eq (by omega), int16_eq (by omega), Rect.mem_inter]
  rfl

/-- Whatever draws the visible part by the source's bits draws what is wanted. -/
theorem wanted_of (hsums : a.Sums) {v : UInt8} {p : Pixel}
    (hdrawn : p ∈ a.visible m → v =
      E.mixed (if a.bit t p = true then t.ink.fgMix else t.ink.bgMix) t.ink.fg t.ink.bg (c p))
    (hrest : p ∉ a.visible m → v = c p) : v = a.wanted m t E c p := by
  unfold wanted
  by_cases hp : p ∈ a.visible m
  · rw [hdrawn hp, if_pos ((mem_visible hsums).mp hp)]
  · rw [hrest hp, if_neg fun h => hp ((mem_visible hsums).mpr h)]

/-- Rows that hold the part's bits, sent within the visible part. -/
theorem m8Mono_wanted (hsums : a.Sums) {x : ℤ} {wb k stride : ℕ} {bits : ℕ → UInt8}
    (hf : MonoEngine.Fits x a.dy wb a.h.toNat) (hs : Sendable stride wb a.h.toNat)
    (hx : x + k = a.dx) (hwide : k + a.w ≤ 8 * wb)
    (hbits : ∀ i j : ℕ, (i : ℤ) < a.w → (j : ℤ) < a.h → pixelBit bits (j * (8 * stride) + (k + i)) =
      (a.whole t).pixel (a.sx.toNat + i) (a.sy.toNat + j)) (c : Card) (p : Pixel) :
    E.m8Mono x a.dy wb a.h.toNat bits stride t.ink ⟨(a.visible m).left, (a.visible m).top,
      (a.visible m).right - 1, (a.visible m).bottom - 1⟩ 0xFF c p = a.wanted m t E c p := by
  have hb := a.bounds
  rw [MonoEngine.m8Mono_apply hf hs]
  dsimp only
  refine wanted_of hsums (fun hp => ?_) fun hp => ?_
  · have hin := ((mem_visible hsums).mp hp).1
    rw [Rect.mem_at] at hin
    rw [Rect.mem_iff] at hp
    rw [if_pos ⟨by rw [Rect.mem_at]; omega, by omega⟩, full_mask, bit]
    have hcol : (p.1 - x).toNat = k + (p.1 - a.dx).toNat := by omega
    have hsx : a.sx.toNat + (p.1 - a.dx).toNat = (a.sx + (p.1 - a.dx)).toNat := by omega
    have hsy : a.sy.toNat + (p.2 - a.dy).toNat = (a.sy + (p.2 - a.dy)).toNat := by omega
    rw [hcol, hbits _ _ (by omega) (by omega), hsx, hsy]
  · rw [Rect.mem_iff] at hp
    exact if_neg fun h => hp (by omega)

/-- The rows as they lie, or packed again. -/
theorem stream_wanted (hseg : a.bm.bmSegmentIndex = 0) (hbuf : a.wb * a.h ≤ M8_BUF_BYTES)
    (hsums : a.Sums) (hst : a.Streamed) (c : Card) (p : Pixel) :
    a.stream m t E false c p = a.wanted m t E c p := by
  have hb := a.bounds
  have hc := a.column
  have hin := a.inside
  unfold Streamed at hst
  unfold stream
  by_cases hplace : a.InPlace
  · rw [if_pos hplace] at hst ⊢
    have hcolumn := hst.column
    have hcolumns := hst.columns
    unfold M8_EXPAND_X_MIN M8_EXPAND_X_MAX at hcolumn
    unfold M8_COORD_MAX at hcolumns
    have hx : int16 (a.dx - a.shift) + a.shift = a.dx := by
      unfold int16 at hcolumn ⊢
      omega
    obtain ⟨hwide, heven⟩ := wb2_holds (a := a) (by omega)
    have hreach : a.h.toNat * a.bm.bmWidthBytes ≤ 65536 :=
      (Nat.mul_le_mul_right _ (by omega)).trans
        ((Nat.mul_comm _ _).le.trans (a.segment hseg))
    rw [MonoEngine.m8HwMonoRows, if_neg (by simp [heven])]
    exact m8Mono_wanted hsums hst ⟨Or.inr heven, hreach⟩ hx hwide
      (fun i j hi hj => inPlace_bit hseg hi hj) c p
  · rw [if_neg hplace] at hst ⊢
    have hcolumn := hst.column
    have hcolumns := hst.columns
    unfold M8_EXPAND_X_MIN M8_EXPAND_X_MAX at hcolumn
    unfold M8_COORD_MAX at hcolumns
    have hwide := wb_holds (a := a) (by omega)
    have hreach : a.h.toNat * a.wb ≤ 65536 := by
      unfold M8_BUF_BYTES at hbuf
      have hcast : ((a.h.toNat * a.wb : ℕ) : ℤ) = a.wb * a.h := by
        rw [Int.natCast_mul, Int.toNat_of_nonneg (by omega), Int.mul_comm]
      omega
    rw [MonoEngine.m8HwMono, if_neg Bool.false_ne_true]
    exact m8Mono_wanted (k := 0) hsums hst ⟨Or.inl rfl, hreach⟩ (Int.add_zero _)
      (by omega) (fun i j hi hj => by
        rw [Nat.zero_add]
        exact packed_bit hseg (by omega) hi hj) c p

theorem visible_bounds (hsums : a.Sums) :
    (0 ≤ (a.visible m).left ∧ a.dx ≤ (a.visible m).left) ∧
      ((a.visible m).right ≤ m.width ∧ (a.visible m).right ≤ a.dx + a.w) ∧
      (0 ≤ (a.visible m).top ∧ a.dy ≤ (a.visible m).top) ∧
      (a.visible m).bottom ≤ m.height ∧ (a.visible m).bottom ≤ a.dy + a.h := by
  have hb := a.bounds
  unfold Sums at hsums
  rw [visible, int16_eq (by omega), int16_eq (by omega)]
  exact ⟨⟨Int.le_max_right _ _, Int.le_max_left _ _⟩, ⟨Int.min_le_right _ _, Int.min_le_left _ _⟩,
    ⟨Int.le_max_right _ _, Int.le_max_left _ _⟩, Int.min_le_right _ _, Int.min_le_left _ _⟩

/-- A copy of the bitmap in a plane. -/
theorem copy_wanted (hm : m.Listed) (hsums : a.Sums) (hne : ¬(a.visible m).Empty) {e : ScEntry}
    (hkept : (a.whole t).Kept e c) (hslot : e.slot.Inside (stringCache m))
    (hew : e.w = 8 * a.bm.bmWidthBytes) (heh : e.h = a.bm.bmHeight) (p : Pixel) :
    E.m8HwPlaneMixes false (int16 (e.x + a.sx + ((a.visible m).left - a.dx)))
      (int16 (e.y + a.sy + ((a.visible m).top - a.dy))) (a.visible m).left (a.visible m).top
      ((a.visible m).right - (a.visible m).left) ((a.visible m).bottom - (a.visible m).top)
      e.plane t.ink c p = a.wanted m t E c p := by
  have hb := a.bounds
  have hin := a.inside
  have hrows := a.rows
  have hvis := a.visible_bounds (m := m) hsums
  obtain ⟨htop, hbottom, -⟩ := m.scTop_bounds
  have hscreen : m.width ≤ 1024 ∧ m.height ≤ 768 := by
    unfold LendMode.Listed m8Modes at hm
    simp only [List.mem_cons, Prod.mk.injEq, List.not_mem_nil, or_false] at hm
    omega
  unfold Rect.Inside ScEntry.slot stringCache M8_SC_W M8_CURSOR_SAVE_X M8_PITCH at hslot
  dsimp only at hslot
  unfold Rect.Empty at hne
  have hsx : int16 (e.x + a.sx + ((a.visible m).left - a.dx)) =
      e.x + a.sx + ((a.visible m).left - a.dx) := int16_eq (by omega)
  have hsy : int16 (e.y + a.sy + ((a.visible m).top - a.dy)) =
      e.y + a.sy + ((a.visible m).top - a.dy) := int16_eq (by omega)
  rw [hsx, hsy, MonoEngine.m8HwPlaneMixes, if_neg (by simp; omega), E.planes_eq]
  · unfold PlaneBlit.drawn
    dsimp only
    have hvisible : p ∈ Rect.at (a.visible m).left (a.visible m).top
        ((a.visible m).right - (a.visible m).left) ((a.visible m).bottom - (a.visible m).top) ↔
        p ∈ a.visible m := by
      rw [Rect.mem_at, Rect.mem_iff]
      omega
    refine wanted_of hsums (fun hp => ?_) fun hp => if_neg fun h => hp (hvisible.mp h)
    rw [if_pos (hvisible.mpr hp), bit]
    rw [Rect.mem_iff] at hp
    have hbit := hkept (a.sx + (p.1 - a.dx)).toNat (a.sy + (p.2 - a.dy)).toNat
      (by unfold whole; dsimp only; omega) (by unfold whole; dsimp only; omega)
    rw [← hbit, Int.toNat_of_nonneg (by omega), Int.toNat_of_nonneg (by omega)]
    have hcol : e.x + a.sx + ((a.visible m).left - a.dx) + (p.1 - (a.visible m).left) =
        e.x + (a.sx + (p.1 - a.dx)) := by omega
    have hrow : e.y + a.sy + ((a.visible m).top - a.dy) + (p.2 - (a.visible m).top) =
        e.y + (a.sy + (p.2 - a.dy)) := by omega
    rw [hcol, hrow]
  · constructor
    · dsimp only
      omega
    · dsimp only
      unfold M8_COORD_MAX
      omega
    · dsimp only
      unfold M8_COORD_MAX
      omega
    · intro q hq hq'
      rw [Rect.mem_at] at hq hq'
      dsimp only at hq hq'
      omega

/-! ## A blit -/

/-- The destination has a pixel of the screen. -/
def Shown (m : LendMode) (a : MonoArgs) : Prop :=
  a.dx < m.width ∧ 0 < a.dx + a.w ∧ a.dy < m.height ∧ 0 < a.dy + a.h

/-- The bitmap passes the string cache's checks of its size. -/
def Cacheable (m : LendMode) (a : MonoArgs) : Prop :=
  a.bm.bmWidthBytes * a.bm.bmHeight ≤ 0xFFF0 ∧ int16 (a.bm.bmWidthBytes * 8) ≤ M8_SC_W ∧
    (a.bm.bmHeight : ℤ) ≤ m.scRows

instance : Decidable (a.Cacheable m) := by unfold Cacheable; infer_instance

/-- Where something is to be drawn, the destination's edges are `int`s, those of what would be sent
are among the engine's coordinates, and a bitmap that is kept is no wider than the cache. -/
def Fits (m : LendMode) (a : MonoArgs) : Prop :=
  a.Checks → a.Shown m → a.Sums ∧ a.Streamed ∧
    (a.Cacheable m → (8 * a.bm.bmWidthBytes : ℤ) ≤ M8_SC_W)

theorem shown_of {p : Pixel} (hp : p ∈ Rect.at a.dx a.dy a.w a.h) (hs : p ∈ OffScreen.screen m) :
    a.Shown m := by
  rw [Rect.mem_at] at hp
  rw [Rect.mem_iff] at hs
  unfold OffScreen.screen at hs
  unfold Shown
  dsimp only at hs
  omega

/-- So it has, where the sums leave a visible part. -/
theorem shown_of_visible (hne : ¬(a.visible m).Empty) : a.Shown m := by
  have hb := a.bounds
  unfold visible Rect.Empty Rect.inter OffScreen.screen at hne
  unfold Shown int16 at *
  dsimp only at hne
  omega

/-- The string cache's rows are not on the screen. -/
theorem not_screen (hm : m.Listed) {p : Pixel} (hp : p ∈ stringCache m) :
    p ∉ OffScreen.screen m := by
  obtain ⟨htop, -, -⟩ := m.scTop_bounds
  unfold LendMode.Listed m8Modes at hm
  simp only [List.mem_cons, Prod.mk.injEq, List.not_mem_nil, or_false] at hm
  rw [Rect.mem_iff] at hp ⊢
  unfold stringCache at hp
  unfold OffScreen.screen
  dsimp only at hp ⊢
  omega

/-- A bitmap that is too large has no copy. -/
theorem not_cached {hwOff : Bool} {s : StringCache} (h : hwOff = true ∨ ¬a.Cacheable m) :
    a.m8MonoCached m t E hwOff s c = (false, s, c) := by
  obtain ⟨-, -, hrows⟩ := m.scTop_bounds
  unfold m8MonoCached
  by_cases hlarge : 0xFFF0 < a.bm.bmWidthBytes * a.bm.bmHeight
  · rw [if_pos hlarge]
  · rw [if_neg hlarge, StringCache.m8ScGetH, if_pos]
    unfold Cacheable at h
    unfold whole
    dsimp only
    rcases h with h | h
    · exact Or.inl h
    · by_cases hwide : int16 (a.bm.bmWidthBytes * 8) ≤ M8_SC_W
      · have hhigh : m.scRows.toNat < a.bm.bmHeight := by omega
        exact Or.inr (Or.inr (Or.inr (Or.inl hhigh)))
      · exact Or.inr (Or.inr (Or.inl (by omega)))

/-- What a blit leaves : the cache as it has to be, and what is wanted. -/
theorem m8MonoBlt_spec (hm : m.Listed) {B : Set MonoBits} (hB : NoCollision B) {s : StringCache}
    (h : ScHolds m B s c) (hb : a.whole t ∈ B) (hfits : a.Fits m) (hwOff : Bool) :
    let r := a.m8MonoBlt m t E hwOff s c
    ScHolds m B r.2.1 r.2.2 ∧ (hwOff = false → ∀ p ∉ stringCache m,
      r.2.2 p = if r.1 = true then a.wanted m t E c p else c p) := by
  unfold m8MonoBlt
  by_cases hchecks : a.Checks
  swap
  · rw [if_neg hchecks]
    exact ⟨h, fun _ _ _ => rfl⟩
  rw [if_pos hchecks]
  by_cases hempty : (a.visible m).Empty
  · rw [if_pos hempty]
    refine ⟨h, fun _ p _ => ?_⟩
    rw [if_pos rfl, wanted, if_neg]
    rintro ⟨hp, hs⟩
    exact hempty.not_mem ((mem_visible (hfits hchecks (shown_of hp hs)).1).mpr ⟨hp, hs⟩)
  rw [if_neg hempty]
  obtain ⟨hsums, hst, hwide⟩ := hfits hchecks (shown_of_visible hempty)
  have hseg : a.bm.bmSegmentIndex = 0 := hchecks.2.2.2.1
  have hbuf : a.wb * a.h ≤ M8_BUF_BYTES := hchecks.2.2.2.2.2.2.2.2
  have hrows : ∀ c' p, p ∈ stringCache m → a.wanted m t E c' p = c' p := fun c' p hp => by
    rw [wanted, if_neg]
    rintro ⟨-, hs⟩
    exact not_screen hm hp hs
  have hsend : ∀ {s' : StringCache} {c' : Card}, ScHolds m B s' c' →
      (∀ p ∉ stringCache m, c' p = c p) →
      ScHolds m B s' (a.stream m t E hwOff c') ∧ (hwOff = false → ∀ p ∉ stringCache m,
        a.stream m t E hwOff c' p = a.wanted m t E c p) := by
    intro s' c' h' hc'
    cases hwOff with
    | true =>
      have hnone : a.stream m t E true c' = c' := by
        unfold stream MonoEngine.m8HwMonoRows MonoEngine.m8HwMono
        dsimp only
        split_ifs <;> simp_all
      rw [hnone]
      exact ⟨h', fun h => by cases h⟩
    | false =>
      refine ⟨h'.congr fun p hp => ?_, fun _ p hp => ?_⟩
      · rw [stream_wanted hseg hbuf hsums hst, hrows c' p hp]
      · rw [stream_wanted hseg hbuf hsums hst, wanted, wanted, hc' p hp]
  by_cases hcopy : hwOff = true ∨ ¬a.Cacheable m
  · rw [not_cached hcopy]
    exact ⟨(hsend h fun _ _ => rfl).1, fun hon p hp => by
      rw [if_pos rfl]
      exact (hsend h fun _ _ => rfl).2 hon p hp⟩
  push Not at hcopy
  obtain ⟨hon, hcacheable⟩ := hcopy
  have hle := hwide hcacheable
  have hwb : 8 * (a.whole t).wb < 32768 := by
    unfold whole
    unfold M8_SC_W M8_CURSOR_SAVE_X M8_PITCH at hle
    dsimp only
    omega
  obtain ⟨-, -, -, hmax⟩ := m.scTop_bounds
  have hrowsMax : m.scRows.toNat < 32768 := by omega
  have hget := h.m8ScGetH (E := E) hB hb hwb hrowsMax hwOff false
  rw [m8MonoCached, if_neg (by have := hcacheable.1; omega)]
  generalize s.m8ScGetH E m hwOff (a.whole t) m.scRows.toNat false c = got at hget
  obtain ⟨_ | e, s', c'⟩ := got
  · obtain ⟨h', hc', -⟩ := hget
    exact ⟨(hsend h' hc').1, fun hon p hp => by
      rw [if_pos rfl]
      exact (hsend h' hc').2 hon p hp⟩
  · obtain ⟨h', hc', he⟩ := hget
    obtain ⟨hkept, hslot, hew, heh⟩ := he e rfl
    obtain rfl := Bool.eq_false_iff.mpr hon
    have hcopied := fun p => copy_wanted (E := E) hm hsums hempty hkept hslot hew heh p
    refine ⟨h'.congr fun p hp => ?_, fun _ p hp => ?_⟩
    · dsimp only
      rw [hcopied, hrows c' p hp]
    · dsimp only
      rw [hcopied, if_pos rfl, wanted, wanted, hc' p hp]

end MonoArgs

/-! ## Runs -/

/-- The string cache and the card, and whether DOS has the screen. -/
structure MonoState where
  sc : StringCache
  hwOff : Bool
  card : Card

/-- What is done with them : a string's lookup, a bitmap to the screen, a flush, Direct3D's second
page taken and given back, the screen given to DOS and taken back, and anything else that draws. -/
inductive ScOp
  | get (b : MonoBits) (force : Bool)
  | mono (a : MonoArgs) (t : MonoRest)
  | flush
  | lend (on : Bool)
  | suspend
  | resume
  | draw (f : Card)

/-- Others draw outside of the cache's rows, as long as it has them. -/
def drawElsewhere (m : LendMode) (s : MonoState) (f : Card) : Card := fun p =>
  if p ∈ stringCache m ∧ s.sc.off = false ∧ s.hwOff = false then s.card p else f p

def scStep (E : MonoEngine) (m : LendMode) (s : MonoState) : ScOp → MonoState
  | .get b force =>
    let r := s.sc.m8ScGet E m s.hwOff b force s.card
    { s with sc := r.2.1, card := r.2.2 }
  | .mono a t =>
    let r := a.m8MonoBlt m t E s.hwOff s.sc s.card
    { s with sc := r.2.1, card := r.2.2 }
  | .flush => { s with sc := s.sc.flush }
  | .lend on => { s with sc := { (if on = true then s.sc.flush else s.sc) with off := on } }
  | .suspend => { s with sc := s.sc.flush, hwOff := true }
  | .resume => { s with sc := s.sc.flush, hwOff := false }
  | .draw f => { s with card := drawElsewhere m s f }

/-- The bitmap that a step looks up. -/
def ScOp.asks : ScOp → Option MonoBits
  | .get b _ => some b
  | .mono a t => some (a.whole t)
  | _ => none

/-- A string's bitmap is no wider than an `int`, and a blit is one that fits. -/
def ScOp.Fits (m : LendMode) : ScOp → Prop
  | .get b _ => 8 * b.wb < 32768
  | .mono a _ => a.Fits m
  | _ => True

/-- A run from where the cache was flushed. -/
def scRun (E : MonoEngine) (m : LendMode) (s : MonoState) (ops : List ScOp) : MonoState :=
  ops.foldl (scStep E m) { s with sc := s.sc.flush }

namespace MonoState

variable {m : LendMode} {B : Set MonoBits} {E : MonoEngine} {s : MonoState}

/-- The entries hold what they have to, and there is none while others have the rows. -/
structure Ok (m : LendMode) (B : Set MonoBits) (s : MonoState) : Prop where
  holds : ScHolds m B s.sc s.card
  away : s.sc.off = true ∨ s.hwOff = true → s.sc.scs.sc = []

/-- A cache that others have the rows of gives nothing. -/
theorem get_away {b : MonoBits} {maxH : ℕ} {force : Bool} (h : s.sc.off = true ∨ s.hwOff = true) :
    s.sc.m8ScGetH E m s.hwOff b maxH force s.card = (none, s.sc, s.card) := by
  rw [StringCache.m8ScGetH, if_pos (by tauto)]

theorem Ok.flush {sc : StringCache} {hwOff : Bool} {c : Card} :
    Ok m B ⟨sc.flush, hwOff, c⟩ := ⟨.flush sc c, fun _ => rfl⟩

/-- A lookup, of a string or of a bitmap. -/
theorem Ok.get (h : Ok m B s) (hB : NoCollision B) {b : MonoBits} (hb : b ∈ B)
    (hwb : 8 * b.wb < 32768) (force : Bool) : Ok m B (scStep E m s (.get b force)) := by
  refine ⟨(h.holds.m8ScGetH hB hb hwb (by decide) s.hwOff force).1, fun haway => ?_⟩
  unfold scStep StringCache.m8ScGet at haway ⊢
  dsimp only at haway ⊢
  rw [StringCache.m8ScGetH_off] at haway
  rw [get_away haway]
  exact h.away haway

theorem cached_away {a : MonoArgs} {t : MonoRest} (h : s.sc.off = true ∨ s.hwOff = true) :
    a.m8MonoCached m t E s.hwOff s.sc s.card = (false, s.sc, s.card) := by
  rw [MonoArgs.m8MonoCached, get_away h]
  split_ifs <;> rfl

theorem mono_away {a : MonoArgs} {t : MonoRest} (h : s.sc.off = true ∨ s.hwOff = true) :
    (a.m8MonoBlt m t E s.hwOff s.sc s.card).2.1 = s.sc := by
  rw [MonoArgs.m8MonoBlt, cached_away h]
  split_ifs <;> rfl

theorem mono_off {a : MonoArgs} {t : MonoRest} :
    (a.m8MonoBlt m t E s.hwOff s.sc s.card).2.1.off = s.sc.off := by
  have hoff := @StringCache.m8ScGetH_off s.sc E m s.hwOff (a.whole t) m.scRows.toNat false s.card
  unfold MonoArgs.m8MonoBlt MonoArgs.m8MonoCached
  generalize s.sc.m8ScGetH E m s.hwOff (a.whole t) m.scRows.toNat false s.card = got at hoff ⊢
  by_cases hlarge : 0xFFF0 < a.bm.bmWidthBytes * a.bm.bmHeight
  · rw [if_pos hlarge]
    split_ifs <;> rfl
  · rw [if_neg hlarge]
    obtain ⟨_ | e, s', c'⟩ := got
    · split_ifs
      · rfl
      · exact hoff
      · rfl
    · split_ifs
      · rfl
      · exact hoff
      · rfl

/-- What one step keeps. -/
theorem Ok.step (hm : m.Listed) (hB : NoCollision B) (h : Ok m B s) {op : ScOp}
    (hop : op.Fits m) (hask : ∀ b, op.asks = some b → b ∈ B) : Ok m B (scStep E m s op) := by
  cases op with
  | get b force => exact h.get hB (hask b rfl) hop force
  | mono a t =>
    refine ⟨(MonoArgs.m8MonoBlt_spec hm hB h.holds (hask _ rfl) hop s.hwOff).1, fun haway => ?_⟩
    unfold scStep at haway ⊢
    dsimp only at haway ⊢
    rw [mono_off] at haway
    rw [mono_away haway]
    exact h.away haway
  | flush => exact .flush
  | lend on =>
    cases on with
    | true => exact ⟨⟨.scFlush, rfl, fun e he => by cases he⟩, fun _ => rfl⟩
    | false => exact ⟨⟨h.holds.ok, h.holds.length, h.holds.holds⟩,
        fun haway => h.away (haway.imp (fun hoff => by cases hoff) id)⟩
  | suspend => exact .flush
  | resume => exact .flush
  | draw f =>
    refine ⟨?_, h.away⟩
    by_cases haway : s.sc.off = true ∨ s.hwOff = true
    · refine ⟨h.holds.ok, h.holds.length, fun e he => ?_⟩
      have hnone := (List.of_mem_zip he).1
      unfold scStep at hnone
      rw [h.away haway] at hnone
      cases hnone
    · rw [not_or, Bool.not_eq_true, Bool.not_eq_true] at haway
      exact h.holds.congr fun p hp => if_pos ⟨hp, haway⟩

/-- What a run keeps. -/
theorem Ok.run (hm : m.Listed) (hB : NoCollision B) : ∀ (ops : List ScOp) {s : MonoState},
    Ok m B s → (∀ op ∈ ops, op.Fits m ∧ ∀ b, op.asks = some b → b ∈ B) →
      Ok m B (ops.foldl (scStep E m) s)
  | [], _, h, _ => h
  | op :: ops, _, h, hops => by
    have hop := hops op List.mem_cons_self
    exact run hm hB ops (h.step hm hB hop.1 hop.2) fun op' hop' =>
      hops op' (List.mem_cons_of_mem op hop')

end MonoState

/-! ## The claim -/

namespace MonoArgs

variable {m : LendMode} {a : MonoArgs}

/-- Whatever has been looked up before, and whatever the bits, the mix and the colours are, what is
wanted is drawn. -/
def Agrees (m : LendMode) (a : MonoArgs) : Prop :=
  ∀ (E : MonoEngine) (B : Set MonoBits) (s : MonoState) (ops : List ScOp) (t : MonoRest),
    NoCollision B → (∀ op ∈ ops, op.Fits m ∧ ∀ b, op.asks = some b → b ∈ B) → a.whole t ∈ B →
      (scRun E m s ops).hwOff = false →
        a.Exact m t E (scRun E m s ops).sc (scRun E m s ops).card

/-- An engine that leaves what it does not take. -/
noncomputable def idleEngine : MonoEngine := by
  classical
  exact {
    mixed := fun mix fg bg _ => if mix = M8_MIX_SRC_FRGD ||| M8_MIX_REPLACE then fg else bg
    expand := fun e c => if e.Takes then e.drawn _ c else c
    planes := fun b c => if b.Takes then b.drawn _ c else c
    mixed_fg := fun _ _ _ => rfl
    mixed_bg := fun _ _ _ => rfl
    expand_eq := fun _ _ h => if_pos h
    planes_eq := fun _ _ h => if_pos h }

/-- All bits set, and in white. -/
def white : MonoRest := ⟨fun _ => 0xFF, M8_MIX_REPLACE, ⟨0xFF, 0x00⟩⟩

/-- A pixel that is white in what is wanted and not in what is drawn. -/
theorem not_agrees_of (E : MonoEngine) (s : MonoState) (ops : List ScOp) (hm : m.Listed)
    (hops : ∀ op ∈ ops, op.Fits m ∧ op.asks = none) (hshown : a.Shown m)
    (hon : (scRun E m s ops).hwOff = false)
    (hdraws : (a.m8MonoBlt m white E false (scRun E m s ops).sc (scRun E m s ops).card).1 = true)
    (hblack : ∀ p, (a.m8MonoBlt m white E false (scRun E m s ops).sc
      (scRun E m s ops).card).2.2 p = 0) : ¬a.Agrees m := by
  intro h
  have hb := a.bounds
  have hpos : 0 < m.width ∧ 0 < m.height := by
    unfold LendMode.Listed m8Modes at hm
    simp only [List.mem_cons, Prod.mk.injEq, List.not_mem_nil, or_false] at hm
    omega
  have hexact := h E {a.whole white} s ops white
    (by rintro _ rfl _ rfl _ _ _ _ _ _ _; rfl)
    (fun op hop => ⟨(hops op hop).1, fun b hb => by rw [(hops op hop).2] at hb; cases hb⟩) rfl hon
  have hs : ((max a.dx 0, max a.dy 0) : Pixel) ∈ OffScreen.screen m := by
    rw [Rect.mem_iff]
    unfold Shown at hshown
    unfold OffScreen.screen
    dsimp only
    omega
  have hin : ((max a.dx 0, max a.dy 0) : Pixel) ∈ Rect.at a.dx a.dy a.w a.h := by
    rw [Rect.mem_at]
    unfold Shown at hshown
    dsimp only
    omega
  have hwhite := hexact _ fun hp => not_screen hm hp hs
  have hbit : a.bit white (max a.dx 0, max a.dy 0) = true := by
    unfold bit MonoBits.pixel pixelBit
    exact (Nat.testBit_two_pow_sub_one 8 _).trans (decide_eq_true (by omega))
  rw [if_pos hdraws, hblack, wanted, if_pos ⟨hin, hs⟩, hbit, if_pos rfl] at hwhite
  have hfg := E.mixed_fg 0xFF 0x00 ((scRun E m s ops).card (max a.dx 0, max a.dy 0))
  exact absurd (hwhite.trans hfg) (by decide)

/-- A row of bytes that cannot be as long as its last column says. -/
def Wide (wb : ℕ) : Prop := wb ≤ 4099 ∨ 61440 ≤ wb ∧ wb ≤ 61536

theorem wb_wide (a : MonoArgs) : Wide a.wb := by
  have hb := a.bounds
  unfold Wide wb toWord
  rcases @quot_cases (a.w + 7) (by omega) with hq | hq
  · rw [hq.2]
    omega
  · omega

theorem wb2_wide (a : MonoArgs) : Wide a.wb2 := by
  have hb := a.bounds
  have hc := a.column
  unfold Wide wb2 toWord
  rcases @quot_cases (a.shift + a.w + 7) (by omega) with hq | hq
  · rw [hq.2]
    omega
  · omega

/-- What is not among the engine's coordinates is not sent so that it is. -/
theorem idle_m8Mono {x y : ℤ} {wb h stride : ℕ} {bits : ℕ → UInt8} {ink : MonoInk} {clip : Rect}
    {mask : UInt8} {c : Card} (hwb : Wide wb) (hh : h < 32768)
    (hf : ¬MonoEngine.Fits x y wb h) :
    idleEngine.m8Mono x y wb h bits stride ink clip mask c = c := by
  unfold MonoEngine.m8Mono
  split_ifs with hnone
  · rfl
  · refine if_neg fun htakes => hf ?_
    have hcolumn := htakes.column
    have hcolumns := htakes.columns
    have hrows := htakes.rows
    unfold Wide at hwb
    simp only [M8_EXPAND_X_MIN, M8_EXPAND_X_MAX, M8_COORD_MIN, M8_COORD_MAX, int16]
      at hcolumn hcolumns hrows
    refine ⟨htakes.column, ⟨by omega, ?_⟩, htakes.rows.1, by omega, ?_⟩
    · unfold M8_COORD_MAX
      omega
    · unfold M8_COORD_MAX
      omega

/-- Nothing is drawn by sums that wrap. -/
theorem visible_empty (hsums : ¬a.Sums) : (a.visible m).Empty := by
  have hb := a.bounds
  unfold Sums at hsums
  unfold visible Rect.Empty Rect.inter OffScreen.screen int16
  dsimp only
  omega

theorem idle_stream {t : MonoRest} {c : Card} (hst : ¬a.Streamed) :
    a.stream m t idleEngine false c = c := by
  have hb := a.bounds
  unfold Streamed at hst
  unfold stream MonoEngine.m8HwMonoRows MonoEngine.m8HwMono
  by_cases hplace : a.InPlace
  · rw [if_pos hplace] at hst ⊢
    by_cases hodd : false = true ∨ a.wb2 % 2 = 1
    · rw [if_pos hodd]
    · rw [if_neg hodd]
      exact idle_m8Mono a.wb2_wide (by omega) hst
  · rw [if_neg hplace] at hst ⊢
    rw [if_neg Bool.false_ne_true]
    exact idle_m8Mono a.wb_wide (by omega) hst

/-- The first place of a cache that was flushed. -/
theorem scAlloc_first {w h : ℤ} (hw : w ≤ M8_SC_W) (hh : h ≤ m.scRows) :
    ∃ t, ScCache.scFlush.scAlloc m w h = (some (0, m.scTop), t) := by
  refine ⟨{ ScCache.scFlush with x := 0 + w, shelf := if 0 < h then h else 0 }, ?_⟩
  show ScCache.scAllocIn m w h (7 + 1) .scFlush = _
  rw [ScCache.scAllocIn]
  dsimp only [ScCache.scFlush]
  have hnarrow : ¬M8_SC_W < 0 + w := by omega
  have hlow : 0 + h ≤ m.scRows := by omega
  simp only [if_neg hnarrow, if_pos hlow, Int.add_zero]

/-- Rows that are wider than the cache are not taken. -/
theorem idle_plane {c : Card} {y : ℤ} {wb h : ℕ} {bits : ℕ → UInt8} {plane : ℕ}
    (hwide : 32768 ≤ 8 * wb) (hbytes : wb * h ≤ 0xFFF0) (hy : 0 ≤ y ∧ y + h ≤ M8_COORD_MAX) :
    idleEngine.m8HwMonoPlane false 0 y wb h bits plane c = c := by
  rw [MonoEngine.m8HwMonoPlane, if_neg Bool.false_ne_true, MonoEngine.m8Mono]
  split_ifs with hnone
  · rfl
  · refine if_neg fun htakes => ?_
    have hcolumns := htakes.columns.2
    have hbits := htakes.bits
    have hs : Sendable wb wb h := ⟨Or.inl rfl, by rw [Nat.mul_comm]; omega⟩
    unfold M8_COORD_MAX at hy hcolumns
    dsimp only at hcolumns hbits
    rw [hs.length, int16_eq (x := y + h) (by omega), show y + (h : ℤ) - y = h by omega,
      Int.sub_zero, Int.natCast_mul, Int.mul_comm (h : ℤ), ← Int.mul_assoc] at hbits
    have heq := Int.eq_of_mul_eq_mul_right (by omega) hbits
    omega

/-- White from a black plane of a black card. -/
theorem idle_planes {sx sy dx dy w h : ℤ} {plane : ℕ} (p : Pixel) :
    idleEngine.m8HwPlaneMixes false sx sy dx dy w h plane white.ink (fun _ => 0) p = 0 := by
  have hblack : (0 : UInt8).toNat.testBit plane ≠ true := by
    rw [UInt8.toNat_zero, Nat.zero_testBit]
    decide
  rw [MonoEngine.m8HwPlaneMixes]
  by_cases hsize : false = true ∨ w ≤ 0 ∨ h ≤ 0
  · rw [if_pos hsize]
  rw [if_neg hsize]
  by_cases htakes : PlaneBlit.Takes ⟨sx, sy, dx, dy, w, h, plane, white.ink.fgMix, white.ink.fg,
      white.ink.bgMix, white.ink.bg⟩
  · refine (congrFun (if_pos htakes) p).trans ?_
    unfold PlaneBlit.drawn
    dsimp only
    rw [if_neg hblack]
    exact ite_eq_right_iff.mpr fun _ => if_neg (by decide)
  · exact congrFun (if_neg htakes) p

/-- A bitmap that is wider than the cache leaves its plane black, and so what is drawn of it. -/
theorem idle_cached (hcopy : a.Cacheable m) (hwide : M8_SC_W < (8 * a.bm.bmWidthBytes : ℤ))
    {s : StringCache} (hoff : s.off = false) (hempty : s.scs = .scFlush ∧ s.hashes = [])
    (hseen : ∀ k, s.seen k = (a.whole white).hashes.1) :
    ∃ s', a.m8MonoCached m white idleEngine false s (fun _ => 0) = (true, s', fun _ => 0) := by
  have hrows := a.rows
  obtain ⟨hbytes, hint, hhigh⟩ := hcopy
  obtain ⟨htop, hbottom, -, hmax⟩ := m.scTop_bounds
  have hsc : M8_SC_W = 992 := rfl
  have hbig : 32768 ≤ 8 * a.bm.bmWidthBytes := by
    unfold int16 at hint
    omega
  have hcheck : ¬(false = true ∨ s.off = true ∨ M8_SC_W < int16 ((a.whole white).wb * 8) ∨
      m.scRows.toNat < (a.whole white).h ∨ m.scRows < int16 (a.whole white).h) := by
    unfold whole
    dsimp only
    rw [hoff, int16_eq (x := a.bm.bmHeight) (by omega)]
    simp
    omega
  have hfind : s.find (a.whole white) = none := by
    unfold StringCache.find
    rw [hempty.2, List.zip_nil_right]
    rfl
  have hseen' : ¬(false = false ∧ ∀ k, s.seen k ≠ (a.whole white).hashes.1) := fun h =>
    h.2 0 (hseen 0)
  have hroom : ¬M8_SC_ENTRIES ≤ s.scs.sc.length := by
    rw [hempty.1]
    decide
  obtain ⟨t, halloc⟩ := scAlloc_first (w := int16 ((a.whole white).wb * 8))
    (h := int16 (a.whole white).h) hint (by
      unfold whole
      dsimp only
      rw [int16_eq (by omega)]
      exact hhigh)
  rw [m8MonoCached, if_neg (by omega), StringCache.m8ScGetH, if_neg hcheck, hfind]
  dsimp only
  rw [if_neg hseen', if_neg hroom, StringCache.store, hempty.1, halloc]
  dsimp only
  rw [idle_plane (by exact hbig) (by exact hbytes) ⟨by omega, by
    unfold whole M8_COORD_MAX
    dsimp only
    omega⟩]
  exact ⟨_, Prod.ext rfl (Prod.ext rfl (funext fun p => idle_planes p))⟩

/-- What is shown is visible, if the sums do not wrap. -/
theorem visible_some (hm : m.Listed) (hshown : a.Shown m) (hsums : a.Sums) :
    ¬(a.visible m).Empty := by
  have hb := a.bounds
  unfold LendMode.Listed m8Modes at hm
  simp only [List.mem_cons, Prod.mk.injEq, List.not_mem_nil, or_false] at hm
  unfold Shown at hshown
  unfold Sums at hsums
  rw [visible, int16_eq (by omega), int16_eq (by omega)]
  unfold Rect.Empty Rect.inter OffScreen.screen
  dsimp only
  omega

/-- A black card, and a cache that has seen the bitmap once. -/
def onceSeen (a : MonoArgs) : MonoState :=
  ⟨⟨.scFlush, [], fun _ => (a.whole white).hashes.1, 0, false⟩, false, fun _ => 0⟩

theorem agrees_of_fits (hm : m.Listed) (h : a.Fits m) : a.Agrees m := by
  intro E B s ops t hB hops hb hon p hp
  have hok : (scRun E m s ops).Ok m B := MonoState.Ok.run hm hB ops .flush hops
  exact (m8MonoBlt_spec hm hB hok.holds hb h false).2 rfl p hp

theorem not_agrees (hm : m.Listed) (h : ¬a.Fits m) : ¬a.Agrees m := by
  unfold Fits at h
  push Not at h
  obtain ⟨hchecks, hshown, hfails⟩ := h
  by_cases hsums : a.Sums
  swap
  · have hblt : a.m8MonoBlt m white idleEngine false (onceSeen a).sc (fun _ => 0) =
        (true, (onceSeen a).sc, fun _ => 0) := by
      rw [m8MonoBlt, if_pos hchecks, if_pos (visible_empty hsums)]
    exact not_agrees_of idleEngine (onceSeen a) [] hm (fun _ h => nomatch h)
      hshown rfl (congrArg Prod.fst hblt) fun p => congrFun (congrArg (·.2.2) hblt) p
  have hvisible := visible_some hm hshown hsums
  by_cases hst : a.Streamed
  swap
  · have hcached : a.m8MonoCached m white idleEngine false
        (scRun idleEngine m (onceSeen a) [.lend true]).sc (fun _ => 0) =
          (false, (scRun idleEngine m (onceSeen a) [.lend true]).sc, fun _ => 0) :=
      MonoState.cached_away (s := scRun idleEngine m (onceSeen a) [.lend true]) (Or.inl rfl)
    have hblt : a.m8MonoBlt m white idleEngine false
        (scRun idleEngine m (onceSeen a) [.lend true]).sc (fun _ => 0) =
          (true, (scRun idleEngine m (onceSeen a) [.lend true]).sc, fun _ => 0) := by
      rw [m8MonoBlt, if_pos hchecks, if_neg hvisible, hcached]
      exact congrArg (fun c => (true, _, c)) (idle_stream hst)
    exact not_agrees_of idleEngine (onceSeen a) [.lend true] hm
      (fun op h => by rw [List.mem_singleton.mp h]; exact ⟨trivial, rfl⟩) hshown rfl
      (congrArg Prod.fst hblt) fun p => congrFun (congrArg (·.2.2) hblt) p
  · obtain ⟨hcopy, hwide⟩ := hfails hsums hst
    obtain ⟨s', hcached⟩ := idle_cached hcopy hwide (s := (onceSeen a).sc.flush) rfl ⟨rfl, rfl⟩
      fun _ => rfl
    have hblt : a.m8MonoBlt m white idleEngine false (onceSeen a).sc.flush (fun _ => 0) =
        (true, s', fun _ => 0) := by
      rw [m8MonoBlt, if_pos hchecks, if_neg hvisible, hcached]
    exact not_agrees_of idleEngine (onceSeen a) [] hm (fun _ h => nomatch h)
      hshown rfl (congrArg Prod.fst hblt) fun p => congrFun (congrArg (·.2.2) hblt) p

/-- A bitmap is drawn as wanted, from its copy or sent in one of two ways, exactly if it fits. -/
theorem m8_mono_blt_exact_iff (m : LendMode) (hm : m.Listed) (a : MonoArgs) :
    a.Agrees m ↔ a.Fits m :=
  ⟨fun h => by_contra fun hfits => not_agrees hm hfits h, agrees_of_fits hm⟩

/-- An icon's mask, at the left edge of the screen. -/
def iconMask : MonoArgs where
  bm := ⟨0, 32, 32, 4, 1, 1, 0⟩
  sx := 3
  sy := 1
  dx := -5
  dy := 10
  w := 27
  h := 30
  ints := by decide
  inside := by decide
  rows := by decide
  segment := by decide

theorem m8_mono_blt_exact_iff_icon : mode640.Listed ∧ iconMask.Agrees mode640 :=
  ⟨by decide, (m8_mono_blt_exact_iff mode640 (by decide) iconMask).mpr fun _ _ =>
    ⟨by unfold Sums; decide, by
      unfold Streamed
      rw [if_pos (by decide)]
      exact ⟨by decide, by decide, by decide, by decide⟩, by decide⟩⟩

/-- Eight columns of a bitmap of 32767. -/
def wideMask : MonoArgs where
  bm := ⟨0, 32767, 8, 4096, 1, 1, 0⟩
  sx := 0
  sy := 0
  dx := 0
  dy := 0
  w := 8
  h := 8
  ints := by decide
  inside := by decide
  rows := by decide
  segment := by decide

/-- Its copy is 32768 columns wide, which is -32768 as an `int` and passes for narrow. -/
theorem m8_mono_blt_too_wide : ¬wideMask.Agrees mode640 :=
  not_agrees (by decide) fun h => by
    have hwide := (h (by decide) (by unfold Shown; decide)).2.2 (by decide)
    exact absurd hwide (by decide)

end MonoArgs

end Inboard
