import Inboard.Fallback

/-!
# Figures in strips

`Output` of screen.c, where the engine cannot draw a figure : the clip is shrunk to what the
figure's points name, and in strips aligned to 8 `m8_draw_output` moves the figure's points to
the strip's corner, so that the DIB Engine can draw on a device of the strip's size. The points
are moved into a buffer of `M8_OUT_MAX_PTS`, and of a scan list's records only those with a row
in the strip, cut to its rows.

`DibEngine` is what the DIB Engine does with a pen, brush and ROP. A list that is longer than
the buffer is not drawn at all, nor is a strip with more of a scan list than fits ; and an
`int` has 16 bits, so far-off coordinates wrap round as they are moved or as a margin is added.
-/

set_option linter.unusedSectionVars false

namespace Inboard

/-! ## Figures -/

/-- A record of OS_POLYSCANLINE : its rows, and the x values of its spans. -/
structure ScanRec where
  top : ℤ
  bottom : ℤ
  xs : List ℤ

/-- What `Output` is to draw, by its style : OS_SCANLINES with its row, the first point's other
word, and the spans ; OS_POLYSCANLINE ; or another style with its points. -/
inductive Figure
  | scanlines (first y : ℤ) (spans : List Pixel)
  | polyScanline (recs : List ScanRec)
  | shape (style : ℕ) (points : List Pixel)

/-- The styles drawn inside their points' box : OS_POLYLINE, OS_POLYGON, OS_WINDPOLYGON,
OS_RECTANGLE, OS_ELLIPSE, OS_ARC, OS_PIE, OS_CHORD and OS_POLYBEZIER. -/
def boxedStyles : List ℕ := [18, 22, 20, 6, 7, 3, 23, 39, 1]

namespace ScanRec

/-- The words of a record. -/
def words (r : ScanRec) : ℕ := r.xs.length + 4

def translate (r : ScanRec) (dx dy : ℤ) : ScanRec := ⟨r.top + dy, r.bottom + dy, r.xs.map (· + dx)⟩

/-- No span of these x values is over column `x`. -/
def Past (xs : List ℤ) (x : ℤ) : Prop := (∀ x' ∈ xs, x < x') ∨ ∀ x' ∈ xs, x' ≤ x

instance (xs : List ℤ) (x : ℤ) : Decidable (Past xs x) := by unfold Past; infer_instance

/-- The x values that a list has for row `y`. -/
def inRow (recs : List ScanRec) (y : ℤ) : List (List ℤ) :=
  (recs.filter fun r => r.top ≤ y ∧ y < r.bottom).map xs

end ScanRec

namespace Figure

/-- `wCount`. -/
def count : Figure → ℕ
  | scanlines _ _ spans => spans.length + 1
  | polyScanline recs => recs.length
  | shape _ points => points.length

def translate (dx dy : ℤ) : Figure → Figure
  | scanlines first y spans => scanlines first (y + dy) (spans.map fun s => (s.1 + dx, s.2 + dx))
  | polyScanline recs => polyScanline (recs.map (·.translate dx dy))
  | shape style points => shape style (points.map fun p => (p.1 + dx, p.2 + dy))

/-- A pixel that the figure does not touch : of a scan list, one in no span of its row ; of a
style drawn inside its points' box, one outside with a margin for the pen. -/
def Misses : Figure → Pixel → Prop
  | scanlines _ y spans, p => p.2 ≠ y ∨ ∀ s ∈ spans, p.1 < s.1 ∨ s.2 ≤ p.1
  | polyScanline recs, p => ∀ xs ∈ ScanRec.inRow recs p.2, ScanRec.Past xs p.1
  | shape style points, p => style ∈ boxedStyles ∧
      ((∀ q ∈ points, p.1 < q.1 - 4) ∨ (∀ q ∈ points, p.2 < q.2 - 4) ∨
        (∀ q ∈ points, q.1 + 5 ≤ p.1) ∨ ∀ q ∈ points, q.2 + 5 ≤ p.2)

end Figure

/-- `DIB_Output` with one pen, brush and ROP, on a device of some width and height. It clips
exactly and draws each pixel by what is there, it does not see a move by multiples of 8 of
device and figure, and a row of a scan list is drawn by the records with that row. -/
structure DibEngine where
  output : Figure → (width height : ℤ) → Rect → Card → Card
  pel : Figure → Pixel → UInt8 → UInt8
  clips : ∀ fig w h clip bits p, output fig w h clip bits p =
    if p ∈ clip ∧ p ∈ Rect.mk 0 0 w h then pel fig p (bits p) else bits p
  moves : ∀ fig i j p old,
    pel (fig.translate (8 * i) (8 * j)) (p.1 + 8 * i, p.2 + 8 * j) old = pel fig p old
  misses : ∀ fig p old, fig.Misses p → pel fig p old = old
  rows : ∀ recs recs' p old, ScanRec.inRow recs p.2 = ScanRec.inRow recs' p.2 →
    pel (.polyScanline recs) p old = pel (.polyScanline recs') p old

/-! ## The callback -/

/-- `M8_OUT_MAX_PTS`. -/
def M8_OUT_MAX_PTS : ℕ := 1024

/-- `m8_scan_shift` with `j` words written : the records, or none if they do not fit. -/
def m8ScanShift (x0 y0 h : ℤ) : List ScanRec → (j : ℕ) → Option (List ScanRec)
  | [], _ => some []
  | r :: rest, j =>
    let top := max (int16 (r.top - y0)) 0
    let bot := min (int16 (r.bottom - y0)) h
    if top < bot then
      if j + r.words > M8_OUT_MAX_PTS * 2 then none
      else (m8ScanShift x0 y0 h rest (j + r.words)).map
        (⟨top, bot, r.xs.map fun x => int16 (x - x0)⟩ :: ·)
    else m8ScanShift x0 y0 h rest j

/-- What `m8_draw_output` passes on for a strip with corner (`x0`, `y0`) and `h` rows. -/
def Figure.shift (x0 y0 h : ℤ) : Figure → Option Figure
  | scanlines first y spans =>
    if y < y0 ∨ y ≥ y0 + h then none
    else some (scanlines first (int16 (y - y0))
      (spans.map fun s => (int16 (s.1 - x0), int16 (s.2 - x0))))
  | polyScanline recs =>
    match m8ScanShift x0 y0 h recs 0 with
    | none => none
    | some [] => none
    | some (r :: rs) => some (polyScanline (r :: rs))
  | shape style points =>
    some (shape style (points.map fun p => (int16 (p.1 - x0), int16 (p.2 - y0))))

/-- `DIB_Output` on the part of a strip's device from (`x0`, `y0`) that is `w` by `h`. -/
def M8Strip.output (s : M8Strip) (E : DibEngine) (fig : Figure) (x0 y0 w h : ℤ) (tc : Rect) :
    M8Strip :=
  { s with
    bits := (Rect.at x0 y0 w h).store s.addr (fun q =>
      E.output fig w h tc (fun p => s.pix (p.1 + x0, p.2 + y0)) (q.1 - x0, q.2 - y0)) s.bits }

/-- `m8_draw_output`. -/
def m8DrawOutput (E : DibEngine) (m : M8Mode) (fig : Figure) : M8Draw := fun dev c st =>
  let x0 := c.left / 8 * 8
  let y0 := c.top / 8 * 8
  let r := min ((c.right + 1) / 2 * 2) m.x
  let w := r - x0
  let h := c.bottom - y0
  let tc : Rect := ⟨c.left - x0, c.top - y0, c.right - x0, c.bottom - y0⟩
  if fig.count > M8_OUT_MAX_PTS then st
  else
    match fig.shift x0 y0 h with
    | none => st
    | some moved =>
      match dev with
      | .dst => { st with dst := st.dst.output E moved x0 y0 w h tc }
      | .src => { st with src := st.src.output E moved x0 y0 w h tc }

/-! ## The bound -/

/-- The box of a shape's points, with a margin for the pen. -/
def pointsBound (p : Pixel) (points : List Pixel) : Rect :=
  let r := points.foldl (fun r q => ⟨min r.left q.1, min r.top q.2, max r.right q.1,
    max r.bottom q.2⟩) (Rect.mk p.1 p.2 p.1 p.2)
  ⟨int16 (r.left - 4), int16 (r.top - 4), int16 (r.right + 5), int16 (r.bottom + 5)⟩

/-- A span of one row, in `m8_scan_bound`. -/
def spanBound (r : Rect) (s : Pixel) : Rect :=
  { r with left := min r.left s.1, right := max r.right (int16 (s.2 + 1)) }

/-- An x value of a record, in `m8_scan_bound`. -/
def recBound (rec : ScanRec) (r : Option Rect) (x : ℤ) : Option Rect :=
  let r := r.getD ⟨x, rec.top, int16 (x + 1), rec.bottom⟩
  some ⟨min r.left x, min r.top rec.top, max r.right (int16 (x + 1)), max r.bottom rec.bottom⟩

/-- `m8_scan_bound`. -/
def m8ScanBound : Figure → Option Rect
  | .scanlines _ _ [] => none
  | .scanlines _ y (s :: spans) =>
    some (spans.foldl spanBound ⟨s.1, y, int16 (s.2 + 1), int16 (y + 1)⟩)
  | .polyScanline recs => recs.foldl (fun r rec => rec.xs.foldl (recBound rec) r) none
  | .shape _ _ => none

/-- The clip, shrunk to the figure. -/
def outputBound (m : M8Mode) (clip : Option Rect) (fig : Figure) : Rect :=
  let bound := clip.getD m.screen
  match fig with
  | .shape style (p :: points) =>
    if style ∈ boxedStyles then bound.inter (pointsBound p points) else bound
  | fig =>
    match m8ScanBound fig with
    | none => bound
    | some r => bound.inter r

/-- `Output`, from where no engine path has taken the figure. -/
def outputFallback (E : DibEngine) (m : M8Mode) (clip : Option Rect) (fig : Figure)
    (st : FallbackState) : FallbackState :=
  m8FallbackAligned m (outputBound m clip fig) 1 false (m8DrawOutput E m fig) 8 st

/-! ## What is moved -/

/-- An `int`, or a `short`, that is not cut. -/
def FitsInt (z : ℤ) : Prop := -32768 ≤ z ∧ z < 32768

instance (z : ℤ) : Decidable (FitsInt z) := by unfold FitsInt; infer_instance

theorem int16_fits {z : ℤ} (h : FitsInt z) : int16 z = z := int16_eq h

/-- A record with a row in the strip. -/
def ScanRec.Meets (y0 h : ℤ) (r : ScanRec) : Prop :=
  r.top < r.bottom ∧ r.top < y0 + h ∧ y0 < r.bottom

instance (y0 h : ℤ) (r : ScanRec) : Decidable (r.Meets y0 h) := by
  unfold ScanRec.Meets; infer_instance

/-- The words of the records with a row in the strip. -/
def stripWords (y0 h : ℤ) (recs : List ScanRec) : ℕ :=
  ((recs.filter fun r => r.Meets y0 h).map ScanRec.words).sum

/-- `m8_draw_output` draws nothing of the figure in the strip, as the buffer is too small. -/
def Figure.Dropped (y0 h : ℤ) (fig : Figure) : Prop :=
  fig.count > M8_OUT_MAX_PTS ∨
    match fig with
    | polyScanline recs => stripWords y0 h recs > M8_OUT_MAX_PTS * 2
    | _ => False

/-- No number of the figure is cut as it is moved for the strip. -/
def Figure.Uncut (x0 y0 h : ℤ) : Figure → Prop
  | scanlines _ y spans =>
    y0 ≤ y → y < y0 + h → ∀ s ∈ spans, FitsInt (s.1 - x0) ∧ FitsInt (s.2 - x0)
  | polyScanline recs => ∀ r ∈ recs, FitsInt (r.top - y0) ∧ FitsInt (r.bottom - y0) ∧
      (r.Meets y0 h → ∀ x ∈ r.xs, FitsInt (x - x0))
  | shape _ points => ∀ p ∈ points, FitsInt (p.1 - x0) ∧ FitsInt (p.2 - y0)

section Shift

variable {x0 y0 h : ℤ} {fig : Figure} {p : Pixel}

theorem ScanRec.inRow_translate (dx dy y : ℤ) (recs : List ScanRec) :
    inRow (recs.map (·.translate dx dy)) (y + dy) = (inRow recs y).map (·.map (· + dx)) := by
  unfold inRow
  rw [List.filter_map, List.map_map, List.map_map]
  have hfilter : (recs.filter ((fun r => decide (r.top ≤ y + dy ∧ y + dy < r.bottom)) ∘
      (·.translate dx dy))) = recs.filter fun r => decide (r.top ≤ y ∧ y < r.bottom) := by
    refine List.filter_congr fun r _ => ?_
    exact decide_eq_decide.2 (by unfold translate; dsimp only; omega)
  rw [hfilter]
  rfl

/-- A record is kept if its rows, cut to the strip, are some. -/
theorem ScanRec.meets_iff {r : ScanRec} (hpos : 0 < h) :
    r.Meets y0 h ↔ max (r.top - y0) 0 < min (r.bottom - y0) h := by
  unfold Meets
  omega

theorem stripWords_meets {r : ScanRec} (rest : List ScanRec) (hr : r.Meets y0 h) :
    stripWords y0 h (r :: rest) = r.words + stripWords y0 h rest := by
  unfold stripWords
  rw [List.filter_cons_of_pos (by simpa using hr), List.map_cons, List.sum_cons]

theorem stripWords_not_meets {r : ScanRec} (rest : List ScanRec) (hr : ¬ r.Meets y0 h) :
    stripWords y0 h (r :: rest) = stripWords y0 h rest := by
  unfold stripWords
  rw [List.filter_cons_of_neg (by simpa using hr)]

theorem stripWords_le (y0 h : ℤ) : ∀ recs : List ScanRec,
    stripWords y0 h recs ≤ (recs.map ScanRec.words).sum
  | [] => Nat.le_refl 0
  | r :: rest => by
    have hrest := stripWords_le y0 h rest
    rw [List.map_cons, List.sum_cons]
    by_cases hr : r.Meets y0 h
    · rw [stripWords_meets rest hr]
      omega
    · rw [stripWords_not_meets rest hr]
      omega

/-- The records that fit have the strip's rows as the list had them. -/
theorem m8ScanShift_some (x0 : ℤ) (hpos : 0 < h) : ∀ (recs : List ScanRec) (j : ℕ),
    j + stripWords y0 h recs ≤ M8_OUT_MAX_PTS * 2 →
    (∀ r ∈ recs, FitsInt (r.top - y0) ∧ FitsInt (r.bottom - y0) ∧
      (r.Meets y0 h → ∀ x ∈ r.xs, FitsInt (x - x0))) →
    ∃ moved, m8ScanShift x0 y0 h recs j = some moved ∧ ∀ y, 0 ≤ y → y < h →
      ScanRec.inRow moved y = (ScanRec.inRow recs (y + y0)).map (·.map (· - x0))
  | [], j, _, _ => ⟨[], rfl, fun y _ _ => rfl⟩
  | r :: rest, j, hj, hfits => by
    obtain ⟨htop, hbot, hxs⟩ := hfits r List.mem_cons_self
    have hrest := fun r hr => hfits r (List.mem_cons_of_mem _ hr)
    rw [m8ScanShift, int16_fits htop, int16_fits hbot]
    by_cases hmeets : r.Meets y0 h
    · have hwords := stripWords_meets rest hmeets
      have hlt := (ScanRec.meets_iff hpos).1 hmeets
      obtain ⟨moved, hmoved, hrows⟩ := m8ScanShift_some x0 hpos rest (j + r.words) (by omega) hrest
      rw [if_pos hlt, if_neg (by omega), hmoved]
      refine ⟨_, rfl, fun y h0 hy => ?_⟩
      have hmap : r.xs.map (fun x => int16 (x - x0)) = r.xs.map (· - x0) :=
        List.map_congr_left fun x hx => int16_fits (hxs hmeets x hx)
      have hrow := hrows y h0 hy
      unfold ScanRec.inRow at hrow ⊢
      rw [hmap]
      by_cases hin : r.top ≤ y + y0 ∧ y + y0 < r.bottom
      · rw [List.filter_cons_of_pos (by simp only [decide_eq_true_eq]; omega),
          List.filter_cons_of_pos (by simpa using hin), List.map_cons, List.map_cons,
          List.map_cons, hrow]
      · rw [List.filter_cons_of_neg (by simp only [decide_eq_true_eq]; omega),
          List.filter_cons_of_neg (by simpa using hin), hrow]
    · have hwords := stripWords_not_meets rest hmeets
      have hlt := fun h => hmeets ((ScanRec.meets_iff hpos).2 h)
      obtain ⟨moved, hmoved, hrows⟩ := m8ScanShift_some x0 hpos rest j (by omega) hrest
      rw [if_neg hlt, hmoved]
      refine ⟨moved, rfl, fun y h0 hy => ?_⟩
      have hout : ¬ (r.top ≤ y + y0 ∧ y + y0 < r.bottom) := by
        unfold ScanRec.Meets at hmeets
        omega
      rw [hrows y h0 hy]
      unfold ScanRec.inRow
      rw [List.filter_cons_of_neg (by simpa using hout)]

/-- Records that do not fit are none. -/
theorem m8ScanShift_none (hpos : 0 < h) : ∀ (recs : List ScanRec) (j : ℕ),
    j ≤ M8_OUT_MAX_PTS * 2 → j + stripWords y0 h recs > M8_OUT_MAX_PTS * 2 →
    (∀ r ∈ recs, FitsInt (r.top - y0) ∧ FitsInt (r.bottom - y0)) →
    m8ScanShift x0 y0 h recs j = none
  | [], j, hj, hover, _ => absurd hover (Nat.not_lt.2 hj)
  | r :: rest, j, hj, hover, hfits => by
    obtain ⟨htop, hbot⟩ := hfits r List.mem_cons_self
    have hrest := fun r hr => hfits r (List.mem_cons_of_mem _ hr)
    rw [m8ScanShift, int16_fits htop, int16_fits hbot]
    by_cases hmeets : r.Meets y0 h
    · have hwords := stripWords_meets rest hmeets
      have hlt := (ScanRec.meets_iff hpos).1 hmeets
      rw [if_pos hlt]
      by_cases hfull : j + r.words > M8_OUT_MAX_PTS * 2
      · rw [if_pos hfull]
      · rw [if_neg hfull, m8ScanShift_none hpos rest _ (by omega) (by omega) hrest]
        rfl
    · have hwords := stripWords_not_meets rest hmeets
      have hlt := fun h => hmeets ((ScanRec.meets_iff hpos).2 h)
      rw [if_neg hlt]
      exact m8ScanShift_none hpos rest j hj (by omega) hrest

/-- In a strip, the moved figure draws as the figure does. -/
theorem shift_pel (E : DibEngine) (hx : 8 ∣ x0) (hy : 8 ∣ y0) (hh : 0 < h ∧ h < 32768)
    (hfits : fig.Uncut x0 y0 h) (hdrop : ¬ fig.Dropped y0 h) (hp : y0 ≤ p.2 ∧ p.2 < y0 + h)
    (old : UInt8) :
    E.pel fig p old = match fig.shift x0 y0 h with
      | none => old
      | some moved => E.pel moved (p.1 - x0, p.2 - y0) old := by
  obtain ⟨i, rfl⟩ := hx
  obtain ⟨j, rfl⟩ := hy
  have hmoves : E.pel (fig.translate (-(8 * i)) (-(8 * j))) (p.1 - 8 * i, p.2 - 8 * j) old =
      E.pel fig p old := by
    have h := E.moves fig (-i) (-j) p old
    rwa [Int.mul_neg, Int.mul_neg, ← Int.sub_eq_add_neg, ← Int.sub_eq_add_neg] at h
  rw [← hmoves]
  cases fig with
  | scanlines first y spans =>
    simp only [Figure.shift]
    by_cases hrow : y < 8 * j ∨ y ≥ 8 * j + h
    · rw [if_pos hrow]
      refine E.misses _ _ _ (.inl ?_)
      dsimp only
      omega
    · rw [if_neg hrow]
      unfold Figure.translate
      have hspans : spans.map (fun s => (int16 (s.1 - 8 * i), int16 (s.2 - 8 * i))) =
          spans.map (fun s => (s.1 + -(8 * i), s.2 + -(8 * i))) :=
        List.map_congr_left fun s hs => by
          obtain ⟨h1, h2⟩ := hfits (by omega) (by omega) s hs
          rw [int16_fits h1, int16_fits h2]
          rfl
      rw [hspans, int16_fits ⟨by omega, by omega⟩]
      rfl
  | polyScanline recs =>
    have hwords : ¬ stripWords (8 * j) h recs > M8_OUT_MAX_PTS * 2 := fun h => hdrop (.inr h)
    obtain ⟨moved, hmoved, hrows⟩ := m8ScanShift_some (8 * i) hh.1 recs 0 (by omega) hfits
    have hrow := hrows (p.2 - 8 * j) (by omega) (by omega)
    have htrans : ScanRec.inRow (recs.map (·.translate (-(8 * i)) (-(8 * j)))) (p.2 - 8 * j) =
        ScanRec.inRow moved (p.2 - 8 * j) := by
      rw [Int.sub_eq_add_neg, ScanRec.inRow_translate, ← Int.sub_eq_add_neg, hrow,
        Int.sub_add_cancel]
      rfl
    simp only [Figure.shift, Figure.translate]
    rw [E.rows _ _ _ _ htrans, hmoved]
    cases moved with
    | nil => exact E.misses _ _ _ fun xs hxs => by simp [ScanRec.inRow] at hxs
    | cons r rs => rfl
  | shape style points =>
    unfold Figure.shift Figure.translate
    dsimp only
    congr 2
    refine List.map_congr_left fun q hq => ?_
    obtain ⟨h1, h2⟩ := hfits q hq
    rw [int16_fits h1, int16_fits h2]
    rfl

end Shift

/-! ## What a strip draws -/

section Strip

variable {E : DibEngine} {m : M8Mode} {fig : Figure} {area bound : Rect} {clip : Option Rect}
  {st : FallbackState}

theorem pix_output {s : M8Strip} {x0 y0 w h : ℤ} {tc : Rect} {p : Pixel} (hs : s.Fits)
    (hplace : s.place = Rect.at x0 y0 w h) (hp : p ∈ s.place) :
    (s.output E fig x0 y0 w h tc).pix p =
      if (p.1 - x0, p.2 - y0) ∈ tc then E.pel fig (p.1 - x0, p.2 - y0) (s.pix p) else s.pix p := by
  have hstore := M8Strip.pix_store (r := Rect.at x0 y0 w h)
    (v := fun q => E.output fig w h tc (fun p => s.pix (p.1 + x0, p.2 + y0)) (q.1 - x0, q.2 - y0))
    hs (fun _ _ => rfl) (fun q hq => hplace ▸ hq) hp
  refine hstore.trans ?_
  rw [hplace] at hp
  rw [if_pos hp, E.clips]
  have hdev : ((p.1 - x0, p.2 - y0) : Pixel) ∈ Rect.mk 0 0 w h := by
    rw [Rect.mem_at] at hp
    rw [Rect.mem_iff]
    dsimp only
    omega
  have hback : ((p.1 - x0 + x0, p.2 - y0 + y0) : Pixel) = p :=
    Prod.ext (by dsimp only; omega) (by dsimp only; omega)
  dsimp only
  rw [hback]
  exact if_congr (and_iff_left hdev) rfl rfl

/-- The corner and the size of the callback's device are the strip's. -/
theorem strip_corner (hw : Widened m 8 area bound) {d : ℕ} (k : ℕ) (h8 : 8 ∣ d) :
    let c := stripClip area (stripRect bound false (d, k))
    (c.left / 8 * 8 = bound.left ∧ c.top / 8 * 8 = bound.top + d) ∧
      min ((c.right + 1) / 2 * 2) (m.x : ℤ) = bound.right ∧ c.bottom - (bound.top + d) = k := by
  have hleft := hw.left
  have hright := hw.right
  have htop := hw.top
  have hbottom := hw.bottom
  have heven := hw.even
  have height := hw.eight rfl
  have hx : 2 ∣ m.x := by
    have h := m.ok
    simp only [Prod.mk.injEq] at h
    omega
  have hrect : stripRect bound false (d, k) =
      ⟨bound.left, bound.top + d, bound.right, bound.top + d + k⟩ := rfl
  rw [hrect]
  unfold stripClip
  dsimp only
  omega

/-- Where nothing is cut, the callback draws the figure in its strip. -/
theorem m8DrawOutput_dst (hw : Widened m 8 area bound) {d k : ℕ} (hk : 0 < k)
    (hd : d + k ≤ (bound.bottom - bound.top).toNat) (h8 : 8 ∣ d) {t : FallbackState}
    (hplace : t.dst.place = stripRect bound false (d, k))
    (hpitch : t.dst.pitch = m8StripPitch bound)
    (hfits : fig.Uncut bound.left (bound.top + d) k)
    (hdrop : ¬ fig.Dropped (bound.top + d) k) :
    DrawsDst (m8DrawOutput E m fig) (E.pel fig)
      (stripClip area (stripRect bound false (d, k))) t := by
  have hbottom := hw.bottom
  have htop := hw.top
  have height := hw.eight rfl
  have hy : m.y < 32768 := by
    have h := m.ok
    simp only [Prod.mk.injEq] at h
    omega
  have hs := stripRect_of false hd hk
  have hsfits := strip_fits hs hplace hpitch
  have hrect : stripRect bound false (d, k) =
      ⟨bound.left, bound.top + d, bound.right, bound.top + d + k⟩ := rfl
  have hmem : ∀ p, p ∈ stripClip area (stripRect bound false (d, k)) ↔ _ := fun p =>
    mem_stripClip hw hs
  obtain ⟨⟨hx0, hy0⟩, hr, hb⟩ := strip_corner hw k h8
  generalize stripClip area (stripRect bound false (d, k)) = c at *
  rw [hrect] at hplace hmem
  have hpel : ∀ p ∈ t.dst.place, ∀ old, E.pel fig p old = _ := fun p hp old =>
    shift_pel E height.1.1 (show (8 : ℤ) ∣ bound.top + d by omega) ⟨by omega, by omega⟩ hfits hdrop
      (by rw [hplace, Rect.mem_iff] at hp; exact hp.2.2) old
  have hcount : ¬ fig.count > M8_OUT_MAX_PTS := fun h => hdrop (.inl h)
  cases hshift : fig.shift bound.left (bound.top + d) k with
  | none =>
    have hrun : m8DrawOutput E m fig .dst c t = t := by
      unfold m8DrawOutput
      dsimp only
      rw [if_neg hcount, hx0, hy0, hb, hshift]
    refine ⟨by rw [hrun], by rw [hrun], by rw [hrun], fun p hp => ?_⟩
    rw [hrun, hpel p hp, hshift, ite_self]
  | some moved =>
    have hrun : m8DrawOutput E m fig .dst c t =
        { t with
          dst := t.dst.output E moved bound.left (bound.top + d) (bound.right - bound.left) k
            ⟨c.left - bound.left, c.top - (bound.top + d), c.right - bound.left,
              c.bottom - (bound.top + d)⟩ } := by
      unfold m8DrawOutput
      dsimp only
      rw [if_neg hcount, hx0, hy0, hr, hb, hshift]
    refine ⟨by rw [hrun], by rw [hrun]; rfl, by rw [hrun]; rfl, fun p hp => ?_⟩
    have hplace' : t.dst.place =
        Rect.at bound.left (bound.top + d) (bound.right - bound.left) k := by
      rw [hplace]
      unfold Rect.at
      rw [Rect.mk.injEq]
      omega
    rw [hrun, hpel p hp, hshift]
    refine (pix_output hsfits hplace' hp).trans (if_congr ?_ rfl rfl)
    rw [Rect.mem_iff, Rect.mem_iff]
    dsimp only
    omega

/-- Where the buffer is too small, the callback leaves the strip alone. -/
theorem m8DrawOutput_dropped {c : Rect} (hpos : 0 < c.bottom - c.top / 8 * 8)
    (hcut : fig.Uncut (c.left / 8 * 8) (c.top / 8 * 8) (c.bottom - c.top / 8 * 8))
    (hdrop : fig.Dropped (c.top / 8 * 8) (c.bottom - c.top / 8 * 8)) :
    m8DrawOutput E m fig .dst c st = st := by
  unfold m8DrawOutput
  dsimp only
  by_cases hcount : fig.count > M8_OUT_MAX_PTS
  · rw [if_pos hcount]
  · rw [if_neg hcount]
    have hdrop := hdrop.resolve_left hcount
    cases fig with
    | scanlines first y spans => exact hdrop.elim
    | shape style points => exact hdrop.elim
    | polyScanline recs =>
      simp only [Figure.shift]
      rw [m8ScanShift_none hpos recs 0 (Nat.zero_le _) (by omega) fun r hr =>
        ⟨(hcut r hr).1, (hcut r hr).2.1⟩]

end Strip

/-! ## What the bound leaves out -/

/-- No margin or edge of the figure's bound is cut. -/
def Figure.BoundFits : Figure → Prop
  | scanlines _ y spans => FitsInt (y + 1) ∧ ∀ s ∈ spans, FitsInt (s.2 + 1)
  | polyScanline recs => ∀ r ∈ recs, ∀ x ∈ r.xs, FitsInt (x + 1)
  | shape style points => style ∈ boxedStyles → ∀ q ∈ points,
      (FitsInt (q.1 - 4) ∧ FitsInt (q.2 - 4)) ∧ FitsInt (q.1 + 5) ∧ FitsInt (q.2 + 5)

section Bound

variable {m : M8Mode} {clip : Option Rect} {fig : Figure} {p : Pixel}

/-- A box around a point, of which the margins fit. -/
def BoxHolds (r : Rect) (q : Pixel) : Prop :=
  r.left ≤ q.1 ∧ r.top ≤ q.2 ∧ q.1 ≤ r.right ∧ q.2 ≤ r.bottom

/-- Edges of which the margins fit. -/
def BoxFits (r : Rect) : Prop :=
  (FitsInt (r.left - 4) ∧ FitsInt (r.top - 4)) ∧ FitsInt (r.right + 5) ∧ FitsInt (r.bottom + 5)

theorem pointsBox_holds : ∀ (points : List Pixel) (r : Rect), BoxFits r →
    (∀ q ∈ points, BoxFits ⟨q.1, q.2, q.1, q.2⟩) →
    let r' := points.foldl (fun r q => ⟨min r.left q.1, min r.top q.2, max r.right q.1,
      max r.bottom q.2⟩) r
    BoxFits r' ∧ (∀ q, BoxHolds r q → BoxHolds r' q) ∧ ∀ q ∈ points, BoxHolds r' q
  | [], r, hr, _ => ⟨hr, fun _ h => h, fun q hq => by simp at hq⟩
  | q :: points, r, hr, hfits => by
    have hq := hfits q List.mem_cons_self
    have hnext : BoxFits ⟨min r.left q.1, min r.top q.2, max r.right q.1, max r.bottom q.2⟩ := by
      unfold BoxFits FitsInt at *
      dsimp only at *
      omega
    obtain ⟨hend, hkeeps, hall⟩ := pointsBox_holds points _ hnext fun q hq =>
      hfits q (List.mem_cons_of_mem _ hq)
    refine ⟨hend, fun q' h => hkeeps q' ?_, fun q' h => ?_⟩
    · unfold BoxHolds at *
      dsimp only
      omega
    · rcases List.mem_cons.1 h with rfl | h
      · refine hkeeps q' ?_
        unfold BoxHolds
        dsimp only
        omega
      · exact hall q' h

/-- The box around a span list, from its first span on. -/
theorem spanBound_holds (y : ℤ) : ∀ (spans : List Pixel) (r : Rect),
    (∀ s ∈ spans, FitsInt (s.2 + 1)) →
    let r' := spans.foldl spanBound r
    (r'.top = r.top ∧ r'.bottom = r.bottom ∧ r'.left ≤ r.left ∧ r.right ≤ r'.right) ∧
      ∀ s ∈ spans, r'.left ≤ s.1 ∧ s.2 + 1 ≤ r'.right
  | [], r, _ => ⟨⟨rfl, rfl, Int.le_refl _, Int.le_refl _⟩, fun s hs => by simp at hs⟩
  | s :: spans, r, hfits => by
    obtain ⟨⟨htop, hbottom, hleft, hright⟩, hall⟩ := spanBound_holds y spans (spanBound r s)
      fun s hs => hfits s (List.mem_cons_of_mem _ hs)
    have hs := int16_fits (hfits s List.mem_cons_self)
    rw [List.foldl_cons]
    dsimp only
    generalize spans.foldl spanBound (spanBound r s) = r' at *
    unfold spanBound at *
    dsimp only at *
    rw [hs] at hright
    refine ⟨by omega, fun s' h => ?_⟩
    rcases List.mem_cons.1 h with rfl | h
    · omega
    · exact hall s' h

/-- A record's x value is in the bound. -/
def RecHolds (r : Option Rect) (rec : ScanRec) (x : ℤ) : Prop :=
  ∃ r', r = some r' ∧ (r'.left ≤ x ∧ x + 1 ≤ r'.right) ∧ r'.top ≤ rec.top ∧ rec.bottom ≤ r'.bottom

theorem recBound_holds (rec : ScanRec) : ∀ (xs : List ℤ) (r : Option Rect),
    (∀ x ∈ xs, FitsInt (x + 1)) →
    (∀ rec' x, RecHolds r rec' x → RecHolds (xs.foldl (recBound rec) r) rec' x) ∧
      ∀ x ∈ xs, RecHolds (xs.foldl (recBound rec) r) rec x
  | [], r, _ => ⟨fun _ _ h => h, fun x hx => by simp at hx⟩
  | x :: xs, r, hfits => by
    obtain ⟨hkeeps, hall⟩ := recBound_holds rec xs (recBound rec r x) fun x hx =>
      hfits x (List.mem_cons_of_mem _ hx)
    have hx := int16_fits (hfits x List.mem_cons_self)
    refine ⟨fun rec' x' h => hkeeps rec' x' ?_, fun x' h => ?_⟩
    · obtain ⟨r', rfl, hin⟩ := h
      refine ⟨_, rfl, ?_⟩
      dsimp only [Option.getD_some]
      omega
    · rcases List.mem_cons.1 h with rfl | h
      · refine hkeeps rec x' ⟨_, rfl, ?_⟩
        dsimp only
        rw [hx]
        omega
      · exact hall x' h

theorem scanBound_holds : ∀ (recs : List ScanRec) (r : Option Rect),
    (∀ rec ∈ recs, ∀ x ∈ rec.xs, FitsInt (x + 1)) →
    let r' := recs.foldl (fun r rec => rec.xs.foldl (recBound rec) r) r
    (∀ rec x, RecHolds r rec x → RecHolds r' rec x) ∧
      ∀ rec ∈ recs, ∀ x ∈ rec.xs, RecHolds r' rec x
  | [], r, _ => ⟨fun _ _ h => h, fun rec hrec => by simp at hrec⟩
  | rec :: recs, r, hfits => by
    obtain ⟨hone, hown⟩ := recBound_holds rec rec.xs r (hfits rec List.mem_cons_self)
    obtain ⟨hkeeps, hall⟩ := scanBound_holds recs (rec.xs.foldl (recBound rec) r) fun rec hrec =>
      hfits rec (List.mem_cons_of_mem _ hrec)
    refine ⟨fun rec' x h => hkeeps rec' x (hone rec' x h), fun rec' h x hx => ?_⟩
    rcases List.mem_cons.1 h with rfl | h
    · exact hkeeps rec' x (hown x hx)
    · exact hall rec' h x hx

theorem not_mem_of_inter {a r : Rect} (ha : p ∈ a) (h : p ∉ a.inter r) : p ∉ r := by
  intro hr
  refine h ?_
  unfold Rect.inter
  rw [Rect.mem_iff] at *
  dsimp only
  omega

/-- The bound of a scan line leaves out only what its spans do not touch. -/
theorem scanlines_misses {first y : ℤ} {spans : List Pixel} {s : Pixel}
    (hfits : (Figure.scanlines first y (s :: spans)).BoundFits) (hclip : p ∈ clip.getD m.screen)
    (hout : p ∉ outputBound m clip (.scanlines first y (s :: spans))) :
    (Figure.scanlines first y (s :: spans)).Misses p := by
  have hr := not_mem_of_inter hclip hout
  obtain ⟨⟨htop, hbottom, hleft, hright⟩, hall⟩ := spanBound_holds y spans
    ⟨s.1, y, int16 (s.2 + 1), int16 (y + 1)⟩ fun s hs =>
      hfits.2 s (List.mem_cons_of_mem _ hs)
  generalize spans.foldl spanBound ⟨s.1, y, int16 (s.2 + 1), int16 (y + 1)⟩ = r at *
  rw [int16_fits hfits.1] at hbottom
  rw [int16_fits (hfits.2 s List.mem_cons_self)] at hright
  rw [Rect.mem_iff] at hr
  by_cases hy : p.2 = y
  · refine .inr fun s' hs' => ?_
    rcases List.mem_cons.1 hs' with rfl | hs'
    · dsimp only at *
      omega
    · have hin := hall s' hs'
      dsimp only at *
      omega
  · exact .inl hy

/-- And so does that of a list of scan lines. -/
theorem polyScanline_misses {recs : List ScanRec}
    (hfits : (Figure.polyScanline recs).BoundFits) (hclip : p ∈ clip.getD m.screen)
    (hout : p ∉ outputBound m clip (.polyScanline recs)) :
    (Figure.polyScanline recs).Misses p := by
  intro xs hxs
  obtain ⟨rec, hrec, rfl⟩ := List.mem_map.1 hxs
  obtain ⟨hrec, hrow⟩ := List.mem_filter.1 hrec
  have hrow := of_decide_eq_true hrow
  have hholds := (scanBound_holds recs none hfits).2 rec hrec
  by_contra hpast
  unfold ScanRec.Past at hpast
  push Not at hpast
  obtain ⟨⟨x, hx, hlow⟩, x', hx', hhigh⟩ := hpast
  obtain ⟨r, hr, hxr⟩ := hholds x hx
  obtain ⟨r', hr', hxr'⟩ := hholds x' hx'
  obtain rfl := Option.some.inj (hr.symm.trans hr')
  have hbound : outputBound m clip (.polyScanline recs) = (clip.getD m.screen).inter r := by
    unfold outputBound m8ScanBound
    dsimp only
    rw [hr]
  rw [hbound] at hout
  refine not_mem_of_inter hclip hout ?_
  rw [Rect.mem_iff]
  omega

/-- The box of a figure by its points, with a margin of 4, leaves out only what is past all of
them. -/
theorem shape_misses {style : ℕ} {q : Pixel} {points : List Pixel} (hboxed : style ∈ boxedStyles)
    (hfits : (Figure.shape style (q :: points)).BoundFits) (hclip : p ∈ clip.getD m.screen)
    (hout : p ∉ outputBound m clip (.shape style (q :: points))) :
    (Figure.shape style (q :: points)).Misses p := by
  have hbound : outputBound m clip (.shape style (q :: points)) =
      (clip.getD m.screen).inter (pointsBound q points) := if_pos hboxed
  rw [hbound] at hout
  have hr := not_mem_of_inter hclip hout
  have hfits := hfits hboxed
  obtain ⟨hend, hkeeps, hall⟩ := pointsBox_holds points ⟨q.1, q.2, q.1, q.2⟩
    (hfits q List.mem_cons_self) fun q hq => hfits q (List.mem_cons_of_mem _ hq)
  have hholds : ∀ q' ∈ q :: points, BoxHolds _ q' := fun q' hq' => by
    rcases List.mem_cons.1 hq' with rfl | hq'
    · exact hkeeps q' ⟨Int.le_refl _, Int.le_refl _, Int.le_refl _, Int.le_refl _⟩
    · exact hall q' hq'
  unfold pointsBound at hr
  generalize points.foldl _ _ = r at *
  obtain ⟨⟨h1, h2⟩, h3, h4⟩ := hend
  dsimp only at hr
  rw [int16_fits h1, int16_fits h2, int16_fits h3, int16_fits h4, Rect.mem_iff] at hr
  dsimp only at hr
  refine ⟨hboxed, ?_⟩
  by_cases hleft : p.1 < r.left - 4
  · exact .inl fun q' hq' => by have h := (hholds q' hq').1; omega
  by_cases htop : p.2 < r.top - 4
  · exact .inr (.inl fun q' hq' => by have h := (hholds q' hq').2.1; omega)
  by_cases hright : r.right + 5 ≤ p.1
  · exact .inr (.inr (.inl fun q' hq' => by have h := (hholds q' hq').2.2.1; omega))
  · exact .inr (.inr (.inr fun q' hq' => by have h := (hholds q' hq').2.2.2; omega))

/-- Of the clip, the figure's bound leaves out only what the figure does not touch. -/
theorem outputBound_misses (hfits : fig.BoundFits) (hclip : p ∈ clip.getD m.screen)
    (hout : p ∉ outputBound m clip fig) : fig.Misses p := by
  cases fig with
  | scanlines first y spans =>
    cases spans with
    | nil => exact .inr fun s hs => by simp at hs
    | cons s spans => exact scanlines_misses hfits hclip hout
  | polyScanline recs => exact polyScanline_misses hfits hclip hout
  | shape style points =>
    cases points with
    | nil => exact absurd hclip hout
    | cons q points =>
      by_cases hboxed : style ∈ boxedStyles
      · exact shape_misses hboxed hfits hclip hout
      · have hbound : outputBound m clip (.shape style (q :: points)) = clip.getD m.screen :=
          if_neg hboxed
        rw [hbound] at hout
        exact absurd hclip hout

end Bound

/-! ## The whole figure -/

/-- The part of the screen that `Output` draws in. -/
def outputArea (m : M8Mode) (clip : Option Rect) (fig : Figure) : Rect :=
  (outputBound m clip fig).inter m.screen

/-- Its strips' bound. -/
def outputAligned (m : M8Mode) (clip : Option Rect) (fig : Figure) : Rect :=
  alignedBound m 8 (outputArea m clip fig)

/-- A strip of `k` rows from row `d` of the bound on. -/
def OutputStrip (m : M8Mode) (clip : Option Rect) (fig : Figure) (d k : ℕ) : Prop :=
  let bound := outputAligned m clip fig
  let height := (bound.bottom - bound.top).toNat
  ¬ (outputArea m clip fig).Empty ∧ alignedRows 8 bound ∣ d ∧ d < height ∧
    k = min (alignedRows 8 bound) (height - d)

/-- The pixels of a strip that the figure may be on. -/
def outputClip (m : M8Mode) (clip : Option Rect) (fig : Figure) (d k : ℕ) : Rect :=
  stripClip (outputArea m clip fig) (stripRect (outputAligned m clip fig) false (d, k))

/-- No number of the figure is cut, in its bound and in any strip. -/
def OutputUncut (m : M8Mode) (clip : Option Rect) (fig : Figure) : Prop :=
  fig.BoundFits ∧ ∀ d k, OutputStrip m clip fig d k →
    fig.Uncut (outputAligned m clip fig).left ((outputAligned m clip fig).top + d) k

/-- A pixel of a strip that is dropped. -/
def DroppedAt (m : M8Mode) (clip : Option Rect) (fig : Figure) (p : Pixel) : Prop :=
  ∃ d k, OutputStrip m clip fig d k ∧ fig.Dropped ((outputAligned m clip fig).top + d) k ∧
    p ∈ outputClip m clip fig d k

section Whole

variable {E : DibEngine} {m : M8Mode} {fig : Figure} {clip : Option Rect} {st : FallbackState}
  {p : Pixel}

/-- A number is in one of the pieces of `n`. -/
theorem piece_eq {n i i' y : ℕ} (h : n * i ≤ y ∧ y < n * i + n)
    (h' : n * i' ≤ y ∧ y < n * i' + n) : i = i' := by
  rcases Nat.lt_trichotomy i i' with hlt | heq | hlt
  · have hmul := Nat.mul_le_mul_left n (Nat.succ_le_of_lt hlt)
    rw [Nat.mul_succ] at hmul
    omega
  · exact heq
  · have hmul := Nat.mul_le_mul_left n (Nat.succ_le_of_lt hlt)
    rw [Nat.mul_succ] at hmul
    omega

theorem outputClip_row {d k : ℕ} (hp : p ∈ outputClip m clip fig d k) :
    (outputAligned m clip fig).top + d ≤ p.2 ∧ p.2 < (outputAligned m clip fig).top + d + k := by
  unfold outputClip stripClip at hp
  rw [Rect.mem_iff] at hp
  have hrect : stripRect (outputAligned m clip fig) false (d, k) =
    ⟨_, (outputAligned m clip fig).top + d, _, (outputAligned m clip fig).top + d + k⟩ := rfl
  rw [hrect] at hp
  dsimp only at hp
  omega

/-- A pixel is in one strip only. -/
theorem outputStrip_eq {d d' k k' : ℕ} (h : OutputStrip m clip fig d k)
    (h' : OutputStrip m clip fig d' k') (hp : p ∈ outputClip m clip fig d k)
    (hp' : p ∈ outputClip m clip fig d' k') : d = d' ∧ k = k' := by
  have hrow := outputClip_row hp
  have hrow' := outputClip_row hp'
  obtain ⟨-, ⟨i, rfl⟩, -, hk⟩ := h
  obtain ⟨-, ⟨i', rfl⟩, -, hk'⟩ := h'
  have hi : i = i' := piece_eq (n := alignedRows 8 (outputAligned m clip fig))
    (y := (p.2 - (outputAligned m clip fig).top).toNat) (by omega) (by omega)
  subst hi
  exact ⟨rfl, hk.trans hk'.symm⟩

open Classical in
/-- What is on the screen afterwards : the figure, but for the strips that are dropped. -/
theorem outputFallback_card (hcut : OutputUncut m clip fig) :
    (outputFallback E m clip fig st).card = (outputArea m clip fig).paint
      (fun p => if DroppedAt m clip fig p then st.card p else E.pel fig p (st.card p))
      st.card := by
  unfold outputFallback
  refine fallback_run
    (f := fun p old => if DroppedAt m clip fig p then old else E.pel fig p old)
    ⟨.inr ⟨rfl, rfl⟩, fun h => absurd h (by decide), fun h => absurd h (by decide)⟩ ?_
  rintro area bound harea hbound hw d k t hk hd hrows h8 hmin - hplace hpitch
  obtain rfl : area = outputArea m clip fig := harea
  obtain rfl : bound = outputAligned m clip fig := hbound
  have hwidth := hw.width
  have hstrip : OutputStrip m clip fig d k := by
    refine ⟨?_, hrows, by omega, hmin⟩
    unfold Rect.Empty
    omega
  have hdrop : ∀ p ∈ outputClip m clip fig d k,
      DroppedAt m clip fig p ↔ fig.Dropped ((outputAligned m clip fig).top + d) k := by
    refine fun p hp => ⟨fun ⟨d', k', hstrip', hdrop, hp'⟩ => ?_, fun h => ⟨d, k, hstrip, h, hp⟩⟩
    obtain ⟨rfl, rfl⟩ := outputStrip_eq hstrip hstrip' hp hp'
    exact hdrop
  by_cases hdropped : fig.Dropped ((outputAligned m clip fig).top + d) k
  · have hcorner := strip_corner hw k (h8 rfl)
    obtain ⟨⟨hx0, hy0⟩, -, hb⟩ := hcorner
    have hkeep : m8DrawOutput E m fig .dst (outputClip m clip fig d k) t = t := by
      refine m8DrawOutput_dropped ?_ ?_ ?_ <;> unfold outputClip <;> rw [hy0, hb]
      · omega
      · rw [hx0]
        exact hcut.2 d k hstrip
      · exact hdropped
    refine ⟨?_, ?_, ?_, fun p hp => ?_⟩
    · exact congrArg FallbackState.card hkeep
    · exact congrArg (fun t => t.dst.place) hkeep
    · exact congrArg (fun t => t.dst.pitch) hkeep
    · have hpix : (m8DrawOutput E m fig .dst (outputClip m clip fig d k) t).dst.pix p = _ :=
        congrArg (fun t => t.dst.pix p) hkeep
      refine hpix.trans ?_
      split_ifs with hc hd'
      · rfl
      · exact absurd ((hdrop p hc).2 hdropped) hd'
      · rfl
  · have hdraw : DrawsDst (m8DrawOutput E m fig) (E.pel fig) (outputClip m clip fig d k) t :=
      m8DrawOutput_dst hw hk hd (h8 rfl) hplace hpitch (hcut.2 d k hstrip) hdropped
    refine ⟨hdraw.card, hdraw.place, hdraw.pitch, fun p hp => ?_⟩
    refine (hdraw.pix p hp).trans ?_
    by_cases hc : p ∈ outputClip m clip fig d k
    · have hkept : ¬ DroppedAt m clip fig p := fun h => hdropped ((hdrop p hc).1 h)
      exact (if_pos hc).trans ((if_pos hc).trans (if_neg hkept)).symm
    · exact (if_neg hc).trans (if_neg hc).symm

/-- A coordinate half as far off as an `int` goes. -/
def NearInt (z : ℤ) : Prop := -16384 ≤ z ∧ z < 16384

instance (z : ℤ) : Decidable (NearInt z) := by unfold NearInt; infer_instance

/-- A figure with near coordinates only. -/
def Figure.Near : Figure → Prop
  | scanlines _ y spans => NearInt y ∧ ∀ s ∈ spans, NearInt s.1 ∧ NearInt s.2
  | polyScanline recs => ∀ r ∈ recs, NearInt r.top ∧ NearInt r.bottom ∧ ∀ x ∈ r.xs, NearInt x
  | shape _ points => ∀ q ∈ points, NearInt q.1 ∧ NearInt q.2

/-- A near number fits with a margin, and moved to any place on the screen. -/
theorem fits_of_near {x : ℤ} (hx : NearInt x) {a : ℤ} (ha : -1024 ≤ a ∧ a ≤ 1024) :
    FitsInt (x - a) := by
  unfold NearInt at hx
  unfold FitsInt
  omega

theorem fits_add_of_near {x : ℤ} (hx : NearInt x) {a : ℤ} (ha : -1024 ≤ a ∧ a ≤ 1024) :
    FitsInt (x + a) := by
  unfold NearInt at hx
  unfold FitsInt
  omega

theorem outputUncut_of_near (hnear : fig.Near) : OutputUncut m clip fig := by
  refine ⟨?_, fun d k hstrip => ?_⟩
  · cases fig with
    | scanlines first y spans =>
      exact ⟨fits_add_of_near hnear.1 (by decide), fun s hs =>
        fits_add_of_near (hnear.2 s hs).2 (by decide)⟩
    | polyScanline recs =>
      exact fun r hr x hx => fits_add_of_near ((hnear r hr).2.2 x hx) (by decide)
    | shape style points =>
      exact fun _ q hq =>
        ⟨⟨fits_of_near (hnear q hq).1 (by decide), fits_of_near (hnear q hq).2 (by decide)⟩,
          fits_add_of_near (hnear q hq).1 (by decide),
          fits_add_of_near (hnear q hq).2 (by decide)⟩
  · obtain ⟨hne, -, hd, -⟩ := hstrip
    have hw : Widened m 8 (outputArea m clip fig) (outputAligned m clip fig) :=
      alignedBound_widened hne (.inr rfl)
    have hleft := hw.left
    have hright := hw.right
    have htop := hw.top
    have hbottom := hw.bottom
    have hwidth := hw.width
    have hm : m.x ≤ 1024 ∧ m.y ≤ 768 := by
      have h := m.ok
      simp only [Prod.mk.injEq] at h
      omega
    have hx : -1024 ≤ (outputAligned m clip fig).left ∧
        (outputAligned m clip fig).left ≤ 1024 := by omega
    have hy : -1024 ≤ (outputAligned m clip fig).top + d ∧
        (outputAligned m clip fig).top + d ≤ 1024 := by omega
    cases fig with
    | scanlines first y spans =>
      exact fun _ _ s hs => ⟨fits_of_near (hnear.2 s hs).1 hx, fits_of_near (hnear.2 s hs).2 hx⟩
    | polyScanline recs =>
      exact fun r hr => ⟨fits_of_near (hnear r hr).1 hy, fits_of_near (hnear r hr).2.1 hy,
        fun _ x hxs => fits_of_near ((hnear r hr).2.2 x hxs) hx⟩
    | shape style points =>
      exact fun q hq => ⟨fits_of_near (hnear q hq).1 hx, fits_of_near (hnear q hq).2 hy⟩

end Whole

/-! ## A pattern brush -/

instance : ∀ (fig : Figure) (p : Pixel), Decidable (fig.Misses p)
  | .scanlines _ _ _, _ => by unfold Figure.Misses; infer_instance
  | .polyScanline _, _ => by unfold Figure.Misses; infer_instance
  | .shape _ _, _ => by unfold Figure.Misses; infer_instance

/-- A move takes what a figure does not touch along. -/
theorem misses_translate (fig : Figure) (dx dy : ℤ) (p : Pixel) :
    (fig.translate dx dy).Misses (p.1 + dx, p.2 + dy) ↔ fig.Misses p := by
  cases fig with
  | scanlines first y spans =>
    simp only [Figure.translate, Figure.Misses, List.forall_mem_map]
    refine or_congr (by omega) (forall₂_congr fun s _ => by omega)
  | polyScanline recs =>
    simp only [Figure.translate, Figure.Misses, ScanRec.inRow_translate, List.forall_mem_map]
    refine forall₂_congr fun xs _ => ?_
    simp only [ScanRec.Past, List.forall_mem_map]
    exact or_congr (forall₂_congr fun x _ => by omega) (forall₂_congr fun x _ => by omega)
  | shape style points =>
    simp only [Figure.translate, Figure.Misses, List.forall_mem_map]
    refine and_congr_right fun _ => ?_
    exact or_congr (forall₂_congr fun q _ => by omega) (or_congr
      (forall₂_congr fun q _ => by omega) (or_congr (forall₂_congr fun q _ => by omega)
        (forall₂_congr fun q _ => by omega)))

/-- R2_XORPEN with a brush of eight colours, on all of a figure's spans or box. -/
def xorPattern : DibEngine where
  output fig w h clip bits p :=
    if p ∈ clip ∧ p ∈ Rect.mk 0 0 w h then
      (if fig.Misses p then bits p else bits p ^^^ UInt8.ofNat ((p.1 % 8).toNat + 1))
    else bits p
  pel fig p old := if fig.Misses p then old else old ^^^ UInt8.ofNat ((p.1 % 8).toNat + 1)
  clips _ _ _ _ _ _ := rfl
  moves fig i j p old := by
    have hphase : (p.1 + 8 * i) % 8 = p.1 % 8 := by omega
    rw [if_congr (misses_translate fig (8 * i) (8 * j) p) rfl rfl]
    dsimp only
    rw [hphase]
  misses fig p old h := if_pos h
  rows recs recs' p old h := by
    have hiff : (Figure.polyScanline recs).Misses p ↔ (Figure.polyScanline recs').Misses p := by
      simp only [Figure.Misses]
      rw [h]
    rw [if_congr hiff rfl rfl]

/-- On a black screen the pattern shows wherever the figure is. -/
theorem xorPattern_shows {fig : Figure} {p : Pixel} (h : ¬ fig.Misses p) :
    xorPattern.pel fig p 0 ≠ 0 := by
  have hpel : xorPattern.pel fig p 0 = 0 ^^^ UInt8.ofNat ((p.1 % 8).toNat + 1) := if_neg h
  have hlt : (p.1 % 8).toNat < 8 := by omega
  rw [hpel]
  generalize (p.1 % 8).toNat = n at hlt
  revert n
  decide

/-- A strip's pixels are in the area. -/
theorem outputClip_area {m : M8Mode} {clip : Option Rect} {fig : Figure} {p : Pixel} {d k : ℕ}
    (hstrip : OutputStrip m clip fig d k) (hp : p ∈ outputClip m clip fig d k) :
    p ∈ outputArea m clip fig := by
  obtain ⟨hne, -, hd, hk⟩ := hstrip
  have hw : Widened m 8 (outputArea m clip fig) (outputAligned m clip fig) :=
    alignedBound_widened hne (.inr rfl)
  have hrows := (alignedRows_pos hw (.inr rfl)).1
  exact ((mem_stripClip hw (stripRect_of false (by omega) (by omega))).1 hp).1

/-- The figure's bound is inside the clip. -/
theorem outputBound_clip {m : M8Mode} {clip : Option Rect} {fig : Figure} {p : Pixel}
    (hp : p ∈ outputBound m clip fig) : p ∈ clip.getD m.screen := by
  have hinter : ∀ r : Rect, p ∈ (clip.getD m.screen).inter r → p ∈ clip.getD m.screen := by
    intro r hr
    unfold Rect.inter at hr
    rw [Rect.mem_iff] at hr ⊢
    dsimp only at hr
    omega
  unfold outputBound at hp
  dsimp only at hp
  split at hp
  · split_ifs at hp
    · exact hinter _ hp
    · exact hp
  · split at hp
    · exact hp
    · exact hinter _ hp

/-- Where no number is cut, `Output` draws the whole figure, for every pen, brush and ROP and on
every screen, just if nothing of the figure is in the strips that are dropped. -/
theorem m8_output_fallback_eq (m : M8Mode) (clip : Option Rect) (fig : Figure)
    (hcut : OutputUncut m clip fig) :
    (∀ (E : DibEngine) (st : FallbackState), (outputFallback E m clip fig st).card =
      E.output fig m.x m.y (clip.getD m.screen) st.card) ↔
    ∀ d k, OutputStrip m clip fig d k → fig.Dropped ((outputAligned m clip fig).top + d) k →
      ∀ p ∈ outputClip m clip fig d k, fig.Misses p := by
  have hin : ∀ p, p ∈ outputArea m clip fig ↔
      p ∈ outputBound m clip fig ∧ p ∈ m.screen := fun p => by
    unfold outputArea Rect.inter
    rw [Rect.mem_iff, Rect.mem_iff, Rect.mem_iff]
    dsimp only
    omega
  have houtput : ∀ (E : DibEngine) (st : FallbackState), ∀ p ∈ outputArea m clip fig,
      E.output fig m.x m.y (clip.getD m.screen) st.card p = E.pel fig p (st.card p) :=
    fun E st p hp => (E.clips _ _ _ _ _ _).trans
      (if_pos ⟨outputBound_clip ((hin p).1 hp).1, ((hin p).1 hp).2⟩)
  refine ⟨fun hall d k hstrip hdrop p hp => ?_, fun hshown E st => ?_⟩
  · by_contra hhit
    have harea := outputClip_area hstrip hp
    have hp0 := congrFun (hall xorPattern ⟨fun _ => 0, ⟨fun _ => 0, 0, ⟨0, 0, 0, 0⟩⟩,
      ⟨fun _ => 0, 0, ⟨0, 0, 0, 0⟩⟩⟩) p
    rw [outputFallback_card hcut, Rect.paint_mem harea, houtput _ _ p harea,
      if_pos ⟨d, k, hstrip, hdrop, hp⟩] at hp0
    exact xorPattern_shows hhit hp0.symm
  · rw [outputFallback_card hcut]
    funext p
    by_cases harea : p ∈ outputArea m clip fig
    · rw [Rect.paint_mem harea, houtput E st p harea]
      split_ifs with hdrop
      · obtain ⟨d, k, hstrip, hdropped, hp⟩ := hdrop
        exact (E.misses _ _ _ (hshown d k hstrip hdropped p hp)).symm
      · rfl
    · rw [Rect.paint_not_mem harea, E.clips]
      split_ifs with h
      · exact (E.misses _ _ _ (outputBound_misses hcut.1 h.1 fun hb =>
          harea ((hin p).2 ⟨hb, h.2⟩))).symm
      · rfl

/-- A record of two rows. -/
theorem m8_output_fallback_eq_record :
    let m : M8Mode := ⟨640, 480, by decide⟩
    let st : FallbackState := ⟨fun _ => 0, ⟨fun _ => 9, 0, ⟨0, 0, 0, 0⟩⟩,
      ⟨fun _ => 9, 0, ⟨0, 0, 0, 0⟩⟩⟩
    let card := (outputFallback xorPattern m none (.polyScanline [⟨10, 12, [5, 20]⟩]) st).card
    card (7, 11) = 8 ∧ card (20, 11) = 0 := by
  intro m st card
  have hnear : Figure.Near (.polyScanline [⟨10, 12, [5, 20]⟩]) := by simp [Figure.Near, NearInt]
  have hcard : card = _ := (m8_output_fallback_eq m none (.polyScanline [⟨10, 12, [5, 20]⟩])
    (outputUncut_of_near hnear)).2 (fun d k _ hdrop => by
      rcases hdrop with hcount | hwords
      · exact absurd hcount (by decide)
      · exact absurd hwords (Nat.not_lt.2 (Nat.le_trans (stripWords_le _ _ _)
          (by decide)))) xorPattern st
  rw [hcard]
  exact ⟨by decide, by decide⟩

/-- 342 records of one row each, columns 0 to 9. -/
def steps342 : Figure :=
  .polyScanline ((List.range 342).map fun i : ℕ => ⟨i, i + 1, [0, 10]⟩)

/-- Their 2052 words do not fit, so that nothing of them is drawn. -/
theorem not_m8_output_fallback_eq :
    let m : M8Mode := ⟨640, 480, by decide⟩
    let st : FallbackState := ⟨fun _ => 0, ⟨fun _ => 9, 0, ⟨0, 0, 0, 0⟩⟩,
      ⟨fun _ => 9, 0, ⟨0, 0, 0, 0⟩⟩⟩
    (outputFallback xorPattern m none steps342 st).card (0, 0) = 0 ∧
      xorPattern.output steps342 m.x m.y m.screen st.card (0, 0) = 1 := by
  intro m st
  have hnear : steps342.Near := by
    intro r hr
    obtain ⟨i, hi, rfl⟩ := List.mem_map.1 hr
    rw [List.mem_range] at hi
    have hxs : ∀ x ∈ [(0 : ℤ), 10], NearInt x := by decide
    exact ⟨⟨by dsimp only; omega, by dsimp only; omega⟩,
      ⟨by dsimp only; omega, by dsimp only; omega⟩, hxs⟩
  have harea : outputArea m none steps342 = ⟨0, 0, 11, 342⟩ := by decide +kernel
  have hbound : outputAligned m none steps342 = ⟨0, 0, 12, 342⟩ := by decide +kernel
  have hdrop : DroppedAt m none steps342 (0, 0) := by
    refine ⟨0, 342, ?_, ?_, ?_⟩
    · unfold OutputStrip
      rw [harea, hbound]
      decide
    · rw [hbound]
      exact .inr (show stripWords _ _ ((List.range 342).map fun i : ℕ => ⟨i, i + 1, [0, 10]⟩) > _ by
        decide +kernel)
    · unfold outputClip
      rw [harea, hbound]
      decide
  refine ⟨?_, by decide +kernel⟩
  rw [outputFallback_card (outputUncut_of_near hnear), harea, Rect.paint_mem (by decide),
    if_pos hdrop]

end Inboard
