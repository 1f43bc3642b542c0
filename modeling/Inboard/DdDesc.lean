import Inboard.DdLock

/-!
# M8DD32.DLL at 16 bpp : what a buffer holds

The frame buffer and the back buffer are in RAM. A buffer that was cleared whole is described :
every pixel is one colour, except in a few rectangles, whose pixels RAM holds, and under the
triangles recorded since. `Buffer.content` is what such a buffer shows ; what puts a part of it
in RAM changes none of it.
-/

set_option linter.unusedSectionVars false

namespace Inboard

/-! ## Data -/

def M8DD_DIRTY_MAX : ℕ := 8
def M8DD_TRIS_MAX : ℕ := 512

/-- `M8DD_DESC` : the `n` rectangles of the array are the list. -/
structure M8ddDesc where
  known : Bool
  filled : Bool
  colour : UInt16
  d : List Rect
  deriving DecidableEq, Repr

/-- A triangle of `m8dd_tri_v` and `m8dd_tri_c`. -/
structure Tri where
  v0 : Pixel
  v1 : Pixel
  v2 : Pixel
  colour : UInt16
  deriving DecidableEq, Repr

/-- A buffer : its RAM, its description and the triangles recorded. -/
structure Buffer where
  ram : Pixel → UInt16
  desc : M8ddDesc
  tris : List Tri

/-- A pixel whose value RAM holds in a description. -/
def M8ddDesc.Listed (d : M8ddDesc) (p : Pixel) : Prop := ∃ r ∈ d.d, p ∈ r

instance (d : M8ddDesc) (p : Pixel) : Decidable (d.Listed p) :=
  inferInstanceAs (Decidable (∃ r ∈ d.d, p ∈ r))

/-! ## Rows -/

/-- `m8dd_fill16` : `n` pixels from `p` on. -/
def m8ddFill16 (p : Pixel) (n : ℤ) (c : UInt16) (f : Pixel → UInt16) : Pixel → UInt16 :=
  Rect.loop (fun x f => Function.update f (x, p.2) c) n.toNat p.1 f

theorem m8ddFill16_apply (p : Pixel) (n : ℤ) (c : UInt16) (f : Pixel → UInt16) (q : Pixel) :
    m8ddFill16 p n c f q = if q.2 = p.2 ∧ p.1 ≤ q.1 ∧ q.1 < p.1 + n then c else f q := by
  have hloop := Rect.loop_induct (P := fun i (g : Pixel → UInt16) =>
      g q = if q.2 = p.2 ∧ p.1 ≤ q.1 ∧ q.1 < i then c else f q)
    (f := fun x f => Function.update f (x, p.2) c) (n := n.toNat) (i := p.1) (s := f)
    (by rw [if_neg (by omega)]) fun x g hx hlt hg => by
      by_cases hq : q = (x, p.2)
      · rw [hq, Function.update_self, if_pos ⟨rfl, hx, Int.lt_succ x⟩]
      · have hne : ¬ (q.2 = p.2 ∧ q.1 = x) := fun ⟨hy, hcol⟩ => hq (Prod.ext hcol hy)
        rw [Function.update_of_ne hq, hg]
        exact if_congr (by omega) rfl rfl
  rw [m8ddFill16, hloop]
  exact if_congr (by omega) rfl rfl

/-- The scan of the rectangles at column `x` of row `y`, with `e` the end of the run : a
rectangle over `x` gives the column after it, the others cut the run short. -/
def readyScan (y x : ℤ) : List Rect → ℤ → ℤ ⊕ ℤ
  | [], e => .inr e
  | r :: rs, e =>
    if y < r.top ∨ r.bottom ≤ y ∨ r.right ≤ x ∨ e ≤ r.left then readyScan y x rs e
    else if r.left ≤ x then .inl r.right
    else readyScan y x rs r.left

/-- A row of `m8dd_ready` from column `x` on, at most `n` rounds. -/
def readyRow (d : M8ddDesc) (right y : ℤ) : ℕ → ℤ → (Pixel → UInt16) → Pixel → UInt16
  | 0, _, f => f
  | n + 1, x, f =>
    if x < right then
      match readyScan y x d.d right with
      | .inl x => readyRow d right y n x f
      | .inr e => readyRow d right y n e (m8ddFill16 (x, y) (e - x) d.colour f)
    else f

theorem readyScan_inl {y x x' : ℤ} : ∀ {rs : List Rect} {e : ℤ}, readyScan y x rs e = .inl x' →
    x < x' ∧ ∀ z, x ≤ z → z < x' → ∃ r ∈ rs, (z, y) ∈ r
  | r :: rs, e, h => by
    rw [readyScan] at h
    split_ifs at h with hskip hover
    · obtain ⟨hlt, hall⟩ := readyScan_inl h
      refine ⟨hlt, fun z hz hz' => ?_⟩
      obtain ⟨q, hq, hmem⟩ := hall z hz hz'
      exact ⟨q, List.mem_cons_of_mem r hq, hmem⟩
    · obtain rfl := Sum.inl.inj h
      refine ⟨by omega, fun z hz hz' => ⟨r, List.mem_cons_self, ?_⟩⟩
      rw [Rect.mem_iff]
      dsimp only
      omega
    · obtain ⟨hlt, hall⟩ := readyScan_inl h
      refine ⟨hlt, fun z hz hz' => ?_⟩
      obtain ⟨q, hq, hmem⟩ := hall z hz hz'
      exact ⟨q, List.mem_cons_of_mem r hq, hmem⟩

theorem readyScan_inr {y x e' : ℤ} : ∀ {rs : List Rect} {e : ℤ}, x < e →
    readyScan y x rs e = .inr e' →
    x < e' ∧ e' ≤ e ∧ ∀ z, x ≤ z → z < e' → ∀ r ∈ rs, (z, y) ∉ r
  | [], e, hx, h => by
    obtain rfl := Sum.inr.inj h
    exact ⟨hx, Int.le_refl e, fun z _ _ r hr => absurd hr List.not_mem_nil⟩
  | r :: rs, e, hx, h => by
    rw [readyScan] at h
    split_ifs at h with hskip hover
    · obtain ⟨hlt, hle, hall⟩ := readyScan_inr hx h
      refine ⟨hlt, hle, fun z hz hz' q hq => ?_⟩
      rcases List.mem_cons.1 hq with rfl | hq
      · rw [Rect.mem_iff]
        dsimp only
        omega
      · exact hall z hz hz' q hq
    · have hcut : x < r.left := by omega
      obtain ⟨hlt, hle, hall⟩ := readyScan_inr hcut h
      refine ⟨hlt, by omega, fun z hz hz' q hq => ?_⟩
      rcases List.mem_cons.1 hq with rfl | hq
      · rw [Rect.mem_iff]
        dsimp only
        omega
      · exact hall z hz hz' q hq

/-- A row gives the colour to what no rectangle holds. -/
theorem readyRow_apply (d : M8ddDesc) (right y : ℤ) (q : Pixel) : ∀ (n : ℕ) (x : ℤ)
    (f : Pixel → UInt16), right - x ≤ n → readyRow d right y n x f q =
      if q.2 = y ∧ x ≤ q.1 ∧ q.1 < right ∧ ¬ d.Listed q then d.colour else f q
  | 0, x, f, hn => by rw [readyRow, if_neg (by omega)]
  | n + 1, x, f, hn => by
    rw [readyRow]
    split_ifs with hx hq hq
    · obtain ⟨hy, hleft, hright, hlisted⟩ := hq
      subst hy
      cases hscan : readyScan q.2 x d.d right with
      | inl x' =>
        obtain ⟨hlt, hall⟩ := readyScan_inl hscan
        have hbeyond : x' ≤ q.1 := Int.not_lt.1 fun h => hlisted (hall q.1 hleft h)
        dsimp only
        rw [readyRow_apply d right q.2 q n x' f (by omega),
          if_pos ⟨rfl, hbeyond, hright, hlisted⟩]
      | inr e =>
        obtain ⟨hlt, hle, hall⟩ := readyScan_inr hx hscan
        dsimp only
        rw [readyRow_apply d right q.2 q n e _ (by omega), m8ddFill16_apply]
        by_cases hrun : q.1 < e
        · rw [if_neg (by omega), if_pos ⟨rfl, hleft, by dsimp only; omega⟩]
        · rw [if_pos ⟨rfl, by omega, hright, hlisted⟩]
    · cases hscan : readyScan y x d.d right with
      | inl x' =>
        obtain ⟨hlt, -⟩ := readyScan_inl hscan
        dsimp only
        rw [readyRow_apply d right y q n x' f (by omega), if_neg]
        rintro ⟨hy, hleft, hright, hlisted⟩
        exact hq ⟨hy, by omega, hright, hlisted⟩
      | inr e =>
        obtain ⟨hlt, hle, hall⟩ := readyScan_inr hx hscan
        dsimp only
        rw [readyRow_apply d right y q n e _ (by omega), m8ddFill16_apply, if_neg, if_neg]
        · rintro ⟨hy, hleft, hrun⟩
          dsimp only at hy hleft hrun
          refine hq ⟨hy, hleft, by omega, ?_⟩
          rintro ⟨r, hr, hmem⟩
          exact hall q.1 hleft (by omega) r hr (by rwa [← hy])
        · rintro ⟨hy, hleft, hright, hlisted⟩
          exact hq ⟨hy, by omega, hright, hlisted⟩
    · omega
    · rfl

/-! ## Descriptions -/

/-- The rows of `m8dd_ready`. -/
def readyRows (d : M8ddDesc) (c : Rect) (f : Pixel → UInt16) : Pixel → UInt16 :=
  Rect.loop (fun y => readyRow d c.right y (c.right - c.left).toNat c.left)
    (c.bottom - c.top).toNat c.top f

/-- `m8dd_ready`. -/
def m8ddReady (c : Rect) (b : Buffer) : Buffer :=
  if !b.desc.known || b.desc.filled then b else { b with ram := readyRows b.desc c b.ram }

/-- What a rectangle grows by when it takes `c`. -/
def growth (c r : Rect) : ℤ := (r.union c).area - r.area

/-- The rectangle that grows least, from number `i` on. -/
def leastGrown (c : Rect) : List Rect → ℕ → ℕ × ℤ → ℕ × ℤ
  | [], _, best => best
  | r :: rs, i, best =>
    leastGrown c rs (i + 1) (if i = 0 ∨ growth c r < best.2 then (i, growth c r) else best)

/-- `d->d[d->n++] = *c`. -/
def M8ddDesc.push (d : M8ddDesc) (c : Rect) : M8ddDesc := { d with d := d.d ++ [c] }

/-- `--d->n`, and `d->d[best] = u`. -/
def M8ddDesc.replace (d : M8ddDesc) (best : ℕ) (u : Rect) : M8ddDesc :=
  { d with d := d.d.dropLast.set best u }

/-- `m8dd_dirty` : `c` is drawn in RAM. Past `M8DD_DIRTY_MAX` rectangles the one that grows least
takes it, with `c` listed while its new area is put in RAM. -/
def m8ddDirty (c : Rect) (b : Buffer) : Buffer :=
  if !b.desc.known then b
  else if b.desc.d.any fun r => c.Inside r then b
  else if b.desc.d.length < M8DD_DIRTY_MAX then
    { b with desc := b.desc.push c }
  else
    let best := (leastGrown c b.desc.d 0 (0, 0)).1
    let u := (b.desc.d.getD best c).union c
    let b := m8ddReady u { b with desc := b.desc.push c }
    { b with desc := b.desc.replace best u }

/-! ## Triangles -/

/-- The corners by their row, as the three exchanges leave them. -/
def Tri.sorted (t : Tri) : Pixel × Pixel × Pixel :=
  let o := (t.v0, t.v1, t.v2)
  let o := if o.2.1.2 < o.1.2 then (o.2.1, o.1, o.2.2) else o
  let o := if o.2.2.2 < o.2.1.2 then (o.1, o.2.2, o.2.1) else o
  if o.2.1.2 < o.1.2 then (o.2.1, o.1, o.2.2) else o

/-- The column at row `y` of the edge from `p` down to `q` ; C's division. -/
def edgeAt (p q : Pixel) (y : ℤ) : ℤ := p.1 + Int.tdiv ((q.1 - p.1) * (y - p.2)) (q.2 - p.2)

/-- The first and the last column of row `y`. -/
def Tri.span (t : Tri) (y : ℤ) : ℤ × ℤ :=
  let (p, q, r) := t.sorted
  let a := edgeAt p r y
  let b := if y < q.2 then edgeAt p q y else if r.2 ≠ q.2 then edgeAt q r y else q.1
  (if a < b then a else b, if a < b then b else a)

/-- The box of the columns of the corners and of the rows. -/
def Tri.bounds (t : Tri) : Rect where
  left := min t.v0.1 (min t.v1.1 t.v2.1)
  top := t.sorted.1.2
  right := max t.v0.1 (max t.v1.1 t.v2.1) + 1
  bottom := t.sorted.2.2.2 + 1

/-- The rows of `m8dd_tri_ram`. -/
def triRows (t : Tri) (f : Pixel → UInt16) : Pixel → UInt16 :=
  Rect.loop (fun y => m8ddFill16 ((t.span y).1, y) ((t.span y).2 - (t.span y).1 + 1) t.colour)
    (t.sorted.2.2.2 - t.sorted.1.2 + 1).toNat t.sorted.1.2 f

/-- `m8dd_tri_ram`. -/
def m8ddTriRam (t : Tri) (b : Buffer) : Buffer :=
  if t.sorted.2.2.2 = t.sorted.1.2 then b
  else
    let b := m8ddReady t.bounds b
    m8ddDirty t.bounds { b with ram := triRows t b.ram }

/-- `m8dd_tris_to_ram`. -/
def m8ddTrisToRam (b : Buffer) : Buffer :=
  b.tris.foldl (fun b t => m8ddTriRam t b) { b with tris := [] }

/-- `m8dd_ready_all`, with `all` the screen. -/
def m8ddReadyAll (all : Rect) (b : Buffer) : Buffer :=
  let b := m8ddReady all (m8ddTrisToRam b)
  { b with desc := { b.desc with filled := true } }

/-! ## The content -/

/-- The pixels that a triangle is drawn on. -/
def Tri.Covers (t : Tri) (p : Pixel) : Prop :=
  t.sorted.2.2.2 ≠ t.sorted.1.2 ∧ t.sorted.1.2 ≤ p.2 ∧ p.2 ≤ t.sorted.2.2.2 ∧
    (t.span p.2).1 ≤ p.1 ∧ p.1 ≤ (t.span p.2).2

instance Tri.decidableCovers (t : Tri) (p : Pixel) : Decidable (t.Covers p) := by
  unfold Tri.Covers; infer_instance

/-- `f` with a triangle over it. -/
def drawTri (f : Pixel → UInt16) (t : Tri) : Pixel → UInt16 :=
  fun p => if t.Covers p then t.colour else f p

/-- What is under the triangles : RAM in the rectangles over the colour, or all of RAM. -/
def Buffer.base (b : Buffer) : Pixel → UInt16 :=
  fun p => if b.desc.known ∧ ¬ b.desc.Listed p then b.desc.colour else b.ram p

/-- What the buffer holds. -/
def Buffer.content (b : Buffer) : Pixel → UInt16 := b.tris.foldl drawTri b.base

/-- A buffer as the driver keeps it, on the screen `all`. -/
structure Buffer.Ok (all : Rect) (b : Buffer) : Prop where
  filled : b.desc.known = true → b.desc.filled = true → ∀ p ∈ all, ¬ b.desc.Listed p →
    b.ram p = b.desc.colour
  tris : b.desc.known = false → b.tris = []
  room : b.desc.d.length ≤ M8DD_DIRTY_MAX

variable {all c : Rect} {b : Buffer} {p : Pixel} {t : Tri}

/-! ## Putting pixels in RAM -/

theorem readyRows_apply (d : M8ddDesc) (c : Rect) (f : Pixel → UInt16) (p : Pixel) :
    readyRows d c f p = if p ∈ c ∧ ¬ d.Listed p then d.colour else f p := by
  have hloop := Rect.loop_induct (P := fun i (g : Pixel → UInt16) => g p =
      if (c.left ≤ p.1 ∧ p.1 < c.right ∧ c.top ≤ p.2 ∧ p.2 < i) ∧ ¬ d.Listed p
      then d.colour else f p)
    (f := fun y => readyRow d c.right y (c.right - c.left).toNat c.left)
    (n := (c.bottom - c.top).toNat) (i := c.top) (s := f) (by rw [if_neg (by omega)])
    fun y g hy hlt hg => by
      rw [readyRow_apply d c.right y p _ c.left g (by omega), hg]
      by_cases hlisted : d.Listed p
      · simp [hlisted]
      · simp only [hlisted, not_false_eq_true, and_true]
        split_ifs <;> first | rfl | omega
  rw [readyRows, hloop]
  refine if_congr (and_congr_left fun _ => ?_) rfl rfl
  rw [Rect.mem_iff]
  omega

theorem m8ddReady_ram (c : Rect) (b : Buffer) (p : Pixel) : (m8ddReady c b).ram p =
    if b.desc.known = true ∧ b.desc.filled = false ∧ p ∈ c ∧ ¬ b.desc.Listed p then b.desc.colour
    else b.ram p := by
  unfold m8ddReady
  cases hknown : b.desc.known with
  | false => simp
  | true =>
    cases hfilled : b.desc.filled with
    | true => simp
    | false => simp [readyRows_apply]

@[simp] theorem m8ddReady_desc (c : Rect) (b : Buffer) : (m8ddReady c b).desc = b.desc := by
  unfold m8ddReady
  split_ifs <;> rfl

@[simp] theorem m8ddReady_tris (c : Rect) (b : Buffer) : (m8ddReady c b).tris = b.tris := by
  unfold m8ddReady
  split_ifs <;> rfl

/-- `m8dd_ready` changes nothing that the buffer holds. -/
@[simp] theorem m8ddReady_base (c : Rect) (b : Buffer) : (m8ddReady c b).base = b.base := by
  ext p
  rw [Buffer.base, Buffer.base, m8ddReady_desc, m8ddReady_ram]
  by_cases h : b.desc.known = true ∧ ¬ b.desc.Listed p
  · rw [if_pos h, if_pos h]
  · rw [if_neg h, if_neg h, if_neg fun h' => h ⟨h'.1, h'.2.2.2⟩]

theorem Buffer.Ok.ready (h : b.Ok all) (c : Rect) : (m8ddReady c b).Ok all := by
  refine ⟨fun hknown hfilled p hp hlisted => ?_, ?_, ?_⟩
  · rw [m8ddReady_desc] at hknown hfilled hlisted ⊢
    rw [m8ddReady_ram, if_neg (by simp [hfilled])]
    exact h.filled hknown hfilled p hp hlisted
  · simpa using h.tris
  · simpa using h.room

/-- After `m8dd_ready` RAM is what the buffer holds there. -/
theorem Buffer.Ok.ready_ram (h : b.Ok all) (hp : p ∈ all) (hc : p ∈ c) :
    (m8ddReady c b).ram p = b.base p := by
  rw [m8ddReady_ram, Buffer.base]
  by_cases hlisted : b.desc.Listed p
  · rw [if_neg (by simp [hlisted]), if_neg (by simp [hlisted])]
  · cases hknown : b.desc.known with
    | false => simp
    | true =>
      cases hfilled : b.desc.filled with
      | false => simp [hc]
      | true =>
        simp only [hlisted, Bool.true_eq_false, false_and, and_false, ↓reduceIte,
          not_false_eq_true, and_self]
        exact h.filled hknown hfilled p hp hlisted

/-! ## Listing what is drawn -/

@[simp] theorem push_known (d : M8ddDesc) (c : Rect) : (d.push c).known = d.known := rfl
@[simp] theorem push_filled (d : M8ddDesc) (c : Rect) : (d.push c).filled = d.filled := rfl
@[simp] theorem push_colour (d : M8ddDesc) (c : Rect) : (d.push c).colour = d.colour := rfl

theorem listed_push {d : M8ddDesc} : (d.push c).Listed p ↔ d.Listed p ∨ p ∈ c := by
  simp [M8ddDesc.Listed, M8ddDesc.push, or_and_right, exists_or]

theorem leastGrown_lt (c : Rect) : ∀ (rs : List Rect) (i : ℕ) (best : ℕ × ℤ),
    best.1 < i + rs.length → (leastGrown c rs i best).1 < i + rs.length
  | [], i, best, h => h
  | r :: rs, i, best, h => by
    rw [leastGrown]
    rw [List.length_cons] at h ⊢
    have hnext := leastGrown_lt c rs (i + 1)
      (if i = 0 ∨ growth c r < best.2 then (i, growth c r) else best)
    have hbest : (if i = 0 ∨ growth c r < best.2 then (i, growth c r) else best).1 <
        i + 1 + rs.length := by
      split_ifs
      · dsimp only
        omega
      · omega
    have := hnext hbest
    omega

/-- `c` is put in the list, and what else is listed keeps its pixels. -/
structure Buffer.Dirtied (all c : Rect) (b b' : Buffer) : Prop where
  known : b'.desc.known = b.desc.known
  tris : b'.tris = b.tris
  room : b'.desc.d.length ≤ M8DD_DIRTY_MAX
  filled : b'.desc.known = true → b'.desc.filled = true → ∀ p ∈ all, ¬ b'.desc.Listed p →
    b'.ram p = b'.desc.colour
  base : ∀ p ∈ all, b'.base p = if p ∈ c then b.ram p else b.base p

/-- In a list that is full, a rectangle is replaced by one around it and `c`. -/
theorem listed_replace {d : M8ddDesc} {best : ℕ} (hbest : best < d.d.length)
    (hp : d.Listed p ∨ p ∈ c) :
    ((d.push c).replace best ((d.d.getD best c).union c)).Listed p := by
  rw [M8ddDesc.replace, M8ddDesc.push, M8ddDesc.Listed]
  dsimp only
  rw [List.dropLast_concat]
  have hmem : (d.d.getD best c).union c ∈ d.d.set best ((d.d.getD best c).union c) :=
    List.mem_set hbest _
  rcases hp with ⟨r, hr, hp⟩ | hp
  · obtain ⟨i, hi, rfl⟩ := List.getElem_of_mem hr
    by_cases heq : best = i
    · subst heq
      refine ⟨_, hmem, Rect.mem_union_left ?_⟩
      rwa [List.getD_eq_getElem?_getD, List.getElem?_eq_getElem hi, Option.getD_some]
    · refine ⟨d.d[i], List.mem_iff_getElem.2 ⟨i, by simpa using hi, ?_⟩, hp⟩
      rw [List.getElem_set_ne heq]
  · exact ⟨_, hmem, Rect.mem_union_right hp⟩

/-- What is listed then was listed before, is in `c`, or is in the new area. -/
theorem of_listed_replace {d : M8ddDesc} {best : ℕ} {u : Rect}
    (h : ((d.push c).replace best u).Listed p) : d.Listed p ∨ p ∈ u := by
  rw [M8ddDesc.replace, M8ddDesc.push, M8ddDesc.Listed] at h
  dsimp only at h
  rw [List.dropLast_concat] at h
  obtain ⟨r, hr, hp⟩ := h
  rcases List.mem_or_eq_of_mem_set hr with hr | rfl
  · exact .inl ⟨r, hr, hp⟩
  · exact .inr hp

/-- With the list full. -/
theorem dirtied_replace {best : ℕ} (hbest : best < b.desc.d.length)
    (hknown : b.desc.known = true) (hroom : b.desc.d.length ≤ M8DD_DIRTY_MAX)
    (hfilled : b.desc.known = true → b.desc.filled = true → ∀ p ∈ all, p ∉ c → ¬ b.desc.Listed p →
      b.ram p = b.desc.colour) {ram : Pixel → UInt16}
    (hram : ∀ p, ram p = if b.desc.filled = false ∧ p ∈ (b.desc.d.getD best c).union c ∧
      ¬ (b.desc.Listed p ∨ p ∈ c) then b.desc.colour else b.ram p) :
    b.Dirtied all c
      { b with
        ram := ram
        desc := (b.desc.push c).replace best ((b.desc.d.getD best c).union c) } := by
  refine ⟨rfl, rfl, ?_, fun _ hf p hp hnot => ?_, fun p hp => ?_⟩
  · rw [M8ddDesc.replace, M8ddDesc.push]
    dsimp only
    rwa [List.dropLast_concat, List.length_set]
  · have hnone : ¬ (b.desc.Listed p ∨ p ∈ c) := fun h => hnot (listed_replace hbest h)
    have hf' : b.desc.filled = true := hf
    refine (hram p).trans ?_
    rw [if_neg (by simp [hf'])]
    exact hfilled hknown hf' p hp (fun hc => hnone (.inr hc)) fun hl => hnone (.inl hl)
  · by_cases hc : p ∈ c
    · rw [if_pos hc, Buffer.base, if_neg fun h => h.2 (listed_replace hbest (.inr hc))]
      exact (hram p).trans (if_neg fun h => h.2.2 (.inr hc))
    · rw [if_neg hc, Buffer.base, Buffer.base]
      by_cases hl : b.desc.Listed p
      · rw [if_neg fun h => h.2 (listed_replace hbest (.inl hl)), if_neg fun h => h.2 hl]
        exact (hram p).trans (if_neg fun h => h.2.2 (.inl hl))
      · rw [if_pos (c := b.desc.known = true ∧ ¬ b.desc.Listed p) ⟨hknown, hl⟩]
        split_ifs with hkeep
        · rfl
        · refine (hram p).trans ?_
          split_ifs with hu
          · rfl
          · have hlisted : ((b.desc.push c).replace best
                ((b.desc.d.getD best c).union c)).Listed p := by
              by_contra hnot
              exact hkeep ⟨hknown, hnot⟩
            have hu' := (of_listed_replace hlisted).resolve_left hl
            have hf : b.desc.filled = true := by
              by_contra hf
              exact hu ⟨Bool.not_eq_true _ ▸ hf, hu', fun h => h.elim hl hc⟩
            exact hfilled hknown hf p hp hc hl

theorem m8ddDirty_dirtied (all c : Rect) (b : Buffer) (hroom : b.desc.d.length ≤ M8DD_DIRTY_MAX)
    (hfilled : b.desc.known = true → b.desc.filled = true → ∀ p ∈ all, p ∉ c → ¬ b.desc.Listed p →
      b.ram p = b.desc.colour) : b.Dirtied all c (m8ddDirty c b) := by
  unfold m8ddDirty
  cases hknown : b.desc.known with
  | false =>
    refine ⟨rfl, rfl, hroom, fun h => ?_, fun p _ => ?_⟩
    · simp [hknown] at h
    · simp [Buffer.base, hknown]
  | true =>
    simp only [Bool.not_true, Bool.false_eq_true, ↓reduceIte]
    split_ifs with hinside hlen
    · obtain ⟨r, hr, hin⟩ := List.any_eq_true.1 hinside
      have hlisted (p : Pixel) (hp : p ∈ c) : b.desc.Listed p :=
        ⟨r, hr, Rect.Inside.mem (of_decide_eq_true hin) hp⟩
      refine ⟨rfl, rfl, hroom, fun hk hf p hp hnot => ?_, fun p _ => ?_⟩
      · exact hfilled hk hf p hp (fun hc => hnot (hlisted p hc)) hnot
      · split_ifs with hc
        · rw [Buffer.base, if_neg fun h => h.2 (hlisted p hc)]
        · rfl
    · refine ⟨rfl, rfl, ?_, fun hk hf p hp hnot => ?_, fun p _ => ?_⟩
      · rw [M8ddDesc.push]
        dsimp only
        rw [List.length_append, List.length_singleton]
        omega
      · rw [listed_push, not_or] at hnot
        exact hfilled hk hf p hp hnot.2 hnot.1
      · rw [Buffer.base, Buffer.base]
        simp only [listed_push, push_known, push_colour, hknown, true_and, not_or]
        by_cases hc : p ∈ c <;> simp [hc]
    · have hbest : (leastGrown c b.desc.d 0 (0, 0)).1 < b.desc.d.length := by
        have hlt := leastGrown_lt c b.desc.d 0 (0, 0)
        unfold M8DD_DIRTY_MAX at hlen
        omega
      generalize (leastGrown c b.desc.d 0 (0, 0)).1 = best at hbest ⊢
      have hram (p : Pixel) := m8ddReady_ram ((b.desc.d.getD best c).union c)
        { b with desc := b.desc.push c } p
      have hdesc := m8ddReady_desc ((b.desc.d.getD best c).union c) { b with desc := b.desc.push c }
      have htris := m8ddReady_tris ((b.desc.d.getD best c).union c) { b with desc := b.desc.push c }
      generalize m8ddReady ((b.desc.d.getD best c).union c) { b with desc := b.desc.push c } = grown
        at hram hdesc htris ⊢
      obtain ⟨ram, desc, tris⟩ := grown
      obtain rfl : desc = _ := hdesc
      obtain rfl : tris = _ := htris
      refine dirtied_replace hbest hknown hroom hfilled fun p => (hram p).trans ?_
      simp only [listed_push, push_known, push_filled, push_colour, hknown, true_and]

@[simp] theorem m8ddDirty_known (c : Rect) (b : Buffer) :
    (m8ddDirty c b).desc.known = b.desc.known := by
  unfold m8ddDirty
  split_ifs <;> simp [M8ddDesc.replace]

/-! ## Drawing triangles -/

/-- A part of a difference, by C's division, is between nothing and all of it. -/
theorem tdiv_part {d k n : ℤ} (hk : 0 ≤ k) (hkn : k ≤ n) (hn : 0 < n) :
    min 0 d ≤ Int.tdiv (d * k) n ∧ Int.tdiv (d * k) n ≤ max 0 d := by
  have hpart (e : ℤ) (he : 0 ≤ e) : 0 ≤ Int.tdiv (e * k) n ∧ Int.tdiv (e * k) n ≤ e := by
    rw [Int.tdiv_eq_ediv_of_nonneg (Int.mul_nonneg he hk)]
    refine ⟨Int.ediv_nonneg (Int.mul_nonneg he hk) (Int.le_of_lt hn), ?_⟩
    refine Int.ediv_le_of_le_mul hn ?_
    exact Int.mul_le_mul_of_nonneg_left hkn he
  rcases Int.le_total 0 d with hd | hd
  · have := hpart d hd
    omega
  · have := hpart (-d) (by omega)
    rw [Int.neg_mul, Int.neg_tdiv] at this
    omega

theorem edgeAt_between {p q : Pixel} {y : ℤ} (hp : p.2 ≤ y) (hq : y ≤ q.2) (hne : p.2 < q.2) :
    min p.1 q.1 ≤ edgeAt p q y ∧ edgeAt p q y ≤ max p.1 q.1 := by
  have := tdiv_part (d := q.1 - p.1) (k := y - p.2) (n := q.2 - p.2) (by omega) (by omega)
      (by omega)
  unfold edgeAt
  omega

/-- The corners in the order of their rows. -/
theorem Tri.sorted_spec (t : Tri) :
    t.sorted.1.2 ≤ t.sorted.2.1.2 ∧ t.sorted.2.1.2 ≤ t.sorted.2.2.2 ∧
      ∀ v ∈ [t.sorted.1, t.sorted.2.1, t.sorted.2.2], v ∈ [t.v0, t.v1, t.v2] := by
  obtain ⟨v0, v1, v2, colour⟩ := t
  unfold Tri.sorted
  dsimp only
  split_ifs <;> dsimp only at * <;> refine ⟨by omega, by omega, fun v hv => ?_⟩ <;>
    simp only [List.mem_cons, List.not_mem_nil, or_false] at hv ⊢ <;> tauto

theorem triRows_apply (t : Tri) (f : Pixel → UInt16) (p : Pixel) : triRows t f p =
    if t.sorted.1.2 ≤ p.2 ∧ p.2 ≤ t.sorted.2.2.2 ∧ (t.span p.2).1 ≤ p.1 ∧ p.1 ≤ (t.span p.2).2
    then t.colour else f p := by
  obtain ⟨htop, hbottom, -⟩ := t.sorted_spec
  have hloop := Rect.loop_induct (P := fun i (g : Pixel → UInt16) => g p =
      if t.sorted.1.2 ≤ p.2 ∧ p.2 < i ∧ (t.span p.2).1 ≤ p.1 ∧ p.1 ≤ (t.span p.2).2
      then t.colour else f p)
    (f := fun y => m8ddFill16 ((t.span y).1, y) ((t.span y).2 - (t.span y).1 + 1) t.colour)
    (n := (t.sorted.2.2.2 - t.sorted.1.2 + 1).toNat) (i := t.sorted.1.2) (s := f)
    (by rw [if_neg (by omega)]) fun y g hy hlt hg => by
      rw [m8ddFill16_apply, hg]
      by_cases hrow : p.2 = y
      · subst hrow
        split_ifs <;> first | rfl | omega
      · rw [if_neg fun h => hrow h.1]
        exact if_congr (by omega) rfl rfl
  rw [triRows, hloop]
  exact if_congr (by omega) rfl rfl

/-- A triangle's pixels are in its box. -/
theorem Tri.Covers.mem_bounds (h : t.Covers p) : p ∈ t.bounds := by
  obtain ⟨hne, htop, hbottom, hleft, hright⟩ := h
  obtain ⟨h01, h12, hmem⟩ := t.sorted_spec
  have hcol (v : Pixel) (hv : v ∈ [t.sorted.1, t.sorted.2.1, t.sorted.2.2]) :
      min t.v0.1 (min t.v1.1 t.v2.1) ≤ v.1 ∧ v.1 ≤ max t.v0.1 (max t.v1.1 t.v2.1) := by
    have := hmem v hv
    simp only [List.mem_cons, List.not_mem_nil, or_false] at this
    rcases this with rfl | rfl | rfl <;> omega
  obtain ⟨p0, q0⟩ := hcol _ (by simp : t.sorted.1 ∈ _)
  obtain ⟨p1, q1⟩ := hcol _ (by simp : t.sorted.2.1 ∈ _)
  obtain ⟨p2, q2⟩ := hcol _ (by simp : t.sorted.2.2 ∈ _)
  unfold Tri.span at hleft hright
  rw [bounds, Rect.mem_iff]
  generalize t.sorted = o at *
  obtain ⟨a, b, c⟩ := o
  dsimp only at *
  have hlong := edgeAt_between htop hbottom (by omega : a.2 < c.2)
  have hshort : min a.1 (min b.1 c.1) ≤ (if p.2 < b.2 then edgeAt a b p.2 else
      if c.2 ≠ b.2 then edgeAt b c p.2 else b.1) ∧ (if p.2 < b.2 then edgeAt a b p.2 else
      if c.2 ≠ b.2 then edgeAt b c p.2 else b.1) ≤ max a.1 (max b.1 c.1) := by
    split_ifs with hlt hflat
    · have := edgeAt_between htop (Int.le_of_lt hlt) (by omega : a.2 < b.2)
      omega
    · have := edgeAt_between (Int.not_lt.1 hlt) hbottom (by omega : b.2 < c.2)
      omega
    · omega
  generalize (if p.2 < b.2 then edgeAt a b p.2 else if c.2 ≠ b.2 then edgeAt b c p.2 else b.1) = e
    at hshort hleft hright
  split_ifs at hleft hright <;> omega

/-- `m8dd_tri_ram` draws the triangle over what is under those recorded. -/
theorem Buffer.Ok.tri (h : b.Ok all) (t : Tri) :
    (m8ddTriRam t b).Ok all ∧ (m8ddTriRam t b).tris = b.tris ∧
      ∀ p ∈ all, (m8ddTriRam t b).base p = drawTri b.base t p := by
  unfold m8ddTriRam
  split_ifs with hflat
  · refine ⟨h, rfl, fun p _ => ?_⟩
    rw [drawTri, if_neg fun hc => hc.1 hflat]
  · have hready := h.ready t.bounds
    have hdirtied := m8ddDirty_dirtied all t.bounds
      { m8ddReady t.bounds b with ram := triRows t (m8ddReady t.bounds b).ram }
      hready.room fun hk hf p hp hout hl => by
        refine Eq.trans ?_ (hready.filled hk hf p hp hl)
        dsimp only
        rw [triRows_apply, if_neg]
        rintro ⟨htop, hbottom, hspan⟩
        exact hout (Tri.Covers.mem_bounds ⟨hflat, htop, hbottom, hspan⟩)
    refine ⟨⟨hdirtied.filled, fun hk => ?_, hdirtied.room⟩, ?_, fun p hp => ?_⟩
    · rw [hdirtied.known] at hk
      rw [hdirtied.tris]
      exact hready.tris hk
    · rw [hdirtied.tris]
      exact m8ddReady_tris t.bounds b
    · have hram : triRows t (m8ddReady t.bounds b).ram p =
          if t.Covers p then t.colour else (m8ddReady t.bounds b).ram p := by
        rw [triRows_apply]
        exact if_congr ⟨fun h => ⟨hflat, h⟩, fun h => h.2⟩ rfl rfl
      dsimp only
      rw [hdirtied.base p hp]
      dsimp only
      rw [hram, drawTri]
      by_cases hbox : p ∈ t.bounds
      · rw [if_pos hbox, h.ready_ram hp hbox]
      · have hnot : ¬ t.Covers p := fun hc => hbox hc.mem_bounds
        rw [if_neg hbox, if_neg hnot, Buffer.base]
        dsimp only
        rw [hram, if_neg hnot, ← Buffer.base, m8ddReady_base]

/-- Drawing the same over the same. -/
theorem foldl_drawTri_congr {f g : Pixel → UInt16} : ∀ (ts : List Tri),
    (∀ p ∈ all, f p = g p) → ∀ p ∈ all, ts.foldl drawTri f p = ts.foldl drawTri g p
  | [], h => h
  | t :: ts, h => foldl_drawTri_congr ts fun p hp => by
    rw [drawTri, drawTri, h p hp]

theorem foldl_triRam : ∀ (ts : List Tri) {b : Buffer}, b.Ok all → b.tris = [] →
    (ts.foldl (fun b t => m8ddTriRam t b) b).Ok all ∧
      (ts.foldl (fun b t => m8ddTriRam t b) b).tris = [] ∧
      ∀ p ∈ all, (ts.foldl (fun b t => m8ddTriRam t b) b).base p = ts.foldl drawTri b.base p
  | [], _, h, htris => ⟨h, htris, fun _ _ => rfl⟩
  | t :: ts, b, h, htris => by
    obtain ⟨hok, hsame, hbase⟩ := h.tri t
    obtain ⟨hok', hnil', hbase'⟩ := foldl_triRam ts hok (hsame.trans htris)
    exact ⟨hok', hnil', fun p hp => (hbase' p hp).trans (foldl_drawTri_congr ts hbase p hp)⟩

@[simp] theorem m8ddTriRam_known (t : Tri) (b : Buffer) :
    (m8ddTriRam t b).desc.known = b.desc.known := by
  unfold m8ddTriRam
  split_ifs <;> simp

@[simp] theorem m8ddTrisToRam_known (b : Buffer) :
    (m8ddTrisToRam b).desc.known = b.desc.known := by
  have hfold : ∀ (ts : List Tri) (b : Buffer),
      (ts.foldl (fun b t => m8ddTriRam t b) b).desc.known = b.desc.known := by
    intro ts
    induction ts with
    | nil => exact fun b => rfl
    | cons t ts ih => exact fun b => (ih _).trans (m8ddTriRam_known t b)
  exact hfold b.tris _

/-- `m8dd_tris_to_ram` changes nothing that the buffer holds. -/
theorem Buffer.Ok.trisToRam (h : b.Ok all) : (m8ddTrisToRam b).Ok all ∧
    (m8ddTrisToRam b).tris = [] ∧ ∀ p ∈ all, (m8ddTrisToRam b).base p = b.content p :=
  foldl_triRam b.tris ⟨h.filled, fun _ => rfl, h.room⟩ rfl

/-- Nor does `m8dd_ready_all`, which leaves all of it in RAM. -/
theorem Buffer.Ok.readyAll (h : b.Ok all) : (m8ddReadyAll all b).Ok all ∧
    (m8ddReadyAll all b).tris = [] ∧ (∀ p ∈ all, (m8ddReadyAll all b).base p = b.content p) ∧
    ∀ p ∈ all, (m8ddReadyAll all b).ram p = b.content p := by
  obtain ⟨hok, hnil, hbase⟩ := h.trisToRam
  have hram (p : Pixel) (hp : p ∈ all) : (m8ddReady all (m8ddTrisToRam b)).ram p = b.content p :=
    (hok.ready_ram hp hp).trans (hbase p hp)
  have htris : (m8ddReadyAll all b).tris = [] := by
    rw [m8ddReadyAll]
    exact (m8ddReady_tris all _).trans hnil
  have hsame : (m8ddReadyAll all b).base = (m8ddTrisToRam b).base :=
    m8ddReady_base all (m8ddTrisToRam b)
  refine ⟨⟨fun hk _ p hp hl => ?_, fun _ => htris, ?_⟩, htris, fun p hp => ?_, hram⟩
  · have hcolour : (m8ddReadyAll all b).base p = (m8ddReadyAll all b).desc.colour := by
      rw [Buffer.base, if_pos ⟨hk, hl⟩]
    rw [← hcolour, hsame, hbase p hp]
    exact hram p hp
  · rw [m8ddReadyAll]
    dsimp only
    rw [m8ddReady_desc]
    exact hok.room
  · rw [hsame]
    exact hbase p hp

end Inboard
