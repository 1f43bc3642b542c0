import Inboard.Loop
import Inboard.Machine
import Mathlib.Data.UInt

/-!
# A row dithered to the card's colours

The 16 bpp frame buffer's 5-6-5 pixels, one of 256 indices each by a 4 by 4 dither : the
tables of fb16.c (`m8Fb16Tables`), its reference, a pixel at a time (`m8Fb16RowRef`), and
`M8_FB16_CONV` of fb16cv.asm, which looks for runs of one colour and stores a run of 8 or
more by dwords.

A round of the assembly is one run. What it stores is `Mem.fill`, a function of the offset
from where it starts, so that dwords, the bytes left over and single pixels are the same
store with the phase counted on (`convShort_fill`, `convLong_fill`), and the rounds join
into one (`convStep_fill`). The part tables are added in AL, so the index is the
reference's while the three parts do not carry out of a byte (`Fb16Tables.Fits`), which the
tables fb16.c builds keep to (`m8Fb16Tables_fits`).
-/

set_option linter.unusedSectionVars false

namespace Inboard

/-! ## Tables -/

/-- `m8_fb16_r`, `_g`, `_b` and `_y`, by threshold and channel value, and `m8_fb16_cube`. -/
structure Fb16Tables where
  r : ℕ → ℕ → UInt8
  g : ℕ → ℕ → UInt8
  b : ℕ → ℕ → UInt8
  y : ℕ → ℕ → UInt8
  cube : ℕ → UInt8

/-- `m8_fb16_bayer`. -/
def m8Fb16Bayer (y x : ℕ) : ℕ :=
  ([[0, 8, 2, 10], [12, 4, 14, 6], [3, 11, 1, 9], [15, 7, 13, 5]].getD y []).getD x 0

/-- `m8_fb16_row_ref`'s pixel of colour `c` at column `x` of row `y`. -/
def Fb16Tables.ref (T : Fb16Tables) (y x : ℕ) (c : UInt16) : UInt8 :=
  let t := m8Fb16Bayer (y % 4) (x % 4)
  let rb := c &&& 31
  let g := (c >>> 5) &&& 63
  if c >>> 11 = rb ∧ g >>> 1 = rb then T.y t g.toNat
  else T.cube ((T.r t (c >>> 11).toNat).toNat + (T.g t g.toNat).toNat + (T.b t rb.toNat).toNat)

/-- `m8_fb16_row_ref` of `n` pixels from column `l` of row `y`. -/
def m8Fb16RowRef (T : Fb16Tables) (src : ℕ → UInt16) (y l n : ℕ) : List UInt8 :=
  (List.range n).map fun i => T.ref y (l + i) (src i)

/-- The parts of an index add up to no more than a byte. -/
def Fb16Tables.Fits (T : Fb16Tables) : Prop :=
  ∀ t < 16, ∀ red < 32, ∀ green < 64, ∀ blue < 32,
    (T.r t red).toNat + (T.g t green).toNat + (T.b t blue).toNat ≤ 255

/-! ### As fb16.c builds them -/

/-- `m8_fb16_rb_lv`. -/
def m8Fb16RbLv : List ℕ := [0, 64, 128, 192, 255]

/-- `m8_fb16_g_lv`. -/
def m8Fb16GLv : List ℕ := [0, 32, 64, 96, 128, 160, 192, 224, 255]

/-- `m8_fb16_y_low`. -/
def m8Fb16YLow : List ℕ := [8, 16, 24, 32, 40, 48, 56, 72, 80, 88, 96, 104, 112, 120]

/-- `m8_fb16_exact` : the level that stores `v` exactly. -/
def m8Fb16Exact (v bits : ℕ) (lv : List ℕ) : Option ℕ :=
  lv.findIdx? fun a => v = a * (2 ^ bits - 1) / 255 ∨ v = a / 2 ^ (8 - bits)

/-- `m8_fb16_exact_any` : an even green may be a 5-bit one. -/
def m8Fb16ExactAny (v bits : ℕ) (lv : List ℕ) : Option ℕ :=
  (m8Fb16Exact v bits lv).or
    (if bits = 6 ∧ v % 2 = 0 then m8Fb16Exact (v / 2) 5 lv else none)

/-- The last level below `e`, or the first, from level `i` on. -/
def levelBelow (e : ℕ) (lv : List ℕ) : ℕ → ℕ → ℕ
  | 0, i => i
  | n + 1, i =>
    if i < lv.length - 1 ∧ lv.getD (i + 1) 0 < e then levelBelow e lv n (i + 1) else i

/-- `m8_fb16_level` : the level of `v` by threshold `t`. -/
def m8Fb16Level (v bits : ℕ) (lv : List ℕ) (t : ℕ) : ℕ :=
  let max := 2 ^ bits - 1
  let e := (v * 255 * 2 + max) / (2 * max)
  match m8Fb16ExactAny v bits lv with
  | some i => i
  | none =>
    let i := levelBelow e lv lv.length 0
    if (2 * t + 1) * (lv.getD (i + 1) 0 - lv.getD i 0) < (e - lv.getD i 0) * 32 then i + 1 else i

/-- `m8_fb16_cube`. -/
def m8Fb16Cube (c : ℕ) : UInt8 :=
  UInt8.ofNat (if c < 112 then c + 15 else if c = 112 then 127 else c + 16)

/-- The cube's grey `k`. -/
def cubeGrey (k : ℕ) : UInt8 := m8Fb16Cube (k * 45 + k * 2 * 5 + k)

/-- The grey ramp, `m8_fb16_y_lv` and `m8_fb16_y_ix` : cube greys at the ends and quarters,
the low greys in the first half and their inverses in the second. -/
def m8Fb16Ramp : List (ℕ × UInt8) :=
  let low := fun v => (m8Fb16YLow.getD v 0, UInt8.ofNat (v + 1))
  let high := fun v => (255 - m8Fb16YLow.getD v 0, UInt8.ofNat (254 - v))
  [(0, 0)] ++ (List.range 7).map (fun c => low c) ++ [(64, cubeGrey 1)] ++
    (List.range 7).map (fun c => low (7 + c)) ++ [(128, cubeGrey 2)] ++
    (List.range 7).map (fun c => high (13 - c)) ++ [(192, cubeGrey 3)] ++
    (List.range 7).map (fun c => high (6 - c)) ++ [(255, 0xFF)]

/-- `m8_fb16_tables`. -/
def m8Fb16Tables : Fb16Tables where
  r t v := UInt8.ofNat (m8Fb16Level v 5 m8Fb16RbLv t * 45)
  g t v := UInt8.ofNat (m8Fb16Level v 6 m8Fb16GLv t * 5)
  b t v := UInt8.ofNat (m8Fb16Level v 5 m8Fb16RbLv t)
  y t v :=
    match m8Fb16ExactAny v 6 m8Fb16RbLv with
    | some k => cubeGrey k
    | none => (m8Fb16Ramp.getD (m8Fb16Level v 6 (m8Fb16Ramp.map Prod.fst) t) (0, 0)).2
  cube := m8Fb16Cube

/-- The tables' parts add up to an entry of the cube, 224 at most. -/
theorem m8Fb16Tables_fits : m8Fb16Tables.Fits := by
  have hr : ∀ t < 16, ∀ v < 32, (m8Fb16Tables.r t v).toNat ≤ 180 := by decide +kernel
  have hg : ∀ t < 16, ∀ v < 64, (m8Fb16Tables.g t v).toNat ≤ 40 := by decide +kernel
  have hb : ∀ t < 16, ∀ v < 32, (m8Fb16Tables.b t v).toNat ≤ 4 := by decide +kernel
  intro t ht red hred green hgreen blue hblue
  have h1 := hr t ht red hred
  have h2 := hg t ht green hgreen
  have h3 := hb t ht blue hblue
  omega

/-! ## `M8_FB16_CONV` -/

/-- `M8_FB16_CV` : what a row's pointers point at, by phase. -/
structure Fb16Cv where
  r : ℕ → ℕ → UInt8
  g : ℕ → ℕ → UInt8
  b : ℕ → ℕ → UInt8
  y : ℕ → ℕ → UInt8
  cube : ℕ → UInt8

/-- What `M8_FB16_CONV` writes : the destination, and the pattern at `[bx+34]`. -/
inductive ConvSeg
  | dst
  | pat
  deriving DecidableEq

/-- `pixel` : the index of colour AX at phase DX. The parts are added in AL. -/
def fb16Pixel (cv : Fb16Cv) (ax : UInt16) (dx : ℕ) : UInt8 :=
  let blue := ax &&& 31
  let red := ax >>> 11
  let green := (ax >>> 5) &&& 63
  if red = blue ∧ green >>> 1 = red then cv.y dx green.toNat
  else cv.cube (cv.r dx red.toNat + cv.g dx green.toNat + cv.b dx blue.toNat).toNat

/-- `repe scasw` : CX when it stops, and whether all were equal. -/
def repeScasw (src : ℕ → UInt16) (ax : UInt16) : (cx : ℕ) → (di : ℕ) → ℕ × Bool
  | 0, _ => (0, true)
  | cx + 1, di => if src di = ax then repeScasw src ax cx (di + 1) else (cx, false)

/-- The run at SI, of the BP words left. -/
def convRun (src : ℕ → UInt16) (si bp : ℕ) : ℕ :=
  let r := repeScasw src (src si) bp si
  bp - (if r.2 then r.1 else r.1 + 1)

/-- `pat` : a pixel of each phase from DX on, twice. -/
def convPat (cv : Fb16Cv) (ax : UInt16) : (cx : ℕ) → (dx : ℕ) → Mem ConvSeg → Mem ConvSeg
  | 0, _, mem => mem
  | cx + 1, dx, mem =>
    let al := fb16Pixel cv ax dx
    convPat cv ax cx (dx + 1) ((mem.blit .pat dx [al]).blit .pat (dx + 4) [al])

/-- `rep stosd`. -/
def repStosd (eax : ℕ) : (cx : ℕ) → (di : ℕ) → Mem ConvSeg → ℕ × Mem ConvSeg
  | 0, di, mem => (di, mem)
  | cx + 1, di, mem =>
    repStosd eax cx (di + 4) (mem.blit .dst di [UInt8.ofNat eax, UInt8.ofNat (eax / 256),
      UInt8.ofNat (eax / 65536), UInt8.ofNat (eax / 16777216)])

/-- `tail` : AL stored, and `shr eax, 8`. -/
def convTail : (cx : ℕ) → (eax di : ℕ) → Mem ConvSeg → ℕ × Mem ConvSeg
  | 0, _, di, mem => (di, mem)
  | cx + 1, eax, di, mem => convTail cx (eax / 256) (di + 1) (mem.blit .dst di [UInt8.ofNat eax])

/-- `one` : DX, DI and memory after CX pixels of colour AX. -/
def convOne (cv : Fb16Cv) (ax : UInt16) :
    (cx : ℕ) → (dx di : ℕ) → Mem ConvSeg → ℕ × ℕ × Mem ConvSeg
  | 0, dx, di, mem => (dx, di, mem)
  | cx + 1, dx, di, mem =>
    convOne cv ax cx ((dx + 1) % 4) (di + 1) (mem.blit .dst di [fb16Pixel cv ax dx])

/-- The registers at `next`, with SI in words. -/
structure Conv where
  si : ℕ
  di : ℕ
  dx : ℕ
  bp : ℕ
  mem : Mem ConvSeg

/-- From `next` to `advance` : one run, of CX words. `short_run` takes DX back by CX, so that
`advance` adds it. -/
def convRound (cv : Fb16Cv) (src : ℕ → UInt16) (s : Conv) : Conv :=
  let cx := convRun src s.si s.bp
  let ax := src s.si
  let bp := s.bp - cx
  if cx < 8 then
    let r := convOne cv ax cx s.dx s.di s.mem
    let dx := r.1 + 65536 - cx
    ⟨s.si + cx, r.2.1, (dx + cx) % 4, bp, r.2.2⟩
  else
    let mem := convPat cv ax 4 0 s.mem
    let eax := mem.dword .pat s.dx
    let d := repStosd eax (cx / 4) s.di mem
    let d := if cx % 4 = 0 then d else convTail (cx % 4) eax d.1 d.2
    ⟨s.si + cx, d.1, (s.dx + cx) % 4, bp, d.2⟩

/-- One round; it leaves when no words are left. -/
def convStep (cv : Fb16Cv) (src : ℕ → UInt16) (s : Conv) : Conv ⊕ Conv :=
  let t := convRound cv src s
  if t.bp ≠ 0 then .inl t else .inr t

/-- The scan ends at the count, or one past a word that is not the colour; what it passed
is. -/
theorem repeScasw_spec (src : ℕ → UInt16) (ax : UInt16) : ∀ (cx di : ℕ),
    ((repeScasw src ax cx di).2 = true →
        (repeScasw src ax cx di).1 = 0 ∧ ∀ i < cx, src (di + i) = ax) ∧
      ((repeScasw src ax cx di).2 = false →
        (repeScasw src ax cx di).1 < cx ∧
          ∀ i < cx - ((repeScasw src ax cx di).1 + 1), src (di + i) = ax)
  | 0, di => by simp [repeScasw]
  | cx + 1, di => by
    obtain ⟨hall, hsome⟩ := repeScasw_spec src ax cx (di + 1)
    have hshift : ∀ n, src di = ax → (∀ i < n, src (di + 1 + i) = ax) →
        ∀ i < n + 1, src (di + i) = ax := by
      intro n h0 h i hi
      cases i with
      | zero => exact h0
      | succ i =>
        have hi' := h i (by omega)
        rwa [Nat.add_assoc, Nat.add_comm 1] at hi'
    unfold repeScasw
    by_cases heq : src di = ax
    · rw [if_pos heq]
      refine ⟨fun hz => ?_, fun hz => ?_⟩
      · obtain ⟨h0, h⟩ := hall hz
        exact ⟨h0, hshift cx heq h⟩
      · obtain ⟨hlt, h⟩ := hsome hz
        refine ⟨Nat.lt_succ_of_lt hlt, fun i hi => ?_⟩
        exact hshift _ heq h i (by omega)
    · rw [if_neg heq]
      exact ⟨fun hz => by simp at hz, fun _ => ⟨Nat.lt_succ_self cx, fun i hi => by omega⟩⟩

theorem convRun_eq {src : ℕ → UInt16} {si bp i : ℕ} (h : i < convRun src si bp) :
    src (si + i) = src si := by
  obtain ⟨hall, hsome⟩ := repeScasw_spec src (src si) bp si
  unfold convRun at h
  dsimp only at h
  split_ifs at h with hz
  · exact (hall hz).2 i (by omega)
  · exact (hsome (by simpa using hz)).2 i h

theorem convRun_pos (src : ℕ → UInt16) (si : ℕ) {bp : ℕ} (h : 0 < bp) : 0 < convRun src si bp := by
  obtain ⟨n, rfl⟩ := Nat.exists_eq_succ_of_ne_zero (Nat.pos_iff_ne_zero.1 h)
  obtain ⟨hall, hsome⟩ := repeScasw_spec src (src si) n (si + 1)
  unfold convRun
  dsimp only
  rw [repeScasw, if_pos rfl]
  split_ifs with hz
  · have h0 := (hall hz).1
    omega
  · have hlt := (hsome (by simpa using hz)).1
    omega

theorem convRun_le (src : ℕ → UInt16) (si bp : ℕ) : convRun src si bp ≤ bp := Nat.sub_le _ _

theorem convRound_bp (cv : Fb16Cv) (src : ℕ → UInt16) (s : Conv) :
    (convRound cv src s).bp = s.bp - convRun src s.si s.bp := by
  unfold convRound
  dsimp only
  split_ifs <;> rfl

/-- A step goes round with words left, or leaves with none. -/
theorem convStep_cases {cv : Fb16Cv} {src : ℕ → UInt16} {s t : Conv} :
    (convStep cv src s = .inl t → t = convRound cv src s ∧ t.bp ≠ 0) ∧
      (convStep cv src s = .inr t → t = convRound cv src s ∧ t.bp = 0) := by
  unfold convStep
  dsimp only
  split_ifs with h
  · refine ⟨fun heq => ?_, fun heq => by simp at heq⟩
    obtain rfl := Sum.inl.inj heq
    exact ⟨rfl, h⟩
  · refine ⟨fun heq => by simp at heq, fun heq => ?_⟩
    obtain rfl := Sum.inr.inj heq
    exact ⟨rfl, not_not.1 h⟩

theorem convStep_decreases {cv : Fb16Cv} {src : ℕ → UInt16} {s t : Conv}
    (h : convStep cv src s = .inl t) : t.bp < s.bp := by
  obtain ⟨rfl, hne⟩ := convStep_cases.1 h
  rw [convRound_bp] at hne ⊢
  have hpos := convRun_pos src s.si (show 0 < s.bp by omega)
  omega

/-- `next`. -/
def convLoop (cv : Fb16Cv) (src : ℕ → UInt16) : Loop Conv Conv where
  step := convStep cv src
  measure s := s.bp
  decreases _ _ h := convStep_decreases h

/-- `M8_FB16_CONV` of `n` words from SI to DI, at phase DX. -/
def m8Fb16ConvAsm (cv : Fb16Cv) (src : ℕ → UInt16) (si n dx di : ℕ) (mem : Mem ConvSeg) :
    Mem ConvSeg :=
  ((convLoop cv src).run ⟨si, di, dx, n, mem⟩).mem

/-! ### What a round stores -/

section Fill

variable {cv : Fb16Cv} {ax : UInt16} {mem : Mem ConvSeg}

/-- A run's pixels, from a phase on. -/
def runPixels (cv : Fb16Cv) (ax : UInt16) (dx : ℕ) : ℕ → UInt8 :=
  fun i => fb16Pixel cv ax ((dx + i) % 4)

theorem convOne_fill : ∀ (cx : ℕ) {dx di : ℕ} {mem : Mem ConvSeg}, dx < 4 →
    convOne cv ax cx dx di mem =
      ((dx + cx) % 4, di + cx, mem.fill .dst di cx (runPixels cv ax dx))
  | 0, dx, di, mem, hdx => by
    rw [convOne, Mem.fill_zero, Nat.add_zero, Nat.mod_eq_of_lt hdx, Nat.add_zero]
  | cx + 1, dx, di, mem, hdx => by
    have h0 : fb16Pixel cv ax dx = runPixels cv ax dx 0 := by
      rw [runPixels, Nat.add_zero, Nat.mod_eq_of_lt hdx]
    have hrest : ∀ i, runPixels cv ax ((dx + 1) % 4) i = runPixels cv ax dx (1 + i) := fun i => by
      rw [runPixels, runPixels, Nat.mod_add_mod, Nat.add_assoc]
    rw [convOne, convOne_fill cx (Nat.mod_lt _ (by decide)), h0, ← Mem.fill_one,
      Nat.add_comm cx 1, Mem.fill_add, Mem.fill_congr _ fun i _ => hrest i]
    simp only [Prod.mk.injEq, and_true]
    omega

/-- The bytes of EAX, low byte first. -/
def dwordByte (eax i : ℕ) : UInt8 := UInt8.ofNat (eax / 256 ^ i)

theorem convTail_fill : ∀ (cx : ℕ) {eax di : ℕ} {mem : Mem ConvSeg},
    convTail cx eax di mem = (di + cx, mem.fill .dst di cx (dwordByte eax))
  | 0, eax, di, mem => by rw [convTail, Mem.fill_zero, Nat.add_zero]
  | cx + 1, eax, di, mem => by
    have h0 : UInt8.ofNat eax = dwordByte eax 0 := by
      rw [dwordByte, Nat.pow_zero, Nat.div_one]
    have hrest : ∀ i, dwordByte (eax / 256) i = dwordByte eax (1 + i) := fun i => by
      rw [dwordByte, dwordByte, Nat.div_div_eq_div_mul, Nat.pow_add, Nat.pow_one]
    rw [convTail, convTail_fill cx, h0, ← Mem.fill_one, Nat.add_comm cx 1, Mem.fill_add,
      Mem.fill_congr _ fun i _ => hrest i, Nat.add_assoc]

theorem repStosd_fill {eax : ℕ} : ∀ (cx : ℕ) {di : ℕ} {mem : Mem ConvSeg},
    repStosd eax cx di mem =
      (di + 4 * cx, mem.fill .dst di (4 * cx) fun i => dwordByte eax (i % 4))
  | 0, di, mem => by rw [repStosd, Nat.mul_zero, Mem.fill_zero, Nat.add_zero]
  | cx + 1, di, mem => by
    have h0 : mem.blit .dst di [UInt8.ofNat eax, UInt8.ofNat (eax / 256),
        UInt8.ofNat (eax / 65536), UInt8.ofNat (eax / 16777216)] =
          mem.fill .dst di 4 fun i => dwordByte eax (i % 4) := by
      simp [Mem.fill, dwordByte, List.range_succ]
    have hrest : ∀ i, dwordByte eax (i % 4) = dwordByte eax ((4 + i) % 4) := fun i => by
      rw [Nat.add_mod_left]
    rw [repStosd, repStosd_fill cx, h0, Nat.mul_succ, Nat.add_comm (4 * cx) 4, Mem.fill_add,
      Mem.fill_congr _ fun i _ => hrest i, Nat.add_assoc]

/-- A byte of a dword loaded is a byte of memory. -/
theorem dwordByte_dword {a i : ℕ} (h : i < 4) :
    dwordByte (mem.dword .pat a) i = mem .pat (a + i) := by
  have hlt := fun k => (mem .pat k).toNat_lt
  have h0 := hlt a
  have h1 := hlt (a + 1)
  have h2 := hlt (a + 2)
  have h3 := hlt (a + 3)
  refine UInt8.toNat_inj.1 ?_
  rw [dwordByte, Mem.dword, UInt8.toNat_ofNat']
  obtain rfl | rfl | rfl | rfl : i = 0 ∨ i = 1 ∨ i = 2 ∨ i = 3 := by omega
  · simp only [Nat.pow_zero, Nat.div_one, Nat.add_zero]
    omega
  all_goals omega

/-- The pattern holds a pixel of each phase, twice. -/
theorem convPat_pat {j : ℕ} (h : j < 8) :
    convPat cv ax 4 0 mem .pat j = fb16Pixel cv ax (j % 4) := by
  obtain rfl | rfl | rfl | rfl | rfl | rfl | rfl | rfl : j = 0 ∨ j = 1 ∨ j = 2 ∨ j = 3 ∨ j = 4 ∨
      j = 5 ∨ j = 6 ∨ j = 7 := by omega
  all_goals simp [convPat, Mem.blit]

theorem convPat_dst : convPat cv ax 4 0 mem .dst = mem .dst := by
  have hne : ConvSeg.dst ≠ .pat := by decide
  simp only [convPat, Mem.blit_ne _ hne]

/-- A long run is stored as the pixels of its phases. -/
theorem convLong_fill (cv : Fb16Cv) (ax : UInt16) (mem : Mem ConvSeg) (cx di : ℕ) {dx : ℕ}
    (hdx : dx < 4) :
    let m := convPat cv ax 4 0 mem
    let eax := m.dword .pat dx
    let d := repStosd eax (cx / 4) di m
    let d := if cx % 4 = 0 then d else convTail (cx % 4) eax d.1 d.2
    d.1 = di + cx ∧ d.2 .dst = mem.fill .dst di cx (runPixels cv ax dx) .dst := by
  intro m eax d d'
  have hbyte : ∀ i < 4, dwordByte eax i = runPixels cv ax dx i := fun i hi => by
    have hpat : m .pat (dx + i) = fb16Pixel cv ax ((dx + i) % 4) := convPat_pat (by omega)
    rw [dwordByte_dword hi, hpat, runPixels]
  have htail : d' = convTail (cx % 4) eax d.1 d.2 := by
    by_cases h0 : cx % 4 = 0
    · exact (if_pos h0).trans (by rw [h0, convTail])
    · exact if_neg h0
  have hd : d = _ := repStosd_fill (cx / 4)
  have hjoin : d'.2 = m.fill .dst di cx (runPixels cv ax dx) := by
    have hsplit : cx = 4 * (cx / 4) + cx % 4 := (Nat.div_add_mod cx 4).symm
    have hpix : ∀ i, dwordByte eax (i % 4) = runPixels cv ax dx i := fun i => by
      rw [hbyte _ (Nat.mod_lt _ (by decide)), runPixels, runPixels, Nat.add_mod_mod]
    rw [htail, convTail_fill, hd]
    conv_rhs => rw [hsplit, Mem.fill_add]
    rw [Mem.fill_congr _ fun i _ => hpix i]
    refine Mem.fill_congr _ (fun i hi => ?_) _ _
    have hi4 : i < 4 := Nat.lt_trans hi (Nat.mod_lt _ (by decide))
    rw [hbyte i hi4, runPixels, runPixels, ← Nat.add_assoc, Nat.add_right_comm,
      Nat.add_mul_mod_self_left]
  refine ⟨?_, ?_⟩
  · rw [htail, convTail_fill, hd]
    dsimp only
    omega
  · rw [hjoin]
    exact Mem.fill_congr_mem convPat_dst _ _ _

end Fill

/-! ### The whole row -/

/-- The pixels of a row's words, from a phase on. -/
def rowPixels (cv : Fb16Cv) (src : ℕ → UInt16) (si dx : ℕ) : ℕ → UInt8 :=
  fun i => fb16Pixel cv (src (si + i)) ((dx + i) % 4)

/-- A round stores its run, and moves SI, DI and the phase over it. -/
theorem convRound_fill (cv : Fb16Cv) (src : ℕ → UInt16) {s : Conv} (hdx : s.dx < 4) :
    let t := convRound cv src s
    let cx := convRun src s.si s.bp
    t.si = s.si + cx ∧ t.di = s.di + cx ∧ t.dx = (s.dx + cx) % 4 ∧
      t.mem .dst = s.mem.fill .dst s.di cx (rowPixels cv src s.si s.dx) .dst := by
  intro t cx
  have hrun : ∀ i < cx, runPixels cv (src s.si) s.dx i = rowPixels cv src s.si s.dx i :=
    fun i hi => by rw [runPixels, rowPixels, convRun_eq hi]
  rw [← Mem.fill_congr _ hrun]
  have ht : t = convRound cv src s := rfl
  unfold convRound at ht
  dsimp only at ht
  rw [show convRun src s.si s.bp = cx from rfl] at ht
  by_cases h8 : cx < 8
  · rw [if_pos h8] at ht
    rw [ht, convOne_fill cx hdx]
    refine ⟨rfl, rfl, ?_, rfl⟩
    dsimp only
    omega
  · obtain ⟨hdi, hmem⟩ := convLong_fill cv (src s.si) s.mem cx s.di hdx
    rw [if_neg h8] at ht
    rw [ht]
    exact ⟨rfl, hdi, rfl, hmem⟩

/-- `M8_FB16_CONV` stores a pixel for each word, in order. -/
theorem m8Fb16ConvAsm_fill (cv : Fb16Cv) (src : ℕ → UInt16) {si n dx di : ℕ}
    {mem : Mem ConvSeg} (hn : 0 < n) (hdx : dx < 4) :
    m8Fb16ConvAsm cv src si n dx di mem .dst =
      mem.fill .dst di n (rowPixels cv src si dx) .dst := by
  let I : Conv → Prop := fun s => ∃ k, k + s.bp = n ∧ s.si = si + k ∧ s.di = di + k ∧
    s.dx = (dx + k) % 4 ∧ s.mem .dst = mem.fill .dst di k (rowPixels cv src si dx) .dst
  have hround : ∀ s, I s → s.dx < 4 → I (convRound cv src s) := by
    rintro s ⟨k, hk, hsi, hdi, hph, hmem⟩ hlt
    obtain ⟨hsi', hdi', hph', hmem'⟩ := convRound_fill cv src hlt
    have hle := convRun_le src s.si s.bp
    refine ⟨k + convRun src s.si s.bp, ?_, by omega, by omega, ?_, ?_⟩
    · rw [convRound_bp]
      omega
    · rw [hph', hph, Nat.mod_add_mod, Nat.add_assoc]
    · have hpix : ∀ i, rowPixels cv src s.si s.dx i = rowPixels cv src si dx (k + i) := fun i => by
        rw [rowPixels, rowPixels, hsi, hph, Nat.mod_add_mod, Nat.add_assoc, Nat.add_assoc]
      rw [hmem', Mem.fill_congr _ fun i _ => hpix i, hdi, Mem.fill_add]
      exact Mem.fill_congr_mem hmem _ _ _
  refine (convLoop cv src).run_induct (I := fun s => I s ∧ s.dx < 4)
    (P := fun s => s.mem .dst = mem.fill .dst di n (rowPixels cv src si dx) .dst)
    (fun s t hs hstep => ?_) (fun s t hs hstep => ?_) _ ⟨⟨0, ?_⟩, hdx⟩
  · obtain ⟨rfl, -⟩ := convStep_cases.1 hstep
    refine ⟨hround s hs.1 hs.2, ?_⟩
    rw [(convRound_fill cv src hs.2).2.2.1]
    exact Nat.mod_lt _ (by decide)
  · obtain ⟨rfl, h0⟩ := convStep_cases.2 hstep
    obtain ⟨k, hk, -, -, -, hmem⟩ := hround s hs.1 hs.2
    rw [h0] at hk
    rw [hmem, ← hk, Nat.add_zero]
  · refine ⟨Nat.zero_add n, rfl, rfl, ?_, ?_⟩
    · rw [Nat.add_zero, Nat.mod_eq_of_lt hdx]
    · rw [Mem.fill_zero]

/-! ## Against the reference -/

/-- The pointers for row `y`. -/
def Fb16Tables.cv (T : Fb16Tables) (y : ℕ) : Fb16Cv where
  r k := T.r (m8Fb16Bayer y k)
  g k := T.g (m8Fb16Bayer y k)
  b k := T.b (m8Fb16Bayer y k)
  y k := T.y (m8Fb16Bayer y k)
  cube := T.cube

/-- `m8_fb16_cv_row` and `m8_fb16_cv` : the pointers last set, for the row they are for. -/
structure Fb16CvCache (T : Fb16Tables) where
  row : Option ℕ
  cv : Fb16Cv
  ok : ∀ y, row = some y → cv = T.cv y

/-- The pointers set for row `y`, unless they are. -/
def Fb16CvCache.forRow {T : Fb16Tables} (c : Fb16CvCache T) (y : ℕ) : Fb16CvCache T :=
  if c.row ≠ some (y % 4) then ⟨some (y % 4), T.cv (y % 4), fun _ h => by rw [Option.some.inj h]⟩
  else c

theorem Fb16CvCache.forRow_cv {T : Fb16Tables} (c : Fb16CvCache T) (y : ℕ) :
    (c.forRow y).cv = T.cv (y % 4) := by
  unfold forRow
  split_ifs with h
  · rfl
  · exact c.ok _ (not_not.1 h)

/-- `m8_fb16_conv` : `n` words of `m8_fb16_src`, as row `y` from column `l`. -/
def m8Fb16Conv {T : Fb16Tables} (c : Fb16CvCache T) (src : ℕ → UInt16) (y l n di : ℕ)
    (mem : Mem ConvSeg) : Fb16CvCache T × Mem ConvSeg :=
  let c := c.forRow y
  (c, m8Fb16ConvAsm c.cv src 0 n (l % 4) di mem)

theorem m8Fb16Bayer_lt (y x : ℕ) : m8Fb16Bayer (y % 4) (x % 4) < 16 := by
  have h : ∀ i < 4, ∀ j < 4, m8Fb16Bayer i j < 16 := by decide
  exact h _ (Nat.mod_lt _ (by decide)) _ (Nat.mod_lt _ (by decide))

/-- The channels of a 5-6-5 colour. -/
theorem channels_lt (c : UInt16) :
    (c >>> 11).toNat < 32 ∧ ((c >>> 5) &&& 63).toNat < 64 ∧ (c &&& 31).toNat < 32 := by
  have hc := c.toNat_lt
  have hred : (c >>> 11).toNat = c.toNat >>> 11 := UInt16.toNat_shiftRight c 11
  refine ⟨?_, ?_, ?_⟩
  · rw [hred, Nat.shiftRight_eq_div_pow]
    omega
  · rw [UInt16.toNat_and]
    exact Nat.lt_of_le_of_lt Nat.and_le_right (by decide)
  · rw [UInt16.toNat_and]
    exact Nat.lt_of_le_of_lt Nat.and_le_right (by decide)

/-- A pixel of the assembly is the reference's. -/
theorem fb16Pixel_eq_ref {T : Fb16Tables} (hT : T.Fits) (y x : ℕ) (c : UInt16) :
    fb16Pixel (T.cv (y % 4)) c (x % 4) = T.ref y x c := by
  obtain ⟨hred, hgreen, hblue⟩ := channels_lt c
  have hsum := hT _ (m8Fb16Bayer_lt y x) _ hred _ hgreen _ hblue
  unfold fb16Pixel Fb16Tables.ref
  dsimp only [Fb16Tables.cv]
  by_cases hred : c >>> 11 = c &&& 31
  · simp only [hred]
    split_ifs
    · rfl
    · rw [hred] at hsum
      rw [UInt8.toNat_add, UInt8.toNat_add]
      congr 1
      omega
  · rw [if_neg fun h => hred h.1, if_neg fun h => hred h.1, UInt8.toNat_add, UInt8.toNat_add]
    congr 1
    omega

/-- A row converted is the reference's pixels, whatever row the pointers were set for. -/
theorem m8Fb16Conv_fill {T : Fb16Tables} (hT : T.Fits) (c : Fb16CvCache T) (src : ℕ → UInt16)
    (y l : ℕ) {n : ℕ} (hn : 0 < n) (di : ℕ) (mem : Mem ConvSeg) :
    (m8Fb16Conv c src y l n di mem).2 .dst =
      mem.fill .dst di n (fun i => T.ref y (l + i) (src i)) .dst := by
  have hpix : ∀ i, rowPixels (T.cv (y % 4)) src 0 (l % 4) i = T.ref y (l + i) (src i) := fun i => by
    rw [rowPixels, Nat.mod_add_mod, Nat.zero_add, fb16Pixel_eq_ref hT]
  unfold m8Fb16Conv
  dsimp only
  rw [m8Fb16ConvAsm_fill _ _ hn (Nat.mod_lt _ (by decide)), c.forRow_cv,
    Mem.fill_congr _ fun i _ => hpix i]

/-- With parts that fit a byte, `M8_FB16_CONV` of a row of any length from any column writes
the reference's bytes and nothing else, whatever row its tables were set for. -/
theorem m8_fb16_conv_eq_ref {T : Fb16Tables} (hT : T.Fits) (c : Fb16CvCache T)
    (src : ℕ → UInt16) (y l : ℕ) {n : ℕ} (hn : 0 < n) (di : ℕ) (mem : Mem ConvSeg) :
    (m8Fb16Conv c src y l n di mem).2 .dst =
      mem.blit .dst di (m8Fb16RowRef T src y l n) .dst := by
  rw [m8Fb16Conv_fill hT c src y l hn]
  rfl

theorem m8_fb16_conv_eq_ref_tables :
    m8Fb16Tables.Fits ∧ 0 < 5 ∧
      (m8Fb16Conv (T := m8Fb16Tables) ⟨none, m8Fb16Tables.cv 0, fun _ h => by simp at h⟩
        (fun i => UInt16.ofNat (i * 1000)) 2 3 5 0 (fun _ _ => 0)).2 .dst =
      Mem.blit (fun _ _ => 0) ConvSeg.dst 0
        (m8Fb16RowRef m8Fb16Tables (fun i => UInt16.ofNat (i * 1000)) 2 3 5) .dst :=
  ⟨m8Fb16Tables_fits, by decide, m8_fb16_conv_eq_ref m8Fb16Tables_fits _ _ 2 3 (by decide) 0 _⟩

/-- Tables whose parts carry : 200 and 100 are 44 in AL. The byte at 300 is not the one at 44. -/
def carryTables : Fb16Tables where
  r _ _ := 200
  g _ _ := 100
  b _ _ := 0
  y _ _ := 0
  cube i := if i = 44 then 1 else 0

/-- Not for every content of the tables. -/
theorem not_m8_fb16_conv_eq_ref :
    ¬ ∀ (T : Fb16Tables) (c : Fb16CvCache T) (src : ℕ → UInt16) (y l n di : ℕ)
      (mem : Mem ConvSeg), 0 < n →
        (m8Fb16Conv c src y l n di mem).2 .dst =
          mem.blit .dst di (m8Fb16RowRef T src y l n) .dst := by
  intro h
  have heq := congrFun (h carryTables ⟨none, carryTables.cv 0, fun _ h => by simp at h⟩
    (fun _ => 1) 0 0 1 0 (fun _ _ => 0) (by decide)) 0
  exact absurd heq (by decide +kernel)

end Inboard
