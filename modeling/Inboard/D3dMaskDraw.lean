import Inboard.D3dCore
import Inboard.D3dFit
import Inboard.D3dFrame

/-!
# Drawing from a mask

What the writes of `m8d3d_mask_draw` do on the card (`MaskEngine`) : a fill of the core, and of each
box a copy through the mask's plane of the strip. The registers that are held from one mask to the
next are those that the driver keeps a note of (`D3d.MonoRegs`), so a mask in the colour on the card
is its plane's pixels, cut or whole (`m8d3d_mask_same_pixels`).
-/

set_option linter.unusedSectionVars false

namespace Inboard

open Routine

/-! ## The engine -/

/-- The engine's registers, and the card's memory, a byte a pixel. -/
structure MaskEngine where
  reg : ℕ → ℤ
  vram : Pixel → ℕ

namespace MaskEngine

variable (e : MaskEngine)

/-- What is drawn replaces what was there, in all planes. -/
def Replaces : Prop := e.reg M8_WRT_MASK = 0x00FF ∧ e.reg M8_ALU_FG_FN = M8_MIX_REPLACE

/-- The data path of the masks' copy : where the plane is set the colour, and else what is there. -/
def MonoPath : Prop := e.Replaces ∧ e.reg M8_DP_CONFIG = M8_DP_MONO_VRAM ∧
  e.reg M8_ALU_BG_FN = M8_MIX_LEAVE ∧ e.reg M8_SRC_Y_DIR = 1 ∧ e.reg M8_SRC_CMP_FN = 0

instance : Decidable e.Replaces := by unfold Replaces; infer_instance

instance : Decidable e.MonoPath := by unfold MonoPath; infer_instance

/-- The foreground colour. -/
def colour : ℕ := (e.reg M8_FRGD_COLOR).toNat

/-- The rectangle of a fill. -/
def fillRect : Rect where
  left := e.reg M8_CUR_X
  top := e.reg M8_CUR_Y
  right := e.reg M8_CUR_X + e.reg M8_MAJ_AXIS_PCNT + 1
  bottom := e.reg M8_CUR_Y + e.reg M8_MIN_AXIS + 1

/-- The destination of a copy. -/
def copyRect : Rect where
  left := e.reg M8_DEST_X_START
  top := e.reg M8_CUR_Y
  right := e.reg M8_DEST_X_END
  bottom := e.reg M8_DEST_Y_END

/-- The source of a copy's pixel : from `M8_SRC_X_END` on from `M8_SRC_X_START` again. -/
def source (p : Pixel) : Pixel :=
  (e.reg M8_SRC_X_START + (e.reg M8_DESTX_DIASTP - e.reg M8_SRC_X_START +
      (p.1 - e.reg M8_DEST_X_START)) % (e.reg M8_SRC_X_END - e.reg M8_SRC_X_START),
    e.reg M8_DESTY_AXSTP + (p.2 - e.reg M8_CUR_Y))

/-- The plane that is read is set at `p`. -/
def Reads (p : Pixel) : Prop := e.vram p &&& (e.reg M8_RD_MASK).toNat ≠ 0

instance (p : Pixel) : Decidable (e.Reads p) := by unfold Reads; infer_instance

def fill : Pixel → ℕ := e.fillRect.paint (fun _ => e.colour) e.vram

def copy : Pixel → ℕ :=
  e.copyRect.paint (fun p => if e.Reads (e.source p) then e.colour else e.vram p) e.vram

/-- The engine once a register is written. -/
def out (w : ℕ × ℤ) : MaskEngine :=
  let e := { e with reg := Function.update e.reg w.1 w.2 }
  if w = (M8_CMD, (M8_CMD_FILL : ℤ)) ∧ e.reg M8_DP_CONFIG = M8_DP_8514 ∧ e.Replaces then
    { e with vram := e.fill }
  else if w.1 = M8_DEST_Y_END ∧ e.MonoPath then { e with vram := e.copy }
  else e

/-- The engine once a list of writes is sent. -/
def run (ws : List (ℕ × ℤ)) : MaskEngine := ws.foldl out e

variable {e} {w : ℕ × ℤ} {ws : List (ℕ × ℤ)}

theorem run_append (ws ws' : List (ℕ × ℤ)) : e.run (ws ++ ws') = (e.run ws).run ws' :=
  List.foldl_append

@[simp] theorem run_cons : e.run (w :: ws) = (e.out w).run ws := rfl

@[simp] theorem run_nil : e.run [] = e := rfl

@[simp] theorem out_reg : (e.out w).reg = Function.update e.reg w.1 w.2 := by
  unfold out
  dsimp only
  split_ifs <;> rfl

/-- A write that starts nothing. -/
theorem out_quiet (h : w.1 ≠ M8_CMD ∧ w.1 ≠ M8_DEST_Y_END) : (e.out w).vram = e.vram := by
  unfold out
  dsimp only
  rw [if_neg fun hw => h.1 (congrArg Prod.fst hw.1), if_neg fun hw => h.2 hw.1]

theorem run_quiet : ∀ {ws : List (ℕ × ℤ)} {e : MaskEngine},
    (∀ w ∈ ws, w.1 ≠ M8_CMD ∧ w.1 ≠ M8_DEST_Y_END) → (e.run ws).vram = e.vram
  | [], _, _ => rfl
  | w :: _, _, h => (run_quiet fun w' hw' => h w' (List.mem_cons_of_mem w hw')).trans
      (out_quiet (h w List.mem_cons_self))

theorem run_reg : (e.run ws).reg = ws.foldl (fun r w => Function.update r w.1 w.2) e.reg := by
  induction ws generalizing e with
  | nil => rfl
  | cons w ws ih => rw [run_cons, ih, out_reg]; rfl

/-- A fill, started by its command. -/
theorem out_fill (hdp : e.reg M8_DP_CONFIG = M8_DP_8514) (hr : e.Replaces) :
    (e.out (M8_CMD, (M8_CMD_FILL : ℤ))).vram = e.fill := by
  have h : (e.out (M8_CMD, (M8_CMD_FILL : ℤ))) =
      { reg := Function.update e.reg M8_CMD M8_CMD_FILL, vram := e.fill } := if_pos ⟨rfl, hdp, hr⟩
  rw [h]

/-- A copy, started by its last row. -/
theorem out_copy (v : ℤ) (h : e.MonoPath) : (e.out (M8_DEST_Y_END, v)).vram =
    ({ e with reg := Function.update e.reg M8_DEST_Y_END v } : MaskEngine).copy := by
  have hne : M8_DEST_Y_END ≠ M8_CMD := by decide
  have h : (e.out (M8_DEST_Y_END, v)) = { reg := Function.update e.reg M8_DEST_Y_END v, vram :=
      ({ e with reg := Function.update e.reg M8_DEST_Y_END v } : MaskEngine).copy } := by
    unfold out
    dsimp only
    rw [if_neg fun hw => hne (congrArg Prod.fst hw.1), if_pos ⟨rfl, h⟩]
  rw [h]

/-! ## A core and a box -/

/-- The writes of a core's fill, up to its command. -/
def coreSetup (b : M8d3dBox) (x y : ℤ) : List (ℕ × ℤ) :=
  [(M8_RD_MASK, 0x00FF), (M8_DP_CONFIG, M8_DP_8514), (M8_CUR_X, x + b.x), (M8_CUR_Y, y + b.y),
    (M8_MAJ_AXIS_PCNT, b.w - 1), (M8_MIN_AXIS, b.h - 1)]

/-- The writes of a core's fill. -/
def coreWrites (b : M8d3dBox) (x y : ℤ) : List (ℕ × ℤ) :=
  coreSetup b x y ++ [(M8_CMD, (M8_CMD_FILL : ℤ)), (M8_DP_CONFIG, M8_DP_MONO_VRAM)]

/-- The writes of a box's copy from its source on, up to its last row. -/
def boxSetup (mx my : ℤ) (b : M8d3dBox) (x y : ℤ) : List (ℕ × ℤ) :=
  [(M8_DESTX_DIASTP, mx + b.x), (M8_DESTY_AXSTP, my + b.y), (M8_CUR_X, x + b.x),
    (M8_DEST_X_START, x + b.x), (M8_DEST_X_END, x + b.x + b.w), (M8_CUR_Y, y + b.y)]

/-- The writes of a box's copy from its source on. -/
def boxWrites (mx my : ℤ) (b : M8d3dBox) (x y : ℤ) : List (ℕ × ℤ) :=
  boxSetup mx my b x y ++ [(M8_DEST_Y_END, y + b.y + b.h)]

/-- Where a box of a mask goes. -/
def placed (x y : ℤ) (b : M8d3dBox) : Rect := ⟨x + b.x, y + b.y, x + b.x + b.w, y + b.y + b.h⟩

variable {mx my x y : ℤ} {b : M8d3dBox}

/-- The registers that stay from one box of a mask to the next. -/
def heldPorts : List ℕ :=
  [M8_WRT_MASK, M8_DP_CONFIG, M8_ALU_FG_FN, M8_ALU_BG_FN, M8_SRC_Y_DIR, M8_SRC_CMP_FN,
    M8_FRGD_COLOR, M8_SRC_X_START, M8_SRC_X_END]

theorem coreSetup_reg (p : ℕ) : (e.run (coreSetup b x y)).reg p =
    if p = M8_MIN_AXIS then b.h - 1 else if p = M8_MAJ_AXIS_PCNT then b.w - 1
    else if p = M8_CUR_Y then y + b.y else if p = M8_CUR_X then x + b.x
    else if p = M8_DP_CONFIG then M8_DP_8514 else if p = M8_RD_MASK then 0x00FF else e.reg p := by
  rw [run_reg]
  simp only [coreSetup, List.foldl_cons, List.foldl_nil, Function.update_apply]

theorem boxSetup_reg (p : ℕ) : (e.run (boxSetup mx my b x y)).reg p =
    if p = M8_CUR_Y then y + b.y else if p = M8_DEST_X_END then x + b.x + b.w
    else if p = M8_DEST_X_START then x + b.x else if p = M8_CUR_X then x + b.x
    else if p = M8_DESTY_AXSTP then my + b.y else if p = M8_DESTX_DIASTP then mx + b.x
    else e.reg p := by
  rw [run_reg]
  simp only [boxSetup, List.foldl_cons, List.foldl_nil, Function.update_apply]

theorem MonoPath.of_held {e' : MaskEngine} (h : e.MonoPath)
    (hheld : ∀ p ∈ heldPorts, e'.reg p = e.reg p) : e'.MonoPath := by
  obtain ⟨⟨hwrt, hfg⟩, hdp, hbg, hdir, hcmp⟩ := h
  unfold MonoPath Replaces
  rw [hheld _ (by decide), hheld _ (by decide), hheld _ (by decide), hheld _ (by decide),
    hheld _ (by decide), hheld _ (by decide)]
  exact ⟨⟨hwrt, hfg⟩, hdp, hbg, hdir, hcmp⟩

theorem coreWrites_held (h : e.reg M8_DP_CONFIG = M8_DP_MONO_VRAM) :
    ∀ p ∈ heldPorts, (e.run (coreWrites b x y)).reg p = e.reg p := by
  intro p hp
  rw [coreWrites, run_append, run_reg]
  simp only [List.foldl_cons, List.foldl_nil, Function.update_apply, coreSetup_reg]
  simp only [heldPorts, List.mem_cons, List.not_mem_nil, or_false] at hp
  rcases hp with rfl | rfl | rfl | rfl | rfl | rfl | rfl | rfl | rfl <;> simp +decide [h]

theorem boxWrites_held : ∀ p ∈ M8_RD_MASK :: heldPorts,
    (e.run (boxWrites mx my b x y)).reg p = e.reg p := by
  intro p hp
  rw [boxWrites, run_append, run_reg]
  simp only [List.foldl_cons, List.foldl_nil, Function.update_apply, boxSetup_reg]
  simp only [heldPorts, List.mem_cons, List.not_mem_nil, or_false] at hp
  rcases hp with rfl | rfl | rfl | rfl | rfl | rfl | rfl | rfl | rfl | rfl <;> simp +decide

/-- A core is filled with the colour. -/
theorem coreWrites_vram (h : e.MonoPath) :
    (e.run (coreWrites b x y)).vram = (placed x y b).paint (fun _ => e.colour) e.vram := by
  obtain ⟨⟨hwrt, hfg⟩, -⟩ := h
  have hq : (e.run (coreSetup b x y)).vram = e.vram := run_quiet (by simp +decide [coreSetup])
  have hr := @coreSetup_reg e x y b
  rw [coreWrites, run_append]
  generalize e.run (coreSetup b x y) = e' at *
  have hrect : e'.fillRect = placed x y b := by
    unfold fillRect placed
    rw [hr, hr, hr, hr]
    simp +decide
    omega
  have hcol : e'.colour = e.colour := by
    unfold colour
    rw [hr]
    simp +decide
  have hdp : e'.reg M8_DP_CONFIG = M8_DP_8514 := by
    rw [hr]
    simp +decide
  have hrep : e'.Replaces := by
    unfold Replaces
    rw [hr, hr]
    simp +decide [hwrt, hfg]
  rw [run_cons, run_cons, run_nil, out_quiet (by decide), out_fill hdp hrep, fill, hrect, hcol, hq]

/-- A box is filled with the colour where the plane is set. -/
theorem boxWrites_vram (h : e.MonoPath) (hx : e.reg M8_SRC_X_START = mx + b.x)
    (hx' : e.reg M8_SRC_X_END = mx + b.x + b.w) : (e.run (boxWrites mx my b x y)).vram =
      (placed x y b).paint (fun p =>
        if e.Reads (mx + (p.1 - x), my + (p.2 - y)) then e.colour else e.vram p) e.vram := by
  obtain ⟨⟨hwrt, hfg⟩, hdp, hbg, hdir, hcmp⟩ := h
  have hq : (e.run (boxSetup mx my b x y)).vram = e.vram := run_quiet (by simp +decide [boxSetup])
  have hr := @boxSetup_reg e mx my x y b
  rw [boxWrites, run_append]
  generalize e.run (boxSetup mx my b x y) = e' at *
  have hpath : e'.MonoPath := by
    unfold MonoPath Replaces
    rw [hr, hr, hr, hr, hr, hr]
    simp +decide [hwrt, hfg, hdp, hbg, hdir, hcmp]
  have hreg : ∀ p, ({ e' with reg := Function.update e'.reg M8_DEST_Y_END (y + b.y + b.h) } :
      MaskEngine).reg p = if p = M8_DEST_Y_END then y + b.y + b.h else e'.reg p :=
    fun p => Function.update_apply _ _ _ _
  have hvram : ({ e' with reg := Function.update e'.reg M8_DEST_Y_END (y + b.y + b.h) } :
      MaskEngine).vram = e.vram := hq
  rw [run_cons, run_nil, out_copy _ hpath]
  generalize ({ e' with reg := Function.update e'.reg M8_DEST_Y_END (y + b.y + b.h) } :
    MaskEngine) = e'' at *
  have hrect : e''.copyRect = placed x y b := by
    unfold copyRect placed
    rw [hreg, hreg, hreg, hreg, hr, hr, hr]
    simp +decide
  have hcol : e''.colour = e.colour := by
    unfold colour
    rw [hreg, hr]
    simp +decide
  have hread : ∀ q, e''.Reads q = e.Reads q := by
    intro q
    unfold Reads
    rw [hvram, hreg, hr]
    simp +decide
  have hsource : ∀ p ∈ placed x y b, e''.source p = (mx + (p.1 - x), my + (p.2 - y)) := by
    intro p hp
    rw [Rect.mem_iff] at hp
    unfold placed at hp
    dsimp only at hp
    unfold source
    rw [hreg, hreg, hreg, hreg, hreg, hreg, hr, hr, hr, hr, hr, hr]
    simp +decide only [if_true, if_false]
    rw [hx, hx']
    have hmod := Int.emod_eq_of_lt (show 0 ≤ p.1 - (x + b.x) by omega)
      (show p.1 - (x + b.x) < b.w by omega)
    refine Prod.ext ?_ ?_
    · show mx + b.x + (mx + b.x - (mx + b.x) + (p.1 - (x + b.x))) %
        (mx + b.x + b.w - (mx + b.x)) = mx + (p.1 - x)
      rw [show mx + b.x - (mx + b.x) + (p.1 - (x + b.x)) = p.1 - (x + b.x) by omega,
        show mx + b.x + b.w - (mx + b.x) = b.w by omega, hmod]
      omega
    · show my + b.y + (p.2 - (y + b.y)) = my + (p.2 - y)
      omega
  funext p
  rw [copy, hrect]
  by_cases hp : p ∈ placed x y b
  · rw [Rect.paint_mem hp, Rect.paint_mem hp, hsource p hp, hcol, hvram]
    simp only [hread]
  · rw [Rect.paint_not_mem hp, Rect.paint_not_mem hp, hvram]

end MaskEngine

/-! ## What is written -/

namespace D3d

variable {s t u : D3d} {e : MaskEngine} {ws ws' : List (ℕ × ℤ)}

/-- The engine once all that is queued is sent. -/
def card (s : D3d) (e : MaskEngine) : MaskEngine := e.run (s.sent ++ s.q)

/-- `ws` were queued, or sent, and nothing else is changed but how often room was asked for. -/
structure Added (ws : List (ℕ × ℤ)) (s t : D3d) : Prop where
  card : ∀ e, t.card e = (s.card e).run ws
  c : t.c = s.c
  monoOn : t.monoOn = s.monoOn
  stampMode : t.stampMode = s.stampMode
  monoPlane : t.monoPlane = s.monoPlane
  monoX : t.monoX = s.monoX
  monoW : t.monoW = s.monoW

theorem Added.trans (h : Added ws s t) (h' : Added ws' t u) : Added (ws ++ ws') s u :=
  ⟨fun e => by rw [h'.card, h.card, MaskEngine.run_append], h'.c.trans h.c,
    h'.monoOn.trans h.monoOn, h'.stampMode.trans h.stampMode, h'.monoPlane.trans h.monoPlane,
    h'.monoX.trans h.monoX, h'.monoW.trans h.monoW⟩

theorem Added.refl (s : D3d) : Added [] s s := ⟨fun _ => rfl, rfl, rfl, rfl, rfl, rfl, rfl⟩

theorem added_q (p : ℕ) (v : ℤ) (s : D3d) : Added [(p, v)] s (s.m8d3dQ p v) := by
  refine ⟨fun e => ?_, rfl, rfl, rfl, rfl, rfl, rfl⟩
  show e.run (s.sent ++ (s.q ++ [(p, v)])) = _
  rw [← List.append_assoc, MaskEngine.run_append]
  rfl

theorem added_qs : ∀ (ws : List (ℕ × ℤ)) (s : D3d), Added ws s (s.m8d3dQs ws)
  | [], s => .refl s
  | w :: ws, s => (added_q w.1 w.2 s).trans (added_qs ws (s.m8d3dQ w.1 w.2))

variable {room : ℕ → Bool}

theorem qSend_sent : ∀ (fuel : ℕ) (q : List (ℕ × ℤ)) (s : D3d), q.length ≤ fuel →
    (qSend room fuel q s).1 = true → (qSend room fuel q s).2.sent = s.sent ++ q
  | 0, [], s, _, _ => (List.append_nil s.sent).symm
  | 0, _ :: _, _, hlen, _ => absurd hlen (Nat.not_succ_le_zero _)
  | _ + 1, [], s, _, _ => (List.append_nil s.sent).symm
  | fuel + 1, w :: q, s, hlen, hok => by
    unfold qSend at hok ⊢
    split_ifs at hok ⊢ with hroom
    have hdrop : ((w :: q).drop M8D3D_Q_CHUNK).length ≤ fuel := by
      rw [List.length_drop]
      unfold M8D3D_Q_CHUNK
      rw [List.length_cons] at hlen ⊢
      omega
    rw [qSend_sent fuel _ _ hdrop hok]
    dsimp only
    rw [List.append_assoc, List.take_append_drop]

theorem qSend_keeps : ∀ (fuel : ℕ) (q : List (ℕ × ℤ)) (s : D3d),
    (qSend room fuel q s).2.c = s.c ∧ (qSend room fuel q s).2.monoOn = s.monoOn ∧
      (qSend room fuel q s).2.stampMode = s.stampMode ∧
        (qSend room fuel q s).2.monoPlane = s.monoPlane ∧
          (qSend room fuel q s).2.monoX = s.monoX ∧ (qSend room fuel q s).2.monoW = s.monoW
  | 0, _, _ => ⟨rfl, rfl, rfl, rfl, rfl, rfl⟩
  | _ + 1, [], _ => ⟨rfl, rfl, rfl, rfl, rfl, rfl⟩
  | fuel + 1, w :: q, s => by
    unfold qSend
    split_ifs with hroom
    · exact qSend_keeps fuel _ _
    · exact ⟨rfl, rfl, rfl, rfl, rfl, rfl⟩

/-- A queue that is sent is as good as one that is held. -/
theorem added_flush (hok : (m8d3dQFlush room s).1 = true) : Added [] s (m8d3dQFlush room s).2 := by
  obtain ⟨hc, hon, hstamp, hplane, hx, hw⟩ := @qSend_keeps room s.q.length s.q s
  refine ⟨fun e => ?_, hc, hon, hstamp, hplane, hx, hw⟩
  show e.run ((qSend room s.q.length s.q s).2.sent ++ []) = _
  rw [List.append_nil, qSend_sent s.q.length s.q s (Nat.le_refl _) hok]
  rfl

theorem added_need {n : ℕ} (hok : (m8d3dQNeed room n s).1 = true) :
    Added [] s (m8d3dQNeed room n s).2 := by
  unfold m8d3dQNeed at hok ⊢
  split_ifs at hok ⊢
  · exact added_flush hok
  · exact .refl s

theorem added_askTwo (hok : (askTwo room s).1 = true) : Added [] s (askTwo room s).2 := by
  unfold askTwo at hok ⊢
  split_ifs at hok ⊢
  · exact added_flush hok
  · exact .refl s

theorem added_needQs (hok : (needQs room ws s).1 = true) : Added ws s (needQs room ws s).2 := by
  unfold needQs at hok ⊢
  by_cases hneed : (m8d3dQNeed room ws.length s).1 = true
  · rw [seq_true hneed]
    exact (added_need hneed).trans (added_qs ws _)
  · rw [seq_false hneed] at hok
    exact absurd hok hneed

/-! ## What the driver knows of the engine -/

/-- The engine holds what the driver has a note of. -/
structure MonoRegs (s : D3d) (e : MaskEngine) : Prop where
  path : s.monoOn = true → e.MonoPath
  cmp : s.stampMode = false → e.reg M8_SRC_CMP_FN = 0
  plane : s.monoOn = true → 0 ≤ s.monoPlane → e.reg M8_RD_MASK = (1 <<< s.monoPlane.toNat : ℕ)
  cols : s.monoOn = true → 0 ≤ s.monoX → e.reg M8_SRC_X_START = s.c.mx + s.monoX ∧
    e.reg M8_SRC_X_END = s.c.mx + s.monoX + s.monoW

theorem MonoRegs.added (h : s.MonoRegs (s.card e)) (ha : Added [] s t) : t.MonoRegs (t.card e) := by
  obtain ⟨hpath, hcmp, hplane, hcols⟩ := h
  obtain ⟨hcard, hc, hon, hstamp, hp, hx, hw⟩ := ha
  refine ⟨?_, ?_, ?_, ?_⟩
  · rw [hon, hcard]
    exact hpath
  · rw [hstamp, hcard]
    exact hcmp
  · rw [hon, hp, hcard]
    exact hplane
  · rw [hon, hx, hw, hc, hcard]
    exact hcols

/-- The masks' registers are let go. -/
def AtRest (s t : D3d) (e : MaskEngine) : Prop :=
  t.monoOn = false ∧ t.stampMode = false ∧ t.c = s.c ∧ (t.card e).vram = (s.card e).vram ∧
    (t.card e).reg M8_SRC_CMP_FN = 0

/-- `m8d3d_mono_off` leaves neither the masks' registers nor the stamps'. -/
theorem m8d3dMonoOff_rest (h : s.stampMode = true) (hok : (m8d3dMonoOff room s).1 = true) :
    AtRest s (m8d3dMonoOff room s).2 e := by
  unfold m8d3dMonoOff at hok ⊢
  have hstamp : stampOff room s = needQs room [(M8_SRC_CMP_FN, 0), (M8_DP_CONFIG, M8_DP_8514)]
      { s with stampMode := false } := if_pos h
  by_cases hoff : (stampOff room s).1 = true
  · rw [seq_true hoff] at hok ⊢
    rw [hstamp] at hoff
    have ha := added_needQs hoff
    rw [← hstamp] at ha
    generalize (stampOff room s).2 = t at *
    have hvram : (t.card e).vram = (s.card e).vram := by
      rw [ha.card]
      exact MaskEngine.run_quiet (by simp +decide)
    have hcmp : (t.card e).reg M8_SRC_CMP_FN = 0 := by
      rw [ha.card, MaskEngine.run_reg]
      simp +decide
    unfold maskOff at hok ⊢
    split_ifs at hok ⊢ with hon
    · have ha' := added_needQs hok
      refine ⟨ha'.monoOn, ha'.stampMode.trans ha.stampMode, ha'.c.trans ha.c, ?_, ?_⟩
      · rw [ha'.card]
        exact (MaskEngine.run_quiet (by simp +decide)).trans hvram
      · rw [ha'.card, MaskEngine.run_reg]
        simp +decide only [List.foldl_cons, List.foldl_nil, Function.update_apply, if_false]
        exact hcmp
    · exact ⟨Bool.not_eq_true _ ▸ hon, ha.stampMode, ha.c, hvram, hcmp⟩
  · rw [seq_false hoff] at hok
    exact absurd hok hoff

/-! ## A mask's writes -/

/-- The masks' registers are set, and the colour. -/
structure Drawing (e : MaskEngine) (c : D3dContext) (colour : ℤ) (s : D3d) : Prop where
  c : s.c = c
  on : s.monoOn = true
  path : (s.card e).MonoPath
  colour : (s.card e).reg M8_FRGD_COLOR = colour
  plane : 0 ≤ s.monoPlane → (s.card e).reg M8_RD_MASK = (1 <<< s.monoPlane.toNat : ℕ)
  cols : 0 ≤ s.monoX → (s.card e).reg M8_SRC_X_START = s.c.mx + s.monoX ∧
    (s.card e).reg M8_SRC_X_END = s.c.mx + s.monoX + s.monoW

variable {c : D3dContext} {colour x y : ℤ} {k : Fin 8}

theorem MonoRegs.drawing (h : s.MonoRegs (s.card e)) (hs : s.stampMode = false) (colour : ℤ) :
    Drawing e s.c colour (s.monoSetup.m8d3dQ M8_FRGD_COLOR colour) ∧
      ((s.monoSetup.m8d3dQ M8_FRGD_COLOR colour).card e).vram = (s.card e).vram := by
  obtain ⟨hpath, hcmp, hplane, hcols⟩ := h
  have ha := added_q M8_FRGD_COLOR colour s.monoSetup
  unfold monoSetup at ha ⊢
  split_ifs at ha ⊢ with hon
  · have hreg : ∀ p ≠ M8_FRGD_COLOR, ((s.m8d3dQ M8_FRGD_COLOR colour).card e).reg p =
        (s.card e).reg p := by
      intro p hp
      rw [ha.card, MaskEngine.run_reg]
      simp only [List.foldl_cons, List.foldl_nil, Function.update_of_ne hp]
    refine ⟨⟨rfl, hon, ?_, ?_, fun hp => ?_, fun hx => ?_⟩, ?_⟩
    · obtain ⟨⟨hwrt, hfg⟩, hdp, hbg, hdir, hcmp⟩ := hpath hon
      unfold MaskEngine.MonoPath MaskEngine.Replaces
      rw [hreg _ (by decide), hreg _ (by decide), hreg _ (by decide), hreg _ (by decide),
        hreg _ (by decide), hreg _ (by decide)]
      exact ⟨⟨hwrt, hfg⟩, hdp, hbg, hdir, hcmp⟩
    · rw [ha.card, MaskEngine.run_reg]
      simp only [List.foldl_cons, List.foldl_nil, Function.update_self]
    · rw [hreg _ (by decide)]
      exact hplane hon hp
    · rw [hreg _ (by decide), hreg _ (by decide)]
      exact hcols hon hx
    · rw [ha.card]
      exact MaskEngine.run_quiet (by simp +decide)
  · have hset := added_qs [(M8_WRT_MASK, 0x00FF), (M8_DP_CONFIG, M8_DP_MONO_VRAM),
      (M8_ALU_FG_FN, M8_MIX_REPLACE), (M8_ALU_BG_FN, M8_MIX_LEAVE), (M8_SRC_Y_DIR, 1)] s
    generalize hmid : s.m8d3dQs [(M8_WRT_MASK, 0x00FF), (M8_DP_CONFIG, M8_DP_MONO_VRAM),
      (M8_ALU_FG_FN, M8_MIX_REPLACE), (M8_ALU_BG_FN, M8_MIX_LEAVE), (M8_SRC_Y_DIR, 1)] = t at *
    have hcard : (({ t with monoOn := true, monoPlane := -1, monoX := -1, monoW := -1 } :
        D3d).m8d3dQ M8_FRGD_COLOR colour).card e = ((s.card e).run _).run _ :=
      (ha.card e).trans (congrArg (fun e => e.run [(M8_FRGD_COLOR, colour)]) (hset.card e))
    have hnone : ¬ (0 : ℤ) ≤ -1 := by decide
    refine ⟨⟨hset.c, rfl, ?_, ?_, fun hp => absurd hp hnone, fun hx => absurd hx hnone⟩, ?_⟩
    · rw [hcard]
      unfold MaskEngine.MonoPath MaskEngine.Replaces
      rw [MaskEngine.run_reg, MaskEngine.run_reg]
      simp +decide [hcmp hs]
    · rw [hcard, MaskEngine.run_reg]
      simp only [List.foldl_cons, List.foldl_nil, Function.update_self]
    · rw [hcard]
      exact (MaskEngine.run_quiet (by simp +decide)).trans (MaskEngine.run_quiet (by simp +decide))

/-- A core is filled. -/
theorem Drawing.core (h : Drawing e c colour s) (b : M8d3dBox) (x y : ℤ) :
    Drawing e c colour (s.coreFill b x y) ∧ ((s.coreFill b x y).card e).vram =
      (MaskEngine.placed x y b).paint (fun _ => colour.toNat) (s.card e).vram := by
  obtain ⟨hc, hon, hpath, hcol, -, hcols⟩ := h
  have ha := added_qs (MaskEngine.coreWrites b x y) s
  have hcard : (s.coreFill b x y).card e = (s.card e).run (MaskEngine.coreWrites b x y) := ha.card e
  have hheld := MaskEngine.coreWrites_held (b := b) (x := x) (y := y) hpath.2.1
  have hnone : ¬ (0 : ℤ) ≤ -1 := by decide
  have hx' : (s.coreFill b x y).monoX = s.monoX := ha.monoX
  have hw' : (s.coreFill b x y).monoW = s.monoW := ha.monoW
  have hc' : (s.coreFill b x y).c = s.c := ha.c
  refine ⟨⟨ha.c.trans hc, ha.monoOn.trans hon, ?_, ?_, fun hp => absurd hp hnone, fun hx => ?_⟩, ?_⟩
  · rw [hcard]
    exact hpath.of_held hheld
  · rw [hcard, hheld _ (by decide)]
    exact hcol
  · rw [hx'] at hx
    rw [hcard, hheld _ (by decide), hheld _ (by decide), hx', hw', hc']
    exact hcols hx
  · rw [hcard, MaskEngine.coreWrites_vram hpath]
    unfold MaskEngine.colour
    rw [hcol]

/-- The plane is read. -/
theorem Drawing.to (h : Drawing e c colour s) (k : Fin 8) :
    Drawing e c colour (s.monoTo k) ∧ ((s.monoTo k).card e).vram = (s.card e).vram ∧
      ((s.monoTo k).card e).reg M8_RD_MASK = (1 <<< (k : ℕ) : ℕ) := by
  obtain ⟨hc, hon, hpath, hcol, hplane, hcols⟩ := h
  unfold monoTo
  split_ifs with hne
  · have ha := added_q M8_RD_MASK (1 <<< (k : ℕ) : ℕ) s
    have hcard : ({ s.m8d3dQ M8_RD_MASK (1 <<< (k : ℕ) : ℕ) with monoPlane := (k : ℕ) } :
        D3d).card e = (s.card e).run [(M8_RD_MASK, ((1 <<< (k : ℕ) : ℕ) : ℤ))] := ha.card e
    have hreg : ∀ p ≠ M8_RD_MASK, ((s.card e).run [(M8_RD_MASK, ((1 <<< (k : ℕ) : ℕ) : ℤ))]).reg p =
        (s.card e).reg p := by
      intro p hp
      rw [MaskEngine.run_reg]
      simp only [List.foldl_cons, List.foldl_nil, Function.update_of_ne hp]
    have hheld : ∀ p ∈ MaskEngine.heldPorts,
        ((s.card e).run [(M8_RD_MASK, ((1 <<< (k : ℕ) : ℕ) : ℤ))]).reg p = (s.card e).reg p :=
      fun p hp => hreg p fun heq => absurd (heq ▸ hp) (by decide)
    have hset : ((s.card e).run [(M8_RD_MASK, ((1 <<< (k : ℕ) : ℕ) : ℤ))]).reg M8_RD_MASK =
        (1 <<< (k : ℕ) : ℕ) := by
      rw [MaskEngine.run_reg]
      simp only [List.foldl_cons, List.foldl_nil, Function.update_self]
    refine ⟨⟨hc, hon, ?_, ?_, fun _ => ?_, fun hx => ?_⟩, ?_, ?_⟩
    · rw [hcard]
      exact hpath.of_held hheld
    · rw [hcard, hheld _ (by decide)]
      exact hcol
    · rw [hcard]
      exact hset
    · rw [hcard, hheld _ (by decide), hheld _ (by decide)]
      exact hcols hx
    · rw [hcard]
      exact MaskEngine.run_quiet (by simp +decide)
    · rw [hcard]
      exact hset
  · have heq : s.monoPlane = (k : ℕ) := not_not.mp hne
    refine ⟨⟨hc, hon, hpath, hcol, hplane, hcols⟩, rfl, ?_⟩
    rw [hplane (by omega), heq]
    rfl

/-- The columns of a box's source are set, unless they are already. -/
def boxCols (b : M8d3dBox) (s : D3d) : D3d :=
  if s.monoX ≠ b.x ∨ s.monoW ≠ b.w then
    { s.m8d3dQs [(M8_SRC_X_START, s.c.mx + b.x), (M8_SRC_X_END, s.c.mx + b.x + b.w)] with
      monoX := b.x
      monoW := b.w }
  else s

theorem m8d3dMaskBox_eq (b : M8d3dBox) (x y : ℤ) (s : D3d) : s.m8d3dMaskBox b x y =
    (s.boxCols b).m8d3dQs (MaskEngine.boxWrites (s.boxCols b).c.mx (s.boxCols b).c.my b x y) := rfl

theorem Drawing.boxCols (h : Drawing e c colour s) (b : M8d3dBox) :
    Drawing e c colour (s.boxCols b) ∧
      ((s.boxCols b).card e).reg M8_RD_MASK = (s.card e).reg M8_RD_MASK ∧
        ((s.boxCols b).card e).vram = (s.card e).vram ∧
          (s.boxCols b).monoX = b.x ∧ (s.boxCols b).monoW = b.w := by
  obtain ⟨hc, hon, hpath, hcol, hplane, hcols⟩ := h
  unfold D3d.boxCols
  split_ifs with hne
  · have ha := added_qs [(M8_SRC_X_START, s.c.mx + b.x), (M8_SRC_X_END, s.c.mx + b.x + b.w)] s
    generalize hmid : s.m8d3dQs [(M8_SRC_X_START, s.c.mx + b.x),
      (M8_SRC_X_END, s.c.mx + b.x + b.w)] = t at *
    have hcard : ({ t with monoX := b.x, monoW := b.w } : D3d).card e = (s.card e).run _ :=
      ha.card e
    have hreg : ∀ p, p ≠ M8_SRC_X_START → p ≠ M8_SRC_X_END →
        (({ t with monoX := b.x, monoW := b.w } : D3d).card e).reg p = (s.card e).reg p := by
      intro p hp hp'
      rw [hcard, MaskEngine.run_reg]
      simp only [List.foldl_cons, List.foldl_nil, Function.update_of_ne hp,
        Function.update_of_ne hp']
    refine ⟨⟨ha.c.trans hc, ha.monoOn.trans hon, ?_, ?_, fun hp => ?_, fun _ => ?_⟩,
      hreg _ (by decide) (by decide), ?_, rfl, rfl⟩
    · obtain ⟨⟨hwrt, hfg⟩, hdp, hbg, hdir, hcmp⟩ := hpath
      unfold MaskEngine.MonoPath MaskEngine.Replaces
      rw [hreg _ (by decide) (by decide), hreg _ (by decide) (by decide),
        hreg _ (by decide) (by decide), hreg _ (by decide) (by decide),
        hreg _ (by decide) (by decide), hreg _ (by decide) (by decide)]
      exact ⟨⟨hwrt, hfg⟩, hdp, hbg, hdir, hcmp⟩
    · rw [hreg _ (by decide) (by decide)]
      exact hcol
    · rw [hreg _ (by decide) (by decide)]
      have hmono : t.monoPlane = s.monoPlane := ha.monoPlane
      dsimp only at hp ⊢
      rw [hmono] at hp ⊢
      exact hplane hp
    · have hc' : t.c = s.c := ha.c
      rw [hcard, MaskEngine.run_reg]
      dsimp only
      rw [hc']
      simp +decide
    · rw [hcard]
      exact MaskEngine.run_quiet (by simp +decide)
  · obtain ⟨hx, hw⟩ : s.monoX = b.x ∧ s.monoW = b.w := by omega
    exact ⟨⟨hc, hon, hpath, hcol, hplane, hcols⟩, rfl, rfl, hx, hw⟩

/-- A box is copied. -/
theorem Drawing.box (h : Drawing e c colour s)
    (hk : (s.card e).reg M8_RD_MASK = (1 <<< (k : ℕ) : ℕ)) (b : M8d3dBox) (hb : 0 ≤ b.x) (x y : ℤ) :
    Drawing e c colour (s.m8d3dMaskBox b x y) ∧
      ((s.m8d3dMaskBox b x y).card e).reg M8_RD_MASK = (1 <<< (k : ℕ) : ℕ) ∧
        ((s.m8d3dMaskBox b x y).card e).vram = (MaskEngine.placed x y b).paint (fun p =>
          if (s.card e).vram (c.mx + (p.1 - x), c.my + (p.2 - y)) &&& 1 <<< (k : ℕ) ≠ 0
          then colour.toNat else (s.card e).vram p) (s.card e).vram := by
  obtain ⟨⟨hc, hon, hpath, hcol, hplane, hcols⟩, hrd, hvram, hx, hw⟩ := h.boxCols b
  rw [m8d3dMaskBox_eq, hc]
  have ha := added_qs (MaskEngine.boxWrites c.mx c.my b x y) (s.boxCols b)
  generalize s.boxCols b = t at *
  obtain ⟨hx0, hx1⟩ := hcols (by omega)
  rw [hx, hc] at hx0
  rw [hx, hw, hc] at hx1
  have hheld := @MaskEngine.boxWrites_held (t.card e) c.mx c.my x y b
  have hcard := ha.card e
  generalize t.m8d3dQs (MaskEngine.boxWrites c.mx c.my b x y) = u at *
  refine ⟨⟨ha.c.trans hc, ha.monoOn.trans hon, ?_, ?_, fun hp => ?_, fun hp => ?_⟩, ?_, ?_⟩
  · rw [hcard]
    exact hpath.of_held fun p hp => hheld p (List.mem_cons_of_mem _ hp)
  · rw [hcard, hheld _ (by decide)]
    exact hcol
  · rw [ha.monoPlane] at hp ⊢
    rw [hcard, hheld _ (by decide)]
    exact hplane hp
  · rw [hcard, hheld _ (by decide), hheld _ (by decide), ha.c, ha.monoX, ha.monoW, hx, hw, hc]
    exact ⟨hx0, hx1⟩
  · rw [hcard, hheld _ (by decide), hrd]
    exact hk
  · rw [hcard, MaskEngine.boxWrites_vram hpath hx0 hx1]
    have hcolour : (t.card e).colour = colour.toNat := by
      unfold MaskEngine.colour
      rw [hcol]
    have hread : ∀ q, (t.card e).Reads q ↔ (s.card e).vram q &&& 1 <<< (k : ℕ) ≠ 0 := by
      intro q
      unfold MaskEngine.Reads
      rw [hvram, hrd, hk]
      rfl
    simp only [hread, hcolour, hvram]

/-! ## A mask on the screen -/

/-- The memory is `v` but for the pixels of `D`, which have the colour. -/
def Shows (v : Pixel → ℕ) (colour : ℕ) (D : Set Pixel) (e : MaskEngine) : Prop :=
  ∀ q, (q ∈ D → e.vram q = colour) ∧ (q ∉ D → e.vram q = v q)

variable {v : Pixel → ℕ} {D : Set Pixel} {w h : ℤ}

/-- What is copied of a box : the pixels of the plane. -/
def boxPixels (v : Pixel → ℕ) (c : D3dContext) (k : Fin 8) (x y : ℤ) (b : M8d3dBox) : Set Pixel :=
  {q | q ∈ MaskEngine.placed x y b ∧ v (c.mx + (q.1 - x), c.my + (q.2 - y)) &&& 1 <<< (k : ℕ) ≠ 0}

/-- The mask is not drawn on the strip. -/
def OffMask (c : D3dContext) (w h x y : ℤ) : Prop :=
  ∀ q p, InBox w h (q.1 - x, q.2 - y) → InBox w h p → q ≠ (c.mx + p.1, c.my + p.2)

theorem mem_placed {b : M8d3dBox} {q : Pixel} :
    q ∈ MaskEngine.placed x y b ↔ (q.1 - x, q.2 - y) ∈ b.rect := by
  rw [Rect.mem_iff, Rect.mem_iff]
  unfold MaskEngine.placed M8d3dBox.rect
  dsimp only
  omega

theorem Drawing.boxes (hoff : OffMask c w h x y) :
    ∀ {bs : List M8d3dBox} {s : D3d} {D : Set Pixel}, Drawing e c colour s →
      (s.card e).reg M8_RD_MASK = (1 <<< (k : ℕ) : ℕ) → Shows v colour.toNat D (s.card e) →
        (∀ q ∈ D, InBox w h (q.1 - x, q.2 - y)) →
          (∀ b ∈ bs, 0 ≤ b.x ∧ ∀ p ∈ b.rect, InBox w h p) →
            Shows v colour.toNat (D ∪ {q | ∃ b ∈ bs, q ∈ boxPixels v c k x y b})
              ((bs.foldl (fun s b => s.m8d3dMaskBox b x y) s).card e)
  | [], _, _, _, _, hshows, _, _ => by
    intro q
    obtain ⟨hin, hout⟩ := hshows q
    refine ⟨fun hq => ?_, fun hq => hout fun hD => hq (.inl hD)⟩
    rcases hq with hq | ⟨b, hb, -⟩
    · exact hin hq
    · exact absurd hb List.not_mem_nil
  | b :: bs, s, D, hs, hk, hshows, hD, hbs => by
    obtain ⟨hb, hrect⟩ := hbs b List.mem_cons_self
    obtain ⟨hs', hk', hvram⟩ := hs.box hk b hb x y
    have hread : ∀ q ∈ MaskEngine.placed x y b,
        (s.card e).vram (c.mx + (q.1 - x), c.my + (q.2 - y)) =
          v (c.mx + (q.1 - x), c.my + (q.2 - y)) := by
      intro q hq
      refine (hshows _).2 fun hmem => ?_
      exact hoff _ (q.1 - x, q.2 - y) (hD _ hmem) (hrect _ (mem_placed.mp hq)) rfl
    have hshows' : Shows v colour.toNat (D ∪ boxPixels v c k x y b)
        ((s.m8d3dMaskBox b x y).card e) := by
      intro q
      rw [hvram]
      by_cases hq : q ∈ MaskEngine.placed x y b
      · rw [Rect.paint_mem hq, hread q hq]
        refine ⟨fun hmem => ?_, fun hmem => ?_⟩
        · split_ifs with hbit
          · rfl
          · exact (hshows q).1 (hmem.resolve_right fun hb => hbit hb.2)
        · rw [if_neg fun hbit => hmem (.inr ⟨hq, hbit⟩)]
          exact (hshows q).2 fun hmem' => hmem (.inl hmem')
      · rw [Rect.paint_not_mem hq]
        exact ⟨fun hmem => (hshows q).1 (hmem.resolve_right fun hb => hq hb.1),
          fun hmem => (hshows q).2 fun hmem' => hmem (.inl hmem')⟩
    have hD' : ∀ q ∈ D ∪ boxPixels v c k x y b, InBox w h (q.1 - x, q.2 - y) := by
      rintro q (hq | hq)
      · exact hD q hq
      · exact hrect _ (mem_placed.mp hq.1)
    have hrest := Drawing.boxes hoff hs' hk' hshows' hD'
      (fun b' hb' => hbs b' (List.mem_cons_of_mem b hb'))
    have hset : D ∪ {q | ∃ b' ∈ b :: bs, q ∈ boxPixels v c k x y b'} =
        D ∪ boxPixels v c k x y b ∪ {q | ∃ b' ∈ bs, q ∈ boxPixels v c k x y b'} := by
      ext q
      simp only [Set.mem_union, Set.mem_ofPred_eq, List.mem_cons, exists_eq_or_imp, or_assoc]
    rw [hset]
    exact hrest

/-- What a mask's writes draw : its core, and of the boxes what the plane has. -/
theorem maskWrites_shows (hregs : s.MonoRegs (s.card e)) (hstamp : s.stampMode = false)
    (hoff : OffMask s.c w h x y)
    (hcore : (s.c.cut k).core.w ≠ 0 → ∀ p ∈ (s.c.cut k).core.rect, InBox w h p)
    (hboxes : ∀ b ∈ maskBoxes (s.c.mask k) (s.c.cut k), 0 ≤ b.x ∧ ∀ p ∈ b.rect, InBox w h p) :
    Shows (s.card e).vram colour.toNat
      ({q | (s.c.cut k).core.w ≠ 0 ∧ q ∈ MaskEngine.placed x y (s.c.cut k).core} ∪
        {q | ∃ b ∈ maskBoxes (s.c.mask k) (s.c.cut k), q ∈ boxPixels (s.card e).vram s.c k x y b})
      ((s.maskWrites k x y colour).card e) := by
  obtain ⟨hset, hsetv⟩ := hregs.drawing hstamp colour
  have hfilled : Drawing e s.c colour (if (s.c.cut k).core.w ≠ 0 then
        (s.monoSetup.m8d3dQ M8_FRGD_COLOR colour).coreFill (s.c.cut k).core x y
      else s.monoSetup.m8d3dQ M8_FRGD_COLOR colour) ∧
      Shows (s.card e).vram colour.toNat
        {q | (s.c.cut k).core.w ≠ 0 ∧ q ∈ MaskEngine.placed x y (s.c.cut k).core}
        ((if (s.c.cut k).core.w ≠ 0 then
          (s.monoSetup.m8d3dQ M8_FRGD_COLOR colour).coreFill (s.c.cut k).core x y
        else s.monoSetup.m8d3dQ M8_FRGD_COLOR colour : D3d).card e) := by
    split_ifs with hw
    · obtain ⟨hdraw, hvram⟩ := hset.core (s.c.cut k).core x y
      refine ⟨hdraw, fun q => ?_⟩
      rw [hvram, hsetv]
      exact ⟨fun hq => Rect.paint_mem hq.2, fun hq => Rect.paint_not_mem fun hmem => hq ⟨hw, hmem⟩⟩
    · refine ⟨hset, fun q => ?_⟩
      rw [hsetv]
      exact ⟨fun hq => absurd hq.1 hw, fun _ => rfl⟩
  obtain ⟨hdraw, hshows⟩ := hfilled
  obtain ⟨hto, htov, hk⟩ := hdraw.to k
  have hshows' : Shows (s.card e).vram colour.toNat
      {q | (s.c.cut k).core.w ≠ 0 ∧ q ∈ MaskEngine.placed x y (s.c.cut k).core} _ := fun q => by
    have := hshows q
    rwa [← htov] at this
  exact hto.boxes hoff hk hshows' (fun q hq => hcore hq.1 _ (mem_placed.mp hq.2)) hboxes

theorem AtRest.monoRegs (h : AtRest s t e) : t.MonoRegs (t.card e) := by
  obtain ⟨hon, -, -, -, hcmp⟩ := h
  have hoff : t.monoOn = true → False := fun hon' => Bool.noConfusion (hon'.symm.trans hon)
  exact ⟨fun h => (hoff h).elim, fun _ => hcmp, fun h => (hoff h).elim, fun h => (hoff h).elim⟩

/-- Up to its own writes `m8d3d_mask_draw` draws nothing. -/
theorem m8d3dMaskDraw_eq {dx dy l top : ℤ} (hregs : s.MonoRegs (s.card e))
    (hok : (m8d3dMaskDraw room k dx dy l top colour s).1 = true) :
    ∃ t : D3d, t.MonoRegs (t.card e) ∧ t.stampMode = false ∧ t.c = s.c ∧
      (t.card e).vram = (s.card e).vram ∧ (m8d3dMaskDraw room k dx dy l top colour s).2 =
        t.maskWrites k (dx + l) (dy + top) colour := by
  unfold m8d3dMaskDraw at hok ⊢
  have hfirst : ((if s.stampMode = true then m8d3dMonoOff room s else ok s) : Bool × D3d).1 = true →
      ∃ t : D3d, ((if s.stampMode = true then m8d3dMonoOff room s else ok s) : Bool × D3d).2 = t ∧
        t.MonoRegs (t.card e) ∧ t.stampMode = false ∧ t.c = s.c ∧
          (t.card e).vram = (s.card e).vram := by
    intro hok
    split_ifs at hok ⊢ with hstamp
    · have hrest := @m8d3dMonoOff_rest s e room hstamp hok
      exact ⟨_, rfl, hrest.monoRegs, hrest.2.1, hrest.2.2.1, hrest.2.2.2.1⟩
    · exact ⟨s, rfl, hregs, Bool.not_eq_true _ ▸ hstamp, rfl, rfl⟩
  by_cases hoff : ((if s.stampMode = true then m8d3dMonoOff room s else ok s) : Bool × D3d).1 = true
  · rw [seq_true hoff] at hok ⊢
    obtain ⟨t, ht, htregs, htstamp, htc, htv⟩ := hfirst hoff
    rw [ht] at hok ⊢
    by_cases hask : (askTwo room t).1 = true
    · rw [seq_true hask]
      have ha := added_askTwo hask
      refine ⟨(askTwo room t).2, htregs.added ha, ha.stampMode.trans htstamp, ha.c.trans htc, ?_,
        rfl⟩
      rw [ha.card]
      exact htv
    · rw [seq_false hask] at hok
      exact absurd hok hask
  · rw [seq_false hoff] at hok
    exact absurd hok hoff

/-- If every call finds room `m8d3d_mask_draw` goes through. -/
theorem goes_m8d3dMaskDraw (dx dy l top : ℤ) : Goes (m8d3dMaskDraw roomy k dx dy l top colour) := by
  have hstamp : Goes (stampOff roomy) := fun s => by
    unfold stampOff
    split_ifs
    · exact (minor_needQs roomy _).goes rfl _
    · rfl
  have hmask : Goes (maskOff roomy) := fun s => by
    unfold maskOff
    split_ifs
    · exact (minor_needQs roomy _).goes rfl _
    · rfl
  have hask : Goes (askTwo roomy) := fun s => by
    unfold askTwo
    split_ifs
    · exact (minor_m8d3dQFlush roomy).goes rfl s
    · rfl
  have hoff : Goes fun s => if s.stampMode = true then m8d3dMonoOff roomy s else Routine.ok s :=
    fun s => by
      dsimp only
      split_ifs
      · exact (hstamp.seq hmask) s
      · rfl
  exact hoff.seq (hask.seq (.note _))

/-- A mask that is a shape's pixels, whole or cut, draws the shape. -/
theorem m8d3dMaskDraw_shows {dx dy l top : ℤ} {S : Set Pixel} (hregs : s.MonoRegs (s.card e))
    (hoff : OffMask s.c w h (dx + l) (dy + top)) (hS : ∀ p ∈ S, InBox w h p)
    (hplane : ∀ p, InBox w h p →
      ((s.card e).vram (s.c.mx + p.1, s.c.my + p.2) &&& 1 <<< (k : ℕ) ≠ 0 ↔ p ∈ S))
    (hsize : (s.c.mask k).w = w ∧ (s.c.mask k).h = h)
    (hcut : (s.c.cut k).core.w = 0 ∨ (s.c.cut k).core.w ≠ 0 ∧ (s.c.cut k).Cuts w h S)
    (hok : (m8d3dMaskDraw room k dx dy l top colour s).1 = true) :
    Shows (s.card e).vram colour.toNat {q | (q.1 - (dx + l), q.2 - (dy + top)) ∈ S}
      ((m8d3dMaskDraw room k dx dy l top colour s).2.card e) := by
  obtain ⟨t, htregs, htstamp, htc, htv, heq⟩ := m8d3dMaskDraw_eq hregs hok
  rw [heq, ← htv]
  rw [← htc] at hoff hplane hcut hsize
  rw [← htv] at hplane
  have hinside : (∀ b ∈ maskBoxes (t.c.mask k) (t.c.cut k), 0 ≤ b.x ∧ ∀ p ∈ b.rect, InBox w h p) ∧
      ((t.c.cut k).core.w ≠ 0 → ∀ p ∈ (t.c.cut k).core.rect, InBox w h p) := by
    unfold maskBoxes
    rcases hcut with hwhole | ⟨hcore, hcuts⟩
    · rw [if_pos hwhole]
      refine ⟨fun b hb => ?_, fun hne => absurd hwhole hne⟩
      obtain rfl := List.mem_singleton.mp hb
      refine ⟨Int.le_refl 0, fun p hp => ?_⟩
      rw [Rect.mem_iff] at hp
      unfold M8d3dBox.rect at hp
      unfold InBox
      dsimp only at hp
      omega
    · rw [if_neg hcore]
      exact ⟨fun b hb => ⟨hcuts.left b hb, hcuts.inside b hb⟩, fun _ p hp => hS p (hcuts.core p hp)⟩
  have hshows : Shows _ colour.toNat _ ((t.maskWrites k (dx + l) (dy + top) colour).card e) :=
    maskWrites_shows htregs htstamp hoff hinside.2 hinside.1
  have hset : {q : Pixel | (q.1 - (dx + l), q.2 - (dy + top)) ∈ S} =
      {q | (t.c.cut k).core.w ≠ 0 ∧ q ∈ MaskEngine.placed (dx + l) (dy + top) (t.c.cut k).core} ∪
        {q | ∃ b ∈ maskBoxes (t.c.mask k) (t.c.cut k),
          q ∈ boxPixels (t.card e).vram t.c k (dx + l) (dy + top) b} := by
    ext q
    have hbit := hplane (q.1 - (dx + l), q.2 - (dy + top))
    have hmem : ∀ {b : M8d3dBox}, q ∈ MaskEngine.placed (dx + l) (dy + top) b ↔
        (q.1 - (dx + l), q.2 - (dy + top)) ∈ b.rect := mem_placed
    refine ⟨fun hq => ?_, fun hq => ?_⟩
    · have hbox := hS _ hq
      rcases hcut with hwhole | ⟨hcore, hcuts⟩
      · refine .inr ⟨⟨0, 0, (t.c.mask k).w, (t.c.mask k).h⟩, ?_, hmem.mpr ?_, (hbit hbox).mpr hq⟩
        · unfold maskBoxes
          rw [if_pos hwhole]
          exact List.mem_singleton_self _
        · unfold InBox at hbox
          rw [Rect.mem_iff]
          unfold M8d3dBox.rect
          dsimp only at hbox ⊢
          omega
      · rcases hcuts.covers _ hq with hc | ⟨b, hb, hqb⟩
        · exact .inl ⟨hcore, hmem.mpr hc⟩
        · refine .inr ⟨b, ?_, hmem.mpr hqb, (hbit hbox).mpr hq⟩
          unfold maskBoxes
          rwa [if_neg hcore]
    · rcases hq with ⟨hcore, hq⟩ | ⟨b, hb, hq, hset⟩
      · exact (hcut.resolve_left hcore).2.core _ (hmem.mp hq)
      · exact (hbit ((hinside.1 b hb).2 _ (hmem.mp hq))).mp hset
  rw [hset]
  exact hshows

end D3d

/-! ## Core and parts -/

section Mask

variable {n : Corners} {w h : ℤ} {L : Fin 3 → Set Pixel}

/-- Where a core is picked, of a triangle in its box and whichever way its edges round : core and
parts are the shape, and a mask of the shape in plane `k` draws the shape with them, as it does as
one box. -/
theorem m8d3d_mask_same_pixels (hin : ∀ p ∈ n.points, InBox w h p) (hw : w ≤ 0x8000)
    (hL : n.Outlined L) (hcore : (m8d3dCoreChoose n w h).core.w ≠ 0) :
    ((m8d3dCoreChoose n w h).Cuts w h (Corners.shape L) ∧
        (m8d3dCoreChoose n w h).part.length ≤ 4) ∧
      ∀ (room : ℕ → Bool) (s : D3d) (e : MaskEngine) (k : Fin 8) (dx dy l t colour : ℤ),
        s.MonoRegs (s.card e) → D3d.OffMask s.c w h (dx + l) (dy + t) →
          (∀ p, InBox w h p → ((s.card e).vram (s.c.mx + p.1, s.c.my + p.2) &&& 1 <<< (k : ℕ) ≠ 0 ↔
            p ∈ Corners.shape L)) →
            (s.c.mask k).w = w ∧ (s.c.mask k).h = h →
              s.c.cut k = m8d3dCoreChoose n w h ∨ s.c.cut k = .whole →
                (D3d.m8d3dMaskDraw room k dx dy l t colour s).1 = true →
                  D3d.Shows (s.card e).vram colour.toNat
                    {q | (q.1 - (dx + l), q.2 - (dy + t)) ∈ Corners.shape L}
                    ((D3d.m8d3dMaskDraw room k dx dy l t colour s).2.card e) := by
  have hcuts := m8d3dCoreChoose_cuts hin hw hL hcore
  refine ⟨⟨hcuts, (m8d3dCoreChoose n w h).fits⟩,
    fun room s e k dx dy l t colour hregs hoff hplane hsize hcut hok => ?_⟩
  refine D3d.m8d3dMaskDraw_shows hregs hoff (fun p hp => shape_inBox hin hL hp) hplane hsize ?_ hok
  rcases hcut with hcut | hcut
  · rw [hcut]
    exact .inr ⟨hcore, hcuts⟩
  · rw [hcut]
    exact .inl rfl

/-- A scratch at (640, 512) with a right triangle of 100 rows, cut, as its first mask. -/
def rightCut : D3d :=
  let s := D3d.created true 640 512 352 480 m8d3dCtx
  let n : Corners := ⟨(0, 0), (0, 99), (99, 99)⟩
  { s with c := { s.c with
      mask := Function.update s.c.mask 0 ⟨n, 100, 100, 1⟩
      cut := Function.update s.c.cut 0 (m8d3dCoreChoose n 100 100) } }

/-- It has a core, and is drawn at (0, 0) in colour 7. -/
theorem m8d3d_mask_same_pixels_right : ∃ (L : Fin 3 → Set Pixel) (e : MaskEngine),
    (⟨(0, 0), (0, 99), (99, 99)⟩ : Corners).Outlined L ∧
      (m8d3dCoreChoose ⟨(0, 0), (0, 99), (99, 99)⟩ 100 100).Cuts 100 100 (Corners.shape L) ∧
        rightCut.MonoRegs (rightCut.card e) ∧ D3d.OffMask rightCut.c 100 100 (0 + 0) (0 + 0) ∧
          D3d.Shows (rightCut.card e).vram 7
            {q | (q.1 - (0 + 0), q.2 - (0 + 0)) ∈ Corners.shape L}
            ((D3d.m8d3dMaskDraw roomy 0 0 0 0 0 7 rightCut).2.card e) := by
  classical
  have hcore : (m8d3dCoreChoose ⟨(0, 0), (0, 99), (99, 99)⟩ 100 100).core.w ≠ 0 := by
    decide +kernel
  choose L hL using fun i : Fin 3 => exists_line
    ((⟨(0, 0), (0, 99), (99, 99)⟩ : Corners).corner i)
    ((⟨(0, 0), (0, 99), (99, 99)⟩ : Corners).corner (i + 1))
  let e : MaskEngine := ⟨fun _ => 0,
    fun q => if (q.1 - 640, q.2 - 512) ∈ Corners.shape L then 1 else 0⟩
  have hregs : rightCut.MonoRegs (rightCut.card e) := 
    ⟨fun h => absurd h Bool.false_ne_true, fun _ => rfl, fun h => absurd h Bool.false_ne_true,
      fun h => absurd h Bool.false_ne_true⟩
  have hoff : D3d.OffMask rightCut.c 100 100 (0 + 0) (0 + 0) := by
    intro q p hq hp heq
    have hx : q.1 = 640 + p.1 := congrArg Prod.fst heq
    obtain ⟨-, hlt, -⟩ := hq
    obtain ⟨hle, -⟩ := hp
    dsimp only at hlt
    omega
  have hplane : ∀ p, InBox 100 100 p → ((rightCut.card e).vram
      (rightCut.c.mx + p.1, rightCut.c.my + p.2) &&& 1 <<< ((0 : Fin 8) : ℕ) ≠ 0 ↔
        p ∈ Corners.shape L) := by
    intro p _
    have hread : (rightCut.card e).vram (rightCut.c.mx + p.1, rightCut.c.my + p.2) =
        if p ∈ Corners.shape L then 1 else 0 := by
      show (if (640 + p.1 - 640, 512 + p.2 - 512) ∈ Corners.shape L then 1 else 0) = _
      rw [add_sub_cancel_left, add_sub_cancel_left]
    rw [hread]
    split_ifs with hp <;> simp [hp]
  have hmask : rightCut.c.mask 0 = ⟨⟨(0, 0), (0, 99), (99, 99)⟩, 100, 100, 1⟩ := by
    unfold rightCut
    dsimp only
    exact Function.update_self ..
  have hcut : rightCut.c.cut 0 = m8d3dCoreChoose ⟨(0, 0), (0, 99), (99, 99)⟩ 100 100 := by
    unfold rightCut
    dsimp only
    exact Function.update_self (0 : Fin 8) _ _
  obtain ⟨⟨hcuts, -⟩, hdraws⟩ :=
    m8d3d_mask_same_pixels (w := 100) (h := 100) (fun p hp => by
      unfold InBox
      rcases Corners.mem_points.mp hp with rfl | rfl | rfl <;> decide) (by decide) hL hcore
  exact ⟨L, e, hL, hcuts, hregs, hoff, hdraws roomy rightCut e 0 0 0 0 0 7 hregs hoff hplane
    ⟨congrArg M8d3dMask.w hmask, congrArg M8d3dMask.h hmask⟩ (.inl hcut)
    (D3d.goes_m8d3dMaskDraw 0 0 0 0 rightCut)⟩

end Mask

end Inboard
