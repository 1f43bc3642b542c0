import Inboard.D3dFrame

/-!
# The write queue has room

A routine asks for room before it stores, and is given 64 entries more than it asks for (`Ask`). So
what is asked for leaves the queue at 960 entries at most, and only a mask or a stamp, which ask
once for all their boxes, take of the 64 (`D3d.Room`). A mask with a core and four parts is 51
entries, a stamp of three parts 27, and the registers of the stamps' copy, stored unasked, 8
(`m8d3d_queue_has_room`).
-/

set_option linter.unusedSectionVars false

namespace Inboard

open Routine

/-! ## What is stored -/

namespace D3d

/-- Nothing was stored past the end, and `n` entries at most are held. -/
def Holds (n : ℕ) (s : D3d) : Prop := s.overrun = false ∧ s.q.length ≤ n

variable {n m : ℕ} {s : D3d}

theorem Holds.mono (h : s.Holds n) (hle : n ≤ m) : s.Holds m := ⟨h.1, Nat.le_trans h.2 hle⟩

/-- One entry more. -/
theorem Holds.q (h : s.Holds n) (hn : n < 1024) (p : ℕ) (v : ℤ) : (s.m8d3dQ p v).Holds (n + 1) := by
  obtain ⟨hover, hlen⟩ := h
  refine ⟨?_, ?_⟩
  · unfold m8d3dQ M8D3D_Q_MAX
    dsimp only
    rw [hover, Bool.false_or, decide_eq_false_iff_not]
    omega
  · unfold m8d3dQ
    dsimp only
    rw [List.length_append, List.length_singleton]
    omega

/-- A list of entries, one after the other. -/
theorem Holds.qs : ∀ {ws : List (ℕ × ℤ)} {n : ℕ} {s : D3d}, s.Holds n → n + ws.length ≤ 1024 →
    (s.m8d3dQs ws).Holds (n + ws.length)
  | [], _, _, h, _ => h
  | w :: ws, n, s, h, hn => by
    rw [List.length_cons] at hn
    have hrest : ((s.m8d3dQ w.1 w.2).m8d3dQs ws).Holds (n + 1 + ws.length) :=
      Holds.qs (h.q (by omega) w.1 w.2) (by omega)
    rw [List.length_cons, Nat.add_comm ws.length, ← Nat.add_assoc]
    exact hrest

/-- Entries change no mode. -/
@[simp] theorem m8d3dQs_modes (ws : List (ℕ × ℤ)) (s : D3d) :
    (s.m8d3dQs ws).monoOn = s.monoOn ∧ (s.m8d3dQs ws).stampMode = s.stampMode ∧
      (s.m8d3dQs ws).c = s.c := by
  induction ws generalizing s with
  | nil => exact ⟨rfl, rfl, rfl⟩
  | cons w ws ih => exact ih (s.m8d3dQ w.1 w.2)

section Flush

variable (room : ℕ → Bool)

/-- Sending stores nothing, and changes no mode. -/
theorem qSend_frame : ∀ (fuel : ℕ) (q : List (ℕ × ℤ)) (s : D3d),
    (qSend room fuel q s).2.overrun = s.overrun ∧ (qSend room fuel q s).2.monoOn = s.monoOn ∧
      (qSend room fuel q s).2.stampMode = s.stampMode
  | 0, _, _ => ⟨rfl, rfl, rfl⟩
  | _ + 1, [], _ => ⟨rfl, rfl, rfl⟩
  | fuel + 1, w :: q, s => by
    unfold qSend
    split_ifs with hroom
    · exact qSend_frame fuel _ _
    · exact ⟨rfl, rfl, rfl⟩

/-- A flush leaves the queue empty. -/
theorem holds_m8d3dQFlush (h : s.overrun = false) : (m8d3dQFlush room s).2.Holds 0 :=
  ⟨(qSend_frame room _ _ s).1.trans h, Nat.le_refl 0⟩

end Flush

end D3d

/-! ## What is asked for -/

/-- What a routine does that asks for the room it takes : the masks' and the stamps' registers stay,
and so does any bound on the queue from 960 on. -/
structure D3d.Asks (s t : D3d) : Prop where
  holds : ∀ n, 960 ≤ n → n ≤ 1024 → s.Holds n → t.Holds n
  mono : t.monoOn = s.monoOn
  stamp : t.stampMode = s.stampMode

instance : IsPreorder D3d D3d.Asks where
  refl _ := ⟨fun _ _ _ h => h, rfl, rfl⟩
  trans _ _ _ hab hbc := ⟨fun n hlo hhi h => hbc.holds n hlo hhi (hab.holds n hlo hhi h),
    hbc.mono.trans hab.mono, hbc.stamp.trans hab.stamp⟩

/-- A routine that asks for the room it takes. -/
abbrev Ask (f : D3dOp) : Prop := Moves D3d.Asks f

namespace D3d

variable (room : ℕ → Bool)

/-- Room for `n` entries leaves 64 more. -/
theorem m8d3dQNeed_room (n : ℕ) {s : D3d} (h : s.overrun = false) :
    (m8d3dQNeed room n s).2.Holds (960 - n) := by
  unfold m8d3dQNeed M8D3D_Q_MAX M8D3D_Q_ONE
  split_ifs with hfull
  · exact (holds_m8d3dQFlush room h).mono (Nat.zero_le _)
  · refine ⟨h, ?_⟩
    show s.q.length ≤ 960 - n
    omega

/-- So it never leaves more than it found. -/
theorem ask_m8d3dQFlush : Ask (m8d3dQFlush room) := fun s =>
  ⟨fun _ _ _ h => (holds_m8d3dQFlush room h.1).mono (Nat.zero_le _),
    (qSend_frame room _ _ s).2.1, (qSend_frame room _ _ s).2.2⟩

/-- Room is there, or the queue is flushed. -/
theorem ask_m8d3dQNeed (n : ℕ) : Ask (m8d3dQNeed room n) :=
  .iteS (fun s : D3d => M8D3D_Q_MAX < s.q.length + n + M8D3D_Q_ONE * 2) (ask_m8d3dQFlush room) .ok

/-- Entries that are asked room for leave 64. -/
theorem needQs_holds {ws : List (ℕ × ℤ)} {s : D3d} (hn : ws.length ≤ 960) (h : s.overrun = false) :
    (needQs room ws s).2.Holds 960 := by
  have hneed := m8d3dQNeed_room room ws.length h
  refine seq_induct (hneed.mono (Nat.sub_le _ _)) fun _ _ => ?_
  exact (hneed.qs (by omega)).mono (by omega)

/-- Room asked for, of which not all is taken. -/
theorem ask_needMore {n : ℕ} {ws : List (ℕ × ℤ)} (hn : ws.length ≤ n) (hn' : n ≤ 960) :
    Ask ((m8d3dQNeed room n).seq (qs ws)) := fun s => by
  have hneed := ask_m8d3dQNeed room n s
  refine ⟨fun m hlo hhi h => seq_induct (hneed.holds m hlo hhi h) fun _ _ => ?_,
    seq_induct (P := fun t : D3d => t.monoOn = s.monoOn) hneed.mono fun _ ht => ?_,
    seq_induct (P := fun t : D3d => t.stampMode = s.stampMode) hneed.stamp fun _ ht => ?_⟩
  · exact ((m8d3dQNeed_room room n h.1).qs (by omega)).mono (by omega)
  · exact (m8d3dQs_modes ws _).1.trans ht
  · exact (m8d3dQs_modes ws _).2.1.trans ht

/-- What is asked for is stored. -/
theorem ask_needQs {ws : List (ℕ × ℤ)} (hn : ws.length ≤ 960) : Ask (needQs room ws) :=
  ask_needMore room (Nat.le_refl _) hn

theorem ask_m8d3dQRect (r : Rect) : Ask (m8d3dQRect room r) :=
  Moves.ite .ok (ask_needQs room (by simp))

theorem ask_m8d3dQClear (r : Rect) : Ask (m8d3dQClear room r) :=
  (ask_needQs room (by simp)).seq (ask_m8d3dQRect room r)

theorem ask_m8d3dOutline (ox oy : ℤ) (v : Corners) (alu opt colour mask : ℤ) :
    Ask (m8d3dOutline room ox oy v alu opt colour mask) :=
  ask_needQs room (by simp)

theorem ask_edgeLine (ox oy : ℤ) (e : Pixel × Pixel) : Ask (edgeLine room ox oy e) :=
  Moves.ite .ok (ask_needQs room (by simp))

/-- The edges are three, each asked for. -/
theorem ask_m8d3dEdges (ox oy : ℤ) (v : Corners) (plane : ℤ) :
    Ask (m8d3dEdges room ox oy v plane) := by
  refine (ask_needMore room (by simp [edgesHead]) (by omega)).seq (.all fun f hf => ?_)
  obtain ⟨e, -, rfl⟩ := List.mem_map.mp hf
  exact ask_edgeLine room ox oy e

/-! ## Rows -/

/-- Before row `y` asks for room. -/
def RowBefore (n y : ℕ) (s : D3d) : Prop :=
  s.Holds n ∧ (y % 5 ≠ 0 → s.q.length + 3 * (5 - y % 5) ≤ 960)

/-- Five rows go to each room of 15 : once row `y` has asked, what the rows up to the next room
take is left. -/
def RowAsked (y : ℕ) (s : D3d) : Prop := s.overrun = false ∧ s.q.length + 3 * (5 - y % 5) ≤ 960

/-- The room that row `y` asks for. -/
def rowAsk (y : ℕ) : D3dOp := if y % 5 = 0 then m8d3dQNeed room 15 else ok

theorem ask_rowAsk (y : ℕ) : Ask (rowAsk room y) := Moves.ite (ask_m8d3dQNeed room 15) .ok

/-- Before every fifth row fifteen entries are asked for. -/
theorem rowAsk_asked {n y : ℕ} {s : D3d} (h : s.RowBefore n y) :
    (rowAsk room y s).2.RowAsked y := by
  unfold rowAsk
  split_ifs with hy
  · obtain ⟨hover, hlen⟩ := m8d3dQNeed_room room 15 h.1.1
    exact ⟨hover, by omega⟩
  · exact ⟨h.1.1, h.2 hy⟩

/-- And a row takes three of them. -/
theorem RowAsked.next {n y : ℕ} {s : D3d} {ws : List (ℕ × ℤ)} (hlo : 960 ≤ n)
    (hws : ws.length = 3) (h : s.RowAsked y) : (s.m8d3dQs ws).RowBefore n (y + 1) := by
  have hlt : y % 5 < 5 := Nat.mod_lt y (by decide)
  have hs : s.Holds (960 - 3 * (5 - y % 5)) := ⟨h.1, by have := h.2; omega⟩
  have hq : (s.m8d3dQs ws).Holds (960 - 3 * (5 - y % 5) + ws.length) := hs.qs (by omega)
  obtain ⟨hover, hlen⟩ := hq
  refine ⟨⟨hover, by omega⟩, fun hne => ?_⟩
  have hmod : (y + 1) % 5 = y % 5 + 1 := by omega
  omega

/-- What holds before each row, and once it has asked, holds after the rows. -/
theorem spanRows_induct (dx dy : ℤ) (v : Corners) {P : D3d → Prop} {Q R : ℕ → D3d → Prop}
    (hQ : ∀ y s, Q y s → P s) (hR : ∀ y s, R y s → P s)
    (hask : ∀ y s, Q y s → R y (rowAsk room y s).2)
    (hrow : ∀ y s p q r, R y s → Q (y + 1) (s.m8d3dQs [p, q, r])) :
    ∀ (n y : ℕ) (s : D3d), Q y s → P (spanRows room dx dy v n y s).2
  | 0, y, s, h => hQ y s h
  | n + 1, y, s, h => by
    have hR' := hask y s h
    refine seq_induct (f := rowAsk room y) (hR y _ hR') fun _ _ => ?_
    refine seq_induct (hQ (y + 1) _ (hrow y _ _ _ _ hR')) fun _ _ => ?_
    exact spanRows_induct dx dy v hQ hR hask hrow n (y + 1) _ (hrow y _ _ _ _ hR')

/-- The rows of a triangle, by induction on their number. -/
theorem ask_spanRows (dx dy : ℤ) (v : Corners) (n : ℕ) : Ask (spanRows room dx dy v n 0) := by
  refine fun s => ⟨fun m hlo _ h => ?_, ?_, ?_⟩
  · exact spanRows_induct room dx dy v (P := Holds m) (Q := fun y s => s.RowBefore m y)
      (R := fun y s => s.RowAsked y) (fun _ _ hs => hs.1)
      (fun _ _ hs => ⟨hs.1, by have := hs.2; omega⟩) (fun _ _ hs => rowAsk_asked room hs)
      (fun _ _ _ _ _ hs => hs.next hlo rfl) n 0 s ⟨h, fun h0 => absurd rfl h0⟩
  · exact spanRows_induct room dx dy v (P := fun t => t.monoOn = s.monoOn)
      (Q := fun _ t => t.monoOn = s.monoOn) (R := fun _ t => t.monoOn = s.monoOn)
      (fun _ _ h => h) (fun _ _ h => h) (fun y t h => (ask_rowAsk room y t).mono.trans h)
      (fun _ t _ _ _ h => (m8d3dQs_modes _ t).1.trans h) n 0 s rfl
  · exact spanRows_induct room dx dy v (P := fun t => t.stampMode = s.stampMode)
      (Q := fun _ t => t.stampMode = s.stampMode) (R := fun _ t => t.stampMode = s.stampMode)
      (fun _ _ h => h) (fun _ _ h => h) (fun y t h => (ask_rowAsk room y t).stamp.trans h)
      (fun _ t _ _ _ h => (m8d3dQs_modes _ t).2.1.trans h) n 0 s rfl

theorem ask_m8d3dSpans (dx dy : ℤ) (v : Corners) (colour : ℤ) :
    Ask (m8d3dSpans room dx dy v colour) :=
  (ask_needQs room (by simp)).seq (ask_spanRows room dx dy v _)

/-! ## Triangles -/

theorem ask_m8d3dScratchClear : Ask (m8d3dScratchClear room) :=
  let h : Ask fun s => if s.c.dl < s.c.dr then
      m8d3dQClear room ⟨s.c.dl, s.c.dt, s.c.dr, s.c.db⟩ s else ok s :=
    .reads (F := fun s t => if s.c.dl < s.c.dr then
      m8d3dQClear room ⟨s.c.dl, s.c.dt, s.c.dr, s.c.db⟩ t else ok t)
      fun s => .iteS (fun _ => s.c.dl < s.c.dr) (ask_m8d3dQClear room _) .ok
  fun s => ⟨(h s).holds, (h s).mono, (h s).stamp⟩

theorem ask_clearEight : Ask (clearEight room) :=
  .iteS (fun s : D3d => s.c.drawn = 8) (ask_m8d3dScratchClear room) .ok

theorem ask_drew (l t r b : ℤ) : Ask (note (drew l t r b)) :=
  fun _ => ⟨fun _ _ _ h => h, rfl, rfl⟩

/-- A tall triangle asks for its edges and for its fill. -/
theorem ask_triFill (dx dy : ℤ) (v : Corners) (colour : ℤ) :
    Ask (triFill room dx dy v colour) := by
  have h : ∀ s : D3d, Ask ((m8d3dEdges room (s.c.sx - v.l) (s.c.sy - v.t) v s.plane).seq
      ((needQs room (polyFill s.plane colour 0x00FF s.c.sx s.c.sy (dx + v.l) (dy + v.t)
        (v.r - v.l + 1) (v.b - v.t + 1))).seq
      (note (drew s.c.sx s.c.sy (s.c.sx + (v.r - v.l + 1)) (s.c.sy + (v.b - v.t + 1)))))) :=
    fun s => (ask_m8d3dEdges room _ _ v _).seq
      ((ask_needQs room (by simp [polyFill])).seq (ask_drew _ _ _ _))
  exact (Moves.reads h :)

theorem ask_m8d3dTri (dx dy : ℤ) (v : Corners) (colour : ℤ) :
    Ask (m8d3dTri room dx dy v colour) := by
  unfold m8d3dTri
  refine Moves.seq (fun _ => ⟨fun _ _ _ h => h, rfl, rfl⟩)
    (Moves.ite (ask_m8d3dSpans room dx dy v colour) ?_)
  exact Moves.seq (Moves.ite (ask_triFill room dx dy v colour) .ok)
    ((ask_needQs room (by simp)).seq (ask_m8d3dOutline room dx dy v _ _ colour _))

/-- However often a triangle is split, its parts ask for themselves. -/
theorem ask_m8d3dTriFit (dx dy colour : ℤ) : ∀ (fuel : ℕ) (v : Corners),
    Ask (m8d3dTriFit room dx dy colour fuel v)
  | 0, _ => fun _ => ⟨fun _ _ _ h => h, rfl, rfl⟩
  | fuel + 1, v => by
    refine .iteS (fun s => v.Fits s.c) ((ask_m8d3dTri room dx dy v colour).seq
      (ask_clearEight room)) (.reads fun s => ?_)
    exact (ask_m8d3dTriFit dx dy colour fuel _).seq (ask_m8d3dTriFit dx dy colour fuel _)

/-! ## Masks and stamps -/

/-- What is held between two triangles : a mask's or a stamp's boxes are on top of the 960 only
while the engine has their registers. -/
structure Room (s : D3d) : Prop where
  holds : s.Holds 1016
  calm : s.monoOn = false → s.stampMode = false → s.q.length ≤ 960

variable {room} {s : D3d}

/-- 960 entries leave room for any one mask or stamp. -/
theorem Room.of_holds (h : s.Holds 960) : s.Room := ⟨h.mono (by omega), fun _ _ => h.2⟩

/-- A routine that asks keeps the room. -/
theorem Room.ask {f : D3dOp} (hf : Ask f) (h : s.Room) : (f s).2.Room := by
  refine ⟨(hf s).holds 1016 (by omega) (by omega) h.holds, fun hmono hstamp => ?_⟩
  have hlen := h.calm ((hf s).mono.symm.trans hmono) ((hf s).stamp.symm.trans hstamp)
  exact ((hf s).holds 960 (by omega) (by omega) ⟨h.holds.1, hlen⟩).2

/-- The engine has neither the masks' registers nor the stamps'. -/
def Calm (s : D3d) : Prop := s.monoOn = false ∧ s.stampMode = false

/-- Once the stamps' compare is off the mode is. -/
theorem stampOff_room (h : s.Room) :
    (stampOff room s).2.Room ∧
      ((stampOff room s).1 = true → (stampOff room s).2.stampMode = false) := by
  unfold stampOff
  split_ifs with hs
  · have hn : [(M8_SRC_CMP_FN, (0 : ℤ)), (M8_DP_CONFIG, M8_DP_8514)].length ≤ 960 := by simp
    exact ⟨.of_holds (needQs_holds room hn h.holds.1), fun _ => (ask_needQs room hn _).stamp⟩
  · exact ⟨h, fun _ => Bool.not_eq_true _ ▸ hs⟩

/-- And the masks' copy with it. -/
theorem maskOff_room (h : s.Room) (hs : s.stampMode = false) :
    (maskOff room s).2.Room ∧ ((maskOff room s).1 = true → (maskOff room s).2.Calm) := by
  unfold maskOff
  split_ifs with hm
  · have hn : [(M8_RD_MASK, (0x00FF : ℤ)), (M8_DP_CONFIG, M8_DP_8514)].length ≤ 960 := by simp
    exact ⟨.of_holds (needQs_holds room hn h.holds.1),
      fun _ => ⟨(ask_needQs room hn _).mono, (ask_needQs room hn _).stamp.trans hs⟩⟩
  · exact ⟨h, fun _ => ⟨Bool.not_eq_true _ ▸ hm, hs⟩⟩

theorem m8d3dMonoOff_room (h : s.Room) :
    (m8d3dMonoOff room s).2.Room ∧
      ((m8d3dMonoOff room s).1 = true → (m8d3dMonoOff room s).2.Calm) := by
  obtain ⟨hroom, hoff⟩ := @stampOff_room room s h
  unfold m8d3dMonoOff
  by_cases hok : (stampOff room s).1 = true
  · rw [seq_true hok]
    exact maskOff_room hroom (hoff hok)
  · rw [seq_false hok]
    exact ⟨hroom, fun hok' => absurd hok' hok⟩

/-- After asking for two at once 960 entries are held, or fewer. -/
theorem askTwo_holds (h : s.overrun = false) : (askTwo room s).2.Holds 960 := by
  unfold askTwo M8D3D_Q_MAX M8D3D_Q_ONE
  split_ifs with hfull
  · exact (holds_m8d3dQFlush room h).mono (by omega)
  · refine ⟨h, ?_⟩
    show s.q.length ≤ 960
    omega

theorem askTwo_modes : (askTwo room s).2.monoOn = s.monoOn ∧
    (askTwo room s).2.stampMode = s.stampMode := by
  unfold askTwo
  split_ifs
  · exact (qSend_frame room _ _ s).2
  · exact ⟨rfl, rfl⟩

/-- A box of a mask is nine entries at most. -/
theorem Holds.m8d3dMaskBox {n : ℕ} (h : s.Holds n) (hn : n + 9 ≤ 1024) (b : M8d3dBox) (x y : ℤ) :
    (s.m8d3dMaskBox b x y).Holds (n + 9) ∧ (s.m8d3dMaskBox b x y).monoOn = s.monoOn := by
  unfold D3d.m8d3dMaskBox
  split_ifs with hx
  · have h2 : (s.m8d3dQs [(M8_SRC_X_START, s.c.mx + b.x),
        (M8_SRC_X_END, s.c.mx + b.x + b.w)]).Holds (n + 2) :=
      h.qs (Nat.le_trans (Nat.add_le_add_left (by simp) n) hn)
    have h2' : D3d.Holds (n + 2) { s.m8d3dQs [(M8_SRC_X_START, s.c.mx + b.x),
      (M8_SRC_X_END, s.c.mx + b.x + b.w)] with monoX := b.x, monoW := b.w } := h2
    exact ⟨h2'.qs hn, (m8d3dQs_modes _ _).1.trans (m8d3dQs_modes _ _).1⟩
  · exact ⟨(h.qs (Nat.le_trans (Nat.add_le_add_left (by simp) n) hn)).mono
      (Nat.add_le_add_left (by simp) n), (m8d3dQs_modes _ _).1⟩

/-- Nine entries a box. -/
theorem Holds.maskBoxes (x y : ℤ) : ∀ {bs : List M8d3dBox} {n : ℕ} {s : D3d}, s.Holds n →
    n + 9 * bs.length ≤ 1024 →
      (bs.foldl (fun s b => s.m8d3dMaskBox b x y) s).Holds (n + 9 * bs.length) ∧
        (bs.foldl (fun s b => s.m8d3dMaskBox b x y) s).monoOn = s.monoOn
  | [], _, _, h, _ => ⟨h, rfl⟩
  | b :: bs, n, s, h, hn => by
    rw [List.length_cons] at hn
    obtain ⟨hbox, hmono⟩ := h.m8d3dMaskBox (by omega) b x y
    obtain ⟨hrest, hmono'⟩ := @Holds.maskBoxes x y bs _ _ hbox (by omega)
    refine ⟨hrest.mono ?_, hmono'.trans hmono⟩
    rw [List.length_cons]
    omega

/-- A mask is copied in four boxes at most. -/
theorem length_maskBoxes_le (m : M8d3dMask) (cut : MaskCut) : (maskBoxes m cut).length ≤ 4 := by
  unfold maskBoxes
  split_ifs
  · simp
  · exact cut.fits

/-- The registers of the masks' copy are five. -/
theorem Holds.monoSetup {n : ℕ} (h : s.Holds n) (hn : n + 5 ≤ 1024) :
    s.monoSetup.Holds (n + 5) ∧ s.monoSetup.monoOn = true := by
  unfold D3d.monoSetup
  split_ifs with hm
  · exact ⟨h.mono (by omega), hm⟩
  · exact ⟨h.qs hn, rfl⟩

/-- A mask is 51 entries at most. -/
theorem maskWrites_room (k : Fin 8) (x y colour : ℤ) (h : s.Holds 960) :
    (s.maskWrites k x y colour).Holds 1011 ∧ (s.maskWrites k x y colour).monoOn = true := by
  unfold maskWrites
  obtain ⟨hset, hmono⟩ := h.monoSetup (by omega)
  have hcol := hset.q (by omega) M8_FRGD_COLOR colour
  have hcore : ∀ t : D3d, t.Holds 966 → t.monoOn = true →
      (if (s.c.cut k).core.w ≠ 0 then t.coreFill (s.c.cut k).core x y else t).Holds 974 ∧
      (if (s.c.cut k).core.w ≠ 0 then t.coreFill (s.c.cut k).core x y else t).monoOn = true := by
    intro t ht hm
    split_ifs
    · exact ⟨ht.qs (by simp), (m8d3dQs_modes _ _).1.trans hm⟩
    · exact ⟨ht.mono (by omega), hm⟩
  have hto : ∀ t : D3d, t.Holds 974 → t.monoOn = true →
      (t.monoTo k).Holds 975 ∧ (t.monoTo k).monoOn = true := by
    intro t ht hm
    unfold monoTo
    split_ifs
    · exact ⟨ht.q (by omega) _ _, hm⟩
    · exact ⟨ht.mono (by omega), hm⟩
  obtain ⟨hcoreH, hcoreM⟩ := hcore _ hcol hmono
  obtain ⟨htoH, htoM⟩ := hto _ hcoreH hcoreM
  have hlen := length_maskBoxes_le (s.c.mask k) (s.c.cut k)
  obtain ⟨hbox, hboxM⟩ := @Holds.maskBoxes x y (maskBoxes (s.c.mask k) (s.c.cut k)) _ _ htoH
    (by omega)
  exact ⟨hbox.mono (by omega), hboxM.trans htoM⟩

/-- A mask is 51 entries at most, after what it asked for. -/
theorem m8d3dMaskDraw_room (k : Fin 8) (dx dy l t colour : ℤ) (h : s.Room) :
    (m8d3dMaskDraw room k dx dy l t colour s).2.Room := by
  unfold m8d3dMaskDraw
  refine seq_induct ?_ fun _ hs => seq_induct ?_ fun _ hs' => ?_
  · split_ifs
    · exact (m8d3dMonoOff_room h).1
    · exact h
  · exact .of_holds (askTwo_holds hs.holds.1)
  · obtain ⟨hholds, hmono⟩ := maskWrites_room k (dx + l) (dy + t) colour (askTwo_holds hs.holds.1)
    exact ⟨hholds.mono (by omega), fun hoff => absurd (hmono.symm.trans hoff) (by decide)⟩

/-- The registers of the stamps' copy are stored unasked, from a queue that is calm. -/
theorem stampSetup_room (h : s.Room) :
    (stampSetup room s).2.Room ∧
      ((stampSetup room s).1 = true → (stampSetup room s).2.stampMode = true) := by
  unfold stampSetup
  split_ifs with hs
  · exact ⟨h, fun _ => hs⟩
  · obtain ⟨hroom, hoff⟩ := @m8d3dMonoOff_room room s h
    by_cases hok : (m8d3dMonoOff room s).1 = true
    · rw [seq_true hok]
      obtain ⟨hmono, hstamp⟩ := hoff hok
      have hholds : (m8d3dMonoOff room s).2.Holds 960 := ⟨hroom.holds.1, hroom.calm hmono hstamp⟩
      refine ⟨⟨(hholds.qs (by simp)).mono (by simp), fun _ hno => absurd hno ?_⟩, fun _ => rfl⟩
      exact Bool.noConfusion
    · rw [seq_false hok]
      exact ⟨hroom, fun hok' => absurd hok' hok⟩

theorem length_stampBoxes_le (st : M8d3dStamp) (cut : StampCut) :
    (stampBoxes st cut).length ≤ 3 := by
  unfold stampBoxes
  split_ifs
  · simp
  · exact cut.fits

theorem length_flatMap_stampBox (sx sy x y : ℤ) (bs : List M8d3dBox) :
    (bs.flatMap (stampBox sx sy x y)).length = 9 * bs.length := by
  induction bs with
  | nil => rfl
  | cons b bs ih =>
    rw [List.flatMap_cons, List.length_append, ih, List.length_cons]
    have hbox : (stampBox sx sy x y b).length = 9 := rfl
    omega

/-- A stamp is 27, and the registers of the stamps' copy 8. -/
theorem m8d3dStampCopy_room (k : Fin 32) (x y : ℤ) (h : s.Room) :
    (m8d3dStampCopy room k x y s).2.Room := by
  obtain ⟨hroom, hon⟩ := @stampSetup_room room s h
  unfold m8d3dStampCopy
  refine seq_induct hroom fun hok _ => seq_induct (.of_holds (askTwo_holds hroom.holds.1))
    fun _ _ => ?_
  have hheld : (askTwo room (stampSetup room s).2).2.Holds 960 := askTwo_holds hroom.holds.1
  have hmode := @askTwo_modes room (stampSetup room s).2
  refine ⟨(hheld.qs ?_).mono ?_, fun _ hno => ?_⟩
  · rw [length_flatMap_stampBox]
    have := length_stampBoxes_le
      ((askTwo room (stampSetup room s).2).2.c.stamp k)
      ((askTwo room (stampSetup room s).2).2.c.stampCut k)
    omega
  · rw [length_flatMap_stampBox]
    have := length_stampBoxes_le
      ((askTwo room (stampSetup room s).2).2.c.stamp k)
      ((askTwo room (stampSetup room s).2).2.c.stampCut k)
    omega
  · rw [Routine.note, (m8d3dQs_modes _ _).2.1, hmode.2, hon hok] at hno
    exact absurd hno (by decide)

/-! ## Builds and bands -/

variable (room)

theorem ask_maskErase (k : Fin 8) : Ask (maskErase room k) := by
  have h : ∀ s : D3d, Ask fun t => if (s.c.mask k).used ≠ 0 then
      ((needQs room [(M8_WRT_MASK, (1 <<< (k : ℕ) : ℕ)), (M8_RD_MASK, 0x00FF),
        (M8_DP_CONFIG, M8_DP_8514), (M8_ALU_FG_FN, M8_MIX_REPLACE), (M8_FRGD_COLOR, 0)]).seq
        (m8d3dQRect room
          ⟨s.c.mx, s.c.my, s.c.mx + (s.c.mask k).w, s.c.my + (s.c.mask k).h⟩)) t else ok t :=
    fun s => .iteS (fun _ => (s.c.mask k).used ≠ 0)
      ((ask_needQs room (by simp)).seq (ask_m8d3dQRect room _)) .ok
  exact (Moves.reads h :)

/-- A mask's inside asks for its edges and for its fill. -/
theorem ask_maskFill (k : Fin 8) (n : Corners) (w h : ℤ) : Ask (maskFill room k n w h) := by
  have hf : ∀ s : D3d, Ask fun t => if 3 ≤ h then
      ((m8d3dEdges room s.c.sx s.c.sy n s.plane).seq
        ((needQs room (polyFill s.plane 0x00FF (1 <<< (k : ℕ) : ℕ) s.c.sx s.c.sy s.c.mx s.c.my w
          h)).seq ((note (drew s.c.sx s.c.sy (s.c.sx + w) (s.c.sy + h))).seq
            (needQs room [(M8_RD_MASK, 0x00FF)])))) t else ok t :=
    fun s => .iteS (fun _ => 3 ≤ h) ((ask_m8d3dEdges room _ _ n _).seq
      ((ask_needQs room (by simp [polyFill])).seq
        ((ask_drew _ _ _ _).seq (ask_needQs room (by simp))))) .ok
  exact (Moves.reads hf :)

theorem ask_maskOutline (k : Fin 8) (n : Corners) : Ask fun s =>
    m8d3dOutline room s.c.mx s.c.my n M8_MIX_REPLACE M8_LINEDRAW_LAST_OFF 0x00FF
      (1 <<< (k : ℕ) : ℕ) s :=
  have h : ∀ s : D3d, Ask (m8d3dOutline room s.c.mx s.c.my n M8_MIX_REPLACE M8_LINEDRAW_LAST_OFF
      0x00FF (1 <<< (k : ℕ) : ℕ)) := fun _ => ask_m8d3dOutline room _ _ n _ _ _ _
  (Moves.reads h :)

theorem ask_m8d3dMaskBuild (k : Fin 8) (n : Corners) (w h : ℤ) :
    Ask (m8d3dMaskBuild room k n w h) :=
  (ask_maskErase room k).seq ((ask_maskFill room k n w h).seq ((ask_maskOutline room k n).seq
    ((ask_needQs room (by simp)).seq
      (Moves.seq (fun _ => ⟨fun _ _ _ h => h, rfl, rfl⟩)
        (ask_clearEight room)))))

theorem ask_gradLine (ox oy : ℤ) (v : Corners) (k : Fin 3) : Ask (gradLine room ox oy v k) :=
  Moves.ite .ok (ask_needQs room (by simp))

theorem ask_m8d3dEdgesGrad (ox oy : ℤ) (v : Corners) (plane : ℤ) :
    Ask (m8d3dEdgesGrad room ox oy v plane) := by
  refine Moves.seq (ask_needQs room (by simp [edgesHead])) (.all fun f hf => ?_)
  obtain ⟨k, -, rfl⟩ := List.mem_map.mp hf
  exact ask_gradLine room ox oy v k

theorem ask_m8d3dEndRow (v : Corners) (rgb : CornerRgb) (dx dy y : ℤ) :
    Ask (m8d3dEndRow room v rgb dx dy y) :=
  ask_needQs room (by simp)

/-- Each band of rows asks for itself. -/
theorem ask_bandRows (sx sy dx dy : ℤ) (v : Corners) (rgb : CornerRgb) (n : ℤ) :
    ∀ (fuel : ℕ) (i : ℤ), Ask (bandRows room sx sy dx dy v rgb n fuel i)
  | 0, _ => .ok
  | fuel + 1, i => by
    unfold bandRows
    exact Moves.ite
      (Moves.seq (ask_needQs room (by simp)) (ask_bandRows sx sy dx dy v rgb n fuel _)) .ok

variable {room}

/-- In order, from what each keeps. -/
theorem all_room {fs : List D3dOp} (h : ∀ f ∈ fs, ∀ t : D3d, t.Room → (f t).2.Room) (hs : s.Room) :
    (all fs s).2.Room := all_induct h hs

/-- The masks' and stamps' registers are let go before a band is drawn. -/
theorem triBanded_room (dx dy : ℤ) (v : Corners) (rgb : CornerRgb) (h : s.Room) :
    (triBanded room dx dy v rgb s).2.Room := by
  unfold triBanded
  refine all_room (fun f hf t ht => ?_) h
  simp only [List.mem_cons, List.not_mem_nil, or_false] at hf
  rcases hf with rfl | rfl | rfl | rfl | rfl | rfl | rfl | rfl | rfl
  · exact (m8d3dMonoOff_room ht).1
  · exact ht.ask (ask_m8d3dEdgesGrad room _ _ v _)
  · exact ht.ask (ask_needQs room (by simp))
  · exact ht.ask (ask_bandRows room _ _ dx dy v rgb _ 8 0)
  · exact ht.ask (ask_needQs room (by simp))
  · exact ht.ask (ask_m8d3dEndRow room v rgb dx dy _)
  · exact ht.ask (ask_m8d3dEndRow room v rgb dx dy _)
  · exact ht.ask (ask_drew _ _ _ _)
  · exact ht.ask (ask_clearEight room)

theorem m8d3dTriBands_room (dx dy : ℤ) (v : Corners) (rgb : CornerRgb) (h : s.Room) :
    (m8d3dTriBands room dx dy v rgb s).2.Room := by
  unfold m8d3dTriBands
  split_ifs
  · exact triBanded_room dx dy v rgb ⟨h.holds, h.calm⟩
  · exact ⟨h.holds, h.calm⟩

/-! ## Triangles of a frame -/

/-- The area of a stamp is cleared, and the triangle built in it by bands. -/
theorem stampBuild_room (o : Fin 32) (dx dy : ℤ) (v : Corners) (rgb : CornerRgb) (x y : ℤ)
    (h : s.Room) : (stampBuild room o dx dy v rgb x y s).2.Room := by
  unfold stampBuild
  refine all_room (fun f hf t ht => ?_) h
  simp only [List.mem_cons, List.not_mem_nil, or_false] at hf
  rcases hf with rfl | rfl | rfl | rfl | rfl
  · exact ⟨ht.holds, ht.calm⟩
  · exact (m8d3dMonoOff_room ht).1
  · exact ht.ask (ask_m8d3dQClear room _)
  · exact m8d3dTriBands_room x y v.rel rgb ht
  · dsimp only
    split_ifs
    · have hbuilt : (stampIs o v rgb x y t).Room := ⟨ht.holds, ht.calm⟩
      exact seq_induct hbuilt fun _ hs => m8d3dStampCopy_room o _ _ hs
    · exact ht

/-- A shaded triangle is copied, built as a stamp, or left. -/
theorem m8d3dTriStamped_room (dx dy : ℤ) (v : Corners) (rgb : CornerRgb) (h : s.Room) :
    (m8d3dTriStamped room dx dy v rgb s).2.Room := by
  have hs : D3d.Room { s with done := false } := ⟨h.holds, h.calm⟩
  unfold m8d3dTriStamped
  dsimp only
  cases s.c.findStamp ⟨v.rel, rgb⟩ with
  | some k =>
    dsimp only
    split_ifs
    · exact hs
    · exact hs
    · exact m8d3dStampCopy_room k _ _ ⟨h.holds, h.calm⟩
  | none =>
    rcases m8d3dStampPlace (v.r - v.l + 2) (v.b - v.t + 2) s.c.toM8d3dContext with ⟨p | p, c'⟩
    all_goals
      dsimp only
      split_ifs
    · exact hs
    · exact hs
    · exact ⟨h.holds, h.calm⟩
    · exact hs
    · exact ⟨h.holds, h.calm⟩
    · exact hs
    · exact hs
    · exact ⟨h.holds, h.calm⟩
    · exact hs
    · exact stampBuild_room _ dx dy v rgb _ _ ⟨h.holds, h.calm⟩

theorem triPlain_room (fuel : ℕ) (dx dy : ℤ) (v : Corners) (colour : ℤ) (h : s.Room) :
    (triPlain room fuel dx dy v colour s).2.Room :=
  seq_induct (m8d3dMonoOff_room h).1 fun _ hs =>
    hs.ask (ask_m8d3dTriFit room dx dy colour fuel v)

/-- And a plain one is copied, built or drawn. -/
theorem m8d3dTriCached_room (fuel : ℕ) (dx dy : ℤ) (v : Corners) (colour : ℤ) (h : s.Room) :
    (m8d3dTriCached room fuel dx dy v colour s).2.Room := by
  unfold m8d3dTriCached
  dsimp only
  cases s.c.findMask v.rel with
  | some k =>
    dsimp only
    split_ifs
    · exact m8d3dMaskDraw_room k dx dy v.l v.t colour ⟨h.holds, h.calm⟩
    · exact triPlain_room fuel dx dy v colour h
  | none =>
    dsimp only
    split_ifs
    · exact triPlain_room fuel dx dy v colour ⟨h.holds, h.calm⟩
    · have hpaid : s.maskPay.Room := ⟨h.holds, h.calm⟩
      refine seq_induct (m8d3dMonoOff_room hpaid).1 fun _ ht => ?_
      refine seq_induct (ht.ask (ask_m8d3dMaskBuild room _ _ _ _)) fun _ hu => ?_
      refine seq_induct ?_ fun _ hw => m8d3dMaskDraw_room _ dx dy v.l v.t colour hw
      exact ⟨hu.holds, hu.calm⟩
    · exact triPlain_room fuel dx dy v colour h
    · exact triPlain_room fuel dx dy v colour h

theorem sendLarge_room (area : ℤ) (h : s.Room) : (sendLarge room area s).2.Room := by
  unfold sendLarge
  split_ifs
  · exact .of_holds ((holds_m8d3dQFlush room h.holds.1).mono (by omega))
  · exact h

theorem triShaded_room (dy : ℤ) (v : Corners) (rgb : CornerRgb) (h : s.Room) :
    (triShaded room dy v rgb s).2.Room := by
  unfold triShaded
  split_ifs
  · refine seq_induct (m8d3dTriStamped_room 0 dy v rgb h) fun _ hs => ?_
    split_ifs
    · exact hs
    · exact m8d3dTriBands_room 0 dy v rgb hs
  · exact ⟨h.holds, h.calm⟩

/-- A triangle of a frame, of either kind. -/
theorem replayTri_room (fuel : ℕ) (dy : ℤ) (t : Corners × CornerRgb × ℤ) (h : s.Room) :
    (replayTri room fuel dy t s).2.Room := by
  unfold replayTri
  refine all_room (fun f hf s hs => ?_) h
  simp only [List.mem_cons, List.not_mem_nil, or_false] at hf
  rcases hf with rfl | rfl | rfl
  · exact triShaded_room dy t.1 t.2.1 hs
  · dsimp only
    split_ifs
    · exact hs
    · exact m8d3dTriCached_room fuel 0 dy t.1 t.2.2 hs
  · exact sendLarge_room _ hs

/-! ## Frames -/

theorem eraseFrame_room (black dy : ℤ) (erase : List Rect) (h : s.Room) :
    (eraseFrame room black dy erase s).2.Room := by
  unfold eraseFrame
  split_ifs with hnil
  · exact h
  · have hneed := m8d3dQNeed_room room 1 h.holds.1
    have hstored : ((m8d3dQNeed room 1 s).2.m8d3dQ M8_FRGD_COLOR black).Room :=
      .of_holds (hneed.q (by omega) M8_FRGD_COLOR black)
    dsimp only
    split_ifs
    · refine all_room (fun f hf t ht => ?_) hstored
      obtain ⟨r, -, rfl⟩ := List.mem_map.mp hf
      exact seq_induct (ht.ask (ask_m8d3dQRect room _)) fun _ hs => sendLarge_room _ hs
    · exact hstored

theorem freshen_room (h : s.Room) : (freshen room s).2.Room := by
  unfold freshen
  split_ifs
  · have hclear := h.ask (ask_m8d3dScratchClear room)
    have hboth : ((m8d3dScratchClear room).seq (fun s =>
        if s.c.mh ≠ 0 then
          m8d3dQClear room ⟨s.c.mx, s.c.my, s.c.mx + s.c.tw, s.c.my + s.c.mh⟩ s
        else ok s) s).2.Room := by
      refine seq_induct hclear fun _ ht => ?_
      split_ifs
      · exact ht.ask (ask_m8d3dQClear room _)
      · exact ht
    exact ⟨hboth.holds, hboth.calm⟩
  · exact h

/-- The registers that end the stamps' compare are stored unasked, in the room there is. -/
theorem compareOff_over (h : s.Room) : s.compareOff.overrun = false := by
  unfold compareOff
  split_ifs
  · exact (h.holds.q (by omega) M8_SRC_CMP_FN 0).1
  · exact h.holds.1

end D3d

/-- No entry of a replayed frame, nor of a call's triangles, is stored past the queue's end : from
any state of the masks, the stamps and the engine, and wherever a wait for the FIFO runs out. -/
theorem m8d3d_queue_has_room (room : ℕ → Bool) (s : D3d) (fuel : ℕ) :
    (∀ erase black dy tris,
      (D3d.m8d3dReplay room fuel erase black dy tris { s with overrun := false }).2.overrun =
        false) ∧
    ∀ cull x y w h tris,
      (D3d.m8d3dRenderPrimitive room fuel cull x y w h tris { s with overrun := false }).2.overrun =
        false := by
  refine ⟨fun erase black dy tris => ?_, fun cull x y w h tris => ?_⟩
  · unfold D3d.m8d3dReplay
    dsimp only
    refine (D3d.holds_m8d3dQFlush room (D3d.compareOff_over ?_)).1
    refine D3d.all_room (fun f hf t ht => ?_) ⟨⟨rfl, Nat.zero_le _⟩, fun _ _ => Nat.zero_le _⟩
    simp only [List.mem_cons, List.not_mem_nil, or_false] at hf
    rcases hf with rfl | rfl | rfl | rfl | rfl
    · exact D3d.freshen_room ht
    · exact D3d.eraseFrame_room black dy erase ht
    · refine D3d.all_room (fun f hf t ht => ?_) ht
      obtain ⟨tri, -, rfl⟩ := List.mem_map.mp hf
      exact D3d.replayTri_room fuel dy tri ht
    · exact (D3d.m8d3dMonoOff_room ht).1
    · exact ht.ask (D3d.ask_m8d3dScratchClear room)
  · unfold D3d.m8d3dRenderPrimitive
    dsimp only
    refine (D3d.holds_m8d3dQFlush room (D3d.Room.holds ?_).1).1
    refine D3d.all_room (fun f hf t ht => ?_) ⟨⟨rfl, Nat.zero_le _⟩, fun _ _ => Nat.zero_le _⟩
    simp only [List.mem_cons, List.not_mem_nil, or_false] at hf
    rcases hf with rfl | rfl | rfl
    · dsimp only
      split_ifs
      · have hclear := ht.ask (D3d.ask_m8d3dScratchClear room)
        exact ⟨hclear.holds, hclear.calm⟩
      · exact ht
    · refine D3d.all_room (fun f hf t ht => ?_) ht
      obtain ⟨tri, -, rfl⟩ := List.mem_map.mp hf
      exact ht.ask (Moves.ite (D3d.ask_m8d3dTriFit room x y _ fuel _) .ok)
    · exact ht.ask (D3d.ask_m8d3dScratchClear room)

end Inboard
