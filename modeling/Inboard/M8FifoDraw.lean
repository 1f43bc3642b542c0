import Inboard.M8Fifo
import Inboard.M8Draw

/-!
# The ledger of fills, copies and host transfers

Each of `M8Draw`'s primitives within the FIFO's ledger : what it writes fits the room it waited for,
and what it leaves counted is there.
-/

set_option linter.unusedSectionVars false

namespace Inboard

variable (env : EngineEnv) {s : Hw} {ok : Bool} {k a : ℤ}

/-! ## The queue's calls -/

/-- A call's writes, sent again where the first send was cut short. -/
theorem sendTwice_sentWell {queue : Hw → Hw} (hq : ∀ s, Queued s (queue s))
    (hne : ∀ s, (queue s).q ≠ [] ∨ s.dpOk = true) (h : Kept s) :
    SentWell (s.sendTwice env queue) := by
  have hone : ∀ t, Kept t → SentWell ((queue t).m8QSend env) := fun t ht => by
    refine m8QSend_sentWell env ((hq t).kept ht) ((hne t).imp_right fun hd => ?_)
    exact ((hq t).kept ht).counted_of_path ((hq t).dpOk.trans hd)
  unfold Hw.sendTwice
  have h1 := hone s h
  generalize (queue s).m8QSend env = r at h1
  obtain ⟨_ | _, t⟩ := r
  exacts [hone t h1.kept, h1]

/-- A note of the data path writes nothing. -/
theorem dpSent_counted (mix : ℕ) (plain : Bool) (h : Counted s) :
    Counted (s.m8DpSent mix plain) :=
  h.imp_right fun h => ⟨⟨h.1.never, fun _ => h.2, h.1.owed⟩, h.2⟩

/-- A call's set-up is recorded once it has been sent. -/
theorem dpSent_sentWell (mix : ℕ) (plain : Bool) (r : Bool × Hw) :
    SentWell r → Counted (match r with
      | (true, s) => s.m8DpSent mix plain
      | (false, s) => s) := by
  obtain ⟨_ | _, t⟩ := r
  exacts [fun h => Or.inl (h.2 rfl), fun h => dpSent_counted mix plain (h.1 rfl)]

/-- The engine holds a data path. -/
theorem holdsPath_counted {mix : ℕ} (h : Kept s) (hp : s.HoldsPath mix) : Counted s :=
  h.counted hp.2.2.2.2

/-- `m8_hw_fill_mix` asks for room before each group of registers. -/
theorem fillMix_kept (x y w h : ℤ) (color mix : ℕ) (hs : Kept s) :
    Kept (s.m8HwFillMix env x y w h color mix) := by
  unfold Hw.m8HwFillMix
  split_ifs
  · exact hs
  · refine (dpSent_sentWell mix true _ (sendTwice_sentWell env (fun s => ?_) (fun s => ?_) hs)).kept
    · exact ((((Queued.plainQ mix).qSet _ _).qs _).qSize _ _).q _ _
    · exact Or.inl (by simp [Hw.m8FillQ, Hw.m8Q])

theorem copyMix_kept (sx sy dx dy w h : ℤ) (mix : ℕ) (hs : Kept s) :
    Kept (s.m8HwCopyMix env sx sy dx dy w h mix) := by
  unfold Hw.m8HwCopyMix
  split_ifs
  · exact hs
  · refine (dpSent_sentWell mix true _ (sendTwice_sentWell env (fun s => ?_) (fun s => ?_) hs)).kept
    · exact (((Queued.plainQ mix).qs _).qSize _ _).q _ _
    · exact Or.inl (by simp [Hw.m8CopyQ, Hw.m8Q])

/-! ## Short fills and copies -/

namespace Owes

/-- A colour is one write at most, of one entry. -/
theorem fastColor (h : Owes ok k a s) (hk : k ≤ a) (r : ShReg) (color : ℕ) :
    Owes ok k (a - 1) (s.fastColor r color) := by
  unfold Hw.fastColor
  split_ifs
  · exact ((((h.congr rfl rfl rfl rfl).spend 1).outpw (by omega) _ _).mono (by omega) le_rfl).congr
      rfl rfl rfl rfl
  · exact h.mono le_rfl (by omega)

/-- A size is two writes at most, of two entries. -/
theorem fastSize (h : Owes ok k a s) (hk : k + 1 ≤ a) (x y : ℤ) :
    Owes ok k (a - 2) (s.fastSize x y) := by
  unfold Hw.fastSize
  split_ifs
  · refine (((h.spend 2).outs _ ?_).mono ?_ le_rfl).congr rfl rfl rfl rfl <;>
      simp only [List.length_cons, List.length_nil] <;> omega
  · exact h.mono le_rfl (by omega)

/-- A fill on the short path is six writes at most, as it asked for. -/
theorem fillWrites (h : Owes ok 0 6 s) (x y w h' : ℤ) (color : ℕ) :
    Owes ok 0 0 (s.fillWrites x y w h' color) := by
  have h1 := ((h.fastColor (by omega) .FRGD_COLOR color).spend 3).outs
    [(M8_CUR_X, x), (M8_CUR_Y, y)] (by simp)
  exact ((h1.fastSize (by simp) w h').outpw (by simp) M8_CMD M8_CMD_FILL).mono (by simp) (by simp)

/-- And a copy seven. -/
theorem copyWrites (h : Owes ok 0 7 s) (c : ℕ × ℤ × ℤ × ℤ × ℤ) (x y : ℤ) :
    Owes ok 0 0 (s.copyWrites c x y) := by
  have h1 := (h.spend 5).outs (copyCorners c) (by simp [copyCorners])
  exact ((h1.fastSize (by simp [copyCorners]) x y).outpw (by simp [copyCorners]) M8_CMD c.1).mono
    (by simp [copyCorners]) (by simp)

end Owes

/-- A short path's writes, once its room is there. -/
theorem short_kept {n : ℕ} {f : Hw → Hw} {r : Bool × Hw} (hf : ∀ t, Owes true 0 n t → Counted (f t))
    (hr : (r.1 = true → Owes true 0 n r.2) ∧ (r.1 = false → RanOut r.2.trace)) :
    Kept (match r with
      | (false, s) => (false, s)
      | (true, s) => (true, f s)).2 := by
  obtain ⟨_ | _, t⟩ := r
  exacts [Or.inl (hr.2 rfl), (hf t (hr.1 rfl)).kept]

/-- `m8_hw_fill_fast` draws within the room, or leaves it to the long path. -/
theorem fillFast_kept (x y w h : ℤ) (color mix : ℕ) (hs : Kept s) :
    Kept (s.m8HwFillFast env x y w h color mix).2 := by
  unfold Hw.m8HwFillFast
  split_ifs with hp
  · exact hs
  · rw [not_or, not_not] at hp
    exact short_kept (fun t ht => (ht.fillWrites x y w h color).counted le_rfl)
      (roomOrNeed_owes env (n := 6) (by decide) (holdsPath_counted hs hp.1))

/-- So does `m8_hw_copy_fast`. -/
theorem copyFast_kept (sx sy dx dy w h : ℤ) (mix : ℕ) (hs : Kept s) :
    Kept (s.m8HwCopyFast env sx sy dx dy w h mix).2 := by
  unfold Hw.m8HwCopyFast
  split_ifs with hp
  · exact short_kept (fun t ht => (ht.copyWrites _ w h).counted le_rfl)
      (roomOrNeed_owes env (n := 7) (by decide) (holdsPath_counted hs hp))
  · exact hs

theorem spreadCopy_kept (sx sy dx dy w h : ℤ) (hs : Kept s) :
    Kept (s.m8SpreadCopy env sx sy dx dy w h) := by
  unfold Hw.m8SpreadCopy
  have h1 := copyFast_kept env sx sy dx dy w h (M8_MIX_SRC_VRAM ||| M8_MIX_REPLACE) hs
  generalize s.m8HwCopyFast env sx sy dx dy w h (M8_MIX_SRC_VRAM ||| M8_MIX_REPLACE) = r at h1
  obtain ⟨_ | _, t⟩ := r
  exacts [copyMix_kept env _ _ _ _ _ _ _ h1, h1]

/-- Every copy of a spread is one of the two. -/
theorem spread_kept (x y : ℤ) (sw sh kx ky : ℕ) (hs : Kept s) :
    Kept (s.m8HwSpread env x y sw sh kx ky) := by
  have hrun : ∀ {β : Type} (l : List β) (f : Hw → β → Hw), (∀ s b, Kept s → Kept (f s b)) →
      ∀ s, Kept s → Kept (l.foldl f s) :=
    fun l f hf s hs => List.foldlRecOn l f hs fun t ht b _ => hf t b ht
  exact hrun _ _ (fun s c hs => spreadCopy_kept env _ _ _ _ _ _ hs) _
    (hrun _ _ (fun s c hs => spreadCopy_kept env _ _ _ _ _ _ hs) _ hs)

/-! ## Keyed copies and the cursor -/

/-- The writes of a keyed blit from an empty FIFO, up to one more made before. -/
theorem keyed_owes (h : Owes false k 15 s) (hk : k ≤ 1) (ws : List (ℕ × ℤ)) (hw : ws.length = 13)
    (y : ℤ) : Owes false k 0
      ((((s.outs ws).outMM M8_DEST_Y_END y).outpw M8_SRC_CMP_FN 0).spend 15) := by
  have h1 := h.outs ws (by omega)
  rw [hw] at h1
  exact (((h1.outMM (by push_cast; omega) _ y).outpw (by push_cast; omega) _ 0).spend 15).mono
    (by push_cast; omega) (by omega)

theorem copyKeyed_kept (sx sy dx dy w h : ℤ) (key : ℕ) (hs : Kept s) :
    Kept (s.m8HwCopyKeyed env sx sy dx dy w h key) := by
  unfold Hw.m8HwCopyKeyed
  split_ifs
  · exact hs
  · have h1 := set_owes env .RD_MASK 0x00FF (set_owes env .WRT_MASK 0x00FF (drained_owes env hs))
    have h2 := put_owes env .DP_CONFIG M8_DP_VRAM_BLIT (scissors_owes env M8_EXT_SCISSOR_MIN
      M8_EXT_SCISSOR_MIN M8_EXT_SCISSOR_MAX M8_EXT_SCISSOR_MAX
      (put_owes env .PIX_CNTL M8_MF_PIX_CNTL h1))
    have h3 := roomFor_owes env (n := 15) le_rfl le_rfl
      ((h2.shForget .FRGD_MIX).shForget .BKGD_MIX)
    exact (keyed_owes h3 (by decide) _ rfl _).kept

/-- One of the cursor's two plain copies. -/
theorem cursorCopy_owes (h : Owes false 0 0 s) (ws : List (ℕ × ℤ)) (hw : ws.length = 4) (x y : ℤ)
    (cmd : ℤ) : Owes false 0 0
      (((((s.m8RoomFor env 7).outs ws).outSize x y).outpw M8_CMD cmd).spend 7) := by
  have h1 := (roomFor_owes env (n := 7) (by decide) le_rfl h).outs ws (by omega)
  rw [hw] at h1
  exact (((h1.outSize (by simp) x y).outpw (by simp) M8_CMD cmd).spend 7).mono (by simp) (by simp)

theorem shClear_kept (h : Safe s) : Kept s.m8ShClear :=
  h.imp_right fun h => ⟨h, nofun, nofun⟩

theorem cursorMove_kept (ox oy nx ny w h svx svy mx my : ℤ) (key : ℕ) (hs : Kept s) :
    Kept (s.m8HwCursorMove env ox oy nx ny w h svx svy mx my key) := by
  unfold Hw.m8HwCursorMove
  split_ifs
  · exact hs
  · refine shClear_kept ((keyed_owes (k := 1) ?_ le_rfl _ rfl _).safe)
    refine roomFor_of_le env le_rfl (((waitFifoEmpty_owes env ?_).outpw (by omega) _ _).mono
      (by omega) le_rfl)
    refine Owes.safe (cursorCopy_owes env (cursorCopy_owes env ?_ _ rfl _ _ _) _ rfl _ _ _)
    have h1 := roomFor_owes env (n := 9) (by decide) le_rfl (drained_owes env hs)
    exact ((h1.outs _ (by simp)).spend 9).mono (by simp) (by simp)

/-! ## Host transfers -/

/-- The set-up of host data makes five writes of the five entries it asked for. -/
theorem hostSetup_owes (x y w h : ℤ) (cmd : ℕ) (hs : Owes false 0 0 s) :
    Owes false 5 5 (s.hostSetup env x y w h cmd) := by
  have h1 := (roomFor_owes env (n := 5) (by decide) le_rfl
    (put_owes env .FRGD_MIX (M8_MIX_SRC_HOST ||| M8_MIX_REPLACE : ℕ) hs)).outs
    [(M8_CUR_X, x), (M8_CUR_Y, y)] (by simp)
  exact ((h1.outSize (by simp) w h).outpw (by simp) M8_CMD cmd).mono (by simp) le_rfl

theorem readRect_kept (x y w h : ℤ) (hs : Kept s) : Kept (s.m8HwReadRect env x y w h) := by
  unfold Hw.m8HwReadRect
  split_ifs
  · exact hs
  · exact dataPoll_kept env _ (hostSetup_owes env x y w h M8_CMD_HOST_READ
      (plain_owes env (waitIdle_owes env (drained_owes env hs))))

/-- The end of a transfer to the card. -/
theorem hostEnd_kept (ws : List ℤ) (r : ShReg) (hs : Owes false k a s) :
    Kept (((s.outsw ws).m8HwWaitIdle env).shForget r) :=
  ((waitIdle_owes env (hs.outsw ws)).shForget r).kept

/-- What the transfers to the card start from. -/
theorem idleDrained_owes (hs : Kept s) :
    Owes false 0 0 ((s.m8HwWaitIdle env).m8WaitFifoEmpty env) :=
  drained_owes env (waitIdle_kept env hs)

theorem writeRect_kept (x y : ℤ) (w h : ℕ) (src : ℕ → ℕ → ℤ) (hs : Kept s) :
    Kept (s.m8HwWriteRect env x y w h src) := by
  unfold Hw.m8HwWriteRect
  split_ifs
  · exact hs
  · exact hostEnd_kept env _ _
      (hostSetup_owes env x y w h _ (plain_owes env (idleDrained_owes env hs)))

theorem writeXlat_kept (x y : ℤ) (w h : ℕ) (clipL clipR : ℤ) (src : ℕ → ℕ → ℤ) (hs : Kept s) :
    Kept (s.m8HwWriteXlat env x y w h clipL clipR src) := by
  unfold Hw.m8HwWriteXlat
  split_ifs
  · exact hs
  · exact hostEnd_kept env _ _ (hostSetup_owes env x y w h _
      (scissors_owes env _ _ _ _ (plain_owes env (idleDrained_owes env hs))))

/-- `m8_mono` sends its words once its own five entries are asked for. -/
theorem mono_kept (x y : ℤ) (widthBytes height : ℕ) (bits : List ℤ) (fgMix fg bgMix bg : ℕ)
    (clip : Rect) (wrtMask : ℕ) (hs : Kept s) :
    Kept (s.m8Mono env x y widthBytes height bits fgMix fg bgMix bg clip wrtMask) := by
  unfold Hw.m8Mono
  split_ifs
  · exact hs
  · have h1 := set_owes env .RD_MASK 0x00FF
      (set_owes env .WRT_MASK wrtMask (scissors_owes env clip.left
      clip.top clip.right clip.bottom (idleDrained_owes env hs)))
    have h2 := set_owes env .FRGD_COLOR fg (put_owes env .FRGD_MIX fgMix
      (put_owes env .PIX_CNTL M8_MF_PIX_CNTL h1))
    have h3 := put_owes env .DP_CONFIG M8_DP_MONO_HOST (set_owes env .BKGD_COLOR bg
      (put_owes env .BKGD_MIX bgMix h2))
    have h4 := (roomFor_owes env (n := 5) (by decide) le_rfl h3).outs
      [(M8_CUR_X, x), (M8_DEST_X_START, x), (M8_DEST_X_END, x + widthBytes * 8), (M8_CUR_Y, y)]
      (by simp)
    exact hostEnd_kept env _ _ (h4.outMM (by simp) _ _)

theorem hwMono_kept (x y : ℤ) (widthBytes height : ℕ) (bits : List ℤ) (fgMix fg bgMix bg : ℕ)
    (clip : Rect) (hs : Kept s) :
    Kept (s.m8HwMono env x y widthBytes height bits fgMix fg bgMix bg clip) := by
  unfold Hw.m8HwMono
  split_ifs
  exacts [hs, mono_kept env _ _ _ _ _ _ _ _ _ _ _ hs]

theorem monoPlane_kept (x y : ℤ) (widthBytes height : ℕ) (bits : List ℤ) (plane : ℕ)
    (hs : Kept s) : Kept (s.m8HwMonoPlane env x y widthBytes height bits plane) := by
  unfold Hw.m8HwMonoPlane
  split_ifs
  exacts [hs, mono_kept env _ _ _ _ _ _ _ _ _ _ _ hs]

/-! ## Bit-planes -/

theorem planeSetup_owes (plane : ℕ) (hs : Kept s) : Owes false 0 0 (s.planeSetup env plane) :=
  set_owes env _ _ (put_owes env _ _ (scissors_owes env _ _ _ _ (put_owes env _ _ (set_owes env _ _
    (drained_owes env hs)))))

/-- A copy of a plane is the seven writes it asked for. -/
theorem planeWrites_owes (sx sy dx dy w h : ℤ) (hs : Owes false 0 0 s) :
    Owes false 7 7 (s.planeWrites env sx sy dx dy w h) := by
  have h1 := (roomFor_owes env (n := 7) (by decide) le_rfl hs).outs
    [(M8_CUR_X, sx), (M8_CUR_Y, sy), (M8_DESTX_DIASTP, dx), (M8_DESTY_AXSTP, dy)] (by simp)
  exact ((h1.outSize (by simp) w h).outpw (by simp) M8_CMD M8_CMD_PLANE_BLIT).mono (by simp) le_rfl

/-- `m8_hw_plane_blit` keeps to the ledger, and so do its two kin. -/
theorem planeBlit_kept (sx sy dx dy w h : ℤ) (plane fg bg : ℕ) (transparent : Bool)
    (hs : Kept s) : Kept (s.m8HwPlaneBlit env sx sy dx dy w h plane fg bg transparent) := by
  unfold Hw.m8HwPlaneBlit
  split_ifs
  · exact hs
  · exact (planeWrites_owes env _ _ _ _ _ _ (put_owes env _ _ (set_owes env _ _ (put_owes env _ _
      (planeSetup_owes env plane hs))))).kept
  · exact (planeWrites_owes env _ _ _ _ _ _
      (put_owes env _ _ (set_owes env _ _ (set_owes env _ _ (put_owes env _ _
      (planeSetup_owes env plane hs)))))).kept

theorem planeMix_kept (sx sy dx dy w h : ℤ) (plane fg fgMix : ℕ) (hs : Kept s) :
    Kept (s.m8HwPlaneMix env sx sy dx dy w h plane fg fgMix) := by
  unfold Hw.m8HwPlaneMix
  split_ifs
  · exact hs
  · exact (waitIdle_owes env
      (planeWrites_owes env _ _ _ _ _ _ (put_owes env _ _ (set_owes env _ _ (put_owes env _ _
      (planeSetup_owes env plane hs)))))).kept

theorem planeMixes_kept (sx sy dx dy w h : ℤ) (plane fgMix fg bgMix bg : ℕ) (hs : Kept s) :
    Kept (s.m8HwPlaneMixes env sx sy dx dy w h plane fgMix fg bgMix bg) := by
  unfold Hw.m8HwPlaneMixes
  split_ifs
  · exact hs
  · exact ((planeWrites_owes env _ _ _ _ _ _
      (set_owes env _ _ (put_owes env _ _ (set_owes env _ _ (put_owes env _ _
      (planeSetup_owes env plane hs)))))).spend 7).kept

end Inboard
