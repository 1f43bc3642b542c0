import Inboard.DdEager

/-!
# What the buffers hold after a blit

A blit on the buffers of M8DD32.DLL leaves them with what two plain frame buffers would hold,
whatever is described, listed, recorded or in RAM (`Dd16.Holds.drawn`). Between its rectangles
the buffer it writes has no triangles, and on the shown buffer no description (`BltLoop`).
-/

set_option linter.unusedSectionVars false

namespace Inboard

variable {σ : Type*} {io : CardSide σ} {d : M8ddShare16}

/-! ## A buffer that is painted -/

section Buffer

variable {all c : Rect} {b : Buffer} {p : Pixel}

@[simp] theorem m8ddReady_content (c : Rect) (b : Buffer) :
    (m8ddReady c b).content = b.content := by
  simp [Buffer.content]

theorem content_of_nil (h : b.tris = []) : b.content = b.base := by
  simp [Buffer.content, h]

theorem base_of_unknown (h : b.desc.known = false) : b.base = b.ram := by
  ext p
  simp [Buffer.base, h]

/-- RAM that is right stays right. -/
theorem m8ddReady_ram_of_base (h : b.ram p = b.base p) : (m8ddReady c b).ram p = b.base p := by
  rw [m8ddReady_ram]
  split_ifs with hset
  · rw [Buffer.base, if_pos ⟨hset.1, hset.2.2.2⟩]
  · exact h

/-- Drawn in RAM, and listed. -/
theorem Buffer.Ok.paint_dirty (h : b.Ok all) (c : Rect) (v : Pixel → UInt16) :
    (m8ddDirty c { b with ram := c.paint v b.ram }).Ok all ∧
      (m8ddDirty c { b with ram := c.paint v b.ram }).tris = b.tris ∧
      ∀ p ∈ all, (m8ddDirty c { b with ram := c.paint v b.ram }).base p = c.paint v b.base p := by
  have hdirtied := m8ddDirty_dirtied all c { b with ram := c.paint v b.ram }
    h.room fun hk hf p hp hout hl => (Rect.paint_not_mem hout).trans (h.filled hk hf p hp hl)
  refine ⟨⟨hdirtied.filled, fun hk => ?_, hdirtied.room⟩, hdirtied.tris, fun p hp => ?_⟩
  · rw [hdirtied.known] at hk
    rw [hdirtied.tris]
    exact h.tris hk
  · rw [hdirtied.base p hp]
    by_cases hc : p ∈ c
    · rw [if_pos hc, Rect.paint_mem hc]
      exact Rect.paint_mem hc
    · rw [if_neg hc, Rect.paint_not_mem hc, Buffer.base, Buffer.base]
      dsimp only
      rw [Rect.paint_not_mem hc]

/-- Drawn in RAM that is not described. -/
theorem Buffer.Ok.paint_unknown (h : b.Ok all) (hk : b.desc.known = false) (f : Pixel → UInt16) :
    Buffer.Ok all { b with ram := f } :=
  ⟨fun hk' => absurd hk' (by simp [hk]), fun _ => h.tris hk, h.room⟩

/-- `m8dd_dirty` of what was drawn in RAM changes nothing that the buffer holds. -/
theorem Buffer.Ok.dirty (h : b.Ok all) (hc : ∀ p ∈ all, p ∈ c → b.ram p = b.base p) :
    ∀ p ∈ all, (m8ddDirty c b).content p = b.content p := by
  have hdirtied := m8ddDirty_dirtied all c b h.room
    fun hk hf p hp _ hl => h.filled hk hf p hp hl
  intro p hp
  rw [Buffer.content, Buffer.content, hdirtied.tris]
  refine foldl_drawTri_congr b.tris (fun q hq => ?_) p hp
  rw [hdirtied.base q hq]
  split_ifs with hin
  · exact hc q hq hin
  · rfl

end Buffer

/-! ## A blit, rectangle by rectangle -/

/-- Between the rectangles of a blit. -/
structure BltLoop (d : M8ddShare16) (p : BltPlan) (back : Bool) (s : Dd16 σ) (e : Eager) :
    Prop where
  side : back = decide (p.dk ≠ s.front)
  ok : ∀ k, (s.buf k).Ok d.all
  content : ∀ k, ∀ q ∈ d.all, (s.buf k).content q = e k q
  tris : (s.buf p.dk).tris = []
  shown : back = false → (s.buf p.dk).desc.known = false
  other : ∀ sk, p.other = some sk → sk ≠ p.dk ∧ ∀ q ∈ d.all, s.ram sk q = e sk q

/-- What a copy reads of a buffer is on the screen. -/
def BltPlan.Fits (d : M8ddShare16) (p : BltPlan) (r : Rect) : Prop :=
  ∀ k key, p.work = .copy (.buf k) key → ∀ q ∈ m8ddClipFb d r, p.shift q ∈ d.all

section Rects

variable {p : BltPlan} {back : Bool} {s : Dd16 σ} {e : Eager} {c r : Rect}

theorem mem_clipFb {q : Pixel} (h : q ∈ m8ddClipFb d r) : q ∈ d.all ∧ q ∈ r := by
  rw [Rect.mem_iff, m8ddClipFb] at h
  rw [M8ddShare16.all, Rect.mem_iff, Rect.mem_iff]
  dsimp only at h ⊢
  omega

/-- The buffer that is written holds its base. -/
theorem BltLoop.base (h : BltLoop d p back s e) {q : Pixel} (hq : q ∈ d.all) :
    (s.buf p.dk).base q = e p.dk q := by
  rw [← content_of_nil h.tris]
  exact h.content p.dk q hq

/-- The buffer that is written becomes `b`. -/
theorem BltLoop.write (h : BltLoop d p back s e) {s' : Dd16 σ} {b : Buffer} {g : Pixel → UInt16}
    (hfront : s'.front = s.front) (hbuf : s'.buf = Function.update s.buf p.dk b)
    (hok : b.Ok d.all) (htris : b.tris = []) (hbase : ∀ q ∈ d.all, b.base q = g q)
    (hshown : back = false → b.desc.known = false) :
    BltLoop d p back s' (Function.update e p.dk g) := by
  have hself : s'.buf p.dk = b := by rw [hbuf, Function.update_self]
  have hkeep {k : Fin 2} (hk : k ≠ p.dk) : s'.buf k = s.buf k := by
    rw [hbuf, Function.update_of_ne hk]
  refine ⟨?_, fun k => ?_, fun k q hq => ?_, ?_, ?_, fun sk hsk => ?_⟩
  · rw [hfront]
    exact h.side
  · by_cases hk : k = p.dk
    · rw [hk, hself]
      exact hok
    · rw [hkeep hk]
      exact h.ok k
  · by_cases hk : k = p.dk
    · subst hk
      rw [hself, content_of_nil htris, Function.update_self]
      exact hbase q hq
    · rw [hkeep hk, Function.update_of_ne hk]
      exact h.content k q hq
  · rw [hself, htris]
  · rw [hself]
    exact hshown
  · obtain ⟨hne, hram⟩ := h.other sk hsk
    refine ⟨hne, fun q hq => ?_⟩
    rw [Dd16.ram, hkeep hne, Function.update_of_ne hne]
    exact hram q hq

/-- A part of the buffer that is written, put in RAM. -/
theorem BltLoop.ready (h : BltLoop d p back s e) (c : Rect) :
    BltLoop d p back (s.on p.dk (m8ddReady c)) e := by
  have hwrite : BltLoop d p back (s.on p.dk (m8ddReady c)) (Function.update e p.dk (e p.dk)) :=
    h.write rfl rfl
    ((h.ok p.dk).ready c) (by rw [m8ddReady_tris, h.tris])
    (fun q hq => by rw [m8ddReady_base]; exact h.base hq)
    (fun hb => by rw [m8ddReady_desc]; exact h.shown hb)
  rwa [Function.update_eq_self] at hwrite

/-- What is in RAM of the buffer that is written : on the shown buffer all of it. -/
def InRam (d : M8ddShare16) (p : BltPlan) (s : Dd16 σ) (e : Eager) (c : Rect) : Prop :=
  ∀ q ∈ d.all, q ∈ c → s.ram p.dk q = e p.dk q

theorem BltLoop.inRam_shown (h : BltLoop d p false s e) (c : Rect) : InRam d p s e c := by
  intro q hq _
  rw [← h.base hq, base_of_unknown (h.shown rfl)]
  rfl

theorem BltLoop.inRam_ready (h : BltLoop d p back s e) (c : Rect) :
    InRam d p (s.on p.dk (m8ddReady c)) e c := by
  intro q hq hc
  rw [Dd16.ram, on_buf_self, (h.ok p.dk).ready_ram hq hc]
  exact h.base hq

theorem InRam.ready (hin : InRam d p s e c) (h : BltLoop d p back s e) (c' : Rect) :
    InRam d p (s.on p.dk (m8ddReady c')) e c := by
  intro q hq hc
  have hbase : (s.buf p.dk).ram q = (s.buf p.dk).base q := (hin q hq hc).trans (h.base hq).symm
  rw [Dd16.ram, on_buf_self, m8ddReady_ram_of_base hbase]
  exact h.base hq

/-- The rectangle painted, on the shown buffer. -/
theorem BltLoop.paint_shown (h : BltLoop d p false s e) {v w : Pixel → UInt16} {card : σ}
    (hv : ∀ q ∈ c, q ∈ d.all → v q = w q) :
    BltLoop d p false { s.draw p.dk (c.paint v (s.ram p.dk)) with card := card }
      (Function.update e p.dk (c.paint w (e p.dk))) := by
  have hk := h.shown rfl
  refine h.write (b := { s.buf p.dk with ram := c.paint v (s.ram p.dk) }) rfl rfl
    ((h.ok p.dk).paint_unknown hk _) h.tris (fun q hq => ?_) fun _ => hk
  rw [base_of_unknown (b := ⟨c.paint v (s.ram p.dk), (s.buf p.dk).desc, (s.buf p.dk).tris⟩) hk]
  dsimp only
  by_cases hc : q ∈ c
  · rw [Rect.paint_mem hc, Rect.paint_mem hc]
    exact hv q hc hq
  · rw [Rect.paint_not_mem hc, Rect.paint_not_mem hc]
    rw [← h.base hq, base_of_unknown hk]
    rfl

/-- The rectangle painted, and listed. -/
theorem BltLoop.paint_back (h : BltLoop d p true s e) {v w : Pixel → UInt16}
    (hv : ∀ q ∈ c, q ∈ d.all → v q = w q) :
    BltLoop d p true ((s.draw p.dk (c.paint v (s.ram p.dk))).on p.dk (m8ddDirty c))
      (Function.update e p.dk (c.paint w (e p.dk))) := by
  obtain ⟨hok, htris, hbase⟩ := (h.ok p.dk).paint_dirty c v
  refine h.write (b := m8ddDirty c { s.buf p.dk with ram := c.paint v (s.buf p.dk).ram }) rfl ?_
    hok (htris.trans h.tris) (fun q hq => ?_) nofun
  · simp [Dd16.on, Dd16.draw, Dd16.ram]
  · rw [hbase q hq]
    by_cases hc : q ∈ c
    · rw [Rect.paint_mem hc, Rect.paint_mem hc]
      exact hv q hc hq
    · rw [Rect.paint_not_mem hc, Rect.paint_not_mem hc]
      exact h.base hq

/-- What a rectangle of a copy reads, once it is in RAM. -/
theorem copied_congr {src : BltSource} {key : Option UInt16} {s : Dd16 σ} {e : Eager}
    (h : BltLoop d p back s e) (hwork : p.work = .copy src key) (hfits : p.Fits d r)
    (hc : InRam d p s e (m8ddClipFb d r))
    (hself : p.work.self p.dk = true → ∀ q ∈ m8ddClipFb d r, s.ram p.dk (p.shift q) =
      e p.dk (p.shift q)) :
    ∀ q ∈ m8ddClipFb d r, q ∈ d.all → src.px s.ram (p.shift q) = src.px e (p.shift q) ∧
      copied p src key s.ram q = copied p src key e q := by
  intro q hq hall
  have hpx : src.px s.ram (p.shift q) = src.px e (p.shift q) := by
    cases src with
    | sys m => rfl
    | buf k =>
      by_cases hk : k = p.dk
      · subst hk
        exact hself (by simp [hwork, BltWork.self]) q hq
      · have hother : p.other = some k := by
          rw [BltPlan.other, hwork]
          exact if_pos hk
        exact (h.other k hother).2 _ (hfits k key hwork q hq)
  refine ⟨hpx, ?_⟩
  rw [copied, copied, hpx, hc q hall hq]

/-- What is read of the buffer that is written is put in RAM. -/
theorem BltLoop.prepared (h : BltLoop d p back s e) (c : Rect) (hall : ∀ q ∈ c,
    p.work.self p.dk = true → p.shift q ∈ d.all) {s1 s2 : Dd16 σ}
    (h1 : s1 = if back then s.on p.dk (m8ddReady c) else s)
    (h2 : s2 = if back && p.work.self p.dk then s1.on p.dk (m8ddReady
        ⟨c.left - p.od.left + p.os.left, c.top - p.od.top + p.os.top,
          c.left - p.od.left + p.os.left + (c.right - c.left),
          c.top - p.od.top + p.os.top + (c.bottom - c.top)⟩) else s1) :
    BltLoop d p back s2 e ∧ InRam d p s2 e c ∧
      (p.work.self p.dk = true → ∀ q ∈ c, s2.ram p.dk (p.shift q) = e p.dk (p.shift q)) := by
  cases back with
  | false =>
    obtain rfl : s2 = s := by simpa [h1] using h2
    exact ⟨h, h.inRam_shown c, fun hself q hq => h.inRam_shown d.all _ (hall q hq hself)
      (hall q hq hself)⟩
  | true =>
    simp only [↓reduceIte, Bool.true_and] at h1 h2
    subst h1
    cases hself : p.work.self p.dk with
    | false =>
      obtain rfl : s2 = _ := by simpa [hself] using h2
      exact ⟨h.ready c, h.inRam_ready c, nofun⟩
    | true =>
      rw [hself, if_pos rfl] at h2
      subst h2
      refine ⟨(h.ready c).ready _, (h.inRam_ready c).ready (h.ready c) _, fun _ q hq => ?_⟩
      refine (h.ready c).inRam_ready _ _ (hall q hq hself) ?_
      rw [Rect.mem_iff] at hq ⊢
      rw [BltPlan.shift]
      dsimp only
      omega

theorem BltLoop.rect (h : BltLoop d p back s e) (hfits : p.Fits d r) :
    BltLoop d p back (bltRect io d p back s r) (eagerRect d p e r) := by
  rw [bltRect, eagerRect]
  by_cases hempty : (m8ddClipFb d r).right - (m8ddClipFb d r).left ≤ 0 ∨
      (m8ddClipFb d r).bottom ≤ (m8ddClipFb d r).top
  · have hnone {v : Pixel → UInt16} : (m8ddClipFb d r).paint v (e p.dk) = e p.dk := by
      ext1 q
      refine Rect.paint_not_mem (Rect.Empty.not_mem ?_)
      unfold Rect.Empty
      omega
    rw [if_pos hempty, hnone, Function.update_eq_self]
    exact h
  rw [if_neg hempty]
  dsimp only
  obtain ⟨h2, hin, hself⟩ := h.prepared (m8ddClipFb d r) (fun q hq hw => by
    cases hwork : p.work with
    | fill colour => simp [hwork, BltWork.self] at hw
    | copy src key =>
      cases src with
      | sys m => simp [hwork, BltWork.self] at hw
      | buf k => exact hfits k key hwork q hq) rfl rfl
  generalize (if (back && p.work.self p.dk) = true then
    (if back = true then s.on p.dk (m8ddReady (m8ddClipFb d r)) else s).on p.dk _
    else if back = true then s.on p.dk (m8ddReady (m8ddClipFb d r)) else s) = s2 at h2 hin hself ⊢
  cases hwork : p.work with
  | fill colour =>
    dsimp only
    have hfill : fillRows (m8ddClipFb d r) colour (s2.ram p.dk) =
        (m8ddClipFb d r).paint (fun _ => colour) (s2.ram p.dk) :=
      funext (fillRows_apply _ colour _)
    rw [hfill]
    cases back with
    | true => exact h2.paint_back fun q _ _ => rfl
    | false =>
      rw [if_neg Bool.false_ne_true, m8ddSend_eq]
      exact h2.paint_shown fun q _ _ => rfl
  | copy src key =>
    dsimp only
    have hcopied := copied_congr h2 hwork hfits hin hself
    rw [← hwork]
    split_ifs with hdiff hback hsame
    · simp only [Bool.and_eq_true, Bool.not_eq_true', Option.isNone_iff_eq_none] at hdiff
      obtain ⟨⟨hother, rfl⟩, rfl⟩ := hdiff
      have hshown : s2.front = p.dk := Eq.symm (by simpa using h2.side)
      obtain ⟨card, heq⟩ := diffRows_spec io p src
        (m8ddClipFb d r) s2 fun k hk => by
          rw [hwork, hk, BltWork.self, beq_eq_false_iff_ne] at hother
          rwa [hshown]
      rw [heq, hshown]
      refine h2.paint_shown fun q hq hall => ?_
      rw [copied, if_neg nofun]
      exact (hcopied q hq hall).1
    · rw [moveRows_spec]
      subst hback
      exact h2.paint_back fun q hq hall => (hcopied q hq hall).2
    · obtain rfl : back = false := by simpa using hback
      rw [moveRows_spec]
      exact h2.paint_shown fun q hq hall => (hcopied q hq hall).2
    · obtain rfl : back = false := by simpa using hback
      rw [moveRows_spec, m8ddSend_eq]
      exact h2.paint_shown fun q hq hall => (hcopied q hq hall).2

theorem BltLoop.rects : ∀ {rs : List Rect} {s : Dd16 σ} {e : Eager}, BltLoop d p back s e →
    (∀ r ∈ rs, p.Fits d r) →
    BltLoop d p back (rs.foldl (bltRect io d p back) s) (rs.foldl (eagerRect d p) e)
  | [], _, _, h, _ => h
  | r :: rs, _, _, h, hfits => by
    rw [List.foldl_cons, List.foldl_cons]
    exact BltLoop.rects (h.rect (hfits r List.mem_cons_self))
      fun r' hr' => hfits r' (List.mem_cons_of_mem r hr')

end Rects

/-! ## Operations -/

/-- The buffers hold what the plain frame buffers hold. -/
structure Dd16.Holds (d : M8ddShare16) (s : Dd16 σ) (e : Eager) : Prop where
  ok : ∀ k, (s.buf k).Ok d.all
  content : ∀ k, ∀ q ∈ d.all, (s.buf k).content q = e k q

section Step

variable {s : Dd16 σ} {e : Eager} {p : BltPlan}

/-- One buffer changes. -/
theorem Dd16.Holds.write (h : s.Holds d e) {k : Fin 2} {s' : Dd16 σ} {b : Buffer}
    {g : Pixel → UInt16} (hbuf : s'.buf = Function.update s.buf k b) (hok : b.Ok d.all)
    (hg : ∀ q ∈ d.all, b.content q = g q) : s'.Holds d (Function.update e k g) := by
  refine ⟨fun j => ?_, fun j q hq => ?_⟩
  · rw [hbuf]
    by_cases hj : j = k
    · rw [hj, Function.update_self]
      exact hok
    · rw [Function.update_of_ne hj]
      exact h.ok j
  · rw [hbuf]
    by_cases hj : j = k
    · rw [hj, Function.update_self, Function.update_self]
      exact hg q hq
    · rw [Function.update_of_ne hj, Function.update_of_ne hj]
      exact h.content j q hq

/-- One buffer changes, and holds what it held. -/
theorem Dd16.Holds.keep (h : s.Holds d e) {k : Fin 2} {s' : Dd16 σ} {b : Buffer}
    (hbuf : s'.buf = Function.update s.buf k b) (hok : b.Ok d.all)
    (hg : ∀ q ∈ d.all, b.content q = (s.buf k).content q) : s'.Holds d e := by
  have hwrite := h.write (g := e k) hbuf hok fun q hq => (hg q hq).trans (h.content k q hq)
  rwa [Function.update_eq_self] at hwrite

theorem Buffer.Ok.readyAll_content {all : Rect} {b : Buffer} (h : b.Ok all) :
    ∀ q ∈ all, (m8ddReadyAll all b).content q = b.content q := by
  obtain ⟨-, hnil, hbase, -⟩ := h.readyAll
  rw [content_of_nil hnil]
  exact hbase

theorem Buffer.Ok.trisToRam_content {all : Rect} {b : Buffer} (h : b.Ok all) :
    ∀ q ∈ all, (m8ddTrisToRam b).content q = b.content q := by
  obtain ⟨-, hnil, hbase⟩ := h.trisToRam
  rw [content_of_nil hnil]
  exact hbase

theorem Dd16.Holds.readyAll (h : s.Holds d e) (k : Fin 2) :
    (s.on k (m8ddReadyAll d.all)).Holds d e :=
  h.keep rfl (h.ok k).readyAll.1 (h.ok k).readyAll_content

/-- RAM is the truth from here. -/
theorem Dd16.Holds.unknown (h : s.Holds d e) {k : Fin 2} {s' : Dd16 σ} {b : Buffer}
    (hbuf : s'.buf = Function.update s.buf k b) (hknown : b.desc.known = false)
    (htris : b.tris = []) (hroom : b.desc.d.length ≤ M8DD_DIRTY_MAX) {g : Pixel → UInt16}
    (hg : ∀ q ∈ d.all, b.ram q = g q) : s'.Holds d (Function.update e k g) := by
  refine h.write hbuf ⟨fun hk => absurd hk (by simp [hknown]), fun _ => htris, hroom⟩
    fun q hq => ?_
  rw [content_of_nil htris, base_of_unknown hknown]
  exact hg q hq

/-! ### Blt -/

theorem bltSource_buf {surf : BltSurf} {k : Fin 2} {w h : ℤ}
    (hsrc : bltSource d surf = some (.buf k, w, h)) : w = d.width ∧ h = d.height := by
  unfold bltSource at hsrc
  split at hsrc
  · simp only [Option.some.injEq, Prod.mk.injEq] at hsrc
    exact ⟨hsrc.2.1.symm, hsrc.2.2.symm⟩
  · cases hsys : surf.sys with
    | none => simp [hsys] at hsrc
    | some m => simp [hsys] at hsrc

/-- A copy from a buffer : the rectangles are of one size, and the source's is on the screen. -/
theorem bltCopy_buf {bd : M8ddBlt} {dk k : Fin 2} {od os : Rect} {surf : BltSurf}
    {key : Option UInt16} (h : bltCopy d bd dk od os surf = some (.copy (.buf k) key)) :
    os.right - os.left = od.right - od.left ∧ os.bottom - os.top = od.bottom - od.top ∧
      0 ≤ os.left ∧ 0 ≤ os.top ∧ os.right ≤ d.width ∧ os.bottom ≤ d.height := by
  unfold bltCopy at h
  split at h
  · simp at h
  rename_i src sw sh hsource
  split_ifs at h with hself hsize hkeyed
  · cases hkey : bltKey bd surf with
    | none => simp [hkey] at h
    | some c =>
      simp only [hkey, Option.map_some, Option.some.injEq, BltWork.copy.injEq] at h
      obtain ⟨rfl, -⟩ := h
      obtain ⟨rfl, rfl⟩ := bltSource_buf hsource
      omega
  · simp only [Option.some.injEq, BltWork.copy.injEq] at h
    obtain ⟨rfl, -⟩ := h
    obtain ⟨rfl, rfl⟩ := bltSource_buf hsource
    omega

theorem bltWork_buf {bd : M8ddBlt} {dk k : Fin 2} {od os : Rect} {key : Option UInt16}
    (h : bltWork d bd dk od os = some (.copy (.buf k) key)) :
    ∃ surf, bltCopy d bd dk od os surf = some (.copy (.buf k) key) := by
  unfold bltWork at h
  cases hfill : bd.flags.colorFill with
  | true => cases hkeyed : bd.keyed <;> simp [hfill, hkeyed] at h
  | false =>
    cases hsurf : bd.src with
    | none => simp [hfill, hsurf] at h
    | some surf =>
      simp only [hfill, hsurf, Bool.false_eq_true, ↓reduceIte] at h
      cases hrop : bd.flags.rop && bd.rop != M8DD_SRCCOPY with
      | true => simp [hrop] at h
      | false => exact ⟨surf, by simpa [hrop] using h⟩

theorem bltPlan_fits {bd : M8ddBlt} (h : bltPlan d bd = some p) (hlegal : (DdOp.blt bd).Legal) :
    ∀ r ∈ p.rects, p.Fits d r := by
  have hplan : bltWork d bd p.dk p.od p.os = some p.work ∧ ∀ r ∈ p.rects, r.Inside p.od := by
    unfold bltPlan at h
    dsimp only at h
    split at h
    · simp at h
    split at h
    · simp at h
    split at h
    · simp at h
    rename_i work hwork
    cases hclip : bd.isClipped with
    | true =>
      simp only [hclip, ↓reduceIte] at h hwork
      split_ifs at h
      obtain rfl := Option.some.inj h
      exact ⟨hwork, hlegal hclip⟩
    | false =>
      simp only [hclip, Bool.false_eq_true, ↓reduceIte, Option.some.injEq] at h hwork
      obtain rfl := h
      refine ⟨hwork, fun r hr => ?_⟩
      obtain rfl := List.mem_singleton.1 hr
      exact ⟨Int.le_refl _, Int.le_refl _, Int.le_refl _, Int.le_refl _⟩
  obtain ⟨hwork, hinside⟩ := hplan
  intro r hr k key hcopy q hq
  rw [hcopy] at hwork
  obtain ⟨surf, hsurf⟩ := bltWork_buf hwork
  have hsize := bltCopy_buf hsurf
  have hod := (hinside r hr).mem (mem_clipFb hq).2
  rw [Rect.mem_iff] at hod
  rw [BltPlan.shift, M8ddShare16.all, Rect.mem_iff]
  dsimp only
  omega

/-- What the rectangles of a blit start from. -/
theorem Dd16.Holds.start (h : s.Holds d e) (p : BltPlan) :
    BltLoop d p (decide (p.dk ≠ s.front)) (bltStart io d p (decide (p.dk ≠ s.front)) s) e := by
  have hfirst : ∃ s1 : Dd16 σ, s1.Holds d e ∧ s1.front = s.front ∧ (s1.buf p.dk).tris = [] ∧
      (decide (p.dk ≠ s.front) = false → (s1.buf p.dk).desc.known = false) ∧
      bltStart io d p (decide (p.dk ≠ s.front)) s =
        p.other.elim s1 fun sk => s1.on sk (m8ddReadyAll d.all) := by
    by_cases hback : p.dk = s.front
    · obtain ⟨hok, hnil, -, hram⟩ := (h.ok p.dk).readyAll
      have hshown : Dd16.Holds d { (s.on p.dk (m8ddReadyAll d.all)).on p.dk
          (fun b => { b with desc := { b.desc with known := false } }) with
          card := io.unknown s.card } (Function.update e p.dk (e p.dk)) :=
        h.unknown (b := { m8ddReadyAll d.all (s.buf p.dk) with
          desc := { (m8ddReadyAll d.all (s.buf p.dk)).desc with known := false } })
          (by simp [Dd16.on]) rfl hnil hok.room
          fun q hq => (hram q hq).trans (h.content p.dk q hq)
      rw [Function.update_eq_self] at hshown
      refine ⟨_, hshown, rfl, ?_, fun _ => ?_, ?_⟩
      · simp [hnil]
      · simp
      · cases hother : p.other <;> simp [bltStart, hback, hother]
    · obtain ⟨hok, hnil, -⟩ := (h.ok p.dk).trisToRam
      refine ⟨s.on p.dk m8ddTrisToRam, h.keep rfl hok (h.ok p.dk).trisToRam_content, rfl, ?_,
        fun hshown => ?_, ?_⟩
      · rw [on_buf_self, hnil]
      · simp [hback] at hshown
      · cases hother : p.other <;> simp [bltStart, hback, hother]
  obtain ⟨s1, hs1, hfront, hnil, hshown, heq⟩ := hfirst
  rw [heq, ← hfront]
  cases hother : p.other with
  | none =>
    exact ⟨rfl, hs1.ok, hs1.content, hnil, by rwa [hfront], fun sk hsk => by simp [hother] at hsk⟩
  | some sk =>
    have hne : sk ≠ p.dk := by
      unfold BltPlan.other at hother
      split at hother
      · split_ifs at hother with hne
        obtain rfl := Option.some.inj hother
        exact hne
      · simp at hother
    obtain ⟨-, -, -, hram⟩ := (hs1.ok sk).readyAll
    have hready := hs1.readyAll sk
    have hkeep := on_buf_of_ne s1 sk p.dk (m8ddReadyAll d.all) hne.symm
    rw [Option.elim_some]
    refine ⟨rfl, hready.ok, hready.content, ?_, fun hb => ?_, fun sk' hsk' => ?_⟩
    · rw [hkeep, hnil]
    · rw [hkeep]
      exact hshown (by rwa [hfront] at hb)
    · obtain rfl : sk = sk' := Option.some.inj (hother.symm.trans hsk')
      refine ⟨hne, fun q hq => ?_⟩
      rw [Dd16.ram, on_buf_self]
      exact (hram q hq).trans (hs1.content sk q hq)

theorem Dd16.Holds.drawn (h : s.Holds d e) (hfits : ∀ r ∈ p.rects, p.Fits d r) :
    (bltRun io d p s).Holds d (p.rects.foldl (eagerRect d p) e) := by
  have hloop : BltLoop d p (decide (p.dk ≠ s.front))
      (p.rects.foldl (bltRect io d p (decide (p.dk ≠ s.front)))
        (bltStart io d p (decide (p.dk ≠ s.front)) s)) (p.rects.foldl (eagerRect d p) e) :=
    (h.start p).rects hfits
  have hdraw : (p.rects.foldl (bltRect io d p (decide (p.dk ≠ s.front)))
      (bltStart io d p (decide (p.dk ≠ s.front)) s)).Holds d
      (p.rects.foldl (eagerRect d p) e) := ⟨hloop.ok, hloop.content⟩
  unfold bltRun
  dsimp only
  split
  · rename_i colour hclears hback
    unfold BltPlan.clears at hclears
    split at hclears
    · rename_i c r hwork hrects
      split_ifs at hclears with hall
      obtain rfl := Option.some.inj hclears
      rw [hrects, List.foldl_cons, List.foldl_nil, eagerRect, hwork, hall]
      refine h.write rfl ⟨nofun, nofun, Nat.zero_le _⟩ fun q hq => ?_
      rw [Rect.paint_mem hq, Buffer.content]
      dsimp only
      rw [List.foldl_nil, Buffer.base, if_pos ⟨rfl, by simp [M8ddDesc.Listed]⟩]
    · simp at hclears
  · exact hdraw

end Step

end Inboard
