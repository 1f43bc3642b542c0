import Inboard.DdContent

/-!
# What the buffers hold over a run

After any operations the buffers of M8DD32.DLL hold what two plain frame buffers would, as long
as no triangle is recorded on the shown buffer under an older one of another colour : there
`m8d3d_record` draws in RAM without `m8dd_tris_to_ram` (`dd16_content`).
-/

set_option linter.unusedSectionVars false

namespace Inboard

variable {σ : Type*} {io : CardSide σ} {d : M8ddShare16}

/-! ## Triangles over and under others -/

section Tris

variable {all : Rect} {b : Buffer} {t : Tri} {p : Pixel}

/-- Where a triangle is drawn, what was under it does not show. -/
theorem foldl_drawTri_covered {f g : Pixel → UInt16} : ∀ {ts : List Tri},
    (∃ u ∈ ts, u.Covers p) → ts.foldl drawTri f p = ts.foldl drawTri g p
  | u :: ts, h => by
    rw [List.foldl_cons, List.foldl_cons]
    by_cases hlater : ∃ u ∈ ts, u.Covers p
    · exact foldl_drawTri_covered hlater
    · obtain ⟨v, hv, hcovers⟩ := h
      rcases List.mem_cons.1 hv with rfl | hv
      · have hsame : ∀ q ∈ (⟨p.1, p.2, p.1 + 1, p.2 + 1⟩ : Rect), drawTri f v q =
          drawTri g v q := by
          intro q hq
          rw [Rect.mem_iff] at hq
          dsimp only at hq
          obtain rfl : q = p := Prod.ext (by omega) (by omega)
          rw [drawTri, drawTri, if_pos hcovers, if_pos hcovers]
        refine foldl_drawTri_congr ts hsame p ?_
        rw [Rect.mem_iff]
        dsimp only
        omega
      · exact absurd ⟨v, hv, hcovers⟩ hlater

theorem foldl_drawTri_not_covered {f : Pixel → UInt16} : ∀ {ts : List Tri},
    (¬ ∃ u ∈ ts, u.Covers p) → ts.foldl drawTri f p = f p
  | [], _ => rfl
  | u :: ts, h => by
    have hu : ¬ u.Covers p := fun hc => h ⟨u, List.mem_cons_self, hc⟩
    rw [List.foldl_cons, foldl_drawTri_not_covered fun ⟨v, hv, hc⟩ =>
      h ⟨v, List.mem_cons_of_mem u hv, hc⟩, drawTri, if_neg hu]

/-- A triangle drawn in RAM is over what the buffer held where no other is recorded, or where
the buffer held its colour. -/
theorem Buffer.Ok.tri_content (h : b.Ok all) (hp : p ∈ all) :
    (m8ddTriRam t b).content p = drawTri b.content t p ↔
      (t.Covers p → (∃ u ∈ b.tris, u.Covers p) → b.content p = t.colour) := by
  obtain ⟨-, htris, hbase⟩ := h.tri t
  by_cases hu : ∃ u ∈ b.tris, u.Covers p
  · have hsame : (m8ddTriRam t b).content p = b.content p := by
      rw [Buffer.content, Buffer.content, htris]
      exact foldl_drawTri_covered hu
    rw [hsame, drawTri]
    by_cases ht : t.Covers p
    · rw [if_pos ht]
      exact ⟨fun heq _ _ => heq, fun hall => hall ht hu⟩
    · rw [if_neg ht]
      exact ⟨fun _ hc => absurd hc ht, fun _ => rfl⟩
  · have hcontent : b.content p = b.base p := foldl_drawTri_not_covered hu
    have hnew : (m8ddTriRam t b).content p = drawTri b.content t p := by
      rw [Buffer.content, htris, foldl_drawTri_not_covered hu, hbase p hp, drawTri, drawTri,
        hcontent]
    exact ⟨fun _ _ hu' => absurd hu' hu, fun _ => hnew⟩

/-- Recorded last, a triangle is over all that the buffer held. -/
theorem content_record (b : Buffer) (t : Tri) :
    Buffer.content { b with tris := b.tris ++ [t] } = drawTri b.content t := by
  rw [Buffer.content]
  dsimp only
  rw [List.foldl_append]
  rfl

end Tris

/-! ## Operations -/

section Step

variable {s : Dd16 σ} {e : Eager}

theorem poke_congr {q : Pixel} : ∀ {writes : List (Pixel × UInt16)} {f g : Pixel → UInt16},
    f q = g q → poke f writes q = poke g writes q
  | [], _, _, h => h
  | w :: writes, f, g, h => by
    have hw : Function.update f w.1 w.2 q = Function.update g w.1 w.2 q := by
      by_cases hq : q = w.1
      · rw [hq, Function.update_self, Function.update_self]
      · rw [Function.update_of_ne hq, Function.update_of_ne hq, h]
    show poke _ writes q = poke _ writes q
    exact poke_congr hw

theorem Dd16.Holds.lock (h : s.Holds d e) {ld : M8ddLock16} {writes : List (Pixel × UInt16)}
    (hlegal : (DdOp.lock ld writes).Legal) :
    (dd16Step io d s (.lock ld writes)).Holds d (eagerStep d e (.lock ld writes)) := by
  rw [dd16Step, eagerStep, m8ddLock16]
  cases hbuf : m8ddBuf d ld.mem with
  | none => exact h
  | some b =>
    obtain ⟨hok, hnil, -, hram⟩ := (h.ok b).readyAll
    dsimp only
    split_ifs with hread hback
    · obtain rfl := hlegal hread
      dsimp only
      rw [poke, List.foldl_nil, draw_self, poke, List.foldl_nil, Function.update_eq_self]
      exact h.readyAll b
    all_goals
      dsimp only
      refine h.unknown (b := ⟨poke (m8ddReadyAll d.all (s.buf b)).ram writes,
        { (m8ddReadyAll d.all (s.buf b)).desc with known := false },
        (m8ddReadyAll d.all (s.buf b)).tris⟩) ?_ rfl hnil hok.room fun q hq => ?_
      · simp [Dd16.on, Dd16.draw, Dd16.ram]
      · exact poke_congr ((hram q hq).trans (h.content b q hq))

theorem m8ddUnlock16_buf (lcl : ℕ) (mem : Option ℕ) :
    (m8ddUnlock16 io d lcl mem s).2.buf = s.buf := by
  unfold m8ddUnlock16
  split
  · rfl
  · split
    · rfl
    · split
      · rfl
      · exact m8ddSend_buf _ _ _

theorem m8ddFlip16_buf (mem : Option ℕ) : (m8ddFlip16 io d mem s).2.buf = s.buf := by
  unfold m8ddFlip16
  split
  · rfl
  · split_ifs <;> rfl

/-- A triangle drawn in the RAM of buffer `k`. -/
theorem Dd16.Holds.triRam (h : s.Holds d e) (k : Fin 2) (t : Tri) (s' : Dd16 σ)
    (hbuf : s'.buf = Function.update s.buf k (m8ddTriRam t (s.buf k))) :
    (∀ j, (s'.buf j).Ok d.all) ∧ (s'.Holds d (Function.update e k (drawTri (e k) t)) ↔
      ∀ p ∈ d.all, t.Covers p → (∃ u ∈ (s.buf k).tris, u.Covers p) →
        (s.buf k).content p = t.colour) := by
  obtain ⟨hok, -, -⟩ := (h.ok k).tri t
  have hoks (j : Fin 2) : (s'.buf j).Ok d.all := by
    rw [hbuf]
    by_cases hj : j = k
    · rw [hj, Function.update_self]
      exact hok
    · rw [Function.update_of_ne hj]
      exact h.ok j
  have hdraw (p : Pixel) (hp : p ∈ d.all) :
      drawTri (s.buf k).content t p = drawTri (e k) t p := by
    rw [drawTri, drawTri, h.content k p hp]
  refine ⟨hoks, fun h' p hp => ?_, fun hsafe => h.write hbuf hok fun p hp => ?_⟩
  · refine ((h.ok k).tri_content hp).1 ?_
    have := h'.content k p hp
    rw [hbuf, Function.update_self, Function.update_self] at this
    rw [this, hdraw p hp]
  · rw [← hdraw p hp]
    exact ((h.ok k).tri_content hp).2 (hsafe p hp)

/-- A triangle recorded over what the buffer holds. -/
theorem Dd16.Holds.recorded (h : s.Holds d e) {k : Fin 2} (hknown : (s.buf k).desc.known = true)
    (t : Tri) : (s.on k fun b => { b with tris := b.tris ++ [t] }).Holds d
      (Function.update e k (drawTri (e k) t)) := by
  refine h.write rfl ⟨(h.ok k).filled, fun hk => absurd hk (by simp [hknown]), (h.ok k).room⟩
    fun p hp => ?_
  rw [content_record, drawTri, drawTri, h.content k p hp]

theorem Dd16.Holds.record (h : s.Holds d e) (mem : Option ℕ) (t : Tri) :
    (∀ k, ((dd16Step io d s (.record mem t)).buf k).Ok d.all) ∧
      ((dd16Step io d s (.record mem t)).Holds d (eagerStep d e (.record mem t)) ↔
        s.Safe d (.record mem t)) := by
  rw [dd16Step, eagerStep, m8d3dRecord, Dd16.Safe]
  cases hbuf : m8ddBuf d mem with
  | none => exact ⟨h.ok, fun _ k hk => by simp at hk, fun _ => h⟩
  | some k =>
    dsimp only
    simp only [Option.some.injEq, forall_eq']
    by_cases hfront : k = s.front
    · rw [if_pos (.inl hfront), if_pos hfront]
      have htri := h.triRam k t (m8ddSend io d.all 0 { s.on k (m8ddTriRam t) with
        card := io.unknown (s.on k (m8ddTriRam t)).card }) (m8ddSend_buf _ _ _)
      exact ⟨htri.1, htri.2.trans ⟨fun hall _ => hall, fun hall => hall hfront⟩⟩
    · cases hknown : (s.buf k).desc.known with
      | false =>
        rw [if_pos (.inr rfl), if_neg hfront]
        have htri := h.triRam k t (s.on k (m8ddTriRam t)) rfl
        refine ⟨htri.1, htri.2.trans ⟨fun _ hk => absurd hk hfront, fun _ p _ _ hu => ?_⟩⟩
        rw [(h.ok k).tris hknown] at hu
        simp at hu
      | true =>
        rw [if_neg (by simp [hfront])]
        dsimp only
        split_ifs with hfull
        · have hto : (s.on k m8ddTrisToRam).Holds d e :=
            h.keep rfl (h.ok k).trisToRam.1 (h.ok k).trisToRam_content
          have hrec := hto.recorded (k := k) (by simp [hknown]) t
          exact ⟨hrec.ok, fun _ hk => absurd hk hfront, fun _ => hrec⟩
        · have hrec := h.recorded hknown t
          exact ⟨hrec.ok, fun _ hk => absurd hk hfront, fun _ => hrec⟩

/-- An operation keeps the buffers in order, and what they hold if it is safe. -/
theorem Dd16.Holds.step (io : CardSide σ) (h : s.Holds d e) (op : DdOp) (hlegal : op.Legal) :
    (∀ k, ((dd16Step io d s op).buf k).Ok d.all) ∧
      ((dd16Step io d s op).Holds d (eagerStep d e op) ↔ s.Safe d op) := by
  have hsafe (hop : s.Safe d op) (h' : (dd16Step io d s op).Holds d (eagerStep d e op)) :
      (∀ k, ((dd16Step io d s op).buf k).Ok d.all) ∧
        ((dd16Step io d s op).Holds d (eagerStep d e op) ↔ s.Safe d op) :=
    ⟨h'.ok, fun _ => hop, fun _ => h'⟩
  cases op with
  | blt bd =>
    refine hsafe trivial ?_
    rw [dd16Step, eagerStep, m8ddBlt16Do]
    cases hplan : bltPlan d bd with
    | none => exact h
    | some p => exact h.drawn (bltPlan_fits hplan hlegal)
  | lock ld writes => exact hsafe trivial (h.lock hlegal)
  | unlock lcl mem =>
    refine hsafe trivial ⟨fun k => ?_, fun k => ?_⟩ <;> rw [dd16Step, m8ddUnlock16_buf]
    · exact h.ok k
    · exact h.content k
  | record mem t => exact h.record mem t
  | flip mem =>
    refine hsafe trivial ⟨fun k => ?_, fun k => ?_⟩ <;> rw [dd16Step, m8ddFlip16_buf]
    · exact h.ok k
    · exact h.content k

end Step

/-! ## Runs -/

/-- Operations on the driver's buffers. -/
def dd16Run (io : CardSide σ) (d : M8ddShare16) (s : Dd16 σ) (ops : List DdOp) : Dd16 σ :=
  ops.foldl (dd16Step io d) s

/-- Operations on the plain frame buffers. -/
def eagerRun (d : M8ddShare16) (e : Eager) (ops : List DdOp) : Eager := ops.foldl (eagerStep d) e

/-- The buffers hold what the plain frame buffers hold, on the screen. -/
def Dd16.Same (d : M8ddShare16) (s : Dd16 σ) (e : Eager) : Prop :=
  ∀ k, ∀ p ∈ d.all, (s.buf k).content p = e k p

/-- The list of a buffer fits its array, also while `m8dd_dirty` is at work, and what puts a part
of the buffer in RAM changes nothing that it holds. -/
structure Buffer.Sound (all : Rect) (b : Buffer) : Prop where
  room : b.desc.d.length ≤ M8DD_DIRTY_MAX
  push : ∀ c, (b.desc.push c).d.length ≤ M8DD_DIRTY_MAX + 1
  grown : ∀ c, (m8ddDirty c b).desc.d.length ≤ M8DD_DIRTY_MAX
  ready : ∀ c, (m8ddReady c b).content = b.content
  dirty : ∀ c, (∀ p ∈ all, p ∈ c → b.ram p = b.base p) →
    ∀ p ∈ all, (m8ddDirty c b).content p = b.content p
  trisToRam : ∀ p ∈ all, (m8ddTrisToRam b).content p = b.content p
  readyAll : ∀ p ∈ all, (m8ddReadyAll all b).content p = b.content p

theorem Buffer.Ok.sound {all : Rect} {b : Buffer} (h : b.Ok all) : b.Sound all where
  room := h.room
  push c := by
    rw [M8ddDesc.push]
    dsimp only
    rw [List.length_append, List.length_singleton]
    exact Nat.add_le_add_right h.room 1
  grown c := (m8ddDirty_dirtied all c b h.room fun hk hf p hp _ => h.filled hk hf p hp).room
  ready c := m8ddReady_content c b
  dirty c hc := h.dirty hc
  trisToRam := h.trisToRam_content
  readyAll := h.readyAll_content

theorem dd16Run_ok (ops : List DdOp) (hlegal : ∀ op ∈ ops, op.Legal) : ∀ {s : Dd16 σ},
    (∀ k, (s.buf k).Ok d.all) → ∀ k, ((dd16Run io d s ops).buf k).Ok d.all := by
  induction ops with
  | nil => exact fun h => h
  | cons op ops ih =>
    intro s h
    have hholds : s.Holds d fun k => (s.buf k).content := ⟨h, fun _ _ _ => rfl⟩
    exact ih (fun o ho => hlegal o (List.mem_cons_of_mem op ho))
      (hholds.step io op (hlegal op List.mem_cons_self)).1

theorem prefix_cons {α : Type*} {a : α} {l pre : List α} (h : pre <+: a :: l) :
    pre = [] ∨ ∃ pre', pre = a :: pre' ∧ pre' <+: l := by
  cases pre with
  | nil => exact .inl rfl
  | cons b pre =>
    obtain ⟨rfl, hpre⟩ := List.cons_prefix_cons.1 h
    exact .inr ⟨pre, rfl, hpre⟩

/-- The buffers stay the same as the plain ones just as long as each operation is safe. -/
theorem dd16Run_same (ops : List DdOp) (hlegal : ∀ op ∈ ops, op.Legal) : ∀ {s : Dd16 σ}
    {e : Eager}, s.Holds d e → ((∀ pre, pre <+: ops →
      (dd16Run io d s pre).Same d (eagerRun d e pre)) ↔
      ∀ pre op, pre ++ [op] <+: ops → (dd16Run io d s pre).Safe d op) := by
  induction ops with
  | nil =>
    intro s e h
    refine ⟨fun _ pre op hpre => ?_, fun _ pre hpre => ?_⟩
    · simp at hpre
    · obtain rfl := List.prefix_nil.1 hpre
      exact h.content
  | cons op ops ih =>
    intro s e h
    obtain ⟨hok, hiff⟩ := h.step io op (hlegal op List.mem_cons_self)
    have hnext := fun h' => ih (fun o ho => hlegal o (List.mem_cons_of_mem op ho))
      (s := dd16Step io d s op) (e := eagerStep d e op) h'
    constructor
    · intro hsame pre o hpre
      have hfirst : (dd16Step io d s op).Holds d (eagerStep d e op) :=
        ⟨hok, hsame [op] (List.cons_prefix_cons.2 ⟨rfl, List.nil_prefix⟩)⟩
      cases pre with
      | nil =>
        obtain ⟨rfl, -⟩ := List.cons_prefix_cons.1 hpre
        exact hiff.1 hfirst
      | cons o' pre =>
        obtain ⟨rfl, htail⟩ := List.cons_prefix_cons.1 hpre
        exact (hnext hfirst).1 (fun pre' hpre' => hsame (o' :: pre')
          (List.cons_prefix_cons.2 ⟨rfl, hpre'⟩)) pre o htail
    · intro hsafe pre hpre
      have hfirst := hiff.2 (hsafe [] op (List.cons_prefix_cons.2 ⟨rfl, List.nil_prefix⟩))
      rcases prefix_cons hpre with rfl | ⟨pre, rfl, htail⟩
      · exact h.content
      · exact (hnext hfirst).2 (fun pre' o hpre' => hsafe (op :: pre') o
          (List.cons_prefix_cons.2 ⟨rfl, hpre'⟩)) pre htail

/-! ## The claimed run -/

theorem create_holds (s : Dd16 σ) :
    (m8ddCreate16 io s).Holds d fun _ _ => 0 := by
  refine ⟨fun k => ⟨nofun, nofun, Nat.zero_le _⟩, fun k q _ => ?_⟩
  simp [m8ddCreate16, Buffer.content, Buffer.base, M8ddDesc.Listed]

/-- From `m8dd_create16` on, the buffers hold what two plain frame buffers, black at first, would
hold, as long as each operation is safe and no longer, and in any case each list fits its array
and what puts a part of a buffer in RAM changes nothing. -/
theorem dd16_content (io : CardSide σ) (d : M8ddShare16) (s : Dd16 σ) (ops : List DdOp)
    (hlegal : ∀ op ∈ ops, op.Legal) :
    ((∀ pre, pre <+: ops →
        (dd16Run io d (m8ddCreate16 io s) pre).Same d (eagerRun d (fun _ _ => 0) pre)) ↔
      ∀ pre op, pre ++ [op] <+: ops → (dd16Run io d (m8ddCreate16 io s) pre).Safe d op) ∧
    ∀ k, ((dd16Run io d (m8ddCreate16 io s) ops).buf k).Sound d.all :=
  ⟨dd16Run_same ops hlegal (create_holds s),
    fun k => (dd16Run_ok ops hlegal (create_holds s).ok k).sound⟩

/-! ## A run at 640 by 480 -/

/-- A card that nothing is asked of. -/
def noCard : CardSide Unit := ⟨fun _ _ _ => id, fun _ _ _ _ => id, id, fun _ _ => id⟩

def share16 : M8ddShare16 := ⟨640, 480, 0x1000, 0x97000⟩

/-- RAM with an old picture in it. -/
def oldPicture : Dd16 Unit where
  buf _ := ⟨fun _ => 7, ⟨false, false, 0, []⟩, []⟩
  front := 0
  held _ := none
  card := ()

def cornerTri (colour : UInt16) : Tri := ⟨(0, 0), (3, 0), (0, 3), colour⟩

/-- A triangle recorded on the buffer that is not shown. -/
theorem dd16_content_recorded :
    (∀ pre, pre <+: [DdOp.record (some 0x97000) (cornerTri 1)] →
      (dd16Run noCard share16 (m8ddCreate16 noCard oldPicture) pre).Same share16
        (eagerRun share16 (fun _ _ => 0) pre)) ∧
    ∀ k, ((dd16Run noCard share16 (m8ddCreate16 noCard oldPicture)
      [DdOp.record (some 0x97000) (cornerTri 1)]).buf k).Sound share16.all := by
  have hlegal : ∀ op ∈ [DdOp.record (some 0x97000) (cornerTri 1)], op.Legal := by
    intro op hop
    obtain rfl := List.mem_singleton.1 hop
    trivial
  refine ⟨(dd16_content noCard share16 oldPicture _ hlegal).1.2 fun pre op hpre => ?_,
    (dd16_content noCard share16 oldPicture _ hlegal).2⟩
  cases pre with
  | nil =>
    obtain ⟨rfl, -⟩ := List.cons_prefix_cons.1 hpre
    intro k hk hfront
    obtain rfl : (1 : Fin 2) = k := Option.some.inj hk
    exact absurd hfront (by decide)
  | cons o pre =>
    obtain ⟨-, htail⟩ := List.cons_prefix_cons.1 hpre
    simp at htail

/-- A triangle recorded, its buffer shown, and another recorded over it : it goes under. -/
def shownTri : List DdOp :=
  [.record (some 0x97000) (cornerTri 1), .flip (some 0x97000), .record (some 0x97000) (cornerTri 2)]

theorem dd16_content_shown : (∀ op ∈ shownTri, op.Legal) ∧
    ¬ (dd16Run noCard share16 (m8ddCreate16 noCard oldPicture) shownTri).Same share16
      (eagerRun share16 (fun _ _ => 0) shownTri) := by
  refine ⟨fun op hop => ?_, fun hsame => ?_⟩
  · simp only [shownTri, List.mem_cons, List.not_mem_nil, or_false] at hop
    rcases hop with rfl | rfl | rfl <;> trivial
  · exact absurd (hsame 1 (0, 0) (by decide)) (by decide +kernel)

end Inboard
