import Inboard.ProxyTable
import Inboard.Cutting
import Inboard.OffRun

/-!
# A rectangle's proxies

The pieces of a rectangle that `m8_px_pieces` returns and `m8_px_pieces_live` lets pass
(`PxCall.Sound`). The check compares the bitmap of each piece's table entry. A band's new proxy can
get the entry of a piece before it : the first entry of a full table, or one whose proxy has gone to
make room for another band (`PxCall.TakesAgain`). Where that does not happen, the cutting is sound
in every run in which no proxy outlives a flush of the cache (`m8_px_pieces_sound`).
-/

set_option linter.unusedSectionVars false

namespace Inboard

variable {α : Type*} [DecidableEq α]

/-! ## What a call is to do -/

section Statements

variable (m : LendMode)

/-- The pixels of the filled proxies of `s` whose bitmaps are still there : in their slots, or in
RAM. -/
def PxState.NotLost (s t : PxState α) : Prop :=
  ∀ k p, s.px k = some p → p.unfilled = false → s.pxValid p = true →
    (t.px k = some p ∧ ∀ q ∈ p.rect, t.off.card (t.held p q) = s.off.card (s.held p q)) ∨
      ∀ q ∈ p.rect, t.world.ram p.bmp q = s.off.card (s.held p q)

/-- The pieces cut the rectangle, and their proxies are distinct, live, the bitmap's, and hold
them. -/
structure PxState.Cutting (d : α) (r : Rect) (pc : List PxPiece) (t : PxState α) : Prop where
  cuts : r.Cuts (pc.map PxPiece.rect)
  distinct : (pc.map PxPiece.p).Nodup
  live : ∀ a ∈ pc, ∃ p, t.px a.p = some p ∧ p.bmp = d ∧ (t.entry p.e).w ≠ 0 ∧
    ∀ q ∈ a.rect, q ∈ p.rect

/-- No proxy is new. -/
def PxState.Undone (s t : PxState α) : Prop := ∀ k p, t.px k = some p → s.px k = some p

/-- A call either has a sound cutting to draw into, or drops what it made ; and no filled proxy's
pixels are lost. -/
structure PxCall.Sound (c : PxCall α) (s : PxState α) : Prop where
  drawn : (s.pxCall m c).2.1 = true → (s.pxCall m c).2.2.Cutting c.d c.r (s.pxCall m c).1
  undone : (s.pxCall m c).2.1 = false → s.Undone (s.pxCall m c).2.2
  kept : s.NotLost (s.pxCall m c).2.2

/-- A new proxy for one of the bands gets an entry that a piece before it has. -/
def PxState.TakesAgain (d : α) : List Rect → List (Fin 16) → PxState α → Prop
  | [], _, _ => False
  | b :: bs, had, s => (s.pxNew m d b 0 none).1.isSome = true ∧
      (s.pxNext ∈ had ∨ TakesAgain d bs (had ++ [s.pxNext]) (s.pxNew m d b 0 none).2)

/-- One of those for a rectangle. -/
def PxState.PiecesAgain (d : α) (r : Rect) (fresh : Bool) (s : PxState α) : Prop :=
  match s.pxPlan d r fresh with
  | (none, _) => False
  | (some (bs, pc), s) => s.TakesAgain m d bs (pc.map PxPiece.p)

def PxCall.TakesAgain (c : PxCall α) (s : PxState α) : Prop := s.PiecesAgain m c.d c.r c.fresh

/-- The cache is flushed with no proxy in the table. -/
def PxOp.FlushesEmpty (s : PxState α) : PxOp α → Prop
  | .off .resync => ∀ k, (s.px k).isNone = true
  | .off .screenInit => ∀ k, (s.px k).isNone = true
  | _ => True

/-- In every step of a run. -/
def FlushEmpty : PxState α → List (PxOp α) → Prop
  | _, [] => True
  | s, op :: ops => op.FlushesEmpty s ∧ FlushEmpty (pxStep m s op) ops

instance PxState.decidableTakesAgain (d : α) : (bs : List Rect) → (had : List (Fin 16)) →
    (s : PxState α) → Decidable (s.TakesAgain m d bs had)
  | [], _, _ => .isFalse id
  | b :: bs, had, s =>
    have := decidableTakesAgain d bs (had ++ [s.pxNext]) (s.pxNew m d b 0 none).2
    inferInstanceAs (Decidable (_ = true ∧ (s.pxNext ∈ had ∨
      PxState.TakesAgain m d bs (had ++ [s.pxNext]) (s.pxNew m d b 0 none).2)))

instance PxState.decidablePiecesAgain (d : α) (r : Rect) (fresh : Bool) (s : PxState α) :
    Decidable (s.PiecesAgain m d r fresh) := by
  unfold PxState.PiecesAgain
  split <;> infer_instance

instance PxCall.decidableTakesAgain (c : PxCall α) (s : PxState α) :
    Decidable (c.TakesAgain m s) := by
  unfold PxCall.TakesAgain
  infer_instance

instance PxOp.decidableFlushesEmpty (s : PxState α) (op : PxOp α) :
    Decidable (op.FlushesEmpty s) := by
  unfold PxOp.FlushesEmpty
  split <;> infer_instance

instance FlushEmpty.decidable : (s : PxState α) → (ops : List (PxOp α)) →
    Decidable (FlushEmpty m s ops)
  | _, [] => .isTrue trivial
  | s, op :: ops =>
    have := FlushEmpty.decidable (pxStep m s op) ops
    inferInstanceAs (Decidable (op.FlushesEmpty s ∧ FlushEmpty m (pxStep m s op) ops))

end Statements

variable {m : LendMode} {s t u : PxState α} {d : α} {pc : List PxPiece}

/-! ## While the pieces are made -/

/-- The table with the new proxies of some pieces, since `s` : they are unfilled, and the others are
as they were or have gone. -/
structure PxMaking (d : α) (s : PxState α) (pc : List PxPiece) (t : PxState α) : Prop where
  holds : PxHolds t
  px : ∀ {k p}, t.px k = some p →
    ((∀ a ∈ pc, a.made = true → a.p ≠ k) ∧ s.px k = some p ∧ t.entry p.e = s.entry p.e) ∨
      (p.unfilled = true ∧ p.bmp = d ∧ ∃ a ∈ pc, a.made = true ∧ a.p = k ∧ p.rect = a.rect)
  heap : t.world.heap = s.world.heap
  writable : t.world.writable = s.world.writable
  card : t.off.card = s.off.card
  hwOff : t.hwOff = s.hwOff
  kept : ∀ {k p}, s.px k = some p → p.unfilled = false → s.pxValid p = true →
    (t.px k = some p ∧ t.entry p.e = s.entry p.e) ∨
      ∀ q ∈ p.rect, t.world.ram p.bmp q = s.off.card (s.held p q)

namespace PxMaking

theorem start (hs : PxHolds s) (hpc : ∀ a ∈ pc, a.made = false) : PxMaking d s pc s where
  holds := hs
  px hk := .inl ⟨fun a ha hmade => absurd (hmade.symm.trans (hpc a ha)) (by simp), hk, rfl⟩
  heap := rfl
  writable := rfl
  card := rfl
  hwOff := rfl
  kept hk _ _ := .inl ⟨hk, rfl⟩

theorem held (h : PxMaking d s pc t) {p : PxEntry α} (heq : t.entry p.e = s.entry p.e) (q : Pixel) :
    t.off.card (t.held p q) = s.off.card (s.held p q) := by
  unfold PxState.held
  rw [h.card, heq]

theorem valid (h : PxMaking d s pc t) (p : PxEntry α) : t.pxValid p = s.pxValid p := by
  unfold PxState.pxValid
  rw [h.heap, h.writable]

/-- Proxies go. -/
theorem goes (hs : PxHolds s) (hon : s.hwOff = false) (h : PxMaking d s pc t) (hg : PxGoes t u) :
    PxMaking d s pc u where
  holds := h.holds.less hg.toPxLess
  px := by
    intro k p hk
    obtain ⟨hne, hold, heq⟩ | hmade := h.px (hg.px hk)
    · exact .inl ⟨hne, hold, (hg.entry hk).trans heq⟩
    · exact .inr hmade
  heap := hg.heap.trans h.heap
  writable := hg.writable.trans h.writable
  card := hg.card.trans h.card
  hwOff := hg.hwOff.trans h.hwOff
  kept := by
    intro k p hk hfilled hvalid
    by_cases ht : t.px k = some p
    · have heq : t.entry p.e = s.entry p.e := by
        obtain ⟨-, -, heq⟩ | ⟨hun, -⟩ := h.px ht
        · exact heq
        · exact absurd (hun.symm.trans hfilled) (by simp)
      obtain hu | hram := hg.kept ht hfilled ((h.valid p).trans hvalid) (h.hwOff.trans hon)
      · exact .inl ⟨hu, (hg.entry hu).trans heq⟩
      · exact .inr fun q hq => (hram q hq).trans (h.held heq q)
    · have hram := (h.kept hk hfilled hvalid).resolve_left fun hboth => ht hboth.1
      refine .inr fun q hq => (hg.ram fun j p' hj hfilled' hbmp hq' => ?_).trans (hram q hq)
      obtain ⟨-, hold, -⟩ | ⟨hun, -⟩ := h.px hj
      · have hne : k ≠ j := by
          rintro rfl
          exact ht (hj.trans (hold.symm.trans hk))
        exact hs.apart hk hold hne hbmp.symm q hq hq'
      · exact absurd (hun.symm.trans hfilled') (by simp)

/-- The new ones are dropped, one after another. -/
theorem dropList (hs : PxHolds s) (hon : s.hwOff = false) : ∀ {l : List PxPiece} {t : PxState α},
    (∀ a ∈ l, a ∈ pc) → PxMaking d s pc t → PxGoes t (t.pxPiecesDrop d l) ∧
      ∀ a ∈ l, a.made = true → (t.pxPiecesDrop d l).px a.p = none
  | [], t, _, _ => ⟨.refl t, by simp⟩
  | a :: l, t, hl, h => by
    have hstep : PxGoes t (if a.made = true ∧
          (t.px a.p).any (fun p => decide (p.bmp = d)) = true then t.pxDrop a.p false else t) ∧
        (a.made = true → (if a.made = true ∧
          (t.px a.p).any (fun p => decide (p.bmp = d)) = true then t.pxDrop a.p false else
            t).px a.p = none) := by
      have hmade {p} (hamade : a.made = true) (hp : t.px a.p = some p) :
          p.unfilled = true ∧ p.bmp = d := by
        obtain ⟨hne, -⟩ | ⟨hun, hbmp, -⟩ := h.px hp
        · exact absurd rfl (hne a (hl a (List.mem_cons_self ..)) hamade)
        · exact ⟨hun, hbmp⟩
      split_ifs with hdrop
      · exact ⟨.drop h.holds fun p hp => .inl (hmade hdrop.1 hp).1,
          fun _ => t.pxDrop_self a.p false⟩
      · refine ⟨.refl t, fun hamade => ?_⟩
        cases hp : t.px a.p with
        | none => rfl
        | some p =>
          refine absurd ⟨hamade, ?_⟩ hdrop
          rw [hp]
          simpa using (hmade hamade hp).2
    obtain ⟨hgoes, hnone⟩ := hstep
    obtain ⟨hrest, hrestnone⟩ := dropList hs hon
      (fun b hb => hl b (List.mem_cons_of_mem _ hb)) (h.goes hs hon hgoes)
    refine ⟨hgoes.trans h.holds hrest, fun b hb hbmade => ?_⟩
    obtain rfl | hb := List.mem_cons.1 hb
    · exact hrest.toPxLess.none (hnone hbmade)
    · exact hrestnone b hb hbmade

theorem drop (hs : PxHolds s) (hon : s.hwOff = false) (h : PxMaking d s pc t) :
    PxMaking d s pc (t.pxPiecesDrop d pc) ∧ s.Undone (t.pxPiecesDrop d pc) := by
  obtain ⟨hgoes, hnone⟩ := dropList hs hon (fun a ha => ha) h
  have hdropped := h.goes hs hon hgoes
  refine ⟨hdropped, fun k p hk => ?_⟩
  obtain ⟨-, hold, -⟩ | ⟨-, -, a, ha, hmade, rfl, -⟩ := hdropped.px hk
  · exact hold
  · exact absurd ((hnone a ha hmade).symm.trans hk) (by simp)

theorem notLost (h : PxMaking d s pc t) : s.NotLost t := by
  intro k p hk hfilled hvalid
  obtain ⟨ht, heq⟩ | hram := h.kept hk hfilled hvalid
  · exact .inl ⟨ht, fun q _ => h.held heq q⟩
  · exact .inr hram

/-- One more proxy. -/
theorem put (h : PxMaking d s pc t) {k : Fin 16} {b : Rect} {we hgt : ℕ} {e : Fin 160}
    (hfree : t.px k = none) (hun : t.Unowned e) (hwe : we ≠ 0) (hleft : b.left < b.right)
    (htop : b.top < b.bottom) (hclear : ∀ j q, t.px j = some q → q.bmp = d → b.Apart q.rect) :
    PxMaking d s (pc ++ [⟨k, b, true⟩]) (t.pxPut m k d b 0 we hgt e) where
  holds := h.holds.put hun hwe hleft htop hclear
  px := by
    intro j p hj
    by_cases hne : j = k
    · subst hne
      obtain ⟨p', hp', hbmp, hrect, -, hunfilled⟩ := t.pxPut_self m j d b 0 we hgt e
      obtain rfl : p = p' := Option.some.inj (hj.symm.trans hp')
      exact .inr ⟨hunfilled, hbmp, _, List.mem_append_right _ (List.mem_singleton_self _), rfl, rfl,
        hrect⟩
    · rw [t.pxPut_of_ne hne] at hj
      obtain ⟨hnot, hold, heq⟩ | ⟨hunfilled, hbmp, a, ha, hmade⟩ := h.px hj
      · refine .inl ⟨fun a ha hmade => ?_, hold, (t.pxPut_entry_of_ne (hun j p hj)).trans heq⟩
        obtain ha | ha := List.mem_append.1 ha
        · exact hnot a ha hmade
        · obtain rfl := List.mem_singleton.1 ha
          exact fun heq => hne heq.symm
      · exact .inr ⟨hunfilled, hbmp, a, List.mem_append_left _ ha, hmade⟩
  heap := h.heap
  writable := h.writable
  card := h.card
  hwOff := h.hwOff
  kept := by
    intro j p hj hfilled hvalid
    obtain ⟨ht, heq⟩ | hram := h.kept hj hfilled hvalid
    · have hne : j ≠ k := by
        rintro rfl
        exact absurd (hfree.symm.trans ht) (by simp)
      exact .inl ⟨(t.pxPut_of_ne hne).trans ht, (t.pxPut_entry_of_ne (hun j p ht)).trans heq⟩
    · exact .inr hram

end PxMaking

/-! ## The pieces -/

/-- How the loop over the bands ends : with a new proxy for each of them, or with none. -/
inductive PxBandsEnd (d : α) (s : PxState α) (bs : List Rect) (pc : List PxPiece)
    (again : Prop) : List PxPiece × PxState α → Prop
  | all (new : List PxPiece) (u : PxState α) (hrects : new.map PxPiece.rect = bs)
      (hmade : ∀ a ∈ new, a.made = true) (hmaking : PxMaking d s (pc ++ new) u)
      (hdistinct : ¬ again → (pc.map PxPiece.p).Nodup → ((pc ++ new).map PxPiece.p).Nodup) :
      PxBandsEnd d s bs pc again (pc ++ new, u)
  | failed (pc' : List PxPiece) (u : PxState α) (hmaking : PxMaking d s pc' u)
      (hundone : s.Undone u) : PxBandsEnd d s bs pc again ([], u)

theorem PxMaking.bands (hs : PxHolds s) (hon : s.hwOff = false) : ∀ {bs : List Rect}
    {pc : List PxPiece} {t : PxState α}, PxMaking d s pc t →
      (∀ b ∈ bs, b.left < b.right ∧ b.top < b.bottom) → bs.Pairwise Rect.Apart →
      (∀ b ∈ bs, ∀ j q, t.px j = some q → q.bmp = d → b.Apart q.rect) →
        PxBandsEnd d s bs pc (t.TakesAgain m d bs (pc.map PxPiece.p)) (t.pxBands m d bs pc)
  | [], pc, t, h, _, _, _ => by
    have hall : PxBandsEnd d s [] pc (t.TakesAgain m d [] (pc.map PxPiece.p)) (pc ++ [], t) :=
      .all [] t rfl (by simp) (by rwa [List.append_nil]) fun _ hpc => by rwa [List.append_nil]
    rwa [List.append_nil] at hall
  | b :: bs, pc, t, h, hsize, hapart, hclear => by
    obtain ⟨hleft, htop⟩ := hsize b (List.mem_cons_self ..)
    have hnew := h.holds.new_ends (m := m) d hleft 0 (e := none) (by simp)
    rw [PxState.TakesAgain, PxState.pxBands]
    generalize t.pxNew m d b 0 none = r at hnew ⊢
    cases hnew with
    | failed u hgoes =>
      obtain ⟨hmaking, hundone⟩ := (h.goes hs hon hgoes).drop hs hon
      exact .failed pc _ hmaking hundone
    | put u we hgt e hgoes hfree hun hwe =>
      have hclear' : ∀ b' ∈ b :: bs, ∀ j q, u.px j = some q → q.bmp = d → b'.Apart q.rect :=
        fun b' hb' j q hj => hclear b' hb' j q (hgoes.px hj)
      have hput : PxMaking d s (pc ++ [⟨t.pxNext, b, true⟩]) (u.pxPut m t.pxNext d b 0 we hgt e) :=
        (h.goes hs hon hgoes).put hfree hun hwe hleft htop (hclear' b (List.mem_cons_self ..))
      obtain ⟨hhead, htail⟩ := List.pairwise_cons.1 hapart
      have hrest := PxMaking.bands hs hon hput
        (fun b' hb' => hsize b' (List.mem_cons_of_mem _ hb')) htail fun b' hb' j q hj hbmp => by
          obtain ⟨p, hp, -, hrect, -⟩ := u.pxPut_self m t.pxNext d b 0 we hgt e
          by_cases hne : j = t.pxNext
          · subst hne
            obtain rfl : p = q := Option.some.inj (hp.symm.trans hj)
            rw [hrect]
            exact (hhead b' hb').symm
          · rw [u.pxPut_of_ne hne] at hj
            exact hclear' b' (List.mem_cons_of_mem _ hb') j q hj hbmp
      rw [List.map_append] at hrest
      dsimp only
      generalize (u.pxPut m t.pxNext d b 0 we hgt e).pxBands m d bs
        (pc ++ [⟨t.pxNext, b, true⟩]) = r at hrest ⊢
      cases hrest with
      | failed pc' v hmaking hundone => exact .failed pc' v hmaking hundone
      | all new v hrects hmade hmaking hdistinct =>
        have hcons : pc ++ [⟨t.pxNext, b, true⟩] ++ new = pc ++ (⟨t.pxNext, b, true⟩ :: new) := by
          rw [List.append_assoc, List.singleton_append]
        rw [hcons] at hmaking hdistinct ⊢
        refine .all _ v (by rw [List.map_cons, hrects]) ?_ hmaking fun hnot hpc => ?_
        · intro a ha
          obtain rfl | ha := List.mem_cons.1 ha
          · rfl
          · exact hmade a ha
        · obtain ⟨hfresh, hlater⟩ := not_or.1 fun hor => hnot ⟨rfl, hor⟩
          refine hdistinct hlater ?_
          rw [List.map_append]
          refine List.nodup_append.2 ⟨hpc, List.nodup_singleton _, ?_⟩
          rintro k hk j hj rfl
          obtain rfl := List.mem_singleton.1 hj
          exact hfresh hk

/-! ## A call -/

theorem mem_pxOver {r : Rect} {k : Fin 16} {p : PxEntry α} :
    (k, p) ∈ s.pxOver d r ↔ s.px k = some p ∧ p.bmp = d ∧ p.rect.Overlaps r := by
  unfold PxState.pxOver
  rw [List.mem_filterMap]
  constructor
  · rintro ⟨j, -, hj⟩
    obtain ⟨q, hq, heq⟩ := Option.map_eq_some_iff.1 hj
    obtain ⟨hq, hover⟩ := Option.filter_eq_some_iff.1 hq
    obtain ⟨rfl, rfl⟩ := Prod.mk.inj heq
    exact ⟨hq, of_decide_eq_true hover⟩
  · rintro ⟨hk, hover⟩
    exact ⟨k, List.mem_finRange k, Option.map_eq_some_iff.2
      ⟨p, Option.filter_eq_some_iff.2 ⟨hk, decide_eq_true hover⟩, rfl⟩⟩

/-- What the loop over the bands starts with : pieces that are there and hold what they are to, and
with the bands they cut the rectangle, which no other proxy of the bitmap meets. -/
structure PxPlanned (d : α) (r : Rect) (s : PxState α) (bs : List Rect) (pc : List PxPiece)
    (t : PxState α) : Prop where
  goes : PxGoes s t
  on : s.hwOff = false
  cuts : r.Cuts (pc.map PxPiece.rect ++ bs)
  size : ∀ b ∈ bs, b.left < b.right ∧ b.top < b.bottom
  clear : ∀ b ∈ bs, ∀ j q, t.px j = some q → q.bmp = d → b.Apart q.rect
  there : ∀ a ∈ pc, a.made = false ∧ ∃ p, s.px a.p = some p ∧ p.bmp = d ∧ ∀ q ∈ a.rect, q ∈ p.rect
  distinct : (pc.map PxPiece.p).Nodup

theorem PxHolds.planned (hs : PxHolds s) {r : Rect} {fresh : Bool} {bs : List Rect}
    (h : s.pxPlan d r fresh = (some (bs, pc), t)) : PxPlanned d r s bs pc t := by
  unfold PxState.pxPlan at h
  split_ifs at h with hok
  · exact absurd h (by simp)
  obtain ⟨hon, -, -, -, -, -, hleft, htop, -⟩ : s.bcOn = true ∧ _ :=
    of_decide_eq_true ((Bool.not_eq_false _).mp hok)
  have hon : s.hwOff = false := by
    unfold PxState.bcOn at hon
    cases hoff : s.hwOff with
    | false => rfl
    | true => exact absurd hon (by simp [hoff])
  have halone {t : PxState α} (hgoes : PxGoes s t)
      (hclear : ∀ j q, t.px j = some q → q.bmp = d → r.Apart q.rect)
      (heq : (PxState.pxCut r fresh (none : Option (Fin 16 × PxEntry α))) = some (bs, pc)) :
      PxPlanned d r s bs pc t := by
    unfold PxState.pxCut at heq
    dsimp only at heq
    split_ifs at heq with hfresh
    obtain ⟨rfl, rfl⟩ := Prod.mk.inj (Option.some.inj heq)
    refine ⟨hgoes, hon, r.cuts_self, ?_, ?_, by simp, List.nodup_nil⟩
    · intro b hb
      obtain rfl := List.mem_singleton.1 hb
      exact ⟨hleft, htop⟩
    · intro b hb
      obtain rfl := List.mem_singleton.1 hb
      exact hclear
  have happart {j q} (hq : s.px j = some q) (hbmp : q.bmp = d) (hnot : (j, q) ∉ s.pxOver d r) :
      r.Apart q.rect :=
    (Rect.apart_of_not_overlaps fun hover => hnot (mem_pxOver.2 ⟨hq, hbmp, hover⟩)).symm
  generalize hover : s.pxOver d r = l at h
  match l, h, hover with
  | [], h, hover =>
    obtain ⟨heq, rfl⟩ := Prod.mk.inj h
    exact halone (.refl s) (fun j q hq hbmp => happart hq hbmp (by simp [hover])) heq
  | [(k, p)], h, hover =>
    have hmem : (k, p) ∈ s.pxOver d r := by simp [hover]
    obtain ⟨hk, hbmp, hmeets⟩ := mem_pxOver.1 hmem
    have hothers {j q} (hq : s.px j = some q) (hbmp : q.bmp = d) (hne : j ≠ k) :
        r.Apart q.rect := happart hq hbmp (by simp [hover, hne])
    dsimp only at h
    split_ifs at h with hvalid
    · obtain ⟨heq, rfl⟩ := Prod.mk.inj h
      refine halone (.drop hs fun q hq => .inr (.inr ?_)) (fun j q hq hbmp => ?_) heq
      · obtain rfl : p = q := Option.some.inj (hk.symm.trans hq)
        exact hvalid
      · have hne : j ≠ k := by
          rintro rfl
          rw [s.pxDrop_self] at hq
          exact absurd hq (by simp)
        rw [s.pxDrop_of_ne hne] at hq
        exact hothers hq hbmp hne
    · obtain ⟨heq, rfl⟩ := Prod.mk.inj h
      unfold PxState.pxCut at heq
      dsimp only at heq
      split_ifs at heq with hin hfresh
      · obtain ⟨rfl, rfl⟩ := Prod.mk.inj (Option.some.inj heq)
        refine ⟨.refl s, hon, r.cuts_self, by simp, by simp, ?_, List.nodup_singleton _⟩
        intro a ha
        obtain rfl := List.mem_singleton.1 ha
        exact ⟨rfl, p, hk, hbmp, fun q hq => hin.mem hq⟩
      · obtain ⟨rfl, rfl⟩ := Prod.mk.inj (Option.some.inj heq)
        obtain ⟨hpleft, hptop⟩ := hs.size hk
        have hcuts := Rect.cuts_bands hpleft hptop hmeets.symm
        refine ⟨.refl s, hon, hcuts, fun b hb => ?_, fun b hb j q hq hbmp => ?_, ?_,
          List.nodup_singleton _⟩
        · exact Rect.size_of_mem_bands hleft htop hmeets.symm hptop hb
        · by_cases hne : j = k
          · subst hne
            obtain rfl : p = q := Option.some.inj (hk.symm.trans hq)
            exact hcuts.apart_tail hb
          · intro x hx
            exact hothers hq hbmp hne x (hcuts.mem_of (List.mem_cons_of_mem _ hb) hx)
        · intro a ha
          obtain rfl := List.mem_singleton.1 ha
          exact ⟨rfl, p, hk, hbmp, fun q hq => (Rect.mem_inter.1 hq).2⟩
  | _ :: _ :: _, h, _ => exact absurd (Prod.mk.inj h).1 (by simp)

/-- Where there is nothing to make, only a proxy whose bitmap is gone may have been dropped. -/
theorem PxHolds.plan_none (hs : PxHolds s) {r : Rect} {fresh : Bool}
    (h : s.pxPlan d r fresh = (none, t)) : t = s ∨ s.hwOff = false ∧ PxGoes s t := by
  unfold PxState.pxPlan at h
  split_ifs at h with hok
  · exact .inl (Prod.mk.inj h).2.symm
  generalize hover : s.pxOver d r = l at h
  match l, h, hover with
  | [], h, _ => exact .inl (Prod.mk.inj h).2.symm
  | [(k, p)], h, hover =>
    dsimp only at h
    split_ifs at h with hvalid
    · obtain ⟨-, rfl⟩ := Prod.mk.inj h
      have hk : s.px k = some p := (mem_pxOver.1 (by simp [hover] : (k, p) ∈ s.pxOver d r)).1
      refine .inr ⟨?_, .drop hs fun q hq => .inr (.inr ?_)⟩
      · obtain ⟨hon, -⟩ : s.bcOn = true ∧ _ := of_decide_eq_true ((Bool.not_eq_false _).mp hok)
        unfold PxState.bcOn at hon
        cases hoff : s.hwOff with
        | false => rfl
        | true => exact absurd hon (by simp [hoff])
      · obtain rfl : p = q := Option.some.inj (hk.symm.trans hq)
        exact hvalid
    · exact .inl (Prod.mk.inj h).2.symm
  | _ :: _ :: _, h, _ => exact .inl (Prod.mk.inj h).2.symm

theorem PxState.NotLost.refl (s : PxState α) : s.NotLost s :=
  fun _ _ hk _ _ => .inl ⟨hk, fun _ _ => rfl⟩

/-- Pieces as the loop leaves them. -/
structure PxPieced (m : LendMode) (d : α) (r : Rect) (fresh : Bool) (s : PxState α)
    (pc : List PxPiece) (t : PxState α) : Prop where
  on : s.hwOff = false
  making : PxMaking d s pc t
  cuts : r.Cuts (pc.map PxPiece.rect)
  there : ∀ a ∈ pc, a.made = true ∨
    ∃ p, s.px a.p = some p ∧ p.bmp = d ∧ ∀ q ∈ a.rect, q ∈ p.rect
  distinct : (∀ bs pc t, s.pxPlan d r fresh = (some (bs, pc), t) →
    ¬ t.TakesAgain m d bs (pc.map PxPiece.p)) → (pc.map PxPiece.p).Nodup

theorem PxHolds.pieces (hs : PxHolds s) (m : LendMode) (d : α) (r : Rect) (fresh : Bool) :
    ((s.pxPieces m d r fresh).1 = [] ∧ PxHolds (s.pxPieces m d r fresh).2 ∧
        s.Undone (s.pxPieces m d r fresh).2 ∧ s.NotLost (s.pxPieces m d r fresh).2) ∨
      PxPieced m d r fresh s (s.pxPieces m d r fresh).1 (s.pxPieces m d r fresh).2 := by
  unfold PxState.pxPieces
  cases hplan : s.pxPlan d r fresh with
  | mk plan t =>
    cases plan with
    | none =>
      obtain rfl | ⟨hon, hgoes⟩ := hs.plan_none hplan
      · exact .inl ⟨rfl, hs, fun _ _ hk => hk, .refl _⟩
      · have hstart : PxMaking d s [] s := .start hs (by simp)
        have hmaking := hstart.goes hs hon hgoes
        exact .inl ⟨rfl, hs.less hgoes.toPxLess, fun _ _ hk => hgoes.px hk, hmaking.notLost⟩
    | some plan =>
      obtain ⟨bs, pc⟩ := plan
      have hp := hs.planned hplan
      have hstart : PxMaking d s pc t :=
        (PxMaking.start hs fun a ha => (hp.there a ha).1).goes hs hp.on hp.goes
      have hbands := hstart.bands (m := m) hs hp.on hp.size
        (List.pairwise_append.1 hp.cuts.apart).2.1 hp.clear
      dsimp only
      generalize t.pxBands m d bs pc = x at hbands ⊢
      cases hbands with
      | failed pc' u hmaking hundone => exact .inl ⟨rfl, hmaking.holds, hundone, hmaking.notLost⟩
      | all new u hrects hmade hmaking hdistinct =>
        refine .inr ⟨hp.on, hmaking, ?_, fun a ha => ?_, fun hnot => ?_⟩
        · rw [List.map_append, hrects]
          exact hp.cuts
        · obtain ha | ha := List.mem_append.1 ha
          · exact .inr (hp.there a ha).2
          · exact .inl (hmade a ha)
        · exact hdistinct (hnot bs pc t hplan) hp.distinct

theorem PxPieced.goes (hs : PxHolds s) {r : Rect} {fresh : Bool}
    (h : PxPieced m d r fresh s pc t) (hg : PxGoes t u) : PxPieced m d r fresh s pc u :=
  ⟨h.on, h.making.goes hs h.on hg, h.cuts, h.there, h.distinct⟩

/-- How a call ends : nothing is drawn and nothing new is left, or every piece has a proxy of the
bitmap in its entry. -/
structure PxCalled (m : LendMode) (c : PxCall α) (s : PxState α)
    (x : List PxPiece × Bool × PxState α) : Prop where
  holds : PxHolds x.2.2
  kept : s.NotLost x.2.2
  undone : x.2.1 = false → s.Undone x.2.2
  pieced : x.2.1 = true → PxPieced m c.d c.r c.fresh s x.1 x.2.2
  live : x.2.1 = true → ∀ a ∈ x.1, ∃ p, x.2.2.px a.p = some p ∧ p.bmp = c.d

theorem PxHolds.called (hs : PxHolds s) (m : LendMode) (c : PxCall α) :
    PxCalled m c s (s.pxCall m c) := by
  have hend := hs.pieces m c.d c.r c.fresh
  unfold PxState.pxCall
  generalize s.pxPieces m c.d c.r c.fresh = x at hend ⊢
  obtain ⟨_ | ⟨a, pc⟩, t⟩ := x
  · obtain ⟨-, hholds, hundone, hkept⟩ | hpieced := hend
    · exact ⟨hholds, hkept, fun _ => hundone, by simp, by simp⟩
    · refine ⟨hpieced.making.holds, hpieced.making.notLost, fun _ k p hk => ?_, by simp, by simp⟩
      obtain ⟨-, hold, -⟩ | ⟨-, -, a, ha, -⟩ := hpieced.making.px hk
      · exact hold
      · exact absurd ha (by simp)
  · obtain ⟨hnil, -⟩ | hpieced := hend
    · exact absurd hnil (by simp)
    dsimp only
    have hused := hpieced.goes hs
      (PxGoes.foldl (fun {s} h use => PxGoes.use (m := m) h use) c.between hpieced.making.holds)
    generalize c.between.foldl (PxState.pxUse m) t = u at hused ⊢
    obtain ⟨hdropped, hundone⟩ := hused.making.drop hs hused.on
    split_ifs with hfound
    · exact ⟨hdropped.holds, hdropped.notLost, fun _ => hundone, by simp, by simp⟩
    unfold PxState.pxPiecesLive
    split_ifs with hlive
    · refine ⟨hused.making.holds, hused.making.notLost, by simp, fun _ => hused,
        fun _ b hb => ?_⟩
      obtain ⟨p, hp, hbmp⟩ := Option.any_eq_true _ _ |>.1 (List.all_eq_true.1 hlive b hb)
      exact ⟨p, hp, of_decide_eq_true hbmp⟩
    · exact ⟨hdropped.holds, hdropped.notLost, fun _ => hundone, by simp, by simp⟩

/-- The pieces drawn into are sound if their entries are distinct. -/
theorem PxPieced.cutting {r : Rect} {fresh : Bool} (h : PxPieced m d r fresh s pc t)
    (hdistinct : (pc.map PxPiece.p).Nodup)
    (hlive : ∀ a ∈ pc, ∃ p, t.px a.p = some p ∧ p.bmp = d) : t.Cutting d r pc where
  cuts := h.cuts
  distinct := hdistinct
  live := by
    intro a ha
    obtain ⟨p, hp, hbmp⟩ := hlive a ha
    refine ⟨p, hp, hbmp, h.making.holds.used hp, fun q hq => ?_⟩
    obtain ⟨hnot, hold, -⟩ | ⟨-, -, b, hb, -, hentry, hrect⟩ := h.making.px hp
    · obtain hmade | ⟨p', hp', -, hin⟩ := h.there a ha
      · exact absurd rfl (hnot a ha hmade)
      · obtain rfl : p = p' := Option.some.inj (hold.symm.trans hp')
        exact hin q hq
    · obtain rfl : b = a := List.inj_on_of_nodup_map hdistinct hb ha hentry
      rwa [hrect]

theorem PxHolds.sound (hs : PxHolds s) {c : PxCall α} (hc : ¬ c.TakesAgain m s) : c.Sound m s := by
  have hcalled := hs.called m c
  refine ⟨fun htrue => ?_, hcalled.undone, hcalled.kept⟩
  refine (hcalled.pieced htrue).cutting ((hcalled.pieced htrue).distinct fun bs pc t hplan => ?_)
    (hcalled.live htrue)
  unfold PxCall.TakesAgain PxState.PiecesAgain at hc
  rwa [hplan] at hc

end Inboard
