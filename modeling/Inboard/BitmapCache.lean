import Inboard.ProxyBlt

/-!
# The keys of the bitmap cache

An entry that is no proxy's is found by the hashes of the pixels in its slot, and the last lookup is
found again by its bitmap's RAM (`PxState.Cached`). What lets proxies go keeps both : it gives slots
back or leaves them as they are, and forgets the last lookup where it writes to a bitmap's RAM
(`PxKeeps`).
-/

set_option linter.unusedSectionVars false

namespace Inboard

variable {α : Type*} [DecidableEq α] {m : LendMode} {s t u : PxState α}

/-! ## The hashes of a rectangle -/

theorem m8HashBytes_congr {p q : ℕ → UInt8} {n : ℕ} (h : ∀ i < n, p i = q i) (hs : M8Hash) :
    m8HashBytes p n hs = m8HashBytes q n hs := by
  have hwords : ∀ (l : List ℕ) (hs : M8Hash), (∀ i ∈ l, 2 * i + 1 < n) →
      l.foldl (fun h i => h.word ((p (2 * i)).toUInt16 ||| (p (2 * i + 1)).toUInt16 <<< 8)) hs =
        l.foldl (fun h i => h.word ((q (2 * i)).toUInt16 ||| (q (2 * i + 1)).toUInt16 <<< 8))
          hs := by
    intro l
    induction l with
    | nil => exact fun _ _ => rfl
    | cons i l ih =>
      intro hs hl
      have hi := hl i (List.mem_cons_self ..)
      rw [List.foldl_cons, List.foldl_cons, h (2 * i) (by omega), h (2 * i + 1) hi]
      exact ih _ fun j hj => hl j (List.mem_cons_of_mem _ hj)
  unfold m8HashBytes
  rw [hwords (List.range (n / 2)) hs fun i hi => by rw [List.mem_range] at hi; omega]
  dsimp only
  split_ifs with hodd
  · rw [h (n - 1) (by omega)]
  · rfl

/-- Rectangles of one size with the same pixels have the same hashes. -/
theorem rectKey_congr {f g : Pixel → UInt8} {r r' : Rect}
    (hw : r.right - r.left = r'.right - r'.left) (hh : r.bottom - r.top = r'.bottom - r'.top)
    (h : ∀ i j : ℕ, i < r.right - r.left → j < r.bottom - r.top →
      f (r.left + i, r.top + j) = g (r'.left + i, r'.top + j)) : rectKey f r = rectKey g r' := by
  have hrows : ∀ (l : List ℕ) (hs : M8Hash), (∀ j ∈ l, (j : ℤ) < r.bottom - r.top) →
      l.foldl (fun hs (row : ℕ) => m8HashBytes (fun i => f (r.left + i, r.top + row))
        ((r.right - r.left).toNat % 65536) hs) hs =
      l.foldl (fun hs (row : ℕ) => m8HashBytes (fun i => g (r'.left + i, r'.top + row))
        ((r.right - r.left).toNat % 65536) hs) hs := by
    intro l
    induction l with
    | nil => exact fun _ _ => rfl
    | cons j l ih =>
      intro hs hl
      have hj := hl j (List.mem_cons_self ..)
      have hrow := m8HashBytes_congr (p := fun i => f (r.left + i, r.top + j))
        (q := fun i => g (r'.left + i, r'.top + j)) (n := (r.right - r.left).toNat % 65536)
        (fun i hi => h i j (by omega) hj) hs
      rw [List.foldl_cons, List.foldl_cons, hrow]
      exact ih _ fun i hi => hl i (List.mem_cons_of_mem _ hi)
  unfold rectKey
  dsimp only
  rw [← hw, ← hh, hrows _ _ fun j hj => by rw [List.mem_range] at hj; omega]

theorem rectKey_same {f g : Pixel → UInt8} {r : Rect} (h : ∀ q ∈ r, f q = g q) :
    rectKey f r = rectKey g r :=
  rectKey_congr rfl rfl fun i j hi hj => h _ (Rect.mem_iff.2 (by dsimp only; omega))

theorem le_evenUp (w : ℕ) : w ≤ evenUp w := by
  unfold evenUp
  omega

theorem BcEntry.rect_mem {e : BcEntry} {c : Pixel} (hc : c ∈ e.rect) : c ∈ OffScreen.slot e := by
  have heven := le_evenUp e.w
  rw [Rect.mem_iff] at hc ⊢
  unfold BcEntry.rect at hc
  unfold OffScreen.slot
  dsimp only at hc ⊢
  omega

/-- A rectangle has its place in a slot of its size. -/
theorem BcEntry.shift_mem {e : BcEntry} {r : Rect} (hw : (e.w : ℤ) = r.right - r.left)
    (hh : (e.h : ℤ) = r.bottom - r.top) {q : Pixel} (hq : q ∈ r) :
    r.shift (e.x, e.y) q ∈ OffScreen.slot e := by
  have heven := le_evenUp e.w
  rw [Rect.mem_iff] at hq ⊢
  unfold Rect.shift OffScreen.slot
  dsimp only
  omega

namespace PxState

/-- The slot that is written has the pixels. -/
theorem bcWrite_pixel (s : PxState α) {e : Fin 160} {r : Rect}
    (hw : ((s.entry e).w : ℤ) = r.right - r.left) (hh : ((s.entry e).h : ℤ) = r.bottom - r.top)
    (bits : Pixel → UInt8) {q : Pixel} (hq : q ∈ r) :
    (s.bcWrite e r bits).off.card (r.shift ((s.entry e).x, (s.entry e).y) q) = bits q := by
  unfold bcWrite
  dsimp only
  rw [Rect.paint_mem (BcEntry.shift_mem hw hh hq)]
  rw [Rect.mem_iff] at hq
  unfold Rect.shift
  dsimp only
  rw [if_pos (by omega)]
  congr 1
  ext
  · dsimp only
    omega
  · dsimp only
    omega

/-- And their hashes. -/
theorem bcWrite_key (s : PxState α) {e : Fin 160} {r : Rect}
    (hw : ((s.entry e).w : ℤ) = r.right - r.left) (hh : ((s.entry e).h : ℤ) = r.bottom - r.top)
    (bits : Pixel → UInt8) :
    rectKey (s.bcWrite e r bits).off.card (s.entry e).rect = rectKey bits r := by
  have hsize : (s.entry e).rect.right - (s.entry e).rect.left = r.right - r.left ∧
      (s.entry e).rect.bottom - (s.entry e).rect.top = r.bottom - r.top := by
    unfold BcEntry.rect
    dsimp only
    omega
  refine rectKey_congr hsize.1 hsize.2 fun i j hi hj => ?_
  have hq : (r.left + i, r.top + j) ∈ r := Rect.mem_iff.2 (by dsimp only; omega)
  rw [← s.bcWrite_pixel hw hh bits hq]
  congr 1
  unfold BcEntry.rect Rect.shift
  ext
  · dsimp only
    omega
  · dsimp only
    omega

end PxState

/-! ## What lookups rest on -/

/-- The keys are those of the slots' pixels, and of the rectangle that was looked up last. -/
structure PxState.Cached (s : PxState α) : Prop where
  key : ∀ e, (s.entry e).w ≠ 0 → s.flag e = false →
    rectKey s.off.card (s.entry e).rect = s.key e
  memo : ∀ μ, s.memo = some μ → rectKey (s.world.ram μ.bmp) μ.rect = μ.key

/-- Entries in use that are no proxy's were so before, with their pixels, and so was the last lookup
with its bitmap's RAM. -/
structure PxKeeps (s t : PxState α) : Prop where
  entry : ∀ e, (t.entry e).w ≠ 0 → t.flag e = false →
    t.entry e = s.entry e ∧ s.flag e = false ∧ t.key e = s.key e
  card : ∀ e, (t.entry e).w ≠ 0 → t.flag e = false → ∀ c ∈ OffScreen.slot (t.entry e),
    t.off.card c = s.off.card c
  memo : ∀ μ, t.memo = some μ → s.memo = some μ ∧ t.world.ram μ.bmp = s.world.ram μ.bmp

namespace PxState

/-- An entry that is no proxy's, of the rectangle's size and with its hashes. -/
def Alike (s : PxState α) (b : α) (r : Rect) (e : Fin 160) : Prop :=
  s.flag e = false ∧ (s.entry e).w = (r.right - r.left).toNat ∧
    (s.entry e).h = (r.bottom - r.top).toNat ∧
      rectKey s.off.card (s.entry e).rect = rectKey (s.world.ram b) r

instance (s : PxState α) (b : α) (r : Rect) (e : Fin 160) : Decidable (s.Alike b r e) := by
  unfold Alike
  infer_instance

/-- No other pixels have the rectangle's hashes. -/
def NoCollision (s : PxState α) (b : α) (r : Rect) : Prop :=
  ∀ e, s.Alike b r e → ∀ q ∈ r,
    s.off.card (r.shift ((s.entry e).x, (s.entry e).y) q) = s.world.ram b q

instance (s : PxState α) (b : α) (r : Rect) : Decidable (s.NoCollision b r) :=
  decidable_of_iff (∀ e, s.Alike b r e → ∀ i < (r.right - r.left).toNat,
    ∀ j < (r.bottom - r.top).toNat, s.off.card (r.shift ((s.entry e).x, (s.entry e).y)
      (r.left + i, r.top + j)) = s.world.ram b (r.left + i, r.top + j)) <| by
    refine forall_congr' fun e => imp_congr_right fun _ => ⟨fun h q hq => ?_, fun h i hi j hj => ?_⟩
    · rw [Rect.mem_iff] at hq
      have hcell := h (q.1 - r.left).toNat (by omega) (q.2 - r.top).toNat (by omega)
      have hsame : (r.left + (q.1 - r.left).toNat, r.top + (q.2 - r.top).toNat) = q := by
        ext
        · dsimp only
          omega
        · dsimp only
          omega
      rwa [hsame] at hcell
    · exact h _ (Rect.mem_iff.2 (by dsimp only; omega))

theorem Cached.memoHit (h : s.Cached) {b : α} {r : Rect} (hr : r.left < r.right) {e : Fin 160}
    (hit : s.memoHit b r = some e) : s.Alike b r e := by
  obtain ⟨μ, hμ, rfl⟩ := Option.map_eq_some_iff.1 hit
  obtain ⟨hlast, hall⟩ := Option.filter_eq_some_iff.1 hμ
  obtain ⟨rfl, -, -, -, -, rfl, hflag, hw, hh, hkey⟩ := of_decide_eq_true hall
  refine ⟨hflag, hw, hh, ?_⟩
  rw [h.key μ.e (by omega) hflag, hkey, h.memo μ hlast]

theorem Cached.bcFound (h : s.Cached) {b : α} {r : Rect} (hr : r.left < r.right) {e : Fin 160}
    (hfound : s.bcFound (r.right - r.left).toNat (r.bottom - r.top).toNat
      (rectKey (s.world.ram b) r) = some e) : s.Alike b r e := by
  unfold PxState.bcFound at hfound
  have hall := List.find?_some hfound
  obtain ⟨hflag, hw, hh, hkey⟩ := of_decide_eq_true hall
  exact ⟨hflag, hw, hh, (h.key e (by omega) hflag).trans hkey⟩

end PxState

theorem PxState.Cached.keeps (h : s.Cached) (hk : PxKeeps s t) : t.Cached where
  key e hw hf := by
    obtain ⟨hentry, hflag, hkey⟩ := hk.entry e hw hf
    rw [hkey, ← h.key e (by rwa [← hentry]) hflag, ← hentry]
    exact rectKey_same fun c hc => hk.card e hw hf c (BcEntry.rect_mem hc)
  memo μ hμ := by
    obtain ⟨hsame, hram⟩ := hk.memo μ hμ
    rw [hram]
    exact h.memo μ hsame

namespace PxKeeps

theorem refl (s : PxState α) : PxKeeps s s where
  entry _ _ hf := ⟨rfl, hf, rfl⟩
  card _ _ _ _ _ := rfl
  memo _ hμ := ⟨hμ, rfl⟩

theorem trans (h : PxKeeps s t) (h' : PxKeeps t u) : PxKeeps s u where
  entry e hw hf := by
    obtain ⟨hentry, hflag, hkey⟩ := h'.entry e hw hf
    obtain ⟨hentry', hflag', hkey'⟩ := h.entry e (by rwa [← hentry]) hflag
    exact ⟨hentry.trans hentry', hflag', hkey.trans hkey'⟩
  card e hw hf c hc := by
    obtain ⟨hentry, hflag, -⟩ := h'.entry e hw hf
    exact (h'.card e hw hf c hc).trans (h.card e (by rwa [← hentry]) hflag c (by rwa [← hentry]))
  memo μ hμ := by
    obtain ⟨hsame, hram⟩ := h'.memo μ hμ
    obtain ⟨hsame', hram'⟩ := h.memo μ hsame
    exact ⟨hsame', hram.trans hram'⟩

theorem foldl {β : Type*} {f : PxState α → β → PxState α} (hf : ∀ s b, PxKeeps s (f s b)) :
    ∀ (l : List β) (s : PxState α), PxKeeps s (l.foldl f s)
  | [], s => .refl s
  | b :: l, s => (hf s b).trans (PxKeeps.foldl hf l (f s b))

theorem touchEntry (s : PxState α) (e : Fin 160) : PxKeeps s (s.touchEntry m e) where
  entry _ _ hf := ⟨rfl, hf, rfl⟩
  card _ _ _ _ _ := rfl
  memo _ hμ := ⟨hμ, rfl⟩

theorem forget (s : PxState α) (dev : Option α) : PxKeeps s (s.bcForget dev) where
  entry _ _ hf := ⟨rfl, hf, rfl⟩
  card _ _ _ _ _ := rfl
  memo _ hμ := ⟨(Option.filter_eq_some_iff.1 hμ).1, rfl⟩

/-- An entry without pixels is given other fields, and has none then either. -/
theorem setEntry (s : PxState α) (e : Fin 160) {v : BcEntry} (hv : v.w = 0) :
    PxKeeps s (s.setEntry e v) where
  entry f hw hf := by
    have hne : f ≠ e := by
      rintro rfl
      refine hw ((congrArg BcEntry.w ?_).trans hv)
      exact Function.update_self f v s.off.bcs.bc
    exact ⟨Function.update_of_ne hne _ _, hf, rfl⟩
  card _ _ _ _ _ := rfl
  memo _ hμ := ⟨hμ, rfl⟩

theorem drop (s : PxState α) (k : Fin 16) (keep : Bool) : PxKeeps s (s.pxDrop k keep) := by
  cases hk : s.px k with
  | none =>
    rw [PxState.pxDrop_none hk]
    exact .refl s
  | some p =>
    rw [PxState.pxDrop_some hk]
    cases keep with
    | true => exact ⟨fun _ _ hf => ⟨rfl, hf, rfl⟩, fun _ _ _ _ _ => rfl, fun _ hμ => ⟨hμ, rfl⟩⟩
    | false =>
      refine ⟨fun e hw hf => ?_, fun _ _ _ _ _ => rfl, fun _ hμ => ⟨hμ, rfl⟩⟩
      have hne : e ≠ p.e := by
        rintro rfl
        exact hw (congrArg BcEntry.w (Function.update_self p.e _ s.off.bcs.bc))
      exact ⟨Function.update_of_ne hne _ _, (Function.update_of_ne hne _ _).symm.trans hf, rfl⟩

theorem writeback (s : PxState α) (k : Fin 16) (room : Bool) :
    PxKeeps s (s.pxWriteback k room) := by
  cases hk : s.px k with
  | none =>
    rw [s.pxWriteback_none hk]
    exact .refl s
  | some p =>
    obtain ⟨-, hdrop⟩ | ⟨-, gone, hback⟩ := s.pxWriteback_some hk room
    · rw [hdrop]
      exact .drop s k false
    · rw [hback]
      obtain ⟨hentry, hcard, -⟩ := PxKeeps.drop { s with world := s.pxCopied p } k false
      refine ⟨hentry, hcard, fun μ hμ => ?_⟩
      obtain ⟨hsame, hother⟩ := Option.filter_eq_some_iff.1 hμ
      have hne : μ.bmp ≠ p.bmp := of_decide_eq_true hother
      refine ⟨hsame, ?_⟩
      dsimp only
      rw [(PxState.pxDrop_world { s with world := s.pxCopied p } k false).1]
      exact Function.update_of_ne hne _ _

theorem back (s : PxState α) (f : PxEntry α → Bool) : PxKeeps s (s.pxBack f) := by
  refine .foldl (fun s k => ?_) _ s
  split_ifs
  · exact .writeback s k false
  · exact .refl s

theorem flush (s : PxState α) (dev : Option α) : PxKeeps s (s.pxFlush dev) := .back s _

theorem touchRect (s : PxState α) (dev : α) (r : Rect) : PxKeeps s (s.pxTouchRect dev r) :=
  .back s _

/-! ## The cache empties entries -/

end PxKeeps

namespace PxState

/-- A slot that is not the proxy's stays as it is. -/
theorem pxWriteback_apart (s : PxState α) {k : Fin 16} {p : PxEntry α} (hk : s.px k = some p)
    (room : Bool) {e : Fin 160} (hne : e ≠ p.e) :
    (s.pxWriteback k room).entry e = s.entry e ∧ (s.pxWriteback k room).flag e = s.flag e ∧
      (s.pxWriteback k room).key e = s.key e := by
  have hdrop {u : PxState α} (hu : u.px k = some p) : (u.pxDrop k false).entry e = u.entry e ∧
      (u.pxDrop k false).flag e = u.flag e ∧ (u.pxDrop k false).key e = u.key e := by
    rw [pxDrop_some hu]
    exact ⟨Function.update_of_ne hne _ _, Function.update_of_ne hne _ _, rfl⟩
  obtain ⟨-, heq⟩ | ⟨-, gone, heq⟩ := s.pxWriteback_some hk room
  · rw [heq]
    exact hdrop hk
  · rw [heq]
    exact hdrop (u := { s with world := s.pxCopied p }) hk

/-- An entry that is not emptied stays as it is. -/
theorem pxEvict_apart (c : BcCache) {e : Fin 160} (he : (c.bc e).w ≠ 0) :
    ∀ (l : List (Fin 160)) (s : PxState α), (l.foldl (pxEvictAt c) s).flag e = s.flag e ∧
      (l.foldl (pxEvictAt c) s).key e = s.key e
  | [], _ => ⟨rfl, rfl⟩
  | f :: l, s => by
    have hone : (pxEvictAt c s f).flag e = s.flag e ∧ (pxEvictAt c s f).key e = s.key e := by
      unfold pxEvictAt pxEvicted
      split_ifs with hempty
      · split
        · exact ⟨rfl, rfl⟩
        · next k hk =>
          obtain ⟨p, hp, hslot⟩ := pxFirst_some hk
          refine (s.pxWriteback_apart hp true ?_).2
          rintro rfl
          exact he (of_decide_eq_true hslot ▸ hempty.2.1)
      · exact ⟨rfl, rfl⟩
    obtain ⟨hflag, hkey⟩ := pxEvict_apart c he l (pxEvictAt c s f)
    rw [List.foldl_cons]
    exact ⟨hflag.trans hone.1, hkey.trans hone.2⟩

theorem withCache_bcs' (s : PxState α) (c : BcCache) (e : Fin 160) :
    (s.withCache c).entry e = c.bc e := by
  unfold PxState.entry
  rw [s.withCache_bcs]

end PxState

namespace PxKeeps

theorem evict (s : PxState α) (c : BcCache) : PxKeeps s (s.pxEvict c) := by
  refine .foldl (fun s e => ?_) _ s
  unfold PxState.pxEvictAt
  split_ifs
  · unfold PxState.pxEvicted
    split
    · exact .refl s
    · exact .writeback s _ true
  · exact .refl s

theorem withCache (h : PxHolds s) {c : BcCache} (hc : s.off.bcs.Empties c) :
    PxKeeps s (s.withCache c) := by
  have hcard := (PxGoes.withCache h hc).card
  have hmemo := (PxKeeps.evict s c).memo
  have hsame := fun e he => s.pxEvict_apart c (e := e) he (List.finRange 160)
  have hentry := s.withCache_bcs' c
  unfold PxState.withCache at hcard hentry ⊢
  unfold PxState.pxEvict at hmemo hcard hentry ⊢
  generalize (List.finRange 160).foldl (PxState.pxEvictAt c) s = t at *
  refine ⟨fun e hw hf => ?_, fun _ _ _ _ _ => congrFun hcard _, hmemo⟩
  rw [hentry] at hw ⊢
  obtain ⟨hflag, hkey⟩ := hsame e hw
  exact ⟨(hc e).resolve_right hw, hflag.symm.trans hf, hkey⟩

end PxKeeps

end Inboard
