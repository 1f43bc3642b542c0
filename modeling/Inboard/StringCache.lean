import Inboard.MonoEngine
import Inboard.OffRun

/-!
# The string cache

Bitmaps of a bit a pixel, each kept in a plane of the card where `m8_sc_alloc` has put it, and found
again by two hashes of its bytes and by its size. A bitmap is stored when it is asked for the second
time. As long as no two bitmaps that are asked for have their hashes in common, an entry that
`m8_sc_get_h` returns has the bitmap's bits in its plane (`ScHolds.m8ScGetH`).
-/

set_option linter.unusedSectionVars false

namespace Inboard

/-! ## The hash -/

/-- `M8_HASH`. -/
structure M8Hash where
  a : UInt16
  b : UInt16
  c : UInt16

/-- `M8_HASH_WORD`. -/
def M8Hash.word (h : M8Hash) (v : UInt16) : M8Hash :=
  ⟨h.a + v, h.b + (h.a + v), (h.c <<< 3 ||| h.c >>> 13) ^^^ v⟩

/-- `m8_hash_init`. -/
def m8HashInit (seed : UInt16) : M8Hash := ⟨seed, 0x5A5A, 0x1234⟩

/-- `M8_HASH_BYTES` : words, and then an odd byte. -/
def m8HashBytes (p : ℕ → UInt8) (n : ℕ) (h : M8Hash) : M8Hash :=
  let h := (List.range (n / 2)).foldl
    (fun h i => h.word ((p (2 * i)).toUInt16 ||| (p (2 * i + 1)).toUInt16 <<< 8)) h
  if n % 2 = 1 then h.word (p (n - 1)).toUInt16 else h

/-- `m8_hash_h1`. -/
def m8HashH1 (h : M8Hash) : UInt32 := h.a.toUInt32 <<< 16 ||| h.b.toUInt32

/-- `m8_hash_h2`. -/
def m8HashH2 (h : M8Hash) (extra : UInt16) : UInt32 := h.c.toUInt32 <<< 16 ||| extra.toUInt32

/-! ## Entries -/

def M8_SC_MAX_H : ℕ := 32

/-- A bitmap of a bit a pixel : `h` rows of `wb` bytes, that follow each other. -/
structure MonoBits where
  wb : ℕ
  h : ℕ
  bits : ℕ → UInt8

namespace MonoBits

variable (b : MonoBits)

def hash : M8Hash := m8HashBytes b.bits (b.wb * b.h % 65536) (m8HashInit (UInt16.ofNat b.wb))

/-- Its hashes. -/
def hashes : UInt32 × UInt32 := (m8HashH1 b.hash, m8HashH2 b.hash (UInt16.ofNat b.h))

/-- The bit of column `i` of row `j`. -/
def pixel (i j : ℕ) : Bool := pixelBit b.bits (j * (8 * b.wb) + i)

/-- An entry's plane holds the bitmap. -/
def Kept (e : ScEntry) (c : Card) : Prop :=
  ∀ i j : ℕ, i < 8 * b.wb → j < b.h → (c (e.x + i, e.y + j)).toNat.testBit e.plane = b.pixel i j

end MonoBits

/-- No two bitmaps of a set are taken for each other. -/
def NoCollision (B : Set MonoBits) : Prop :=
  ∀ a ∈ B, ∀ b ∈ B, a.hashes = b.hashes → a.wb = b.wb → a.h = b.h →
    ∀ i j : ℕ, i < 8 * a.wb → j < a.h → a.pixel i j = b.pixel i j

/-- A mask of 32 by 32 whose words `i` and `j` are 1. -/
def wordsOne (i j : ℕ) : MonoBits := ⟨4, 32, fun k => if k = 2 * i ∨ k = 2 * j then 1 else 0⟩

/-- Not every set is such a one. -/
example : ¬NoCollision Set.univ := fun h =>
  absurd (h (wordsOne 16 32) trivial (wordsOne 0 48) trivial (by decide +kernel) rfl rfl 7 0
    (by decide) (by decide)) (by decide +kernel)

/-- The cache : where its entries are, their hashes, the first hashes seen once, and whether
Direct3D has its rows. -/
structure StringCache where
  scs : ScCache
  hashes : List (UInt32 × UInt32)
  seen : Fin 64 → UInt32
  seenNext : Fin 64
  off : Bool

namespace StringCache

variable (s : StringCache)

/-- `m8_sc_flush`. -/
def flush : StringCache := { s with scs := .scFlush, hashes := [] }

/-- The entry of a bitmap. -/
def find (b : MonoBits) : Option ScEntry :=
  ((s.scs.sc.zip s.hashes).find? fun e =>
    decide (e.2 = b.hashes ∧ e.1.w = 8 * (b.wb : ℤ) ∧ e.1.h = (b.h : ℤ))).map Prod.fst

/-- A hash is seen. -/
def saw (h1 : UInt32) : StringCache :=
  { s with seen := Function.update s.seen s.seenNext h1, seenNext := s.seenNext + 1 }

/-- Storing a bitmap in a cache that has an entry left. -/
def store (E : MonoEngine) (m : LendMode) (b : MonoBits) (c : Card) :
    Option ScEntry × StringCache × Card :=
  match s.scs.scAlloc m (int16 (b.wb * 8)) (int16 b.h) with
  | (none, _) => (none, s.flush, c)
  | (some p, scs) =>
    let e : ScEntry := ⟨p.1, p.2, 8 * b.wb, b.h, scs.plane⟩
    (some e, { s with
      scs := { scs with sc := scs.sc ++ [e] }
      hashes := s.hashes ++ [b.hashes] },
      E.m8HwMonoPlane false p.1 p.2 b.wb b.h b.bits scs.plane c)

/-- `m8_sc_get_h`. -/
def m8ScGetH (E : MonoEngine) (m : LendMode) (hwOff : Bool) (b : MonoBits) (maxH : ℕ)
    (force : Bool) (c : Card) : Option ScEntry × StringCache × Card :=
  if hwOff = true ∨ s.off = true ∨ M8_SC_W < int16 (b.wb * 8) ∨ maxH < b.h ∨
      m.scRows < int16 b.h then (none, s, c)
  else
    match s.find b with
    | some e => (some e, s, c)
    | none =>
      if force = false ∧ ∀ k, s.seen k ≠ b.hashes.1 then (none, s.saw b.hashes.1, c)
      else (if M8_SC_ENTRIES ≤ s.scs.sc.length then s.flush else s).store E m b c

/-- `m8_sc_get`. -/
def m8ScGet (E : MonoEngine) (m : LendMode) (hwOff : Bool) (b : MonoBits) (force : Bool)
    (c : Card) : Option ScEntry × StringCache × Card :=
  s.m8ScGetH E m hwOff b M8_SC_MAX_H force c

end StringCache

/-- Only Direct3D takes the rows. -/
theorem StringCache.m8ScGetH_off (s : StringCache) {E : MonoEngine} {m : LendMode} {hwOff : Bool}
    {b : MonoBits} {maxH : ℕ} {force : Bool} {c : Card} :
    (s.m8ScGetH E m hwOff b maxH force c).2.1.off = s.off := by
  have hstore : ∀ s : StringCache, (s.store E m b c).2.1.off = s.off := fun s => by
    unfold store
    split <;> rfl
  unfold m8ScGetH
  cases s.find b with
  | some e => split_ifs <;> rfl
  | none =>
    dsimp only
    split_ifs
    · rfl
    · rfl
    · exact hstore _
    · exact hstore _

/-! ## What the entries hold -/

/-- Every entry has its place, and holds a bitmap of the set that has its hashes and its size. -/
structure ScHolds (m : LendMode) (B : Set MonoBits) (s : StringCache) (c : Card) : Prop where
  ok : ScOk m s.scs
  length : s.hashes.length = s.scs.sc.length
  holds : ∀ e ∈ s.scs.sc.zip s.hashes, e.1.plane < 8 ∧
    ∃ b ∈ B, e.2 = b.hashes ∧ e.1.w = 8 * b.wb ∧ e.1.h = b.h ∧ b.Kept e.1 c

/-- The plane of a place. -/
theorem scAllocIn_plane {m : LendMode} {w h : ℤ} {p : Pixel} {t : ScCache} :
    ∀ {n : ℕ} {s : ScCache}, s.scAllocIn m w h n = (some p, t) →
      0 < n ∧ t.plane < s.plane + n ∧ t.sc = s.sc
  | 0, s, heq => by cases heq
  | n + 1, s, heq => by
    rw [ScCache.scAllocIn] at heq
    have hsame : (if M8_SC_W < s.x + w then
        { s with y := s.y + s.shelf, x := 0, shelf := 0 } else s).plane = s.plane ∧
        (if M8_SC_W < s.x + w then
          { s with y := s.y + s.shelf, x := 0, shelf := 0 } else s).sc = s.sc := by
      split_ifs <;> exact ⟨rfl, rfl⟩
    generalize (if M8_SC_W < s.x + w then
      { s with y := s.y + s.shelf, x := 0, shelf := 0 } else s) = t' at heq hsame
    by_cases hrow : t'.y + h ≤ m.scRows
    · rw [if_pos hrow] at heq
      cases heq
      exact ⟨Nat.succ_pos n, by dsimp only; omega, hsame.2⟩
    · rw [if_neg hrow] at heq
      obtain ⟨_, hplane, hsc⟩ := scAllocIn_plane heq
      exact ⟨Nat.succ_pos n, by dsimp only at hplane; omega, hsc.trans hsame.2⟩

theorem LendMode.scTop_bounds (m : LendMode) : 864 ≤ m.scTop ∧ m.scTop + m.scRows = 992 ∧
    96 ≤ m.scRows ∧ m.scRows ≤ 128 := by
  unfold LendMode.scTop LendMode.scRows
  split_ifs <;> decide

namespace ScHolds

variable {m : LendMode} {B : Set MonoBits} {s : StringCache} {c : Card} {E : MonoEngine}

theorem flush (s : StringCache) (c : Card) : ScHolds m B s.flush c where
  ok := .scFlush
  length := rfl
  holds e he := by cases he

/-- What is drawn elsewhere changes no entry. -/
theorem congr (h : ScHolds m B s c) {c' : Card} (hc : ∀ p ∈ stringCache m, c' p = c p) :
    ScHolds m B s c' where
  ok := h.ok
  length := h.length
  holds e he := by
    obtain ⟨hplane, b, hb, hhash, hw, hh, hkept⟩ := h.holds e he
    refine ⟨hplane, b, hb, hhash, hw, hh, fun i j hi hj => ?_⟩
    rw [hc, hkept i j hi hj]
    refine (h.ok.inside e.1 (List.of_mem_zip he).1).mem ?_
    rw [Rect.mem_iff]
    unfold ScEntry.slot
    dsimp only
    omega

theorem mem_slot {e : ScEntry} {q : Pixel} : q ∈ e.slot ↔
    e.x ≤ q.1 ∧ q.1 < e.x + e.w ∧ e.y ≤ q.2 ∧ q.2 < e.y + e.h := by
  rw [Rect.mem_iff]
  unfold ScEntry.slot
  dsimp only
  omega

/-- A bitmap that was just stored in a plane is there. -/
theorem kept_stored {b : MonoBits} {x y : ℤ} {k : ℕ}
    (hf : b.wb = 0 ∨ b.h = 0 ∨ MonoEngine.Fits x y b.wb b.h) (hs : Sendable b.wb b.wb b.h)
    (hk : k < 8) : b.Kept ⟨x, y, 8 * b.wb, b.h, k⟩
      (E.m8HwMonoPlane false x y b.wb b.h b.bits k c) := by
  intro i j hi hj
  dsimp only
  rw [MonoEngine.m8HwMonoPlane_testBit hf hs hk hk, if_pos, MonoBits.pixel]
  · dsimp only
    congr 1
    rw [show y + (j : ℤ) - y = j by omega, show x + (i : ℤ) - x = i by omega,
      Int.toNat_natCast, Int.toNat_natCast]
  · refine ⟨?_, rfl⟩
    rw [Rect.mem_at]
    omega

/-- One in another plane, or apart from it, stays. -/
theorem kept_beside {b b' : MonoBits} {e : ScEntry} {x y : ℤ} {k : ℕ} (hkept : b'.Kept e c)
    (hf : b.wb = 0 ∨ b.h = 0 ∨ MonoEngine.Fits x y b.wb b.h) (hs : Sendable b.wb b.wb b.h)
    (hk : k < 8) (hplane : e.plane < 8) (hw : e.w = 8 * b'.wb) (hh : e.h = b'.h)
    (hapart : e.plane = k → e.slot.Apart (ScEntry.slot ⟨x, y, 8 * b.wb, b.h, k⟩)) :
    b'.Kept e (E.m8HwMonoPlane false x y b.wb b.h b.bits k c) := by
  intro i j hi hj
  rw [MonoEngine.m8HwMonoPlane_testBit hf hs hk hplane, if_neg, hkept i j hi hj]
  rintro ⟨hq, hsame⟩
  refine hapart hsame (e.x + i, e.y + j) (mem_slot.2 ?_) (mem_slot.2 ?_)
  · dsimp only
    omega
  · rw [Rect.mem_at] at hq
    exact ⟨hq.1, hq.2.1, hq.2.2⟩

/-- What a store leaves : the cache with the bitmap, on a card that is changed in its rows only. -/
theorem store (h : ScHolds m B s c) {b : MonoBits} (hb : b ∈ B) (hw : (8 * b.wb : ℤ) ≤ M8_SC_W)
    (hh : (b.h : ℤ) ≤ m.scRows) :
    let r := s.store E m b c
    ScHolds m B r.2.1 r.2.2 ∧ (∀ p ∉ stringCache m, r.2.2 p = c p) ∧
      ∀ e, r.1 = some e → b.Kept e r.2.2 ∧ e.slot.Inside (stringCache m) ∧
        e.w = 8 * b.wb ∧ e.h = b.h := by
  have hwide : M8_SC_W = 992 := rfl
  obtain ⟨htop, hbottom, hrows⟩ := m.scTop_bounds
  unfold StringCache.store
  rw [int16_eq (by omega), int16_eq (by omega), ScCache.scAlloc, Int.mul_comm]
  have hgiven := fun p t => ScOk.scAllocIn (m := m) (p := p) (t := t) (n := 8 - s.scs.plane)
    (w := 8 * (b.wb : ℤ)) (h := b.h) (by omega) (by omega) hw h.ok
  have hplane := fun p t => scAllocIn_plane (m := m) (p := p) (t := t) (n := 8 - s.scs.plane)
    (w := 8 * (b.wb : ℤ)) (h := b.h) (s := s.scs)
  generalize s.scs.scAllocIn m (8 * (b.wb : ℤ)) b.h (8 - s.scs.plane) = given at hgiven hplane
  obtain ⟨_ | p, t⟩ := given
  · exact ⟨flush s c, fun _ _ => rfl, fun e he => by cases he⟩
  dsimp only
  have hok := hgiven p t rfl
  obtain ⟨hleft, hlt, hsc⟩ := hplane p t rfl
  have hin := hok.inside ⟨p.1, p.2, 8 * b.wb, b.h, t.plane⟩
    (List.mem_append_right _ List.mem_cons_self)
  have hbox := hin
  unfold Rect.Inside ScEntry.slot stringCache at hbox
  dsimp only at hbox
  have hf : b.wb = 0 ∨ b.h = 0 ∨ MonoEngine.Fits p.1 p.2 b.wb b.h := by
    by_cases hnone : b.wb = 0 ∨ b.h = 0
    · exact hnone.imp id Or.inl
    · refine Or.inr (Or.inr ⟨?_, ?_, ?_, ?_⟩)
      all_goals
        simp only [M8_EXPAND_X_MIN, M8_EXPAND_X_MAX, M8_COORD_MIN, M8_COORD_MAX]
        omega
  have hs : Sendable b.wb b.wb b.h := by
    have hsize : b.wb * b.h ≤ 124 * 128 := Nat.mul_le_mul (by omega) (by omega)
    exact ⟨Or.inl rfl, by rw [Nat.mul_comm]; omega⟩
  have hslot : ∀ q, q ∈ Rect.at p.1 p.2 (8 * b.wb) b.h → q ∈ stringCache m := fun q hq =>
    hin.mem (mem_slot.2 (by
      rw [Rect.mem_at] at hq
      exact ⟨hq.1, hq.2.1, hq.2.2⟩))
  have hnew : b.Kept ⟨p.1, p.2, 8 * b.wb, b.h, t.plane⟩
      (E.m8HwMonoPlane false p.1 p.2 b.wb b.h b.bits t.plane c) :=
    kept_stored hf hs (by omega)
  refine ⟨⟨hok, by simp [h.length, hsc], fun e he => ?_⟩,
    fun q hq => MonoEngine.m8HwMonoPlane_outside hf hs c fun hin => hq (hslot q hin),
    fun e he => ?_⟩
  · dsimp only at he
    rw [hsc, List.zip_append h.length.symm, List.mem_append] at he
    rcases he with he | he
    · obtain ⟨hplane, b', hb', hhash, hw', hh', hkept⟩ := h.holds e he
      refine ⟨hplane, b', hb', hhash, hw', hh',
        kept_beside hkept hf hs (by omega) hplane hw' hh' fun hsame => ?_⟩
      have hapart := hok.apart
      dsimp only at hapart
      rw [hsc, List.pairwise_append] at hapart
      exact hapart.2.2 e.1 (List.of_mem_zip he).1 _ List.mem_cons_self hsame
    · rw [List.zip_cons_cons, List.zip_nil_left, List.mem_singleton] at he
      rw [he]
      exact ⟨by dsimp only; omega, b, hb, rfl, rfl, rfl, hnew⟩
  · obtain rfl := Option.some.inj he
    exact ⟨hnew, hin, rfl, rfl⟩

/-- An entry that is found has the bitmap. -/
theorem find (h : ScHolds m B s c) (hB : NoCollision B) {b : MonoBits} (hb : b ∈ B)
    {e : ScEntry} (he : s.find b = some e) : b.Kept e c ∧ e.slot.Inside (stringCache m) ∧
      e.w = 8 * b.wb ∧ e.h = b.h := by
  obtain ⟨⟨e, k⟩, hfound, rfl⟩ := Option.map_eq_some_iff.mp he
  have hmem := List.mem_of_find?_eq_some hfound
  have hkey := List.find?_some hfound
  rw [decide_eq_true_eq] at hkey
  obtain ⟨hk, hw, hh⟩ := hkey
  obtain ⟨_, b', hb', hhash, hw', hh', hkept⟩ := h.holds _ hmem
  dsimp only at hk hw hh hhash hw' hh' hkept ⊢
  refine ⟨fun i j hi hj => ?_, h.ok.inside e (List.of_mem_zip hmem).1, hw, hh⟩
  rw [hkept i j (by omega) (by omega)]
  exact hB b' hb' b hb (hhash.symm.trans hk) (by omega) (by omega) i j (by omega) (by omega)

/-- An entry that is returned has the bitmap, and only the cache's rows are drawn on. -/
theorem m8ScGetH (h : ScHolds m B s c) (hB : NoCollision B) {b : MonoBits} (hb : b ∈ B)
    (hwb : 8 * b.wb < 32768) {maxH : ℕ} (hmax : maxH < 32768) (hwOff force : Bool) :
    let r := s.m8ScGetH E m hwOff b maxH force c
    ScHolds m B r.2.1 r.2.2 ∧ (∀ p ∉ stringCache m, r.2.2 p = c p) ∧
      ∀ e, r.1 = some e → b.Kept e r.2.2 ∧ e.slot.Inside (stringCache m) ∧
        e.w = 8 * b.wb ∧ e.h = b.h := by
  unfold StringCache.m8ScGetH
  by_cases hcheck : hwOff = true ∨ s.off = true ∨ M8_SC_W < int16 (b.wb * 8) ∨ maxH < b.h ∨
      m.scRows < int16 b.h
  · rw [if_pos hcheck]
    exact ⟨h, fun _ _ => rfl, fun e he => by cases he⟩
  rw [if_neg hcheck]
  push Not at hcheck
  obtain ⟨-, -, hw, hle, hh⟩ := hcheck
  rw [int16_eq (by omega)] at hw hh
  cases hfind : s.find b with
  | some e =>
    refine ⟨h, fun _ _ => rfl, fun e' he' => ?_⟩
    obtain rfl := Option.some.inj he'
    exact h.find hB hb hfind
  | none =>
    by_cases hseen : force = false ∧ ∀ k, s.seen k ≠ b.hashes.1
    · dsimp only
      rw [if_pos hseen]
      exact ⟨⟨h.ok, h.length, h.holds⟩, fun _ _ => rfl, fun e he => by cases he⟩
    · dsimp only
      rw [if_neg hseen]
      have hroom : ScHolds m B (if M8_SC_ENTRIES ≤ s.scs.sc.length then s.flush else s) c := by
        split_ifs
        · exact flush s c
        · exact h
      exact hroom.store hb (by omega) hh

end ScHolds

end Inboard
