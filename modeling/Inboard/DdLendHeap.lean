import Inboard.DdLend

/-!
# The heap of the lent rows

M8DD32.DLL's count is that of what it has placed, and what it has placed is apart, in rows that are
lent (`HeapOk`). A rectangle placed, and one that goes, keep to this.
-/

set_option linter.unusedSectionVars false

namespace Inboard

/-! ## Rows -/

theorem LendMode.top_pos {m : LendMode} (h : 0 < m.rows) : 0 < m.top := by
  unfold top rows at *
  dsimp only at *
  split_ifs at * <;> omega

theorem LendMode.rows_pos {m : LendMode} (h : m.heapRows ≠ 0) : 0 < m.rows := by
  have := m.rows_bounds.1
  unfold heapRows at h
  split_ifs at h <;> omega

theorem LendMode.heapTop_eq {m : LendMode} (h : m.heapRows ≠ 0) : m.heapTop = m.top := by
  have hrows := rows_pos h
  unfold heapTop
  rw [if_pos]
  unfold heapRows at h ⊢
  split_ifs at h ⊢ <;> omega

section Heap

variable {α : Type*} [DecidableEq α] {m : LendMode} {dc : LendDc} {s : LendState α}

/-- Entries in use. -/
def LendState.inUse (s : LendState α) : Finset (Fin 32) :=
  Finset.univ.filter fun k => (s.placed k).isSome

/-- What M8DD32.DLL has placed, with its count and the flag. -/
structure HeapOk (m : LendMode) (s : LendState α) : Prop where
  count : s.placedN = s.inUse.card
  lent : ∀ k e, s.placed k = some e → s.lent = m.top ∧ m.heapRows ≠ 0
  rows : ∀ k e, s.placed k = some e → m.top ≤ e.2.top ∧ e.2.top ≤ e.2.bottom
  apart : ∀ j k e f, s.placed j = some e → s.placed k = some f → j ≠ k → e.2.Apart f.2

theorem HeapOk.none_of_zero (h : HeapOk m s) (hz : s.placedN = 0) (k : Fin 32) :
    s.placed k = none := by
  have hcard : s.inUse.card = 0 := by
    have := h.count
    omega
  have hk : k ∉ s.inUse := by
    rw [Finset.card_eq_zero.1 hcard]
    exact Finset.notMem_empty k
  simpa [LendState.inUse] using hk

theorem HeapOk.lent_of_ne (h : HeapOk m s) (hn : s.placedN ≠ 0) : s.lent = m.top := by
  have hpos : 0 < s.inUse.card := by
    have := h.count
    omega
  obtain ⟨k, hk⟩ := Finset.card_pos.1 hpos
  obtain ⟨e, he⟩ := Option.isSome_iff_exists.1 (Finset.mem_filter.1 hk).2
  exact (h.lent k e he).1

/-! ## Placing -/

theorem m8ddFits_apart {x y w h : ℤ} (hfits : m8ddFits m s x y w h = true) {k : Fin 32}
    {e : HeapKey α × Rect} (hk : s.placed k = some e) : e.2.Apart ⟨x, y, x + w, y + h⟩ := by
  unfold m8ddFits at hfits
  simp only [Bool.and_eq_true, List.all_eq_true] at hfits
  have hall := hfits.2 k (List.mem_finRange k)
  rw [hk] at hall
  intro p hp hq
  rw [Rect.mem_iff] at hp hq
  simp at hall
  dsimp only at hq
  omega

theorem placeCorners_top (hm : m.heapTop = m.top) (h : HeapOk m s) {c : Pixel}
    (hc : c ∈ placeCorners m s) : m.top ≤ c.2 := by
  unfold placeCorners at hc
  rcases List.mem_cons.1 hc with rfl | hc
  · exact Int.le_of_eq hm.symm
  · obtain ⟨k, -, hk⟩ := List.mem_flatMap.1 hc
    cases hp : s.placed k with
    | none =>
      rw [hp] at hk
      exact absurd hk (List.not_mem_nil)
    | some e =>
      obtain ⟨htop, hbottom⟩ := h.rows k e hp
      rw [hp] at hk
      simp only [List.mem_cons, List.not_mem_nil, or_false] at hk
      rcases hk with rfl | rfl <;> dsimp only <;> omega

/-- The corner chosen is a candidate that fits. -/
theorem m8ddPlace_some {w h : ℕ} {r : Rect} (hr : m8ddPlace m w h s = some r) :
    ∃ c ∈ placeCorners m s, m8ddFits m s c.1 c.2 w h = true ∧
      r = ⟨c.1, c.2, c.1 + w, c.2 + h⟩ := by
  unfold m8ddPlace at hr
  obtain ⟨c, hc, rfl⟩ := Option.map_eq_some_iff.1 hr
  suffices hbest : c ∈ placeCorners m s ∧ m8ddFits m s c.1 c.2 w h = true from
    ⟨c, hbest.1, hbest.2, rfl⟩
  refine List.foldlRecOn (motive := fun best : Option Pixel => ∀ b, best = some b →
    b ∈ placeCorners m s ∧ m8ddFits m s b.1 b.2 w h = true) _ _ (by simp) ?_ c hc
  intro best ih c hc d hd
  by_cases hfits : m8ddFits m s c.1 c.2 w h = true
  · rw [if_pos hfits] at hd
    cases best with
    | none =>
      obtain rfl := Option.some.inj hd
      exact ⟨hc, hfits⟩
    | some b =>
      dsimp only at hd
      split_ifs at hd
      · obtain rfl := Option.some.inj hd
        exact ⟨hc, hfits⟩
      · exact ih d hd
  · rw [if_neg hfits] at hd
    exact ih d hd

theorem placedFree_none {k : Fin 32} (h : placedFree s = some k) : s.placed k = none := by
  have hfound := List.find?_some h
  simpa using hfound

/-- A rectangle placed in a free entry, once the rows are lent. -/
theorem HeapOk.putPlaced (h : HeapOk m s) (hrows : m.heapRows ≠ 0) (hlent : s.lent = m.top)
    {k : Fin 32} (hk : s.placed k = none) (key : HeapKey α) {w l : ℕ} {r : Rect}
    (hr : m8ddPlace m w l s = some r) : HeapOk m (s.putPlaced k key r) := by
  obtain ⟨c, hc, hfits, rfl⟩ := m8ddPlace_some hr
  have hself : (s.putPlaced k key ⟨c.1, c.2, c.1 + w, c.2 + l⟩).placed k =
      some (key, ⟨c.1, c.2, c.1 + w, c.2 + l⟩) := Function.update_self ..
  have hother : ∀ j, j ≠ k →
      (s.putPlaced k key ⟨c.1, c.2, c.1 + w, c.2 + l⟩).placed j = s.placed j :=
    fun j hj => Function.update_of_ne hj ..
  refine ⟨?_, fun _ _ _ => ⟨hlent, hrows⟩, fun j e hj => ?_, fun i j e f hi hj hij => ?_⟩
  · have hnot : k ∉ s.inUse := by simp [LendState.inUse, hk]
    have hinsert : (s.putPlaced k key ⟨c.1, c.2, c.1 + w, c.2 + l⟩).inUse =
        insert k s.inUse := by
      ext j
      rcases eq_or_ne j k with rfl | hj
      · simp [LendState.inUse, hself]
      · simp [LendState.inUse, hother j hj, hj]
    rw [hinsert, Finset.card_insert_of_notMem hnot]
    simp only [LendState.putPlaced, h.count]
    omega
  · rcases eq_or_ne j k with rfl | hjk
    · rw [hself] at hj
      obtain rfl := Option.some.inj hj
      have htop := placeCorners_top (LendMode.heapTop_eq hrows) h hc
      dsimp only
      omega
    · rw [hother j hjk] at hj
      exact h.rows j e hj
  · rcases eq_or_ne i k with rfl | hik
    · rw [hself] at hi
      obtain rfl := Option.some.inj hi
      rw [hother j hij.symm] at hj
      exact (m8ddFits_apart hfits hj).symm
    · rw [hother i hik] at hi
      rcases eq_or_ne j k with rfl | hjk
      · rw [hself] at hj
        obtain rfl := Option.some.inj hj
        exact m8ddFits_apart hfits hi
      · rw [hother j hjk] at hj
        exact h.apart i j e f hi hj hij

/-! ## Lending and taking back -/

@[simp] theorem m8DdLend_placed (on : ℕ) : (m8DdLend m on s).placed = s.placed := by
  unfold m8DdLend
  split_ifs <;> rfl

@[simp] theorem m8DdLend_placedN (on : ℕ) : (m8DdLend m on s).placedN = s.placedN := by
  unfold m8DdLend
  split_ifs <;> rfl

@[simp] theorem m8DdLend_ctx (on : ℕ) : (m8DdLend m on s).ctx = s.ctx := by
  unfold m8DdLend
  split_ifs <;> rfl

@[simp] theorem m8DdLend_poly (on : ℕ) : (m8DdLend m on s).poly = s.poly := by
  unfold m8DdLend
  split_ifs <;> rfl

theorem m8DdLend_lent (h : 0 < m.rows) : (m8DdLend m 1 s).lent = m.top := by
  unfold m8DdLend
  rw [if_neg (by omega), if_neg (by omega)]

/-- With nothing placed the flag may have any value. -/
theorem HeapOk.lend (h : HeapOk m s) (hz : s.placedN = 0) (on : ℕ) :
    HeapOk m (m8DdLend m on s) := by
  have hnone := h.none_of_zero hz
  refine ⟨?_, fun k e hk => ?_, fun k e hk => ?_, fun j k e f hj _ _ => ?_⟩
  · simpa [LendState.inUse] using h.count
  · rw [m8DdLend_placed, hnone k] at hk
    exact absurd hk nofun
  · rw [m8DdLend_placed, hnone k] at hk
    exact absurd hk nofun
  · rw [m8DdLend_placed, hnone j] at hj
    exact absurd hj nofun

/-- Entry `k` is free again. The rows were taken back only if it was the last. -/
structure Unplaced (s s' : LendState α) (k : Fin 32) : Prop where
  placed : s'.placed = Function.update s.placed k none
  placedN : s'.placedN = s.placedN - 1
  ctx : s'.ctx = s.ctx
  poly : s'.poly = s.poly
  lent : s'.lent = s.lent ∨ s'.placedN = 0

theorem m8ddUnplace_cases (dc : LendDc) (key : HeapKey α) :
    (m8ddUnplace m dc key s = s ∧ ∀ k r, s.placed k ≠ some (key, r)) ∨
      ∃ k r, s.placed k = some (key, r) ∧ Unplaced s (m8ddUnplace m dc key s) k := by
  unfold m8ddUnplace
  cases hfind : (List.finRange 32).find? fun k =>
      decide ((s.placed k).map Prod.fst = some key) with
  | none =>
    refine .inl ⟨rfl, fun k r hk => ?_⟩
    have hall := List.find?_eq_none.1 hfind k (List.mem_finRange k)
    rw [hk] at hall
    simp at hall
  | some k =>
    have hfound := List.find?_some hfind
    simp only [decide_eq_true_iff] at hfound
    obtain ⟨⟨key', r⟩, hk, rfl⟩ := Option.map_eq_some_iff.1 hfound
    refine .inr ⟨k, r, hk, ?_⟩
    dsimp only
    split_ifs with hz
    · unfold m8ddLend
      split_ifs
      · refine ⟨?_, ?_, ?_, ?_, .inr ?_⟩
        · rw [m8DdLend_placed]
        · rw [m8DdLend_placedN]
        · rw [m8DdLend_ctx]
        · rw [m8DdLend_poly]
        · rw [m8DdLend_placedN]
          exact hz
      · exact ⟨rfl, rfl, rfl, rfl, .inl rfl⟩
    · exact ⟨rfl, rfl, rfl, rfl, .inl rfl⟩

theorem Unplaced.of_some {s' : LendState α} {k j : Fin 32} {e : HeapKey α × Rect}
    (hu : Unplaced s s' k) (hj : s'.placed j = some e) : j ≠ k ∧ s.placed j = some e := by
  rw [hu.placed] at hj
  rcases eq_or_ne j k with rfl | hjk
  · rw [Function.update_self] at hj
    exact absurd hj nofun
  · rw [Function.update_of_ne hjk] at hj
    exact ⟨hjk, hj⟩

theorem HeapOk.unplaced {s' : LendState α} {k : Fin 32} {e : HeapKey α × Rect} (h : HeapOk m s)
    (hk : s.placed k = some e) (hu : Unplaced s s' k) : HeapOk m s' := by
  have hcount : s'.placedN = s'.inUse.card := by
    have hin : k ∈ s.inUse := by simp [LendState.inUse, hk]
    have herase : s'.inUse = s.inUse.erase k := by
      ext j
      rcases eq_or_ne j k with rfl | hj
      · simp [LendState.inUse, hu.placed]
      · simp [LendState.inUse, hu.placed, hj]
    have hpos : 0 < s.inUse.card := Finset.card_pos.2 ⟨k, hin⟩
    rw [herase, Finset.card_erase_of_mem hin, hu.placedN, h.count]
    omega
  refine ⟨hcount, fun j f hj => ?_, fun j f hj => ?_, fun i j f g hi hj hij => ?_⟩
  · obtain ⟨-, hold⟩ := hu.of_some hj
    rcases hu.lent with hlent | hz
    · rw [hlent]
      exact h.lent j f hold
    · have hin : j ∈ s'.inUse := by simp [LendState.inUse, hj]
      have hpos : 0 < s'.inUse.card := Finset.card_pos.2 ⟨j, hin⟩
      omega
  · exact h.rows j f (hu.of_some hj).2
  · exact h.apart i j f g (hu.of_some hi).2 (hu.of_some hj).2 hij

end Heap

end Inboard
