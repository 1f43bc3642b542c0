import Inboard.OffScreen
import Inboard.Stacks
import Mathlib.Data.List.TakeWhile

/-!
# The bitmap cache's shelves

The shelves of an area stay stacked from its first row that no menu has to its bottom, and each
entry in use keeps its place on one of them, left of its next free column. A slot is given only
where no entry in use has pixels (`BcOk.bcAlloc`).
-/

set_option linter.unusedSectionVars false

namespace Inboard

open OffScreen (slot)

/-- The rows of a list of shelves follow each other from the first bound to the second. -/
abbrev Shelved : ℤ → List BcShelf → ℤ → Prop := Stacked BcShelf.y fun t => t.y + t.h

/-- An entry has its place on a shelf. -/
def BcEntry.On (m : LendMode) (a : Fin 2) (e : BcEntry) (t : BcShelf) : Prop :=
  e.y = t.y ∧ e.h ≤ t.h ∧ m.areaX a ≤ e.x ∧ e.x + evenUp e.w ≤ m.areaX a + t.x

/-- A shelf at the row of another, that holds what it holds. -/
def BcShelf.Grows (t t' : BcShelf) : Prop := t'.y = t.y ∧ t.h ≤ t'.h ∧ t.x ≤ t'.x

theorem BcShelf.Grows.refl (t : BcShelf) : t.Grows t := ⟨rfl, Int.le_refl _, Int.le_refl _⟩

theorem BcEntry.On.grows {m : LendMode} {a : Fin 2} {e : BcEntry} {t t' : BcShelf}
    (h : e.On m a t) (ht : t.Grows t') : e.On m a t' := by
  obtain ⟨hy, hh, hx, hright⟩ := h
  obtain ⟨hty, hth, htx⟩ := ht
  exact ⟨hy.trans hty.symm, hh.trans hth, hx, by omega⟩

/-- The shelves of each area are between its rows `first` and `last`, the slots in use on them and
apart. -/
structure BcOk (m : LendMode) (first last : Fin 2 → ℤ) (s : BcCache) : Prop where
  stacked : ∀ a, ∃ y0, first a ≤ y0 ∧ Shelved y0 (s.shelves a) (s.bottom a)
  ends : ∀ a, s.shelves a ≠ [] → s.bottom a ≤ last a
  width : ∀ a, ∀ t ∈ s.shelves a, 0 ≤ t.x ∧ t.x ≤ m.areaW a
  on : ∀ k, (s.bc k).w ≠ 0 → ∃ a, ∃ t ∈ s.shelves a, (s.bc k).On m a t
  apart : ∀ j k, j ≠ k → (s.bc j).w ≠ 0 → (s.bc k).w ≠ 0 →
    (slot (s.bc j)).Apart (slot (s.bc k))

theorem evenUp_pos {w : ℕ} (h : w ≠ 0) : 0 < evenUp w := by
  unfold evenUp
  omega

/-- A column tells its area. -/
theorem LendMode.areaOf_eq {m : LendMode} {a : Fin 2} {x : ℤ} (hle : m.areaX a ≤ x)
    (hlt : x < m.areaX a + m.areaW a) : m.areaOf x = a := by
  unfold LendMode.areaOf
  match a with
  | 0 =>
    simp only [LendMode.areaX, LendMode.areaW, if_pos] at hle hlt
    rw [if_pos ⟨by omega, hle⟩]
  | 1 =>
    unfold LendMode.areaX LendMode.areaW at hlt
    rw [if_neg]
    rintro ⟨hbeside, hge⟩
    rw [if_neg (by decide), if_neg (by decide), if_pos hbeside] at hlt
    omega

theorem BcEntry.On.areaOf_eq {m : LendMode} {a : Fin 2} {e : BcEntry} {t : BcShelf}
    (hon : e.On m a t) (hw : e.w ≠ 0) (hx : t.x ≤ m.areaW a) : m.areaOf e.x = a := by
  obtain ⟨_, _, hle, hright⟩ := hon
  have hpos := evenUp_pos hw
  exact LendMode.areaOf_eq hle (by omega)

/-- A place of `w` columns and `h` rows on a shelf, apart from every slot in use. -/
def BcCache.Free (m : LendMode) (s : BcCache) (w h : ℤ) (p : Pixel) : Prop :=
  (∃ a, ∃ t ∈ s.shelves a, p.2 = t.y ∧ h ≤ t.h ∧ m.areaX a ≤ p.1 ∧ p.1 + w ≤ m.areaX a + t.x) ∧
    ∀ k, (s.bc k).w ≠ 0 → (slot (s.bc k)).Apart ⟨p.1, p.2, p.1 + w, p.2 + h⟩

/-- A run of a list's shelves of at least `hc` rows. -/
def BestRun.Of (hc : ℤ) (L : List BcShelf) (b : BestRun) : Prop :=
  (shelfRun hc (L.drop b.first) 0 0).1 = b.n ∧ (shelfRun hc (L.drop b.first) 0 0).2.1 = b.sum ∧
    hc ≤ b.sum

namespace BcOk

variable {m : LendMode} {first last first' last' : Fin 2 → ℤ} {s s₁ : BcCache} {a : Fin 2}
  {t : BcShelf} {L : List BcShelf} {y0 bot b c : ℤ}

/-- Where the pixels of a slot in use are. -/
theorem slot_bounds (h : BcOk m first last s) {k : Fin 160} (hw : (s.bc k).w ≠ 0) {p : Pixel}
    (hp : p ∈ slot (s.bc k)) : ∃ a, first a ≤ p.2 ∧ p.2 < last a ∧ m.areaX a ≤ p.1 ∧
      p.1 < m.areaX a + m.areaW a := by
  obtain ⟨a, t, ht, hy, hh, hx, hright⟩ := h.on k hw
  obtain ⟨y0, hfirst, hst⟩ := h.stacked a
  obtain ⟨hlo, _, hhi⟩ := hst.bounds ht
  have hend := h.ends a (List.ne_nil_of_mem ht)
  have hwidth := (h.width a t ht).2
  rw [slot, Rect.mem_iff] at hp
  dsimp only at hp
  exact ⟨a, by omega, by omega, by omega, by omega⟩

/-! ## An area's new shelves -/

/-- An area gets new shelves, and entries may go. -/
theorem setArea (h : BcOk m first last s) (hshelves : s₁.shelves = s.shelves)
    (hbottom : s₁.bottom = s.bottom)
    (hother : ∀ b, b ≠ a → first' b ≤ first b ∧ last b ≤ last' b) (hfirst : first' a ≤ y0)
    (hst : Shelved y0 L bot) (hlast : L ≠ [] → bot ≤ last' a)
    (hx : ∀ t ∈ L, 0 ≤ t.x ∧ t.x ≤ m.areaW a)
    (hbc : ∀ k, (s₁.bc k).w ≠ 0 → s₁.bc k = s.bc k ∧
      ∀ t ∈ s.shelves a, (s.bc k).On m a t → ∃ t' ∈ L, t.Grows t') :
    BcOk m first' last' (s₁.setArea a L bot) := by
  have hsame : ∀ b, b ≠ a → (s₁.setArea a L bot).shelves b = s.shelves b ∧
      (s₁.setArea a L bot).bottom b = s.bottom b := fun b hb => by
    unfold BcCache.setArea
    dsimp only
    rw [Function.update_of_ne hb, Function.update_of_ne hb, hshelves, hbottom]
    exact ⟨rfl, rfl⟩
  have hself : (s₁.setArea a L bot).shelves a = L ∧ (s₁.setArea a L bot).bottom a = bot :=
    ⟨Function.update_self .., Function.update_self ..⟩
  refine ⟨fun b => ?_, fun b => ?_, fun b => ?_, fun k hw => ?_, fun j k hjk hj hk => ?_⟩
  · by_cases hb : b = a
    · rw [hb, hself.1, hself.2]
      exact ⟨y0, hfirst, hst⟩
    · rw [(hsame b hb).1, (hsame b hb).2]
      obtain ⟨y, hy, hstack⟩ := h.stacked b
      exact ⟨y, (hother b hb).1.trans hy, hstack⟩
  · by_cases hb : b = a
    · rw [hb, hself.1, hself.2]
      exact hlast
    · rw [(hsame b hb).1, (hsame b hb).2]
      exact fun hne => (h.ends b hne).trans (hother b hb).2
  · by_cases hb : b = a
    · rw [hb, hself.1]
      exact hx
    · rw [(hsame b hb).1]
      exact h.width b
  · obtain ⟨heq, hgrow⟩ := hbc k hw
    obtain ⟨b, t, ht, hon⟩ := h.on k (by rwa [← heq])
    show ∃ a', ∃ t ∈ _, (s₁.bc k).On m a' t
    rw [heq]
    by_cases hb : b = a
    · rw [hb] at ht hon
      obtain ⟨t', ht', hg⟩ := hgrow t ht hon
      exact ⟨a, t', by rw [hself.1]; exact ht', hon.grows hg⟩
    · exact ⟨b, t, by rw [(hsame b hb).1]; exact ht, hon⟩
  · show (slot (s₁.bc j)).Apart (slot (s₁.bc k))
    obtain ⟨heqj, _⟩ := hbc j hj
    obtain ⟨heqk, _⟩ := hbc k hk
    rw [heqj, heqk]
    exact h.apart j k hjk (by rwa [← heqj]) (by rwa [← heqk])

/-- Rows that hold less. -/
theorem mono (h : BcOk m first last s) (hfirst : ∀ a, first' a ≤ first a)
    (hlast : ∀ a, last a ≤ last' a) : BcOk m first' last' s := by
  refine ⟨fun a => ?_, fun a hne => (h.ends a hne).trans (hlast a), h.width, h.on, h.apart⟩
  obtain ⟨y0, hy, hst⟩ := h.stacked a
  exact ⟨y0, (hfirst a).trans hy, hst⟩

theorem bcFreeRows_bc {k : Fin 160} (hw : ((s.bcFreeRows m a b c).bc k).w ≠ 0) :
    (s.bcFreeRows m a b c).bc k = s.bc k ∧
      ¬ (b ≤ (s.bc k).y ∧ (s.bc k).y < c ∧ m.areaOf (s.bc k).x = a) := by
  unfold BcCache.bcFreeRows at hw ⊢
  dsimp only at hw ⊢
  by_cases hgo : (s.bc k).w ≠ 0 ∧ b ≤ (s.bc k).y ∧ (s.bc k).y < c ∧ m.areaOf (s.bc k).x = a
  · rw [if_pos hgo] at hw
    exact absurd rfl hw
  · rw [if_neg hgo] at hw ⊢
    exact ⟨rfl, fun hrows => hgo ⟨hw, hrows⟩⟩

/-- Some of an area's rows are cleared, and its shelves elsewhere kept. -/
theorem clear (h : BcOk m first last s)
    (hother : ∀ b, b ≠ a → first' b ≤ first b ∧ last b ≤ last' b) (hfirst : first' a ≤ y0)
    (hst : Shelved y0 L bot) (hlast : L ≠ [] → bot ≤ last' a)
    (hx : ∀ t ∈ L, 0 ≤ t.x ∧ t.x ≤ m.areaW a)
    (hkeep : ∀ t ∈ s.shelves a, (∃ t' ∈ L, t.Grows t') ∨ b ≤ t.y ∧ t.y < c) :
    BcOk m first' last' ((s.bcFreeRows m a b c).setArea a L bot) := by
  refine h.setArea rfl rfl hother hfirst hst hlast hx fun k hw => ?_
  obtain ⟨heq, hrows⟩ := bcFreeRows_bc hw
  refine ⟨heq, fun t ht hon => (hkeep t ht).resolve_right fun hin => hrows ?_⟩
  rw [hon.1]
  exact ⟨hin.1, hin.2, hon.areaOf_eq (by rwa [← heq]) (h.width a t ht).2⟩

/-- An area's shelves are only filled further. -/
theorem fill (h : BcOk m first last s) (hshelves : s₁.shelves = s.shelves)
    (hbottom : s₁.bottom = s.bottom) (hbc : s₁.bc = s.bc)
    (hst : ∀ y0, Shelved y0 (s.shelves a) (s.bottom a) → Shelved y0 L (s.bottom a))
    (hnil : s.shelves a = [] → L = []) (hx : ∀ t ∈ L, 0 ≤ t.x ∧ t.x ≤ m.areaW a)
    (hgrow : ∀ t ∈ s.shelves a, ∃ t' ∈ L, t.Grows t') :
    BcOk m first last (s₁.setArea a L (s.bottom a)) := by
  obtain ⟨y0, hfirst, hstack⟩ := h.stacked a
  refine h.setArea hshelves hbottom (fun b _ => ⟨Int.le_refl _, Int.le_refl _⟩) hfirst
    (hst y0 hstack) (fun hne => h.ends a fun hnil' => hne (hnil hnil')) hx fun k _ => ?_
  exact ⟨congrFun hbc k, fun t ht _ => hgrow t ht⟩

/-! ## Touches -/

theorem touchShelf_stacked {clock : UInt32} {y : ℤ} : ∀ {l : List BcShelf} {y0 : ℤ},
    Shelved y0 l bot → Shelved y0 (BcCache.touchShelf clock y l) bot
  | [], _, h => h
  | t :: ts, y0, h => by
    obtain ⟨hlo, hlt, hts⟩ := h
    unfold BcCache.touchShelf
    split_ifs
    · exact ⟨hlo, hlt, hts⟩
    · exact ⟨hlo, hlt, touchShelf_stacked hts⟩

/-- A touched shelf keeps all but its age. -/
theorem mem_touchShelf {clock : UInt32} {y : ℤ} {t' : BcShelf} : ∀ {l : List BcShelf},
    t' ∈ BcCache.touchShelf clock y l → ∃ t ∈ l, t'.x = t.x
  | t :: ts, h => by
    unfold BcCache.touchShelf at h
    split_ifs at h
    · rcases List.mem_cons.1 h with rfl | h
      · exact ⟨t, List.mem_cons_self, rfl⟩
      · exact ⟨t', List.mem_cons_of_mem _ h, rfl⟩
    · rcases List.mem_cons.1 h with rfl | h
      · exact ⟨t', List.mem_cons_self, rfl⟩
      · obtain ⟨u, hu, hx⟩ := mem_touchShelf h
        exact ⟨u, List.mem_cons_of_mem _ hu, hx⟩

theorem touchShelf_grows {clock : UInt32} {y : ℤ} : ∀ {l : List BcShelf}, t ∈ l →
    ∃ t' ∈ BcCache.touchShelf clock y l, t.Grows t'
  | u :: us, h => by
    unfold BcCache.touchShelf
    split_ifs
    · rcases List.mem_cons.1 h with rfl | h
      · exact ⟨_, List.mem_cons_self, .refl _⟩
      · exact ⟨t, List.mem_cons_of_mem _ h, .refl t⟩
    · rcases List.mem_cons.1 h with rfl | h
      · exact ⟨t, List.mem_cons_self, .refl t⟩
      · have hgrow : ∃ t' ∈ BcCache.touchShelf clock y us, t.Grows t' := touchShelf_grows h
        obtain ⟨t', ht', hg⟩ := hgrow
        exact ⟨t', List.mem_cons_of_mem _ ht', hg⟩

theorem bcTouch (h : BcOk m first last s) (x y : ℤ) : BcOk m first last (s.bcTouch m x y) := by
  refine h.fill rfl rfl rfl (fun _ => touchShelf_stacked) (fun hnil => by rw [hnil]; rfl)
    (fun t ht => ?_) fun t => touchShelf_grows
  obtain ⟨u, hu, hx⟩ := mem_touchShelf ht
  rw [hx]
  exact h.width _ u hu

/-! ## A place -/

/-- What is on a list is still on it once another place is set. -/
theorem mem_set_or {α : Type*} {l : List α} {k : ℕ} {t t' u : α} (hu : u ∈ l)
    (ht : l[k]? = some t) : u ∈ l.set k t' ∨ u = t := by
  obtain ⟨i, hi⟩ := List.mem_iff_getElem?.1 hu
  by_cases hik : k = i
  · rw [hik, hi] at ht
    exact Or.inr (Option.some.inj ht)
  · have hset : (l.set k t')[i]? = some u := by
      rw [List.getElem?_set_ne hik]
      exact hi
    exact Or.inl (List.mem_of_getElem? hset)

/-- The next free column of a shelf is apart from every slot in use. -/
theorem apart_next (h : BcOk m first last s) (ht : t ∈ s.shelves a) {w hgt : ℤ}
    (hfit : t.x + w ≤ m.areaW a) (hhgt : hgt ≤ t.h) (j : Fin 160) (hj : (s.bc j).w ≠ 0) :
    (slot (s.bc j)).Apart ⟨m.areaX a + t.x, t.y, m.areaX a + t.x + w, t.y + hgt⟩ := by
  intro p hp hq
  obtain ⟨b, u, hu, hy, hh, hx, hright⟩ := h.on j hj
  rw [slot, Rect.mem_iff] at hp
  rw [Rect.mem_iff] at hq
  dsimp only at hp hq
  have hwidth := h.width b u hu
  have hpos := (h.width a t ht).1
  have hb : m.areaOf p.1 = b := LendMode.areaOf_eq (by omega) (by omega)
  have ha : m.areaOf p.1 = a := LendMode.areaOf_eq (by omega) (by omega)
  obtain rfl : a = b := ha.symm.trans hb
  obtain ⟨y0, _, hst⟩ := h.stacked a
  obtain rfl : u = t := hst.eq_of_meet hu ht (by omega) (by omega)
  omega

theorem bcTake (h : BcOk m first last s) {k : ℕ} (ht : (s.shelves a)[k]? = some t) {w hgt : ℤ}
    (hw : 0 ≤ w) (hfit : t.x + w ≤ m.areaW a) (hhgt : hgt ≤ t.h) :
    ∃ p s', s.bcTake m a k w = (some p, s') ∧ BcOk m first last s' ∧ s'.Free m w hgt p := by
  have hmem := List.mem_of_getElem? ht
  have hlt := (List.getElem?_eq_some_iff.1 ht).1
  have hpos := (h.width a t hmem).1
  set t' : BcShelf := { t with x := t.x + w, used := s.clock + 1 } with hdef
  refine ⟨(m.areaX a + t.x, t.y), { s with clock := s.clock + 1 }.setArea a
    ((s.shelves a).set k t') (s.bottom a), by rw [BcCache.bcTake, ht], ?_,
    ⟨a, t', ?_, rfl, hhgt, ?_, ?_⟩, fun j hj => h.apart_next hmem hfit hhgt j hj⟩
  · refine h.fill rfl rfl rfl (fun y0 hst => hst.set ht rfl rfl) (fun hnil => ?_) (fun u hu => ?_)
      fun u hu => ?_
    · rw [hnil]
      rfl
    · rcases List.mem_or_eq_of_mem_set hu with hu | rfl
      · exact h.width a u hu
      · exact ⟨by show 0 ≤ t.x + w; omega, hfit⟩
    · rcases mem_set_or hu ht with hu | rfl
      · exact ⟨u, hu, .refl u⟩
      · exact ⟨t', List.mem_set hlt _, rfl, Int.le_refl _, by show u.x ≤ u.x + w; omega⟩
  · show t' ∈ (Function.update s.shelves a _) a
    rw [Function.update_self]
    exact List.mem_set hlt _
  · show m.areaX a ≤ m.areaX a + t.x
    omega
  · show m.areaX a + t.x + w ≤ m.areaX a + (t.x + w)
    omega

/-! ## Eviction -/

theorem bcAppend (h : BcOk m first last s) {hgt : ℤ} (hpos : 0 < hgt)
    (hend : s.bottom a + hgt ≤ last a) (hw : 0 ≤ m.areaW a) :
    BcOk m first last (s.bcAppend a hgt) := by
  obtain ⟨y0, hfirst, hst⟩ := h.stacked a
  have hnew : Shelved (s.bottom a) [bcShelfSet (s.bottom a) hgt] (s.bottom a + hgt) :=
    ⟨rfl, by show s.bottom a < s.bottom a + hgt; omega, rfl⟩
  refine h.setArea rfl rfl (fun b _ => ⟨Int.le_refl _, Int.le_refl _⟩) hfirst
    (Stacked.append.2 ⟨_, hst, hnew⟩) (fun _ => hend) (fun t ht => ?_) fun k _ => ?_
  · rcases List.mem_append.1 ht with ht | ht
    · exact h.width a t ht
    · rw [List.mem_singleton.1 ht]
      exact ⟨Int.le_refl _, hw⟩
  · exact ⟨rfl, fun t ht _ => ⟨t, List.mem_append_left _ ht, .refl t⟩⟩

theorem bcAppend_get (s : BcCache) (a : Fin 2) (hgt : ℤ) :
    ((s.bcAppend a hgt).shelves a)[(s.shelves a).length]? = some (bcShelfSet (s.bottom a) hgt) := by
  show (Function.update s.shelves a _ a)[_]? = _
  rw [Function.update_self, List.getElem?_append_right (Nat.le_refl _), Nat.sub_self]
  rfl

/-- A run's shelves are stacked over as many rows as it has. -/
theorem shelfRun_stacked (hc : ℤ) : ∀ (l : List BcShelf) (y sum : ℤ) (age : UInt32),
    Shelved y l bot →
    Shelved y (l.take (shelfRun hc l sum age).1) (y + ((shelfRun hc l sum age).2.1 - sum)) ∧
      Shelved (y + ((shelfRun hc l sum age).2.1 - sum)) (l.drop (shelfRun hc l sum age).1) bot
  | [], y, sum, age, h => by
    have hy : y + (sum - sum) = y := by omega
    exact ⟨hy.symm, hy.trans h⟩
  | t :: ts, y, sum, age, h => by
    have hy : y + (sum - sum) = y := by omega
    by_cases hlt : sum < hc
    · rw [shelfRun, if_pos hlt]
      obtain ⟨hlo, hpos, hts⟩ := h
      dsimp only at hlo hpos hts ⊢
      obtain ⟨hrun, hrest⟩ := shelfRun_stacked hc ts _ (sum + t.h)
        (if age < t.used then t.used else age) hts
      generalize shelfRun hc ts (sum + t.h) (if age < t.used then t.used else age) = r
        at hrun hrest ⊢
      have heq : t.y + t.h + (r.2.1 - (sum + t.h)) = y + (r.2.1 - sum) := by omega
      rw [heq] at hrun hrest
      exact ⟨⟨hlo, hpos, hrun⟩, hrest⟩
    · rw [shelfRun, if_neg hlt]
      dsimp only
      rw [List.take_zero, List.drop_zero, hy]
      exact ⟨rfl, h⟩

theorem bestRun_of {hc : ℤ} {best : BestRun} : ∀ {l : List BcShelf} {i : ℕ} {old : Option BestRun},
    L.drop i = l → (∀ b, old = some b → b.Of hc L) → bestRun hc l i old = some best →
    best.Of hc L
  | [], _, _, _, hold, h => hold _ h
  | t :: ts, i, old, hl, hold, h => by
    unfold bestRun at h
    dsimp only at h
    by_cases hlt : (shelfRun hc (t :: ts) 0 0).2.1 < hc
    · rw [if_pos hlt] at h
      exact hold _ h
    rw [if_neg hlt] at h
    have hrun : BestRun.Of hc L ⟨i, (shelfRun hc (t :: ts) 0 0).1, (shelfRun hc (t :: ts) 0 0).2.1,
        (shelfRun hc (t :: ts) 0 0).2.2⟩ := by
      unfold BestRun.Of
      dsimp only
      rw [hl]
      exact ⟨rfl, rfl, not_lt.1 hlt⟩
    have hts : L.drop (i + 1) = ts := by rw [← List.tail_drop, hl, List.tail_cons]
    refine bestRun_of hts (fun b hb => ?_) h
    split at hb
    · rw [← Option.some.inj hb]
      exact hrun
    · split_ifs at hb with hage
      · rw [← Option.some.inj hb]
        exact hrun
      · exact hold _ hb

theorem cutShelves_stacked (y : ℤ) {hc sum : ℤ} (hpos : 0 < hc) (hle : hc ≤ sum) (two : Bool) :
    Shelved y (cutShelves y hc sum two) (y + sum) := by
  unfold cutShelves
  split_ifs with hcut
  · refine ⟨rfl, ?_, rfl, ?_, ?_⟩ <;> simp only [bcShelfSet, Stacked] <;> omega
  · refine ⟨rfl, ?_, rfl⟩
    simp only [bcShelfSet]
    omega

theorem cutShelves_head (y : ℤ) {hc sum : ℤ} (hle : hc ≤ sum) (two : Bool) :
    ∃ u us, cutShelves y hc sum two = u :: us ∧ hc ≤ u.h ∧ u.x = 0 := by
  unfold cutShelves
  split_ifs
  · exact ⟨_, _, rfl, Int.le_refl _, rfl⟩
  · exact ⟨_, _, rfl, hle, rfl⟩

theorem mem_cutShelves {y hc sum : ℤ} {two : Bool} (h : t ∈ cutShelves y hc sum two) :
    t.x = 0 := by
  unfold cutShelves at h
  split_ifs at h
  · rcases List.mem_pair.1 h with rfl | rfl <;> rfl
  · rw [List.mem_singleton.1 h]
    rfl

/-- What an eviction leaves : an empty shelf of at least `hc` rows, where it says. -/
theorem bcEvict (h : BcOk m first last s) {hc : ℤ} (hpos : 0 < hc) (hw : 0 ≤ m.areaW a) :
    s.bcEvict m a hc = (none, s) ∨ ∃ k t s', s.bcEvict m a hc = (some k, s') ∧
      BcOk m first last s' ∧ (s'.shelves a)[k]? = some t ∧ hc ≤ t.h ∧ t.x = 0 := by
  unfold BcCache.bcEvict
  cases hbest : bestRun hc (s.shelves a) 0 none with
  | none => exact Or.inl rfl
  | some best =>
    refine Or.inr ?_
    dsimp only
    obtain ⟨hn, hsum, hle⟩ := bestRun_of (L := s.shelves a) List.drop_zero
      (fun b hb => by cases hb) hbest
    obtain ⟨y0, hfirst, hst⟩ := h.stacked a
    obtain ⟨y, hpre, hst⟩ := hst.split best.first
    obtain ⟨hrun, hrest⟩ := shelfRun_stacked hc _ y 0 0 hst
    rw [hn, hsum, Int.sub_zero] at hrun hrest
    obtain ⟨t, ts, hts⟩ : ∃ t ts, (s.shelves a).drop best.first = t :: ts := by
      cases hdrop : (s.shelves a).drop best.first with
      | nil =>
        rw [hdrop, List.take_nil] at hrun
        have hy : y = y + best.sum := hrun
        omega
      | cons t ts => exact ⟨t, ts, rfl⟩
    have hget : (s.shelves a)[best.first]? = some t := by
      rw [← List.head?_drop, hts]
      rfl
    have hlen := (List.getElem?_eq_some_iff.1 hget).1
    have hty : t.y = y := by
      rw [hts] at hst
      exact hst.1
    rw [hget, Option.map_some, Option.getD_some, hty]
    set new := cutShelves y hc best.sum _ with hnewdef
    obtain ⟨u, us, hnew, hu, hux⟩ := cutShelves_head y hle _
    rw [← hnewdef] at hnew
    have hnewst := cutShelves_stacked y hpos hle
      (decide ((s.shelves a).length - best.n + 2 ≤ M8_BC_SHELVES))
    rw [← hnewdef] at hnewst
    refine ⟨best.first, u, _, rfl, ?_, ?_, hu, hux⟩
    · have hlist : Shelved y0 (bcSplice best.first best.n new (s.shelves a)) (s.bottom a) := by
        unfold bcSplice
        rw [← List.drop_drop]
        exact Stacked.append.2 ⟨_, Stacked.append.2 ⟨y, hpre, hnewst⟩, hrest⟩
      refine h.clear (fun b _ => ⟨Int.le_refl _, Int.le_refl _⟩) hfirst hlist
        (fun _ => h.ends a (List.ne_nil_of_mem (List.mem_of_getElem? hget))) (fun v hv => ?_)
        fun v hv => ?_
      · unfold bcSplice at hv
        rcases List.mem_append.1 hv with hv | hv
        · rcases List.mem_append.1 hv with hv | hv
          · exact h.width a v (List.mem_of_mem_take hv)
          · rw [mem_cutShelves hv]
            exact ⟨Int.le_refl _, hw⟩
        · exact h.width a v (List.mem_of_mem_drop hv)
      · unfold bcSplice
        rw [← List.drop_drop]
        rw [← List.take_append_drop best.first (s.shelves a)] at hv
        rcases List.mem_append.1 hv with hv | hv
        · exact Or.inl ⟨v, List.mem_append_left _ (List.mem_append_left _ hv), .refl v⟩
        rw [← List.take_append_drop best.n ((s.shelves a).drop best.first)] at hv
        rcases List.mem_append.1 hv with hv | hv
        · obtain ⟨hlo, hlt, hhi⟩ := hrun.bounds hv
          exact Or.inr ⟨hlo, by omega⟩
        · exact Or.inl ⟨v, List.mem_append_right _ hv, .refl v⟩
    · show (Function.update s.shelves a _ a)[best.first]? = some u
      rw [Function.update_self, bcSplice, hnew, List.append_assoc,
        List.getElem?_append_right (by rw [List.length_take]; omega), List.length_take,
        Nat.min_eq_left hlen.le, Nat.sub_self]
      rfl

/-! ## Allocation -/

/-- What an allocation leaves, and where it gives a place. -/
def Given (m : LendMode) (first last : Fin 2 → ℤ) (w h : ℤ) (r : Option Pixel × BcCache) : Prop :=
  BcOk m first last r.2 ∧ ∀ p, r.1 = some p → r.2.Free m w h p

theorem given_take (h : BcOk m first last s) {k : ℕ} (ht : (s.shelves a)[k]? = some t) {w hgt : ℤ}
    (hw : 0 ≤ w) (hfit : t.x + w ≤ m.areaW a) (hhgt : hgt ≤ t.h) :
    Given m first last w hgt (s.bcTake m a k w) := by
  obtain ⟨p, s', heq, hok, hfree⟩ := h.bcTake ht hw hfit hhgt
  rw [heq]
  exact ⟨hok, fun q hq => Option.some.inj hq ▸ hfree⟩

theorem given_none (h : BcOk m first last s) (w hgt : ℤ) : Given m first last w hgt (none, s) :=
  ⟨h, fun _ hp => by cases hp⟩

/-- What eviction gives a place on. -/
theorem given_evict (h : BcOk m first last s) {hc : ℤ} (hpos : 0 < hc) {w hgt : ℤ} (hw : 0 ≤ w)
    (hwidth : w ≤ m.areaW a) (hhgt : hgt ≤ hc) :
    Given m first last w hgt (match s.bcEvict m a hc with
      | (none, s) => (none, s)
      | (some k, s) => s.bcTake m a k w) := by
  rcases h.bcEvict hpos (hw.trans hwidth) with heq | ⟨k, t, s', heq, hok, ht, hth, htx⟩
  · rw [heq]
    exact given_none h w hgt
  · rw [heq]
    exact hok.given_take ht hw (by omega) (by omega)

theorem bcAllocIn (h : BcOk m first last s) {bottom : ℤ} (hlast : last a = bottom) {w : ℤ}
    (hw : 0 ≤ w) {hgt : ℕ} (hpos : 0 < hgt) :
    Given m first last w hgt (s.bcAllocIn m bottom a w hgt) := by
  unfold BcCache.bcAllocIn
  have hhc : (hgt : ℤ) ≤ ((hgt : ℤ) + 15) / 16 * 16 := by omega
  generalize ((hgt : ℤ) + 15) / 16 * 16 = hc at hhc ⊢
  dsimp only
  by_cases hbig : m.areaW a < w ∨ M8_BC_MAX_H < hgt ∨ bottom - m.areaTop a < hc
  · rw [if_pos hbig]
    exact given_none h w hgt
  rw [if_neg hbig]
  have hwidth : w ≤ m.areaW a := by omega
  cases hfind : (s.shelves a).findIdx? fun t => decide (t.h = hc ∧ t.x + w ≤ m.areaW a) with
  | some k =>
    obtain ⟨hlt, hp, _⟩ := List.findIdx?_eq_some_iff_getElem.1 hfind
    obtain ⟨hth, htx⟩ := of_decide_eq_true hp
    exact h.given_take (List.getElem?_eq_getElem hlt) hw htx (by omega)
  | none =>
    dsimp only
    by_cases hroom : (s.shelves a).length < M8_BC_SHELVES ∧ s.bottom a + hc ≤ bottom
    · rw [if_pos hroom]
      refine (h.bcAppend (by omega) (by omega) (by omega)).given_take
          (bcAppend_get s a hc) hw ?_ hhc
      show 0 + w ≤ m.areaW a
      omega
    · rw [if_neg hroom]
      refine given_evict ?_ (by omega) hw hwidth hhc
      split_ifs with hleft
      · exact h.bcAppend (by omega) (by omega) (by omega)
      · exact h

theorem bcAlloc (h : BcOk m first last s) {bottom : ℤ} (hlast : ∀ a, last a = bottom) {w : ℤ}
    (hw : 0 ≤ w) {hgt : ℕ} (hpos : 0 < hgt) :
    Given m first last w hgt (s.bcAlloc m bottom w hgt) := by
  unfold BcCache.bcAlloc
  obtain ⟨hok, hfree⟩ := h.bcAllocIn (hlast 0) hw hpos
  rcases hres : s.bcAllocIn m bottom 0 w hgt with ⟨_ | p, s'⟩
  · rw [hres] at hok
    exact hok.bcAllocIn (hlast 1) hw hpos
  · rw [hres] at hok hfree
    exact ⟨hok, hfree⟩

/-! ## Entries -/

/-- An entry gets a place that is free. -/
theorem put (h : BcOk m first last s) {e : BcEntry} (hfree : s.Free m (evenUp e.w) e.h (e.x, e.y))
    (k : Fin 160) : BcOk m first last { s with bc := Function.update s.bc k e } := by
  obtain ⟨⟨a, t, ht, hon⟩, hapart⟩ := hfree
  refine ⟨h.stacked, h.ends, h.width, fun j hj => ?_, fun i j hij hi hj => ?_⟩
  · by_cases hjk : j = k
    · rw [hjk]
      dsimp only
      rw [Function.update_self]
      exact ⟨a, t, ht, hon⟩
    · dsimp only at hj ⊢
      rw [Function.update_of_ne hjk] at hj ⊢
      exact h.on j hj
  · dsimp only at hi hj ⊢
    by_cases hik : i = k
    · rw [hik] at hij ⊢
      rw [Function.update_of_ne hij.symm] at hj ⊢
      rw [Function.update_self]
      exact (hapart j hj).symm
    · rw [Function.update_of_ne hik] at hi ⊢
      by_cases hjk : j = k
      · rw [hjk, Function.update_self]
        exact hapart i hi
      · rw [Function.update_of_ne hjk] at hj ⊢
        exact h.apart i j hij hi hj

/-- Entries only go. -/
theorem drop (h : BcOk m first last s) {bc : Fin 160 → BcEntry}
    (hbc : ∀ k, (bc k).w ≠ 0 → bc k = s.bc k) : BcOk m first last { s with bc := bc } := by
  refine ⟨h.stacked, h.ends, h.width, fun k hk => ?_, fun j k hjk hj hk => ?_⟩
  · have heq := hbc k hk
    dsimp only at hk ⊢
    rw [heq] at hk ⊢
    exact h.on k hk
  · have heqj := hbc j hj
    have heqk := hbc k hk
    dsimp only at hj hk ⊢
    rw [heqj] at hj ⊢
    rw [heqk] at hk ⊢
    exact h.apart j k hjk hj hk

theorem oldestShelf_get {shelves : Fin 2 → List BcShelf} {k : ℕ} {b : Fin 2} :
    ∀ {l : List BcShelf} {i : ℕ} {old : Option (Fin 2 × ℕ × BcShelf)},
      (shelves b).drop i = l →
      (∀ o, old = some o → (shelves o.1)[o.2.1]? = some o.2.2) →
      BcCache.oldestShelf b l i old = some (a, k, t) → (shelves a)[k]? = some t
  | [], _, _, _, hold, h => hold _ h
  | u :: us, i, old, hl, hold, h => by
    unfold BcCache.oldestShelf at h
    have hus : (shelves b).drop (i + 1) = us := by rw [← List.tail_drop, hl, List.tail_cons]
    have hu : (shelves b)[i]? = some u := by
      rw [← List.head?_drop, hl]
      rfl
    refine oldestShelf_get hus (fun o ho => ?_) h
    split_ifs at ho
    · split at ho
      · rw [← Option.some.inj ho]
        exact hu
      · split_ifs at ho
        · rw [← Option.some.inj ho]
          exact hu
        · exact hold o ho
    · exact hold o ho

theorem bcSlot (h : BcOk m first last s) : BcOk m first last (s.bcSlot m).2 := by
  unfold BcCache.bcSlot
  cases s.bcFree with
  | some k => exact h
  | none =>
    dsimp only
    cases hold : BcCache.oldestShelf 1 (s.shelves 1) 0
        (BcCache.oldestShelf 0 (s.shelves 0) 0 none) with
    | none => exact h
    | some o =>
      obtain ⟨a, k, t⟩ := o
      have ht : (s.shelves a)[k]? = some t := by
        refine oldestShelf_get List.drop_zero (fun o ho => ?_) hold
        exact oldestShelf_get List.drop_zero (fun o ho => by cases ho) ho
      have hmem := List.mem_of_getElem? ht
      have hwidth := h.width a t hmem
      obtain ⟨y0, hfirst, hst⟩ := h.stacked a
      obtain ⟨_, hlt, _⟩ := hst.bounds hmem
      refine h.clear (fun b _ => ⟨Int.le_refl _, Int.le_refl _⟩) hfirst (hst.set ht rfl rfl)
        (fun _ => h.ends a (List.ne_nil_of_mem hmem)) (fun u hu => ?_) fun u hu => ?_
      · rcases List.mem_or_eq_of_mem_set hu with hu | rfl
        · exact h.width a u hu
        · exact ⟨Int.le_refl _, hwidth.1.trans hwidth.2⟩
      · rcases mem_set_or hu ht with hu | rfl
        · exact Or.inl ⟨u, hu, .refl u⟩
        · exact Or.inr ⟨Int.le_refl _, hlt⟩

theorem bcFlush (hfirst : ∀ a, first a ≤ m.areaTop a) : BcOk m first last (s.bcFlush m) where
  stacked a := ⟨m.areaTop a, hfirst a, rfl⟩
  ends _ hne := absurd rfl hne
  width _ _ ht := nomatch ht
  on _ hw := absurd rfl hw
  apart _ _ _ hw := absurd rfl hw

/-! ## Rows for others -/

/-- Area 1 begins below row `y1` where its shelves do. -/
theorem raise (h : BcOk m first last s) {y1 : ℤ} (hy : ∀ t ∈ s.shelves 1, y1 ≤ t.y)
    (hfirst : first' 0 ≤ first 0) (hfirst' : first' 1 ≤ max (first 1) y1) :
    BcOk m first' last
      (if s.shelves 1 = [] ∧ s.bottom 1 < y1 then s.setArea 1 [] y1 else s) := by
  have hother : ∀ b, b ≠ 1 → first' b ≤ first b ∧ last b ≤ last b := fun b hb => by
    obtain rfl : b = 0 := by omega
    exact ⟨hfirst, Int.le_refl _⟩
  obtain ⟨y0, hy0, hst⟩ := h.stacked 1
  split_ifs with hnil
  · rw [hnil.1] at hst
    have hbot : y0 = s.bottom 1 := hst
    refine h.setArea rfl rfl hother (show first' 1 ≤ y1 by omega) rfl (fun hne => absurd rfl hne)
      (fun t ht => by cases ht) fun k _ => ⟨rfl, fun t ht => ?_⟩
    rw [hnil.1] at ht
    cases ht
  · refine ⟨fun b => ?_, h.ends, h.width, h.on, h.apart⟩
    by_cases hb : b = 1
    · rw [hb]
      refine ⟨y0, ?_, hst⟩
      cases hL : s.shelves 1 with
      | nil =>
        rw [hL] at hst hnil
        have hbot : y0 = s.bottom 1 := hst
        have hge : ¬ s.bottom 1 < y1 := fun hlt => hnil ⟨rfl, hlt⟩
        omega
      | cons t ts =>
        rw [hL] at hst hy
        have hlo : t.y = y0 := hst.1
        have hge := hy t List.mem_cons_self
        omega
    · obtain ⟨y, hle, hst⟩ := h.stacked b
      exact ⟨y, (hother b hb).1.trans hle, hst⟩

theorem claimShelves (h : BcOk m first last s) (y1 : ℤ) :
    BcOk m first last (s.claimShelves m y1) ∧ ∀ t ∈ (s.claimShelves m y1).shelves 1, y1 ≤ t.y := by
  unfold BcCache.claimShelves
  dsimp only
  obtain ⟨y0, hy0, hst⟩ := h.stacked 1
  have hnot := fun t => get_length_takeWhile (p := fun t : BcShelf => decide (t.y < y1))
    (l := s.shelves 1) (t := t)
  have hle := (List.takeWhile_prefix (l := s.shelves 1) fun t => decide (t.y < y1)).length_le
  generalize ((s.shelves 1).takeWhile fun t => decide (t.y < y1)).length = n at hnot hle ⊢
  obtain ⟨y, hpre, hrest⟩ := hst.split n
  have hdrop : ∀ t ∈ (s.shelves 1).drop n, y1 ≤ t.y := fun t ht => by
    cases hL : (s.shelves 1).drop n with
    | nil =>
      rw [hL] at ht
      cases ht
    | cons u us =>
      have hget : (s.shelves 1)[n]? = some u := by
        rw [← List.head?_drop, hL]
        rfl
      have hu := of_decide_eq_false (hnot u hget)
      have huy : u.y = y := by
        rw [hL] at hrest
        exact hrest.1
      have hle := (hrest.bounds ht).1
      omega
  cases hL : s.shelves 1 with
  | nil =>
    refine ⟨h, fun t ht => ?_⟩
    have hmem : t ∈ s.shelves 1 := ht
    rw [hL] at hmem
    cases hmem
  | cons v vs =>
    rw [hL] at hle
    obtain ⟨l, hl⟩ : ∃ l, (v :: vs)[n - 1]? = some l :=
      ⟨_, List.getElem?_eq_getElem (by rw [List.length_cons] at hle ⊢; omega)⟩
    rw [hl, List.getElem?_cons_zero]
    dsimp only
    by_cases hn : 0 < n
    · rw [if_pos hn]
      rw [hL] at hst hpre hrest hdrop
      have hhi := hpre.last (t := l) (by
        rw [List.length_take, Nat.min_eq_left hle, List.getElem?_take_of_lt (by omega)]
        exact hl)
      have hsplice : bcSplice 0 n [] (v :: vs) = (v :: vs).drop n := by
        rw [bcSplice, List.take_zero, Nat.zero_add]
        rfl
      rw [hst.1, hhi, hsplice]
      refine ⟨h.clear (fun b _ => ⟨Int.le_refl _, Int.le_refl _⟩) (hy0.trans hpre.le) hrest
        (fun _ => h.ends 1 (by rw [hL]; exact List.cons_ne_nil v vs))
        (fun t ht => h.width 1 t (by rw [hL]; exact List.mem_of_mem_drop ht)) fun t ht => ?_, ?_⟩
      · rw [hL, ← List.take_append_drop n (v :: vs)] at ht
        rcases List.mem_append.1 ht with ht | ht
        · obtain ⟨hlo, hlt, hhi⟩ := hpre.bounds ht
          exact Or.inr ⟨hlo, by omega⟩
        · exact Or.inl ⟨t, ht, .refl t⟩
      · show ∀ t ∈ Function.update s.shelves 1 _ 1, y1 ≤ t.y
        rw [Function.update_self]
        exact hdrop
    · rw [if_neg hn]
      have hzero : n = 0 := by omega
      rw [hzero, List.drop_zero] at hdrop
      exact ⟨h, hdrop⟩

/-- A menu's rows are taken : no shelf of area 1 has one of them. -/
theorem bcClaim (h : BcOk m first last s) {y1 : ℤ} (hfirst : first' 0 ≤ first 0)
    (hfirst' : first' 1 ≤ max (first 1) y1) : BcOk m first' last (s.bcClaim m y1) := by
  obtain ⟨hok, hy⟩ := h.claimShelves y1
  exact hok.raise hy hfirst hfirst'

/-- The shelves that reach below `top` go. -/
theorem lendArea (h : BcOk m first last s) {top : ℤ} (hother : ∀ b, b ≠ a → last b ≤ last' b)
    (htop : top ≤ last' a) : BcOk m first last' (s.lendArea m top a) := by
  unfold BcCache.lendArea
  dsimp only
  obtain ⟨y0, hy0, hst⟩ := h.stacked a
  have hn := take_length_takeWhile (p := fun t : BcShelf => decide (t.y + t.h ≤ top))
    (l := s.shelves a)
  set n := ((s.shelves a).takeWhile fun t => decide (t.y + t.h ≤ top)).length
  have htake : ∀ t ∈ (s.shelves a).take n, t.y + t.h ≤ top := fun t ht => by
    rw [hn] at ht
    have hp := List.mem_takeWhile_imp ht
    exact of_decide_eq_true hp
  obtain ⟨y, hpre, hrest⟩ := hst.split n
  have hytop : (s.shelves a).take n ≠ [] → y ≤ top := fun hne => by
    obtain ⟨t, ht, hlast⟩ := hpre.exists_last hne
    exact hlast ▸ htake t ht
  cases hget : (s.shelves a)[n]? with
  | none =>
    have hall : (s.shelves a).take n = s.shelves a :=
      List.take_of_length_le (List.getElem?_eq_none_iff.1 hget)
    refine ⟨h.stacked, fun b hne => ?_, h.width, h.on, h.apart⟩
    by_cases hb : b = a
    · rw [hb] at hne ⊢
      obtain ⟨t, ht, hlast⟩ := hst.exists_last hne
      rw [hall] at htake
      exact (hlast ▸ htake t ht).trans htop
    · exact (h.ends b hne).trans (hother b hb)
  | some t =>
    have hty : t.y = y := by
      refine hrest.head ?_
      rw [List.getElem?_drop, Nat.add_zero]
      exact hget
    rw [← hty] at hpre hrest hytop
    refine h.clear (fun b hb => ⟨Int.le_refl _, hother b hb⟩) hy0 hpre
      (fun hne => (hytop hne).trans htop) (fun u hu => h.width a u (List.mem_of_mem_take hu))
      fun u hu => ?_
    rw [← List.take_append_drop n (s.shelves a)] at hu
    rcases List.mem_append.1 hu with hu | hu
    · exact Or.inl ⟨u, hu, .refl u⟩
    · obtain ⟨hlo, hlt, hhi⟩ := hrest.bounds hu
      exact Or.inr ⟨hlo, by omega⟩

end BcOk

end Inboard
