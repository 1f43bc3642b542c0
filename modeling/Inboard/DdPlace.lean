import Inboard.DdLendRun

/-!
# Placing in the heap rows

M8DD32.DLL places surfaces and Direct3D's scratch in the heap rows, and has the driver lend them for
the first and take them back after the last. As long as the escapes that take them back reach the
driver, they are lent exactly while something is placed (`PlaceOk`), and a call that fails leaves
everything as it was, also where it had placed a part of a list (`m8dd_placement_sound`).
-/

set_option linter.unusedSectionVars false

namespace Inboard

/-! ## Calls -/

/-- What is asked for : surfaces and scratch, and that they go. -/
inductive PlaceOp (α : Type*)
  | create (dc : LendDc) (plain : Bool) (list : List (α × ℕ × ℕ))
  | destroy (dc : LendDc) (gbl : α)
  | scratch (dc : LendDc) (k : Fin 4) (w h : ℕ)
  | scratchFree (dc : LendDc) (k : Fin 4)

/-- What `m8dd_create_surface` returns. -/
inductive DdReturn
  | notHandled
  | outOfVideoMemory
  | ok
  deriving DecidableEq

section Functions

variable {α : Type*} [DecidableEq α] (m : LendMode)

/-- There is a place for every surface of a list. -/
def m8ddPlacesAll : List (α × ℕ × ℕ) → LendState α → Bool
  | [], _ => true
  | (gbl, w, h) :: rest, s =>
    match m8ddPlace m w h s, placedFree s with
    | some r, some k => m8ddPlacesAll rest (s.putPlaced k (.surface gbl) r)
    | _, _ => false

/-- The result of `m8dd_create_surface` at 8 bpp. -/
def m8ddCreateReturn (dc : LendDc) (plain : Bool) (list : List (α × ℕ × ℕ)) (s : LendState α) :
    DdReturn :=
  if m.heapRows = 0 ∨ list = [] then .notHandled
  else if !plain then .notHandled
  else if 32 < s.placedN + list.length then .outOfVideoMemory
  else if s.placedN = 0 ∧ dc.lend = false then .outOfVideoMemory
  else if m8ddPlacesAll m list s then .ok else .outOfVideoMemory

def placeStep (s : LendState α) : PlaceOp α → LendState α
  | .create dc plain list => m8ddCreateSurface m dc plain list s
  | .destroy dc gbl => m8ddDestroySurface m dc gbl s
  | .scratch dc k w h => (m8d3dScratch m dc k w h s).2
  | .scratchFree dc k => m8d3dScratchFree m dc k s

def placeRun (s : LendState α) (ops : List (PlaceOp α)) : LendState α := ops.foldl (placeStep m) s

/-- The call fails. -/
def PlaceOp.Fails (s : LendState α) : PlaceOp α → Prop
  | .create dc plain list => m8ddCreateReturn m dc plain list s ≠ .ok
  | .scratch dc k w h => (m8d3dScratch m dc k w h s).1 = none
  | _ => False

/-- DDRAW's new surfaces are new : none is placed, or twice in a list. -/
def PlaceOp.Fresh (s : LendState α) : PlaceOp α → Prop
  | .create _ _ list => (list.map Prod.fst).Nodup ∧
      ∀ gbl ∈ list.map Prod.fst, ∀ k r, s.placed k ≠ some (.surface gbl, r)
  | _ => True

/-- It is all there is placed. -/
def LendState.Only (s : LendState α) (key : HeapKey α) : Prop :=
  s.placedN = 1 ∧ ∃ k, (s.placed k).map Prod.fst = some key

/-- The escape that takes the rows back, where the call makes one, reaches the driver : it is made
when the last of what is placed goes, and when a list has no place and nothing else is placed. -/
def PlaceOp.TakesBack (s : LendState α) : PlaceOp α → Prop
  | .create dc _ list => s.placedN = 0 → m8ddPlacesAll m list s = false → dc.last = true
  | .destroy dc gbl => s.Only (.surface gbl) → dc.back = true
  | .scratch .. => True
  | .scratchFree dc k => s.Only (.context k) → dc.back = true

/-- In every call of a run. -/
def TakesBacks : LendState α → List (PlaceOp α) → Prop
  | _, [] => True
  | s, op :: ops => op.TakesBack m s ∧ TakesBacks (placeStep m s op) ops

instance LendState.decidableOnly (s : LendState α) (key : HeapKey α) : Decidable (s.Only key) :=
  inferInstanceAs (Decidable (s.placedN = 1 ∧ ∃ k, (s.placed k).map Prod.fst = some key))

instance PlaceOp.decidableTakesBack (s : LendState α) :
    (op : PlaceOp α) → Decidable (op.TakesBack m s)
  | .create dc _ list => inferInstanceAs (Decidable (_ → _ → dc.last = true))
  | .destroy dc gbl => inferInstanceAs (Decidable (s.Only (.surface gbl) → dc.back = true))
  | .scratch .. => .isTrue trivial
  | .scratchFree dc k => inferInstanceAs (Decidable (s.Only (.context k) → dc.back = true))

instance TakesBacks.decidable :
    (s : LendState α) → (ops : List (PlaceOp α)) → Decidable (TakesBacks m s ops)
  | _, [] => .isTrue trivial
  | s, op :: ops =>
    have := TakesBacks.decidable (placeStep m s op) ops
    inferInstanceAs (Decidable (op.TakesBack m s ∧ TakesBacks m (placeStep m s op) ops))

/-- What is placed is apart and inside the heap's rows and the pitch, it is counted, and the rows
are lent while there is some. -/
structure LendState.PlacedSound (s : LendState α) : Prop where
  apart : ∀ j k e f, s.placed j = some e → s.placed k = some f → j ≠ k → e.2.Apart f.2
  inside : ∀ k e, s.placed k = some e →
    e.2.Inside ⟨0, m.heapTop, m.width, m.heapTop + m.heapRows⟩
  count : s.placedN = s.inUse.card
  lent : s.lent ≠ 0 ↔ 0 < s.placedN

end Functions

section Heap

variable {α : Type*} [DecidableEq α] {m : LendMode} {dc : LendDc} {s : LendState α}

/-! ## The heap's rows -/

/-- What is placed is in the rows, and no page is lent. -/
structure PlaceIn (m : LendMode) (s : LendState α) : Prop where
  heap : HeapOk m s
  inside : ∀ k e, s.placed k = some e → 0 ≤ e.2.left ∧ e.2.left ≤ e.2.right ∧
    e.2.right ≤ m.width ∧ e.2.bottom ≤ m.heapTop + m.heapRows
  scOff : s.scOff = false

/-- And the rows are not lent for nothing. -/
structure PlaceOk (m : LendMode) (s : LendState α) : Prop extends PlaceIn m s where
  back : s.placedN = 0 → s.lent = 0

theorem PlaceOk.sound (h : PlaceOk m s) : s.PlacedSound m where
  apart := h.heap.apart
  inside k e hk := by
    obtain ⟨hlo, hle, hhi, hbottom⟩ := h.inside k e hk
    obtain ⟨htop, _⟩ := h.heap.rows k e hk
    have heq := LendMode.heapTop_eq (h.heap.lent k e hk).2
    exact ⟨hlo, by dsimp only; omega, hhi, hbottom⟩
  count := h.heap.count
  lent := by
    have hcount := h.heap.count
    refine ⟨fun hne => ?_, fun hpos => ?_⟩
    · by_contra hzero
      exact hne (h.back (by omega))
    · obtain ⟨k, hk⟩ := Finset.card_pos.1 (show 0 < s.inUse.card by omega)
      obtain ⟨e, he⟩ := Option.isSome_iff_exists.1 (Finset.mem_filter.1 hk).2
      obtain ⟨hlent, hrows⟩ := h.heap.lent k e he
      have htop := LendMode.top_pos (LendMode.rows_pos hrows)
      omega

theorem placeCorners_left (h : PlaceIn m s) {c : Pixel} (hc : c ∈ placeCorners m s) : 0 ≤ c.1 := by
  unfold placeCorners at hc
  rcases List.mem_cons.1 hc with rfl | hc
  · exact Int.le_refl 0
  · obtain ⟨k, -, hk⟩ := List.mem_flatMap.1 hc
    cases hp : s.placed k with
    | none =>
      rw [hp] at hk
      exact absurd hk List.not_mem_nil
    | some e =>
      obtain ⟨hlo, hle, -⟩ := h.inside k e hp
      rw [hp] at hk
      simp only [List.mem_cons, List.not_mem_nil, or_false] at hk
      rcases hk with rfl | rfl <;> dsimp only <;> omega

theorem PlaceIn.putPlaced (h : PlaceIn m s) (hrows : m.heapRows ≠ 0) (hlent : s.lent = m.top)
    {k : Fin 32} (hk : s.placed k = none) (key : HeapKey α) {w l : ℕ} {r : Rect}
    (hr : m8ddPlace m w l s = some r) : PlaceIn m (s.putPlaced k key r) := by
  refine ⟨h.heap.putPlaced hrows hlent hk key hr, fun j e hj => ?_, h.scOff⟩
  obtain ⟨c, hc, hfits, rfl⟩ := m8ddPlace_some hr
  have hleft := placeCorners_left h hc
  unfold LendState.putPlaced at hj
  dsimp only at hj
  by_cases hjk : j = k
  · rw [hjk, Function.update_self] at hj
    obtain rfl := Option.some.inj hj
    unfold m8ddFits at hfits
    simp only [Bool.and_eq_true, Bool.not_eq_true', Bool.or_eq_false_iff, decide_eq_false_iff_not]
      at hfits
    dsimp only
    omega
  · rw [Function.update_of_ne hjk] at hj
    exact h.inside j e hj

/-- A free entry, if not all are counted. -/
theorem HeapOk.free (h : HeapOk m s) (hn : s.placedN < 32) : ∃ k, placedFree s = some k := by
  unfold placedFree
  cases hfind : (List.finRange 32).find? fun k => (s.placed k).isNone with
  | some k => exact ⟨k, rfl⟩
  | none =>
    have hall : s.inUse = Finset.univ := by
      ext k
      have hk := List.find?_eq_none.1 hfind k (List.mem_finRange k)
      simpa [LendState.inUse, Option.ne_none_iff_isSome] using hk
    have hcount := h.count
    rw [hall, Finset.card_univ, Fintype.card_fin] at hcount
    omega

/-! ## Taking away -/

theorem m8ddLend_back (s : LendState α) : (m8ddLend m true 0 s).2 =
    { s with scOff := false, lent := 0 } := by
  unfold m8ddLend m8DdLend
  rw [if_pos rfl]
  rfl

theorem m8ddLend_placedN (reaches : Bool) {on : ℕ} :
    (m8ddLend m reaches on s).2.placedN = s.placedN := by
  unfold m8ddLend
  split_ifs
  · exact m8DdLend_placedN on
  · rfl

/-- Taken back twice is taken back. -/
theorem m8ddLend_idem (reaches : Bool) :
    { (m8ddLend m reaches 0 s).2 with scOff := false, lent := 0 } =
      { s with scOff := false, lent := 0 } := by
  cases reaches with
  | false => rfl
  | true => rw [m8ddLend_back]

theorem m8ddUnplace_scOff (h : s.scOff = false) (key : HeapKey α) :
    (m8ddUnplace m dc key s).scOff = false := by
  unfold m8ddUnplace
  split
  · exact h
  · dsimp only
    split_ifs
    · unfold m8ddLend
      split_ifs
      · unfold m8DdLend
        rw [if_neg (by decide), if_pos (Or.inl rfl)]
        rfl
      · exact h
    · exact h

theorem PlaceIn.unplace (h : PlaceIn m s) (dc : LendDc) (key : HeapKey α) :
    PlaceIn m (m8ddUnplace m dc key s) := by
  refine ⟨?_, ?_, m8ddUnplace_scOff h.scOff key⟩
  all_goals
    rcases m8ddUnplace_cases dc key (m := m) (s := s) with ⟨heq, -⟩ | ⟨k, r, hk, hu⟩
  · rw [heq]
    exact h.heap
  · exact h.heap.unplaced hk hu
  · rw [heq]
    exact h.inside
  · exact fun j e hj => h.inside j e (hu.of_some hj).2

theorem PlaceOk.unplace (h : PlaceOk m s) {key : HeapKey α} (hback : s.Only key → dc.back = true) :
    PlaceOk m (m8ddUnplace m dc key s) := by
  refine ⟨h.toPlaceIn.unplace dc key, ?_⟩
  unfold m8ddUnplace
  cases hk : (List.finRange 32).find? fun k =>
      decide ((s.placed k).map Prod.fst = some key) with
  | none => exact h.back
  | some k =>
    have hkey := List.find?_some hk
    rw [decide_eq_true_eq] at hkey
    dsimp only
    split_ifs with hz
    · rw [hback ⟨by omega, k, hkey⟩, m8ddLend_back]
      exact fun _ => rfl
    · exact fun h => absurd h hz

theorem m8ddUnplace_count (key : HeapKey α) :
    s.placedN - 1 ≤ (m8ddUnplace m dc key s).placedN := by
  unfold m8ddUnplace
  split
  · omega
  · dsimp only
    split_ifs
    · rw [m8ddLend_placedN]
    · exact Int.le_refl _

/-! ## A list that is not placed -/

/-- Surfaces placed from `s₀` on, the last one first, each where no other is its. -/
def PlacedOn (s₀ : LendState α) : List α → LendState α → Prop
  | [], s => s = s₀
  | gbl :: done, s => ∃ s' k r, PlacedOn s₀ done s' ∧ s'.placed k = none ∧
      (∀ j r, s'.placed j ≠ some (.surface gbl, r)) ∧ s = s'.putPlaced k (.surface gbl) r

theorem PlacedOn.nil (s : LendState α) : PlacedOn s [] s := rfl

theorem PlacedOn.count {s₀ : LendState α} : ∀ {done : List α} {s : LendState α},
    PlacedOn s₀ done s → s.placedN = s₀.placedN + done.length
  | [], _, h => by
    obtain rfl := h
    simp
  | gbl :: done, s, h => by
    obtain ⟨s', k, r, hon, -, -, rfl⟩ := h
    have hcount := hon.count
    rw [List.length_cons]
    show s'.placedN + 1 = _
    omega

/-- The last one taken away again. -/
theorem m8ddUnplace_putPlaced {k : Fin 32} {gbl : α} {r : Rect} (hk : s.placed k = none)
    (hnew : ∀ j r, s.placed j ≠ some (.surface gbl, r)) :
    m8ddUnplace m dc (.surface gbl) (s.putPlaced k (.surface gbl) r) =
      if s.placedN = 0 then (m8ddLend m dc.back 0 s).2 else s := by
  have hfind : (List.finRange 32).find? (fun j => decide
      (((s.putPlaced k (.surface gbl) r).placed j).map Prod.fst = some (.surface gbl))) =
        some k := by
    have hself : (s.putPlaced k (.surface gbl) r).placed k = some (.surface gbl, r) :=
      Function.update_self ..
    cases hfound : (List.finRange 32).find? fun j => decide
        (((s.putPlaced k (.surface gbl) r).placed j).map Prod.fst = some (.surface gbl)) with
    | none =>
      have hnone := List.find?_eq_none.1 hfound k (List.mem_finRange k)
      rw [hself] at hnone
      simp at hnone
    | some j =>
      have hj := List.find?_some hfound
      rw [decide_eq_true_eq] at hj
      by_cases hjk : j = k
      · rw [hjk]
      · have hother : (s.putPlaced k (.surface gbl) r).placed j = s.placed j :=
          Function.update_of_ne hjk ..
        rw [hother] at hj
        obtain ⟨e, he, hkey⟩ := Option.map_eq_some_iff.1 hj
        exact absurd (he.trans (by rw [← hkey])) (hnew j e.2)
  have hundo : ({ s.putPlaced k (.surface gbl) r with
      placed := Function.update (s.putPlaced k (.surface gbl) r).placed k none
      placedN := (s.putPlaced k (.surface gbl) r).placedN - 1 } : LendState α) = s := by
    unfold LendState.putPlaced
    dsimp only
    rw [Function.update_idem, Int.add_sub_cancel, ← hk, Function.update_eq_self]
  have hzero : (s.putPlaced k (.surface gbl) r).placedN - 1 = 0 ↔ s.placedN = 0 := by
    show s.placedN + 1 - 1 = 0 ↔ _
    omega
  unfold m8ddUnplace
  rw [hfind]
  dsimp only
  by_cases hz : s.placedN = 0
  · rw [if_pos (hzero.mpr hz), if_pos hz, hundo]
  · rw [if_neg (hzero.not.mpr hz), if_neg hz, hundo]

/-- All of them taken away again : what there was, with the rows taken back if that is nothing. -/
theorem PlacedOn.undo {s₀ : LendState α} (hn : 0 ≤ s₀.placedN) : ∀ {done : List α}
    {s : LendState α}, PlacedOn s₀ done s →
      done.foldl (fun s gbl => m8ddUnplace m dc (.surface gbl) s) s =
        if s₀.placedN = 0 ∧ done ≠ [] then (m8ddLend m dc.back 0 s₀).2 else s₀
  | [], s, h => by
    obtain rfl := h
    rw [if_neg fun h => h.2 rfl]
    rfl
  | gbl :: done, s, h => by
    obtain ⟨s', k, r, hon, hk, hnew, rfl⟩ := h
    have hcount := hon.count
    rw [List.foldl_cons, m8ddUnplace_putPlaced hk hnew]
    by_cases hz : s'.placedN = 0
    · obtain rfl : done = [] := List.eq_nil_of_length_eq_zero (by omega)
      obtain rfl := hon
      rw [if_pos hz, if_pos ⟨hz, List.cons_ne_nil _ _⟩]
      rfl
    · rw [if_neg hz, hon.undo hn]
      cases done with
      | nil =>
        obtain rfl := hon
        rw [if_neg fun h => h.2 rfl, if_neg fun h => hz h.1]
      | cons g done =>
        exact if_congr (and_congr_right fun _ => iff_of_true (List.cons_ne_nil _ _)
          (List.cons_ne_nil _ _)) rfl rfl

/-! ## A list -/

theorem m8ddPlace_congr {s' : LendState α} (h : s.placed = s'.placed) (w l : ℕ) :
    m8ddPlace m w l s = m8ddPlace m w l s' := by
  unfold m8ddPlace placeCorners m8ddFits
  rw [h]

theorem placedFree_congr {s' : LendState α} (h : s.placed = s'.placed) :
    placedFree s = placedFree s' := by
  unfold placedFree
  rw [h]

theorem m8ddPlacesAll_congr : ∀ {list : List (α × ℕ × ℕ)} {s s' : LendState α},
    s.placed = s'.placed → m8ddPlacesAll m list s = m8ddPlacesAll m list s'
  | [], _, _, _ => rfl
  | (gbl, w, l) :: rest, s, s', h => by
    rw [m8ddPlacesAll, m8ddPlacesAll, m8ddPlace_congr h, placedFree_congr h]
    cases m8ddPlace m w l s' with
    | none => rfl
    | some r =>
      cases placedFree s' with
      | none => rfl
      | some k =>
        refine m8ddPlacesAll_congr ?_
        unfold LendState.putPlaced
        dsimp only
        rw [h]

/-- Those of a list that were placed, taken away again. -/
theorem PlaceIn.undo (dc : LendDc) : ∀ (done : List α) {s : LendState α}, PlaceIn m s →
    PlaceIn m (done.foldl (fun s gbl => m8ddUnplace m dc (.surface gbl) s) s) ∧
      s.placedN - done.length ≤
        (done.foldl (fun s gbl => m8ddUnplace m dc (.surface gbl) s) s).placedN
  | [], _, h => ⟨h, by simp⟩
  | gbl :: done, s, h => by
    obtain ⟨hin, hcount⟩ := (h.unplace dc (.surface gbl)).undo dc done
    have hone : s.placedN - 1 ≤ (m8ddUnplace m dc (.surface gbl) s).placedN :=
      m8ddUnplace_count _
    rw [List.length_cons, List.foldl_cons]
    exact ⟨hin, by omega⟩

/-- A list leaves the heap as it has to be, placed or not. -/
theorem m8ddPlaceAll_ok (hrows : m.heapRows ≠ 0) :
    ∀ {list : List (α × ℕ × ℕ)} {done : List α} {s : LendState α}, PlaceIn m s →
      s.lent = m.top → list ≠ [] ∨ s.placedN ≠ 0 → s.placedN + list.length ≤ 32 →
        done.length ≤ s.placedN →
        (s.placedN = done.length → m8ddPlacesAll m list s = false → dc.last = true) →
          PlaceOk m (m8ddPlaceAll m dc done list s)
  | [], _, s, h, _, hsome, _, _, _ => ⟨h, fun hz => absurd hz (hsome.resolve_left fun h => h rfl)⟩
  | (gbl, w, l) :: rest, done, s, h, hlent, _, hroom, hdone, hlast => by
    rw [List.length_cons] at hroom
    rw [m8ddPlacesAll] at hlast
    rw [m8ddPlaceAll]
    cases hr : m8ddPlace m w l s with
    | none =>
      rw [hr] at hlast
      obtain ⟨hun, hcount⟩ := h.undo dc done
      dsimp only
      split_ifs with hz
      · rw [hlast (by omega) rfl, m8ddLend_back]
        have hnone := hun.heap.none_of_zero hz
        have hheap : HeapOk m { done.foldl (fun s gbl => m8ddUnplace m dc (.surface gbl) s) s with
            scOff := false, lent := 0 } :=
          ⟨hun.heap.count, fun k e hk => absurd ((hnone k).symm.trans hk) (by simp), hun.heap.rows,
            hun.heap.apart⟩
        exact ⟨⟨hheap, hun.inside, rfl⟩, fun _ => rfl⟩
      · exact ⟨hun, fun h => absurd h hz⟩
    | some r =>
      have hcount := h.heap.count
      obtain ⟨k, hk⟩ := h.heap.free (by omega)
      rw [hr, hk] at hlast
      dsimp only
      rw [hk]
      refine m8ddPlaceAll_ok hrows (h.putPlaced hrows hlent (placedFree_none hk) _ hr) hlent
        (Or.inr ?_) ?_ ?_ fun heq => hlast ?_
      · show s.placedN + 1 ≠ 0
        omega
      · show s.placedN + 1 + (rest.length : ℤ) ≤ 32
        omega
      · show ((gbl :: done).length : ℤ) ≤ s.placedN + 1
        rw [List.length_cons]
        omega
      · change s.placedN + 1 = ((gbl :: done).length : ℤ) at heq
        rw [List.length_cons] at heq
        omega

/-- One that is not placed leaves what there was. -/
theorem m8ddPlaceAll_undone (hrows : m.heapRows ≠ 0) {s₀ : LendState α}
    (hlast : s₀.placedN = 0 → dc.last = true) (hn : 0 ≤ s₀.placedN) :
    ∀ {list : List (α × ℕ × ℕ)} {done : List α} {s : LendState α}, PlaceIn m s →
      s.lent = m.top → s.placedN + list.length ≤ 32 → PlacedOn s₀ done s →
      (list.map Prod.fst).Nodup →
      (∀ gbl ∈ list.map Prod.fst, ∀ k r, s.placed k ≠ some (.surface gbl, r)) →
      m8ddPlacesAll m list s = false →
        m8ddPlaceAll m dc done list s =
          if s₀.placedN = 0 then { s₀ with scOff := false, lent := 0 } else s₀
  | [], _, _, _, _, _, _, _, _, hfails => by cases hfails
  | (gbl, w, l) :: rest, done, s, h, hlent, hroom, hon, hnodup, hnew, hfails => by
    rw [List.length_cons] at hroom
    rw [m8ddPlacesAll] at hfails
    rw [m8ddPlaceAll]
    cases hr : m8ddPlace m w l s with
    | none =>
      dsimp only
      rw [hon.undo hn]
      by_cases hz : s₀.placedN = 0
      · rw [if_pos hz, hlast hz, m8ddLend_back]
        by_cases hdone : done = []
        · rw [if_neg (c := s₀.placedN = 0 ∧ done ≠ []) fun h => h.2 hdone, if_pos hz]
        · rw [if_pos (c := s₀.placedN = 0 ∧ done ≠ []) ⟨hz, hdone⟩,
            if_pos ((m8ddLend_placedN _).trans hz), m8ddLend_idem]
      · rw [if_neg hz, if_neg (c := s₀.placedN = 0 ∧ done ≠ []) fun h => hz h.1, if_neg hz]
    | some r =>
      have hcount := h.heap.count
      obtain ⟨k, hk⟩ := h.heap.free (by omega)
      have hnone := placedFree_none hk
      rw [hr, hk] at hfails
      rw [hk]
      rw [List.map_cons, List.nodup_cons] at hnodup
      refine m8ddPlaceAll_undone hrows hlast hn (h.putPlaced hrows hlent hnone _ hr) hlent ?_
        ⟨s, k, r, hon, hnone, hnew gbl List.mem_cons_self, rfl⟩ hnodup.2 ?_ hfails
      · show s.placedN + 1 + (rest.length : ℤ) ≤ 32
        omega
      · intro g hg j r' hj
        unfold LendState.putPlaced at hj
        dsimp only at hj
        by_cases hjk : j = k
        · rw [hjk, Function.update_self] at hj
          simp only [Option.some.injEq, Prod.mk.injEq, HeapKey.surface.injEq] at hj
          exact hnodup.1 (hj.1 ▸ hg)
        · rw [Function.update_of_ne hjk] at hj
          exact hnew g (List.mem_cons_of_mem _ hg) j r' hj

/-! ## Creating -/

theorem PlaceIn.lend (h : PlaceIn m s) (hz : s.placedN = 0) : PlaceIn m (m8DdLend m 1 s) := by
  refine ⟨h.heap.lend hz 1, fun k e hk => ?_, ?_⟩
  · rw [m8DdLend_placed] at hk
    exact h.inside k e hk
  · unfold m8DdLend
    split_ifs <;> rfl

/-- What `m8dd_create_surface` does to a list it gets as far as placing. -/
theorem m8ddCreateSurface_cases (dc : LendDc) (s : LendState α) (hm : m.fb16 = false)
    (plain : Bool) (list : List (α × ℕ × ℕ)) :
    (m8ddCreateSurface m dc plain list s = s ∧ m8ddCreateReturn m dc plain list s ≠ .ok) ∨
      m.heapRows ≠ 0 ∧ list ≠ [] ∧ s.placedN + list.length ≤ 32 ∧
        ((m8ddCreateReturn m dc plain list s ≠ .ok) ↔ m8ddPlacesAll m list s = false) ∧
        (s.placedN = 0 ∧ m8ddCreateSurface m dc plain list s =
            m8ddPlaceAll m dc [] list (m8DdLend m 1 s) ∨
          s.placedN ≠ 0 ∧ m8ddCreateSurface m dc plain list s = m8ddPlaceAll m dc [] list s) := by
  unfold m8ddCreateSurface m8ddCreateReturn
  rw [if_neg (by simp [hm])]
  by_cases hlist : m.heapRows = 0 ∨ list = []
  · exact Or.inl ⟨if_pos hlist, by rw [if_pos hlist]; exact nofun⟩
  rw [if_neg hlist, if_neg hlist]
  obtain ⟨hrows, hne⟩ := not_or.1 hlist
  cases plain with
  | false => exact Or.inl ⟨rfl, nofun⟩
  | true =>
  rw [if_neg (c := (!true) = true) nofun, if_neg (c := (!true) = true) nofun]
  by_cases hmany : 32 < s.placedN + list.length
  · exact Or.inl ⟨if_pos hmany, by rw [if_pos hmany]; exact nofun⟩
  rw [if_neg hmany, if_neg hmany]
  have hfails : (if m8ddPlacesAll m list s = true then DdReturn.ok else .outOfVideoMemory) ≠ .ok ↔
      m8ddPlacesAll m list s = false := by
    cases m8ddPlacesAll m list s <;> simp
  by_cases hz : s.placedN = 0
  · rw [if_pos hz]
    cases hl : dc.lend with
    | false => exact Or.inl ⟨rfl, by rw [if_pos ⟨hz, rfl⟩]; exact nofun⟩
    | true =>
      rw [if_neg (c := s.placedN = 0 ∧ true = false) fun h => nomatch h.2]
      exact Or.inr ⟨hrows, hne, by omega, hfails, Or.inl ⟨hz, rfl⟩⟩
  · rw [if_neg hz, if_neg fun h => hz h.1]
    exact Or.inr ⟨hrows, hne, by omega, hfails, Or.inr ⟨hz, rfl⟩⟩

theorem PlaceOk.create (hm : m.fb16 = false) (h : PlaceOk m s) (plain : Bool)
    {list : List (α × ℕ × ℕ)}
    (hlast : s.placedN = 0 → m8ddPlacesAll m list s = false → dc.last = true) :
    PlaceOk m (m8ddCreateSurface m dc plain list s) := by
  have hn : 0 ≤ s.placedN := by
    have hcount := h.heap.count
    omega
  rcases m8ddCreateSurface_cases dc s hm plain list with
    ⟨heq, -⟩ | ⟨hrows, hne, hroom, -, ⟨hz, heq⟩ | ⟨hz, heq⟩⟩
  · rw [heq]
    exact h
  · rw [heq]
    refine m8ddPlaceAll_ok hrows (h.toPlaceIn.lend hz) (m8DdLend_lent (LendMode.rows_pos hrows))
      (Or.inl hne) (by rw [m8DdLend_placedN]; exact hroom) (by rw [m8DdLend_placedN]; exact hn)
      fun _ hfails => hlast hz ?_
    rwa [m8ddPlacesAll_congr (m8DdLend_placed 1)] at hfails
  · rw [heq]
    exact m8ddPlaceAll_ok hrows h.toPlaceIn (h.heap.lent_of_ne hz) (Or.inl hne) hroom hn
      fun heq => absurd heq hz

/-- A creation that fails changes nothing. -/
theorem PlaceOk.create_fails (hm : m.fb16 = false) (h : PlaceOk m s) {plain : Bool}
    {list : List (α × ℕ × ℕ)}
    (hlast : s.placedN = 0 → m8ddPlacesAll m list s = false → dc.last = true)
    (hnodup : (list.map Prod.fst).Nodup)
    (hnew : ∀ gbl ∈ list.map Prod.fst, ∀ k r, s.placed k ≠ some (.surface gbl, r))
    (hfails : m8ddCreateReturn m dc plain list s ≠ .ok) :
    m8ddCreateSurface m dc plain list s = s := by
  have hn : 0 ≤ s.placedN := by
    have hcount := h.heap.count
    omega
  rcases m8ddCreateSurface_cases dc s hm plain list with
    ⟨heq, -⟩ | ⟨hrows, hne, hroom, hiff, ⟨hz, heq⟩ | ⟨hz, heq⟩⟩
  · exact heq
  · have hundone := m8ddPlaceAll_undone hrows
      (fun _ => hlast hz (hiff.1 hfails))
      (by rw [m8DdLend_placedN]; exact hn) (h.toPlaceIn.lend hz)
      (m8DdLend_lent (LendMode.rows_pos hrows)) (by rw [m8DdLend_placedN]; exact hroom)
      (PlacedOn.nil (m8DdLend m 1 s)) hnodup (by rw [m8DdLend_placed]; exact hnew)
      (by rw [m8ddPlacesAll_congr (m8DdLend_placed 1)]; exact hiff.1 hfails)
    rw [heq, hundone, if_pos ((m8DdLend_placedN 1).trans hz)]
    have hback := h.back hz
    have hoff := h.scOff
    unfold m8DdLend
    rw [if_neg (by decide)]
    split_ifs
    all_goals
      cases s
      simp_all
  · have hundone := m8ddPlaceAll_undone hrows (fun hz => hlast hz (hiff.1 hfails)) hn
      h.toPlaceIn (h.heap.lent_of_ne hz) hroom
      (PlacedOn.nil s) hnodup hnew (hiff.1 hfails)
    rw [heq, hundone, if_neg hz]

/-! ## Scratch -/

theorem PlaceOk.putScratch (h : PlaceIn m s) (hrows : m.heapRows ≠ 0) (hlent : s.lent = m.top)
    {j : Fin 32} (hj : s.placed j = none) (k : Fin 4) {w l : ℕ} {r : Rect}
    (hr : m8ddPlace m w l s = some r) : PlaceOk m (s.putPlaced j (.context k) r) := by
  refine ⟨h.putPlaced hrows hlent hj _ hr, fun hz => ?_⟩
  have hcount := h.heap.count
  change s.placedN + 1 = 0 at hz
  omega

theorem PlaceOk.scratch (hm : m.fb16 = false) (h : PlaceOk m s) (dc : LendDc) (k : Fin 4)
    (w l : ℕ) : PlaceOk m (m8d3dScratch m dc k w l s).2 ∧
      ((m8d3dScratch m dc k w l s).1 = none → (m8d3dScratch m dc k w l s).2 = s) := by
  unfold m8d3dScratch
  rw [if_neg (by simp [hm])]
  by_cases hrows : m.heapRows = 0
  · rw [if_pos hrows]
    exact ⟨h, fun _ => rfl⟩
  rw [if_neg hrows]
  cases hr : m8ddPlace m w l s with
  | none => exact ⟨h, fun _ => rfl⟩
  | some r =>
    cases hj : placedFree s with
    | none => exact ⟨h, fun _ => rfl⟩
    | some j =>
      have hnone := placedFree_none hj
      dsimp only
      by_cases hz : s.placedN = 0
      · rw [if_pos hz]
        unfold m8ddLend
        cases dc.lend with
        | false => exact ⟨h, fun _ => rfl⟩
        | true =>
          refine ⟨?_, nofun⟩
          exact PlaceOk.putScratch (h.toPlaceIn.lend hz) hrows
            (m8DdLend_lent (LendMode.rows_pos hrows)) (by rw [m8DdLend_placed, hnone]) k
            ((m8ddPlace_congr (m8DdLend_placed 1) w l).trans hr)
      · rw [if_neg hz]
        exact ⟨PlaceOk.putScratch h.toPlaceIn hrows (h.heap.lent_of_ne hz) hnone k hr, nofun⟩

/-! ## Runs -/

theorem LendState.init_placeOk : PlaceOk m (LendState.init : LendState α) where
  heap := ⟨rfl, nofun, nofun, nofun⟩
  inside _ _ h := absurd h nofun
  scOff := rfl
  back _ := rfl

theorem placeStep_ok (hm : m.fb16 = false) (h : PlaceOk m s) {op : PlaceOp α}
    (hback : op.TakesBack m s) : PlaceOk m (placeStep m s op) := by
  cases op with
  | create dc plain list => exact h.create hm plain hback
  | destroy dc gbl => exact h.unplace hback
  | scratch dc k w l => exact (h.scratch hm dc k w l).1
  | scratchFree dc k =>
    rw [placeStep, m8d3dScratchFree, if_neg (by simp [hm])]
    exact h.unplace hback

theorem placeRun_ok (hm : m.fb16 = false) : ∀ (ops : List (PlaceOp α)) {s : LendState α},
    PlaceOk m s → TakesBacks m s ops → PlaceOk m (placeRun m s ops)
  | [], _, h, _ => h
  | _ :: ops, _, h, hback => placeRun_ok hm ops (placeStep_ok hm h hback.1) hback.2

/-- A call that fails changes nothing. -/
theorem placeStep_fails (hm : m.fb16 = false) (h : PlaceOk m s) {op : PlaceOp α}
    (hback : op.TakesBack m s) (hfresh : op.Fresh s) (hfails : op.Fails m s) :
    placeStep m s op = s := by
  cases op with
  | create dc plain list => exact h.create_fails hm hback hfresh.1 hfresh.2 hfails
  | scratch dc k w l => exact (h.scratch hm dc k w l).2 hfails
  | destroy dc gbl => exact absurd hfails id
  | scratchFree dc k => exact absurd hfails id

/-- In every run at 8 bpp whose escapes that take the rows back reach the driver, what is placed is
apart, inside the heap and counted, the rows are lent exactly while there is some, and a call that
fails leaves all as it was. -/
theorem m8dd_placement_sound (m : LendMode) (hm : m.fb16 = false) (ops : List (PlaceOp α))
    (hback : TakesBacks m .init ops) :
    (placeRun m .init ops).PlacedSound m ∧
      ∀ op : PlaceOp α, op.TakesBack m (placeRun m .init ops) → op.Fresh (placeRun m .init ops) →
        op.Fails m (placeRun m .init ops) →
          placeStep m (placeRun m .init ops) op = placeRun m .init ops := by
  have hrun := placeRun_ok hm ops LendState.init_placeOk hback
  exact ⟨hrun.sound, fun op hop hfresh hfails => placeStep_fails hm hrun hop hfresh hfails⟩

/-- Two surfaces, a context, a list with no place for its second, and all of it gone again. -/
theorem m8dd_placement_sound_turns :
    (placeRun ⟨640, 480, false, true⟩ .init
      [.create ⟨true, true, true⟩ true [(1, 64, 64), (2, 320, 200)],
        .scratch ⟨true, true, true⟩ 0 320 200,
        .create ⟨true, true, true⟩ true [(3, 16, 16), (4, 2000, 16)],
        .destroy ⟨true, true, true⟩ 1, .scratchFree ⟨true, true, true⟩ 0,
        .destroy ⟨true, true, true⟩ 2]).PlacedSound ⟨640, 480, false, true⟩ :=
  (m8dd_placement_sound (α := ℕ) ⟨640, 480, false, true⟩ rfl _ (by decide +kernel)).1

/-- The last surface goes and the escape fails : the rows stay lent with nothing placed. So they do
when a list that fails was the first. -/
theorem m8dd_placement_not_taken_back :
    ¬ (placeRun ⟨640, 480, false, true⟩ .init
        [.create ⟨true, true, true⟩ true [(1, 64, 64)],
          .destroy ⟨true, false, true⟩ 1]).PlacedSound ⟨640, 480, false, true⟩ ∧
      (placeStep ⟨640, 480, false, true⟩ .init
        (.create ⟨true, false, false⟩ true [(1, 64, 64), (2, 2000, 16)])).lent ≠
          (LendState.init : LendState ℕ).lent := by
  refine ⟨fun h => ?_, by decide +kernel⟩
  have hpos := h.lent.mp (by decide +kernel)
  revert hpos
  decide +kernel

end Heap

end Inboard
