import Mathlib.Order.Basic
import Mathlib.Tactic.Common
import Mathlib.Algebra.Order.Ring.Int
import Mathlib.Algebra.Order.Ring.Nat

/-!
# Stacked intervals

A list of intervals, none of them empty, that fill a range from its start to its end in order. Where
a part of the list is replaced by a stack of the same range, the list stays one
(`Stacked.splice`), and two of its intervals that share a point are one (`Stacked.eq_of_meet`).
-/

set_option linter.unusedSectionVars false

namespace Inboard

variable {α ι : Type*} [LinearOrder ι] (lo hi : α → ι)

/-- The intervals of a list fill the range from the first bound to the second, in order. -/
def Stacked : ι → List α → ι → Prop
  | a, [], c => a = c
  | a, t :: ts, c => lo t = a ∧ lo t < hi t ∧ Stacked (hi t) ts c

namespace Stacked

variable {lo hi} {a b c : ι} {l l' : List α} {t u : α}

theorem append : ∀ {l : List α} {a : ι},
    Stacked lo hi a (l ++ l') c ↔ ∃ b, Stacked lo hi a l b ∧ Stacked lo hi b l' c
  | [], a => by
    rw [List.nil_append]
    refine ⟨fun h => ⟨a, rfl, h⟩, ?_⟩
    rintro ⟨b, hab, h⟩
    rw [show a = b from hab]
    exact h
  | t :: ts, a => by
    rw [List.cons_append, Stacked, append]
    constructor
    · rintro ⟨hlo, hlt, b, hts, h⟩
      exact ⟨b, ⟨hlo, hlt, hts⟩, h⟩
    · rintro ⟨b, ⟨hlo, hlt, hts⟩, h⟩
      exact ⟨hlo, hlt, b, hts, h⟩

theorem le : ∀ {l : List α} {a : ι}, Stacked lo hi a l c → a ≤ c
  | [], _, h => le_of_eq h
  | t :: ts, a, h => by
    obtain ⟨hlo, hlt, hts⟩ := h
    rw [← hlo]
    exact hlt.le.trans (le hts)

/-- An interval of the list is inside its range. -/
theorem bounds : ∀ {l : List α} {a : ι}, Stacked lo hi a l c → t ∈ l →
    a ≤ lo t ∧ lo t < hi t ∧ hi t ≤ c
  | u :: us, a, h, hmem => by
    obtain ⟨hlo, hlt, hus⟩ := h
    rcases List.mem_cons.1 hmem with rfl | hmem
    · exact ⟨hlo.ge, hlt, le hus⟩
    · obtain ⟨hle, hlt', hc⟩ := bounds hus hmem
      exact ⟨hlo.ge.trans (hlt.le.trans hle), hlt', hc⟩

/-- Two intervals of the list that share a point are one. -/
theorem eq_of_meet : ∀ {l : List α} {a : ι}, Stacked lo hi a l c → t ∈ l → u ∈ l →
    lo t < hi u → lo u < hi t → t = u
  | v :: vs, a, h, ht, hu, htu, hut => by
    obtain ⟨hlo, hlt, hvs⟩ := h
    rcases List.mem_cons.1 ht with hv | ht'
    · rcases List.mem_cons.1 hu with hv' | hu'
      · exact hv.trans hv'.symm
      · rw [hv] at hut
        exact absurd hut (not_lt.2 (bounds hvs hu').1)
    · rcases List.mem_cons.1 hu with hv' | hu'
      · rw [hv'] at htu
        exact absurd htu (not_lt.2 (bounds hvs ht').1)
      · exact eq_of_meet hvs ht' hu' htu hut

/-- The range starts with the first interval. -/
theorem head (h : Stacked lo hi a l c) (ht : l[0]? = some t) : lo t = a := by
  cases l with
  | nil => cases ht
  | cons u us => rw [← Option.some.inj ht, h.1]

/-- The range ends with the last interval. -/
theorem last : ∀ {l : List α} {a : ι}, Stacked lo hi a l c → l[l.length - 1]? = some t → hi t = c
  | [u], _, h, ht => by
    rw [← Option.some.inj ht]
    exact h.2.2
  | u :: v :: vs, _, h, ht => last h.2.2 ht

theorem exists_last (h : Stacked lo hi a l c) (hne : l ≠ []) : ∃ t ∈ l, hi t = c :=
  ⟨l.getLast hne, List.getLast_mem hne, h.last (List.getLast?_eq_getElem?.symm.trans
    (List.getLast?_eq_some_getLast hne))⟩

/-- A list in two at any place. -/
theorem split (h : Stacked lo hi a l c) (n : ℕ) :
    ∃ b, Stacked lo hi a (l.take n) b ∧ Stacked lo hi b (l.drop n) c :=
  append.1 (by rwa [List.take_append_drop])

/-- A part of the list replaced by a stack of the same range. -/
theorem splice {l₁ mid l₂ new : List α} (h : Stacked lo hi a (l₁ ++ mid ++ l₂) c)
    (hnew : ∀ b b', Stacked lo hi b mid b' → Stacked lo hi b new b') :
    Stacked lo hi a (l₁ ++ new ++ l₂) c := by
  obtain ⟨b', hmid, h₂⟩ := append.1 h
  obtain ⟨b, h₁, hmid⟩ := append.1 hmid
  exact append.2 ⟨b', append.2 ⟨b, h₁, hnew b b' hmid⟩, h₂⟩

/-- An interval of the list replaced by one with its bounds. -/
theorem set {k : ℕ} (h : Stacked lo hi a l c) (ht : l[k]? = some t) (hlo : lo u = lo t)
    (hhi : hi u = hi t) : Stacked lo hi a (l.set k u) c := by
  obtain ⟨hk, hget⟩ := List.getElem?_eq_some_iff.1 ht
  have hl : l = l.take k ++ [t] ++ l.drop (k + 1) := by
    rw [List.append_assoc, List.singleton_append, ← hget, List.getElem_cons_drop,
      List.take_append_drop]
  rw [hl] at h
  rw [List.set_eq_take_append_cons_drop, if_pos hk, List.append_cons]
  refine splice h fun b b' hb => ?_
  obtain ⟨rfl, hlt, hb'⟩ := hb
  exact ⟨hlo, by rw [hlo, hhi]; exact hlt, by rw [hhi]; exact hb'⟩

end Stacked

section TakeWhile

variable {α : Type*} {p : α → Bool} {l : List α} {t : α}

theorem take_length_takeWhile : l.take (l.takeWhile p).length = l.takeWhile p :=
  (List.prefix_iff_eq_take.1 (List.takeWhile_prefix p)).symm

/-- The first that `takeWhile` leaves out. -/
theorem get_length_takeWhile (h : l[(l.takeWhile p).length]? = some t) : p t = false := by
  have hget : (l.takeWhile p ++ l.dropWhile p)[(l.takeWhile p).length]? = some t := by
    rwa [List.takeWhile_append_dropWhile]
  have hnot := List.head?_dropWhile_not p l
  rw [List.getElem?_append_right (Nat.le_refl _), Nat.sub_self, ← List.head?_eq_getElem?] at hget
  rw [hget] at hnot
  exact hnot

end TakeWhile

end Inboard
