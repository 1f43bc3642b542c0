import Inboard.Proxies

/-!
# A rectangle cut into pieces

The pieces of a rectangle `r` beside another one `o` that overlaps it : the part inside `o`, and the
bands above, below, to the left and to the right of it (`Rect.cuts_bands`).
-/

set_option linter.unusedSectionVars false

namespace Inboard

namespace Rect

variable {r o a : Rect} {q : Pixel}

/-- The rectangles of a list are apart, and together they are `r`. -/
structure Cuts (r : Rect) (l : List Rect) : Prop where
  mem : ∀ q, q ∈ r ↔ ∃ a ∈ l, q ∈ a
  apart : l.Pairwise Apart

theorem cuts_self (r : Rect) : r.Cuts [r] where
  mem q := by simp
  apart := List.pairwise_singleton _ _

/-- The pieces of a cutting are apart from what only meets the first of them. -/
theorem Cuts.apart_tail {l : List Rect} (h : r.Cuts (r.inter o :: l)) (ha : a ∈ l) :
    a.Apart o := by
  intro q hq ho
  have hr : q ∈ r := (h.mem q).2 ⟨a, List.mem_cons_of_mem _ ha, hq⟩
  exact List.rel_of_pairwise_cons h.apart ha q (mem_inter.2 ⟨hr, ho⟩) hq

theorem Cuts.mem_of {l : List Rect} (h : r.Cuts l) (ha : a ∈ l) (hq : q ∈ a) : q ∈ r :=
  (h.mem q).2 ⟨a, ha, hq⟩

theorem Overlaps.of_mem (hr : q ∈ a) (ho : q ∈ o) : a.Overlaps o := by
  rw [mem_iff] at hr ho
  unfold Overlaps
  omega

/-- Rectangles that do not overlap have no pixel in common. -/
theorem apart_of_not_overlaps (h : ¬ a.Overlaps o) : a.Apart o := fun _ ha ho => h (.of_mem ha ho)

theorem Overlaps.symm (h : a.Overlaps o) : o.Overlaps a := by
  unfold Overlaps at h ⊢
  omega

/-- The four rectangles beside `o`, those that are empty too. -/
def around (r o : Rect) : List Rect :=
  [⟨r.left, r.top, r.right, o.top⟩, ⟨r.left, o.bottom, r.right, r.bottom⟩,
    ⟨r.left, max r.top o.top, o.left, min r.bottom o.bottom⟩,
    ⟨o.right, max r.top o.top, r.right, min r.bottom o.bottom⟩]

theorem bands_sublist (r o : Rect) : (r.bands o).Sublist (r.around o) := by
  have hone (c : Prop) [Decidable c] (b : Rect) : (if c then [b] else []).Sublist [b] := by
    split_ifs
    · exact List.Sublist.refl _
    · exact List.nil_sublist _
  exact (((hone _ _).append (hone _ _)).append (hone _ _)).append (hone _ _)

theorem around_apart (hleft : o.left < o.right) (htop : o.top < o.bottom) :
    (r.inter o :: r.around o).Pairwise Apart := by
  simp only [around, inter, List.pairwise_cons, List.mem_cons, List.not_mem_nil, or_false,
    forall_eq_or_imp, forall_eq, Apart, mem_iff, Prod.forall, List.Pairwise.nil, and_true,
    IsEmpty.forall_iff, implies_true]
  refine ⟨⟨?_, ?_, ?_, ?_⟩, ⟨?_, ?_, ?_⟩, ⟨?_, ?_⟩, ?_⟩ <;> intros <;> omega

theorem mem_bands {a : Rect} : a ∈ r.bands o ↔
    (r.top < o.top ∧ a = ⟨r.left, r.top, r.right, o.top⟩) ∨
    (o.bottom < r.bottom ∧ a = ⟨r.left, o.bottom, r.right, r.bottom⟩) ∨
    (r.left < o.left ∧ a = ⟨r.left, max r.top o.top, o.left, min r.bottom o.bottom⟩) ∨
    (o.right < r.right ∧ a = ⟨o.right, max r.top o.top, r.right, min r.bottom o.bottom⟩) := by
  have hone (c : Prop) [Decidable c] (b : Rect) : a ∈ (if c then [b] else []) ↔ c ∧ a = b := by
    split_ifs with hc <;> simp [hc]
  simp only [bands, List.mem_append, hone, or_assoc]

/-- No band is empty. -/
theorem size_of_mem_bands (hleft : r.left < r.right) (htop : r.top < r.bottom)
    (hover : r.Overlaps o) (hotop : o.top < o.bottom) (ha : a ∈ r.bands o) :
    a.left < a.right ∧ a.top < a.bottom := by
  unfold Overlaps at hover
  rcases mem_bands.1 ha with ⟨h, rfl⟩ | ⟨h, rfl⟩ | ⟨h, rfl⟩ | ⟨h, rfl⟩ <;> dsimp only <;> omega

/-- The part inside `o` and the bands cut the rectangle. -/
theorem cuts_bands (hleft : o.left < o.right) (htop : o.top < o.bottom) (hover : r.Overlaps o) :
    r.Cuts (r.inter o :: r.bands o) where
  mem q := by
    unfold Overlaps at hover
    constructor
    · intro hq
      by_cases ho : q ∈ o
      · exact ⟨_, List.mem_cons_self .., mem_inter.2 ⟨hq, ho⟩⟩
      suffices hband : ∃ a ∈ r.bands o, q ∈ a by
        obtain ⟨a, ha, hqa⟩ := hband
        exact ⟨a, List.mem_cons_of_mem _ ha, hqa⟩
      rw [mem_iff] at hq ho
      by_cases h1 : q.2 < o.top
      · exact ⟨_, mem_bands.2 (.inl ⟨by omega, rfl⟩), by rw [mem_iff]; dsimp only; omega⟩
      by_cases h2 : o.bottom ≤ q.2
      · exact ⟨_, mem_bands.2 (.inr (.inl ⟨by omega, rfl⟩)), by rw [mem_iff]; dsimp only; omega⟩
      by_cases h3 : q.1 < o.left
      · exact ⟨_, mem_bands.2 (.inr (.inr (.inl ⟨by omega, rfl⟩))), by
          rw [mem_iff]; dsimp only; omega⟩
      · exact ⟨_, mem_bands.2 (.inr (.inr (.inr ⟨by omega, rfl⟩))), by
          rw [mem_iff]; dsimp only; omega⟩
    · rintro ⟨a, ha, hq⟩
      obtain rfl | ha := List.mem_cons.1 ha
      · exact (mem_inter.1 hq).1
      rw [mem_iff] at hq ⊢
      rcases mem_bands.1 ha with ⟨h, rfl⟩ | ⟨h, rfl⟩ | ⟨h, rfl⟩ | ⟨h, rfl⟩ <;> dsimp only at hq <;>
        omega
  apart := (around_apart hleft htop).sublist ((bands_sublist r o).cons_cons _)

end Rect

end Inboard
