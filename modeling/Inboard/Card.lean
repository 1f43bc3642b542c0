import Inboard.Pixels

/-!
# What the engine draws

The screen as indices, and what `m8_hw_fill`, `m8_hw_copy` and `m8_hw_write_rect` put on it
(`CardOp`). A routine that draws is the list of its calls. `Painted D f c₀ c` : on `D` the card
is `f`, elsewhere it is as before; a call adds its rectangle to `D`, if what it draws there is
`f`. A copy reads what is on the screen, so its source has to be in `D` already.

Runs of equal rows and dither patterns go out as copies of what is there that double
(`doubling`), and what has to pass through a buffer goes in strips (`strips`);
`doubling_induct` and `strips_induct` are what they share.
-/

set_option linter.unusedSectionVars false

namespace Inboard

/-! ## Calls -/

abbrev Card := Pixel → UInt8

/-- A rectangle by its corner and size. -/
def Rect.at (x y w h : ℤ) : Rect := ⟨x, y, x + w, y + h⟩

theorem Rect.mem_at {x y w h : ℤ} {p : Pixel} :
    p ∈ Rect.at x y w h ↔ x ≤ p.1 ∧ p.1 < x + w ∧ y ≤ p.2 ∧ p.2 < y + h := Iff.rfl

/-- `m8_hw_fill`, `m8_hw_copy` and `m8_hw_write_rect`, this with its buffer and pitch. -/
inductive CardOp
  | fill (x y w h : ℤ) (color : UInt8)
  | copy (sx sy dx dy w h : ℤ)
  | write (x y w h : ℤ) (src : ℕ → UInt8) (pitch : ℕ)

/-- What a call draws. A copy is as if it read first : overlapping areas are copied from the
far end. A host word carries two pixels, so an odd last column is not written. -/
def CardOp.apply : CardOp → Card → Card
  | .fill x y w h color, c => (Rect.at x y w h).paint (fun _ => color) c
  | .copy sx sy dx dy w h, c =>
    (Rect.at dx dy w h).paint (fun p => c (p.1 - dx + sx, p.2 - dy + sy)) c
  | .write x y w h src pitch, c =>
    (Rect.at x y (w / 2 * 2) h).paint
      (fun p => src ((p.2 - y).toNat * pitch + (p.1 - x).toNat)) c

/-- Calls in order. -/
def applyAll (ops : List CardOp) (c : Card) : Card := ops.foldl (fun c op => op.apply c) c

@[simp] theorem applyAll_nil (c : Card) : applyAll [] c = c := rfl

@[simp] theorem applyAll_cons (op : CardOp) (ops : List CardOp) (c : Card) :
    applyAll (op :: ops) c = applyAll ops (op.apply c) := rfl

@[simp] theorem applyAll_append (ops ops' : List CardOp) (c : Card) :
    applyAll (ops ++ ops') c = applyAll ops' (applyAll ops c) := List.foldl_append

/-- A host write is from an even column and of an even width. -/
def CardOp.EvenWrite : CardOp → Prop
  | .write x _ w _ _ _ => 2 ∣ x ∧ 2 ∣ w
  | _ => True

/-! ## What is drawn so far -/

/-- On `D` the card is `f`, elsewhere it is `c₀`. -/
def Painted (D : Pixel → Prop) (f c₀ c : Card) : Prop :=
  ∀ p, (D p → c p = f p) ∧ (¬ D p → c p = c₀ p)

namespace Painted

variable {D D' : Pixel → Prop} {f c₀ c : Card} {x y w h : ℤ}

theorem start (f c₀ : Card) : Painted (fun _ => False) f c₀ c₀ := fun _ =>
    ⟨False.elim, fun _ => rfl⟩

theorem congr (hp : Painted D f c₀ c) (hD : ∀ p, D' p ↔ D p) : Painted D' f c₀ c := fun p => by
  rw [hD]
  exact hp p

theorem eq_paint {r : Rect} (hp : Painted (· ∈ r) f c₀ c) : c = r.paint f c₀ := by
  funext p
  by_cases hr : p ∈ r
  · rw [(hp p).1 hr, Rect.paint_mem hr]
  · rw [(hp p).2 hr, Rect.paint_not_mem hr]

/-- A call that draws `f` on a rectangle. -/
theorem paint (hp : Painted D f c₀ c) {r : Rect} {v : Card} (hv : ∀ p ∈ r, v p = f p) :
    Painted (fun p => D p ∨ p ∈ r) f c₀ (r.paint v c) := fun p => by
  by_cases hr : p ∈ r
  · rw [Rect.paint_mem hr]
    exact ⟨fun _ => hv p hr, fun hn => absurd (.inr hr) hn⟩
  · rw [Rect.paint_not_mem hr]
    exact ⟨fun hD => (hp p).1 (hD.resolve_right hr), fun hn => (hp p).2 fun hD => hn (.inl hD)⟩

theorem fill (hp : Painted D f c₀ c) (color : UInt8)
    (hf : ∀ p ∈ Rect.at x y w h, f p = color) :
    Painted (fun p => D p ∨ p ∈ Rect.at x y w h) f c₀ ((CardOp.fill x y w h color).apply c) :=
  hp.paint fun p hr => (hf p hr).symm

theorem copy (hp : Painted D f c₀ c) {sx sy : ℤ}
    (hf : ∀ p ∈ Rect.at x y w h, D (p.1 - x + sx, p.2 - y + sy) ∧
      f (p.1 - x + sx, p.2 - y + sy) = f p) :
    Painted (fun p => D p ∨ p ∈ Rect.at x y w h) f c₀ ((CardOp.copy sx sy x y w h).apply c) :=
  hp.paint fun p hr => ((hp _).1 (hf p hr).1).trans (hf p hr).2

theorem write (hp : Painted D f c₀ c) (src : ℕ → UInt8) (pitch : ℕ) (hw : 2 ∣ w)
    (hf : ∀ p ∈ Rect.at x y w h, src ((p.2 - y).toNat * pitch + (p.1 - x).toNat) = f p) :
    Painted (fun p => D p ∨ p ∈ Rect.at x y w h) f c₀
      ((CardOp.write x y w h src pitch).apply c) := by
  have heven : w / 2 * 2 = w := Int.ediv_mul_cancel hw
  unfold CardOp.apply
  dsimp only
  rw [heven]
  exact hp.paint hf

end Painted

/-! ## Doubling -/

/-- Where each copy goes and how much it copies, until `total` is there : all that is there,
or what is left. -/
def doubling (total done : ℕ) : List (ℕ × ℕ) :=
  if h : 0 < done ∧ done < total then
    let n := min (total - done) done
    (done, n) :: doubling total (done + n)
  else []
termination_by total - done
decreasing_by omega

/-- While what is there is a whole number of periods, each copy goes on the pattern. -/
theorem doubling_induct {σ : Type*} {P : ℕ → σ → Prop} (step : σ → ℕ × ℕ → σ) (per : ℕ)
    {total : ℕ} (hstep : ∀ d n s, per ∣ d → 0 < n → n ≤ d → d + n ≤ total → P d s →
      P (d + n) (step s (d, n))) {d : ℕ} {s : σ} (hd : d = total ∨ per ∣ d ∧ 0 < d ∧ d ≤ total)
    (hP : P d s) : P total ((doubling total d).foldl step s) := by
  rw [doubling]
  split_ifs with h
  · obtain ⟨hper, -, -⟩ := hd.resolve_left (by omega)
    rw [List.foldl_cons]
    have hnext := hstep d (min (total - d) d) s hper (by omega) (by omega) (by omega) hP
    refine doubling_induct step per hstep ?_ hnext
    rcases Nat.lt_or_ge (total - d) d with hlt | hge
    · exact .inl (by omega)
    · refine .inr ⟨?_, by omega, by omega⟩
      rw [Nat.min_eq_right hge]
      exact Nat.dvd_add hper hper
  · obtain rfl : d = total := by omega
    exact hP
termination_by total - d
decreasing_by omega

/-! ## Strips -/

/-- From `done` on, `n` rows at a time and at last what is left of `total` : where each strip
starts and how many rows it has. -/
def strips (n total done : ℕ) : List (ℕ × ℕ) :=
  if h : 0 < n ∧ done < total then
    let k := min n (total - done)
    (done, k) :: strips n total (done + k)
  else []
termination_by total - done
decreasing_by omega

/-- What each strip keeps : all but the last have `n` rows. -/
theorem strips_induct {σ : Type*} {P : ℕ → σ → Prop} (step : σ → ℕ × ℕ → σ) {n total : ℕ}
    (hstep : ∀ d k s, 0 < k → k = min n (total - d) → P d s → P (d + k) (step s (d, k)))
    (hn : 0 < n) {d : ℕ} {s : σ} (hd : d ≤ total) (hP : P d s) :
    P total ((strips n total d).foldl step s) := by
  rw [strips]
  split_ifs with h
  · have hnext := hstep d (min n (total - d)) s (by omega) rfl hP
    exact strips_induct step hstep hn (by omega) hnext
  · obtain rfl : d = total := by omega
    exact hP
termination_by total - d
decreasing_by omega

end Inboard
