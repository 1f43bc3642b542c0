import Mathlib.Order.Defs.Unbundled
import Mathlib.Tactic.SplitIfs

/-!
# Routines that may fail

A routine changes a state and returns whether it went through ; one that does not is not followed
by another (`Routine.seq`), and what it has changed by then stays. `seq_induct` and `all_induct`
are the rules for what such runs keep, and `Moves R` says that whatever a routine does, and however
far it comes, is a step of `R`, as it is of the routines it is made of. `Agree R` says that two
routines, over states that `R` relates, go through or fail together.
-/

set_option linter.unusedSectionVars false

namespace Inboard

/-- A routine over the states `σ`, and whether it went through. -/
abbrev Routine (σ : Type*) := σ → Bool × σ

namespace Routine

variable {σ : Type*} {f g : Routine σ} {s : σ}

/-- Nothing to do. -/
def ok : Routine σ := fun s => (true, s)

/-- `g` once `f` went through. -/
def seq (f g : Routine σ) : Routine σ := fun s => if (f s).1 = true then g (f s).2 else f s

/-- What is noted by the way. -/
def note (f : σ → σ) : Routine σ := fun s => (true, f s)

/-- In order, up to the first that fails. -/
def all : List (Routine σ) → Routine σ
  | [] => ok
  | f :: fs => f.seq (all fs)

theorem seq_true (h : (f s).1 = true) : f.seq g s = g (f s).2 := if_pos h

theorem seq_false (h : (f s).1 ≠ true) : f.seq g s = f s := if_neg h

theorem seq_assoc (f g k : Routine σ) : (f.seq g).seq k = f.seq (g.seq k) := by
  funext s
  by_cases h : (f s).1 = true
  · rw [seq_true (f := f) h]
    by_cases h' : (g (f s).2).1 = true
    · rw [seq_true h', seq_true ((congrArg Prod.fst (seq_true h)).trans h'), seq_true h]
    · rw [seq_false h', seq_false fun hg => h' ((congrArg Prod.fst (seq_true h)).symm.trans hg),
        seq_true h]
  · rw [seq_false (f := f) h,
      seq_false fun hg => h ((congrArg Prod.fst (seq_false h)).symm.trans hg), seq_false h]

theorem seq_ok (f : Routine σ) : f.seq ok = f := by
  funext s
  by_cases h : (f s).1 = true
  · rw [seq_true h]
    exact Prod.ext h.symm rfl
  · rw [seq_false h]

theorem all_append : ∀ fs gs : List (Routine σ), all (fs ++ gs) = (all fs).seq (all gs)
  | [], _ => rfl
  | f :: fs, gs => by
    rw [List.cons_append, all, all, all_append fs gs, seq_assoc]

/-- What holds after `f`, and after `g` wherever it goes on from, holds after both. -/
theorem seq_induct {P : σ → Prop} (hf : P (f s).2)
    (hg : (f s).1 = true → P (f s).2 → P (g (f s).2).2) : P (f.seq g s).2 := by
  by_cases h : (f s).1 = true
  · rw [seq_true h]
    exact hg h hf
  · rw [seq_false h]
    exact hf

/-- What each of a list keeps, the list keeps. -/
theorem all_induct {P : σ → Prop} : ∀ {fs : List (Routine σ)} {s : σ},
    (∀ f ∈ fs, ∀ s, P s → P (f s).2) → P s → P (all fs s).2
  | [], _, _, h => h
  | f :: _, s, hfs, h =>
    seq_induct (hfs f List.mem_cons_self s h) fun _ hs =>
      all_induct (fun g hg => hfs g (List.mem_cons_of_mem f hg)) hs

/-! ## Steps -/

/-- Whatever the routine does is a step of `R`. -/
def Moves (R : σ → σ → Prop) (f : Routine σ) : Prop := ∀ s, R s (f s).2

namespace Moves

variable {R : σ → σ → Prop} [IsPreorder σ R]

theorem ok : Moves R (ok : Routine σ) := fun s => Std.Refl.refl s

theorem seq (hf : Moves R f) (hg : Moves R g) : Moves R (f.seq g) := fun s =>
  seq_induct (hf s) fun _ h => IsTrans.trans _ _ _ h (hg _)

theorem all {fs : List (Routine σ)} (h : ∀ f ∈ fs, Moves R f) : Moves R (all fs) := fun s =>
  all_induct (P := R s) (fun f hf t ht => IsTrans.trans _ _ _ ht (h f hf t)) (Std.Refl.refl s)

theorem ite {p : Prop} [Decidable p] (hf : Moves R f) (hg : Moves R g) :
    Moves R (if p then f else g) := by
  split_ifs
  · exact hf
  · exact hg

/-- A choice made by the state. -/
theorem iteS (p : σ → Prop) [DecidablePred p] (hf : Moves R f) (hg : Moves R g) :
    Moves R fun s => if p s then f s else g s := fun s => by
  dsimp only
  split_ifs
  · exact hf s
  · exact hg s

/-- What reads the state first. -/
theorem reads {F : σ → Routine σ} (h : ∀ s, Moves R (F s)) : Moves R fun s => F s s :=
  fun s => h s s

end Moves

/-! ## Routines that go through -/

/-- The routine goes through from any state. -/
def Goes (f : Routine σ) : Prop := ∀ s, (f s).1 = true

namespace Goes

theorem ok : Goes (ok : Routine σ) := fun _ => rfl

theorem note (f : σ → σ) : Goes (note f) := fun _ => rfl

theorem seq (hf : Goes f) (hg : Goes g) : Goes (f.seq g) := fun s => by
  rw [seq_true (hf s)]
  exact hg _

theorem all : ∀ {fs : List (Routine σ)}, (∀ f ∈ fs, Goes f) → Goes (all fs)
  | [], _ => ok
  | f :: _, h => (h f List.mem_cons_self).seq (all fun g hg => h g (List.mem_cons_of_mem f hg))

theorem ite {p : Prop} [Decidable p] (hf : Goes f) (hg : Goes g) : Goes (if p then f else g) := by
  split_ifs
  · exact hf
  · exact hg

/-- What reads the state first. -/
theorem reads {F : σ → Routine σ} (h : ∀ s, Goes (F s)) : Goes fun s => F s s := fun s => h s s

end Goes

/-! ## Two routines in step -/

section Agree

variable {τ : Type*} {R : σ → τ → Prop} {f' g' : Routine τ}

/-- From states that `R` relates, `f` and `f'` both go through or both fail, and `R` relates
what they leave. -/
def Agree (R : σ → τ → Prop) (f : Routine σ) (f' : Routine τ) : Prop :=
  ∀ s t, R s t → (f s).1 = (f' t).1 ∧ R (f s).2 (f' t).2

namespace Agree

theorem ok : Agree R (ok : Routine σ) (ok : Routine τ) := fun _ _ h => ⟨rfl, h⟩

theorem note {f : σ → σ} {f' : τ → τ} (h : ∀ s t, R s t → R (f s) (f' t)) :
    Agree R (note f) (note f') := fun s t hst => ⟨rfl, h s t hst⟩

theorem seq (hf : Agree R f f') (hg : Agree R g g') : Agree R (f.seq g) (f'.seq g') := by
  intro s t hst
  obtain ⟨hgoes, hrel⟩ := hf s t hst
  by_cases h : (f s).1 = true
  · rw [seq_true h, seq_true (hgoes ▸ h)]
    exact hg _ _ hrel
  · rw [seq_false h, seq_false (hgoes ▸ h)]
    exact ⟨hgoes, hrel⟩

end Agree

end Agree

end Routine

end Inboard
