import Mathlib.Tactic.Common

/-!
# Runs of a step function

A system that takes one action after another, over any states and actions : where a run
ends (`after`), what holds in every state of it (`Everywhere`) and of every step of it
(`EveryStep`). An invariant of the steps holds everywhere (`Everywhere.of_inv`). Where one
step says exactly when it keeps a property, so does a run (`everywhere_iff`), and two
properties of the steps that agree under an invariant agree over a run
(`everyStep_iff`).
-/

namespace Inboard.Steps

variable {σ α : Type*} (step : σ → α → σ)

/-- The state after the actions. -/
def after (s : σ) (as : List α) : σ := as.foldl step s

@[simp] theorem after_nil (s : σ) : after step s [] = s := rfl

@[simp] theorem after_cons (s : σ) (a : α) (as : List α) :
    after step s (a :: as) = after step (step s a) as := rfl

theorem after_append (s : σ) (as bs : List α) :
    after step s (as ++ bs) = after step (after step s as) bs :=
  List.foldl_append

/-- `P` holds in every state of the run. -/
def Everywhere (P : σ → Prop) : σ → List α → Prop
  | s, [] => P s
  | s, a :: as => P s ∧ Everywhere P (step s a) as

/-- `C` holds of every step of the run. -/
def EveryStep (C : σ → α → Prop) : σ → List α → Prop
  | _, [] => True
  | s, a :: as => C s a ∧ EveryStep C (step s a) as

variable {step}

/-- The states of a run are where its beginnings end. -/
theorem everywhere_iff_prefix {P : σ → Prop} {s : σ} {as : List α} :
    Everywhere step P s as ↔ ∀ pre post, as = pre ++ post → P (after step s pre) := by
  induction as generalizing s with
  | nil =>
    constructor
    · intro h pre post heq
      obtain ⟨rfl, -⟩ := List.append_eq_nil_iff.1 heq.symm
      exact h
    · intro h
      exact h [] [] rfl
  | cons a as ih =>
    constructor
    · rintro ⟨h, hs⟩ pre post heq
      cases pre with
      | nil => exact h
      | cons b pre =>
        obtain ⟨rfl, rfl⟩ := List.cons.inj heq
        exact ih.1 hs pre post rfl
    · intro h
      exact ⟨h [] _ rfl, ih.2 fun pre post heq => h (a :: pre) post (by rw [heq, List.cons_append])⟩

/-- An invariant of the steps holds everywhere. -/
theorem Everywhere.of_inv {I : σ → Prop} (hstep : ∀ s a, I s → I (step s a)) :
    ∀ {s : σ} {as : List α}, I s → Everywhere step I s as
  | _, [], h => h
  | s, a :: _, h => ⟨h, of_inv hstep (hstep s a h)⟩

theorem inv_after {I : σ → Prop} (hstep : ∀ s a, I s → I (step s a)) :
    ∀ {s : σ} (as : List α), I s → I (after step s as)
  | _, [], h => h
  | s, a :: as, h => inv_after hstep as (hstep s a h)

/-- If a step keeps `P` exactly when `C` holds of it, a run keeps `P` exactly when `C`
holds of every step. -/
theorem everywhere_iff {P : σ → Prop} {C : σ → α → Prop}
    (h : ∀ s a, P s → (P (step s a) ↔ C s a)) :
    ∀ {s : σ} {as : List α}, P s → (Everywhere step P s as ↔ EveryStep step C s as)
  | _, [], hs => iff_of_true hs trivial
  | s, a :: as, hs => by
    constructor
    · rintro ⟨-, hrest⟩
      have hnext : P (step s a) := everywhere_iff_prefix.1 hrest [] as rfl
      exact ⟨(h s a hs).1 hnext, (everywhere_iff h hnext).1 hrest⟩
    · rintro ⟨hstep, hrest⟩
      have hnext := (h s a hs).2 hstep
      exact ⟨hs, (everywhere_iff h hnext).2 hrest⟩

/-- Two properties of a step that agree under an invariant they keep. -/
theorem everyStep_iff {I : σ → Prop} {C D : σ → α → Prop}
    (h : ∀ s a, I s → (C s a ↔ D s a)) (hkeep : ∀ s a, I s → D s a → I (step s a)) :
    ∀ {s : σ} {as : List α}, I s → (EveryStep step C s as ↔ EveryStep step D s as)
  | _, [], _ => Iff.rfl
  | s, a :: as, hs => by
    constructor
    · rintro ⟨hstep, hrest⟩
      have hD := (h s a hs).1 hstep
      exact ⟨hD, (everyStep_iff h hkeep (hkeep s a hs hD)).1 hrest⟩
    · rintro ⟨hstep, hrest⟩
      exact ⟨(h s a hs).2 hstep, (everyStep_iff h hkeep (hkeep s a hs hstep)).2 hrest⟩

/-! ## Logs -/

section Log

variable {ε : Type*} (log : σ → List ε)

/-- What was logged from `s` to `t`. -/
def new (s t : σ) : List ε := (log t).drop (log s).length

variable {log}

theorem new_eq {s t : σ} {es : List ε} (h : log t = log s ++ es) : new log s t = es := by
  rw [new, h, List.drop_left]

theorem append_new {s t : σ} (h : log s <+: log t) : log s ++ new log s t = log t := by
  obtain ⟨es, hes⟩ := h
  rw [new_eq hes.symm, hes]

theorem new_trans {s t u : σ} (h : log s <+: log t) (h' : log t <+: log u) :
    new log s u = new log s t ++ new log t u := by
  refine new_eq ?_
  rw [← List.append_assoc, append_new h, append_new h']

theorem log_after (hlog : ∀ s a, log s <+: log (step s a)) :
    ∀ (s : σ) (as : List α), log s <+: log (after step s as)
  | _, [] => List.prefix_rfl
  | s, a :: as => (hlog s a).trans (log_after hlog (step s a) as)

theorem new_after_append (hlog : ∀ s a, log s <+: log (step s a)) (s : σ) (as bs : List α) :
    new log s (after step s (as ++ bs)) =
      new log s (after step s as) ++
        new log (after step s as) (after step (after step s as) bs) := by
  rw [after_append]
  exact new_trans (log_after hlog s as) (log_after hlog _ bs)

/-- All that a run logs satisfies `Q` when all that each step logs does. -/
theorem everyStep_new_iff (hlog : ∀ s a, log s <+: log (step s a)) {Q : ε → Prop} :
    ∀ {s : σ} {as : List α}, (∀ e ∈ new log s (after step s as), Q e) ↔
      EveryStep step (fun s a => ∀ e ∈ new log s (step s a), Q e) s as
  | s, [] => by
    have hnil : new log s s = [] := new_eq (List.append_nil _).symm
    simp only [after_nil, hnil, EveryStep, iff_true]
    intro e he
    exact absurd he List.not_mem_nil
  | s, a :: as => by
    rw [after_cons, new_trans (hlog s a) (log_after hlog _ as), List.forall_mem_append, EveryStep,
      everyStep_new_iff hlog]

end Log

end Inboard.Steps
