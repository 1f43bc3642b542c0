import Mathlib.Tactic.Common
import Mathlib.Data.List.Induction
import Mathlib.Logic.Function.Basic

/-!
# Stores with failing writes

What a store of pages is for, over any pages and contents : every page has a content, a
write that ends `done` replaces it, and a read that succeeds gives it. A write that fails
leaves the content as it was (`kept`) or leaves something nobody wrote (`lost`). `Run` is
a store taking events one after another, `held` what the events alone say a page holds,
and `Run.read_eq` that a read gives it. An implementation is shown to be such a store by
explaining its log with a `Run`, one event at a time (`Run.snoc`).
-/

namespace Inboard.Store

variable {π κ : Type*} [DecidableEq π]

/-- How a write ended. -/
inductive Ended where
  | done
  | kept
  | lost
  deriving DecidableEq

/-- One operation on a page, with the content written or read. -/
inductive Event (π κ : Type*) where
  | write (page : π) (content : κ) (ended : Ended)
  | read (page : π) (content : κ)
  | refused (page : π)

/-- What an event does to the contents, and which events they allow. -/
inductive Step : (π → κ) → Event π κ → (π → κ) → Prop where
  | done (st : π → κ) (p : π) (c : κ) : Step st (.write p c .done) (Function.update st p c)
  | kept (st : π → κ) (p : π) (c : κ) : Step st (.write p c .kept) st
  | lost (st : π → κ) (p : π) (c d : κ) : Step st (.write p c .lost) (Function.update st p d)
  | read (st : π → κ) (p : π) : Step st (.read p (st p)) st
  | refused (st : π → κ) (p : π) : Step st (.refused p) st

/-- A store taking events from contents to contents. -/
inductive Run : (π → κ) → List (Event π κ) → (π → κ) → Prop where
  | nil (st : π → κ) : Run st [] st
  | snoc {st st' st'' : π → κ} {es : List (Event π κ)} {e : Event π κ} (h : Run st es st')
      (he : Step st' e st'') : Run st (es ++ [e]) st''

/-! ## What the events say a page holds -/

/-- What `p` is known to hold after one more event. -/
def heldAfter (p : π) (last : Option κ) : Event π κ → Option κ
  | .write q c .done => if q = p then some c else last
  | .write q _ .lost => if q = p then none else last
  | .write _ _ .kept | .read _ _ | .refused _ => last

/-- What `p` is known to hold after `es` : what the last write of it that ended `done`
wrote, unless a later one was lost. -/
def held (p : π) (es : List (Event π κ)) : Option κ :=
  es.foldl (heldAfter p) none

@[simp] theorem held_nil (p : π) : held p ([] : List (Event π κ)) = none := rfl

theorem held_snoc (p : π) (es : List (Event π κ)) (e : Event π κ) :
    held p (es ++ [e]) = heldAfter p (held p es) e := by
  rw [held, List.foldl_append]
  rfl

/-- One step keeps what is known. -/
theorem Step.held {st st' : π → κ} {e : Event π κ} (h : Step st e st') {p : π} {last : Option κ}
    (hlast : ∀ c ∈ last, st p = c) : ∀ c ∈ heldAfter p last e, st' p = c := by
  cases h with
  | done q d =>
    intro c hc
    by_cases hq : q = p
    · subst hq
      rw [heldAfter, if_pos rfl] at hc
      rw [Function.update_self]
      exact Option.some.inj hc
    · rw [heldAfter, if_neg hq] at hc
      rw [Function.update_of_ne (Ne.symm hq)]
      exact hlast c hc
  | lost q d d' =>
    intro c hc
    by_cases hq : q = p
    · rw [heldAfter, if_pos hq] at hc
      exact absurd hc (by simp)
    · rw [heldAfter, if_neg hq] at hc
      rw [Function.update_of_ne (Ne.symm hq)]
      exact hlast c hc
  | kept q d => exact hlast
  | read q => exact hlast
  | refused q => exact hlast

/-- After a run a page holds what its events say. -/
theorem Run.held {st st' : π → κ} {es : List (Event π κ)} (h : Run st es st') (p : π) :
    ∀ c ∈ held p es, st' p = c := by
  induction h with
  | nil => exact fun c hc => absurd hc (by simp)
  | snoc h he ih =>
    rw [held_snoc]
    exact he.held ih

/-- A run splits at any event. -/
theorem Run.split {st st' : π → κ} {pre post : List (Event π κ)} {e : Event π κ}
    (h : Run st (pre ++ e :: post) st') : ∃ st₁ st₂, Run st pre st₁ ∧ Step st₁ e st₂ := by
  generalize hes : pre ++ e :: post = es at h
  induction h generalizing post with
  | nil => simp at hes
  | snoc hrun hstep ih =>
    rcases List.eq_nil_or_concat post with rfl | ⟨post', x, rfl⟩
    · obtain ⟨rfl, he⟩ := List.append_inj' hes rfl
      obtain rfl := List.singleton_inj.1 he
      exact ⟨_, _, hrun, hstep⟩
    · rw [List.concat_eq_append, ← List.cons_append, ← List.append_assoc] at hes
      exact ih (List.append_inj' hes rfl).1

/-- A read that succeeds gives what the events before it say the page holds. -/
theorem Run.read_eq {st st' : π → κ} {pre post : List (Event π κ)} {p : π} {c : κ}
    (h : Run st (pre ++ .read p c :: post) st') {d : κ} (hd : Store.held p pre = some d) :
        c = d := by
  obtain ⟨st₁, st₂, hrun, hstep⟩ := h.split
  cases hstep with
  | read => exact hrun.held p d hd

/-- A page holds what a write that ended `done` wrote, until an event changes it. -/
theorem held_of_done {p : π} {c : κ} (past : List (Event π κ)) {later : List (Event π κ)}
    (h : ∀ e ∈ later, ∀ last, heldAfter p last e = last) :
    held p (past ++ .write p c .done :: later) = some c := by
  induction later using List.reverseRecOn with
  | nil =>
    rw [held_snoc, heldAfter, if_pos rfl]
  | append_singleton later e ih =>
    rw [← List.cons_append, ← List.append_assoc, held_snoc, h e (by simp)]
    exact ih fun e' he' => h e' (List.mem_append_left _ he')

end Inboard.Store
