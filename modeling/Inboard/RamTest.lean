import Mathlib.Tactic.Common
import Mathlib.Data.List.Basic
import Mathlib.Logic.Function.Basic
import Mathlib.Algebra.Order.Ring.Int
import Mathlib.Algebra.Order.Ring.Nat

/-!
# Testing memory that may alias

Dwords of memory on storage cells, as a test sees them. A `Board` says which cell a dword is
decoded onto, and what a cell makes of a write : two dwords may share a cell, and a cell may
be stuck or take no writes. A test fills a range (`Ram.fill`) and reads it back
(`Ram.scan`) ; the log keeps each access. A range that is read back holds what was put in it
last (`Ram.returned_scan`), and where dwords hold values of their own at once, their cells are
different (`Board.decode_ne`).
-/

set_option linter.unusedSectionVars false

namespace Inboard

/-- How dwords are decoded onto cells : `store c old v` is what the cell `c` holds after `v` is
written to it over `old`. -/
structure Board (κ : Type*) where
  decode : ℕ → κ
  store : κ → UInt32 → UInt32 → UInt32

/-- An access to a dword. -/
inductive RamAccess
  | write (d : ℕ) (v : UInt32)
  | read (d : ℕ) (v : UInt32)
  deriving DecidableEq, Repr

/-- What the cells hold, and the accesses made. -/
structure Ram (κ : Type*) where
  content : κ → UInt32
  log : List RamAccess

/-! ## The log -/

/-- No access of the list writes `d`. -/
def Unwritten (d : ℕ) (es : List RamAccess) : Prop := ∀ v, .write d v ∉ es

/-- The last write to `d` was of `v`. -/
def LastWrite (log : List RamAccess) (d : ℕ) (v : UInt32) : Prop :=
  ∃ pre mid, log = pre ++ .write d v :: mid ∧ Unwritten d mid

/-- `d` was read as `v`, and the last write to it before that was of `v`. -/
def Returned (log : List RamAccess) (d : ℕ) (v : UInt32) : Prop :=
  ∃ pre mid post, log = pre ++ .write d v :: (mid ++ .read d v :: post) ∧ Unwritten d mid

section Log

variable {log es fs : List RamAccess} {d : ℕ} {v : UInt32}

theorem unwritten_append : Unwritten d (es ++ fs) ↔ Unwritten d es ∧ Unwritten d fs := by
  simp [Unwritten, forall_and]

theorem LastWrite.append (h : LastWrite log d v) (hes : Unwritten d es) :
    LastWrite (log ++ es) d v := by
  obtain ⟨pre, mid, rfl, hmid⟩ := h
  exact ⟨pre, mid ++ es, by simp, unwritten_append.2 ⟨hmid, hes⟩⟩

theorem Returned.append (h : Returned log d v) (es : List RamAccess) :
    Returned (log ++ es) d v := by
  obtain ⟨pre, mid, post, rfl, hmid⟩ := h
  exact ⟨pre, mid, post ++ es, by simp, hmid⟩

/-- A dword written once since. -/
theorem LastWrite.of_written (log : List RamAccess) (hes : Unwritten d es) :
    LastWrite (log ++ .write d v :: es) d v :=
  ⟨log, es, rfl, hes⟩

/-- A dword that is read back. -/
theorem LastWrite.returned (h : LastWrite log d v) (hes : Unwritten d es)
    (fs : List RamAccess) : Returned (log ++ (es ++ .read d v :: fs)) d v := by
  obtain ⟨pre, mid, rfl, hmid⟩ := h
  exact ⟨pre, mid ++ es, fs, by simp, unwritten_append.2 ⟨hmid, hes⟩⟩

end Log

/-- The writes of a fill, and the reads that find it. -/
def fillLog (f : ℕ → UInt32) (n d : ℕ) : List RamAccess :=
  (List.range' d n).map fun i => .write i (f i)

def scanLog (f : ℕ → UInt32) (n d : ℕ) : List RamAccess :=
  (List.range' d n).map fun i => .read i (f i)

theorem fillLog_succ (f : ℕ → UInt32) (n d : ℕ) :
    fillLog f (n + 1) d = .write d (f d) :: fillLog f n (d + 1) :=
  rfl

theorem scanLog_succ (f : ℕ → UInt32) (n d : ℕ) :
    scanLog f (n + 1) d = .read d (f d) :: scanLog f n (d + 1) :=
  rfl

theorem unwritten_scanLog (f : ℕ → UInt32) (n d i : ℕ) : Unwritten i (scanLog f n d) := by
  simp [Unwritten, scanLog]

theorem unwritten_fillLog {f : ℕ → UInt32} {n d i : ℕ} (hi : i < d ∨ d + n ≤ i) :
    Unwritten i (fillLog f n d) := by
  intro v h
  simp only [fillLog, List.mem_map, List.mem_range'_1] at h
  obtain ⟨j, hj, heq⟩ := h
  obtain ⟨rfl, -⟩ := RamAccess.write.inj heq
  omega

/-- A range splits at each of its dwords. -/
theorem range'_split {d n i : ℕ} (hi : d ≤ i) (hn : i < d + n) :
    List.range' d n = List.range' d (i - d) ++ i :: List.range' (i + 1) (d + n - (i + 1)) := by
  obtain ⟨k, rfl⟩ := Nat.exists_eq_add_of_le hi
  obtain ⟨m, rfl⟩ : ∃ m, n = k + (m + 1) := ⟨n - k - 1, by omega⟩
  rw [← List.range'_append_1, List.range'_succ, Nat.add_sub_cancel_left]
  congr 3
  omega

theorem lastWrite_fillLog (log : List RamAccess) (f : ℕ → UInt32) {n d i : ℕ} (hi : d ≤ i)
    (hn : i < d + n) : LastWrite (log ++ fillLog f n d) i (f i) := by
  rw [fillLog, range'_split hi hn, List.map_append, ← List.append_assoc, List.map_cons]
  exact .of_written _ (unwritten_fillLog (.inl (Nat.lt_succ_self i)))

theorem returned_scanLog {log : List RamAccess} {f : ℕ → UInt32} {n d i : ℕ} (hi : d ≤ i)
    (hn : i < d + n) (h : LastWrite log i (f i)) : Returned (log ++ scanLog f n d) i (f i) := by
  rw [scanLog, range'_split hi hn, List.map_append, List.map_cons]
  exact h.returned (unwritten_scanLog f (i - d) d i) _

namespace Ram

variable {κ : Type*} [DecidableEq κ] (B : Board κ)

/-! ## Accesses -/

def write (d : ℕ) (v : UInt32) (r : Ram κ) : Ram κ where
  content := Function.update r.content (B.decode d)
      (B.store (B.decode d) (r.content (B.decode d)) v)
  log := r.log ++ [.write d v]

def read (d : ℕ) (r : Ram κ) : UInt32 × Ram κ :=
  (r.content (B.decode d), { r with log := r.log ++ [.read d (r.content (B.decode d))] })

/-- `f i` to each dword `i` of the `n` from `d` on. -/
def fill (f : ℕ → UInt32) : ℕ → ℕ → Ram κ → Ram κ
  | 0, _, r => r
  | n + 1, d, r => fill f n (d + 1) (r.write B d (f d))

/-- Whether each dword `i` of the `n` from `d` on reads as `f i` ; the first that does not ends
the scan. -/
def scan (f : ℕ → UInt32) : ℕ → ℕ → Ram κ → Bool × Ram κ
  | 0, _, r => (true, r)
  | n + 1, d, r =>
    if (r.read B d).1 = f d then scan f n (d + 1) (r.read B d).2 else (false, (r.read B d).2)

/-! ## Tests -/

theorem fill_log (f : ℕ → UInt32) : ∀ (n d : ℕ) (r : Ram κ),
    (r.fill B f n d).log = r.log ++ fillLog f n d
  | 0, _, r => (List.append_nil r.log).symm
  | n + 1, d, r => by
    rw [fill, fill_log f n, fillLog_succ, write, List.append_assoc]
    rfl

theorem scan_content (f : ℕ → UInt32) : ∀ (n d : ℕ) (r : Ram κ),
    (r.scan B f n d).2.content = r.content
  | 0, _, _ => rfl
  | n + 1, d, r => by
    rw [scan]
    split_ifs
    · exact scan_content f n (d + 1) (r.read B d).2
    · rfl

/-- A scan only reads. -/
theorem scan_log (f : ℕ → UInt32) : ∀ (n d : ℕ) (r : Ram κ),
    ∃ es, (r.scan B f n d).2.log = r.log ++ es ∧ ∀ i, Unwritten i es
  | 0, _, r => ⟨[], (List.append_nil r.log).symm, fun i v => List.not_mem_nil⟩
  | n + 1, d, r => by
    have hread : ∀ i, Unwritten i [.read d (r.content (B.decode d))] := by simp [Unwritten]
    rw [scan]
    split_ifs
    · obtain ⟨es, hlog, hes⟩ := scan_log f n (d + 1) (r.read B d).2
      refine ⟨_ :: es, hlog.trans (List.append_assoc ..), fun i => ?_⟩
      exact unwritten_append.2 ⟨hread i, hes i⟩
    · exact ⟨_, rfl, hread⟩

/-- A scan that finds what it looks for has read all of it. -/
theorem scan_log_of_true (f : ℕ → UInt32) : ∀ (n d : ℕ) (r : Ram κ),
    (r.scan B f n d).1 = true → (r.scan B f n d).2.log = r.log ++ scanLog f n d
  | 0, _, r, _ => (List.append_nil r.log).symm
  | n + 1, d, r, h => by
    rw [scan] at h ⊢
    split_ifs at h ⊢ with hread
    rw [scan_log_of_true f n (d + 1) _ h, scanLog_succ, ← hread]
    exact List.append_assoc ..

theorem scan_true (f : ℕ → UInt32) : ∀ (n d : ℕ) (r : Ram κ), (r.scan B f n d).1 = true →
    ∀ i, d ≤ i → i < d + n → r.content (B.decode i) = f i
  | 0, _, _, _, _, hi, hn => absurd hi (Nat.not_le_of_lt hn)
  | n + 1, d, r, h, i, hi, hn => by
    rw [scan] at h
    split_ifs at h with hread
    rcases Nat.eq_or_lt_of_le hi with rfl | hlt
    · exact hread
    · exact scan_true f n (d + 1) (r.read B d).2 h i hlt (by omega)

/-- A range that is filled and read back. -/
theorem returned_scan {f : ℕ → UInt32} {n d i : ℕ} {r : Ram κ} (h : (r.scan B f n d).1 = true)
    (hi : d ≤ i) (hn : i < d + n) (hlast : LastWrite r.log i (f i)) :
    Returned (r.scan B f n d).2.log i (f i) := by
  rw [scan_log_of_true B f n d r h]
  exact returned_scanLog hi hn hlast

end Ram

/-- Dwords that hold values of their own are on different cells. -/
theorem Board.decode_ne {κ : Type*} (B : Board κ) {content : κ → UInt32} {f : ℕ → UInt32} {d e : ℕ}
    (hd : content (B.decode d) = f d) (he : content (B.decode e) = f e) (h : f d ≠ f e) :
    B.decode d ≠ B.decode e := by
  intro heq
  rw [heq, he] at hd
  exact h hd.symm

end Inboard
