import Mathlib.Tactic.Common
import Mathlib.Algebra.Order.Ring.Int
import Mathlib.Algebra.Order.Ring.Nat

/-!
# Byte memory in segments

What the assembly modules share : 32-bit register arithmetic (`add32`, `sub32`), memory
as separate segments of bytes (`Mem`, a segment for each buffer a routine is given), and
a `Machine` that logs every access beside the memory, so that a routine can be said to
stay inside its buffers. A store of any width is a `blit`, and adjacent blits join
(`blit_append`), so a routine that writes forward has written one list. `repMovs` is
`rep movsb` and `rep movsd`.
-/

namespace Inboard

/-! ## Registers -/

/-- `add` on 32-bit registers. -/
def add32 (a b : ℕ) : ℕ := if a + b < 2 ^ 32 then a + b else a + b - 2 ^ 32

/-- `sub` on 32-bit registers. -/
def sub32 (a b : ℕ) : ℕ := if b ≤ a then a - b else a + 2 ^ 32 - b

theorem sub32_eq {a b : ℕ} (h : b ≤ a) : sub32 a b = a - b :=
  if_pos h

/-- A fact about every byte, from the 256 numbers. -/
theorem forall_byte {P : UInt8 → Prop} (h : ∀ n < 256, P (UInt8.ofNat n)) (val : UInt8) :
    P val := by
  have hval := h val.toNat val.toNat_lt
  rwa [UInt8.ofNat_toNat] at hval

/-! ## Memory -/

/-- The bytes of each segment, by offset. -/
abbrev Mem (ρ : Type*) := ρ → ℕ → UInt8

namespace Mem

variable {ρ : Type*} (mem : Mem ρ)

/-- The `n` bytes of `s` from `a`. -/
def bytes (s : ρ) (a n : ℕ) : List UInt8 :=
  (List.range n).map fun i => mem s (a + i)

@[simp] theorem length_bytes (s : ρ) (a n : ℕ) : (mem.bytes s a n).length = n := by
  simp [bytes]

@[simp] theorem bytes_zero (s : ρ) (a : ℕ) : mem.bytes s a 0 = [] := rfl

theorem getElem_bytes (s : ρ) (a n i : ℕ) (h : i < (mem.bytes s a n).length) :
    (mem.bytes s a n)[i] = mem s (a + i) := by
  simp [bytes]

theorem bytes_add (s : ρ) (a n m : ℕ) :
    mem.bytes s a (n + m) = mem.bytes s a n ++ mem.bytes s (a + n) m := by
  simp [bytes, List.range_add, Function.comp_def, Nat.add_assoc]

theorem take_bytes (s : ρ) (a : ℕ) {n m : ℕ} (h : n ≤ m) :
    (mem.bytes s a m).take n = mem.bytes s a n := by
  obtain ⟨k, rfl⟩ := Nat.exists_eq_add_of_le h
  rw [bytes_add, List.take_append_of_le_length (by simp), List.take_of_length_le (by simp)]

theorem bytes_one (s : ρ) (a : ℕ) : mem.bytes s a 1 = [mem s a] := by
  simp [bytes]

/-- A 32-bit load, low byte first. -/
def dword (s : ρ) (a : ℕ) : ℕ :=
  (mem s a).toNat + 256 * (mem s (a + 1)).toNat + 65536 * (mem s (a + 2)).toNat +
    16777216 * (mem s (a + 3)).toNat

/-- Equal dwords are equal bytes. -/
theorem eq_of_dword_eq {s t : ρ} {a b : ℕ} (h : mem.dword s a = mem.dword t b) :
    ∀ k < 4, mem s (a + k) = mem t (b + k) := by
  unfold dword at h
  have ha := fun i => (mem s i).toNat_lt
  have hb := fun i => (mem t i).toNat_lt
  have ha0 := ha a
  have ha1 := ha (a + 1)
  have ha2 := ha (a + 2)
  have hb0 := hb b
  have hb1 := hb (b + 1)
  have hb2 := hb (b + 2)
  have h0 : mem s a = mem t b := UInt8.toNat_inj.1 (by omega)
  have h1 : mem s (a + 1) = mem t (b + 1) := UInt8.toNat_inj.1 (by omega)
  have h2 : mem s (a + 2) = mem t (b + 2) := UInt8.toNat_inj.1 (by omega)
  have h3 : mem s (a + 3) = mem t (b + 3) := UInt8.toNat_inj.1 (by omega)
  intro k hk
  obtain rfl | rfl | rfl | rfl : k = 0 ∨ k = 1 ∨ k = 2 ∨ k = 3 := by omega
  exacts [h0, h1, h2, h3]

theorem bytes_congr {mem mem' : Mem ρ} {s t : ρ} {a b n : ℕ}
    (h : ∀ i < n, mem s (a + i) = mem' t (b + i)) : mem.bytes s a n = mem'.bytes t b n :=
  List.map_congr_left fun i hi => h i (List.mem_range.1 hi)

theorem eq_of_bytes_eq {ρ' : Type*} {mem : Mem ρ} {mem' : Mem ρ'} {s : ρ} {t : ρ'} {a b n : ℕ}
    (h : mem.bytes s a n = mem'.bytes t b n) {i : ℕ} (hi : i < n) :
    mem s (a + i) = mem' t (b + i) := by
  rw [← getElem_bytes mem s a n i (by rwa [length_bytes]),
    ← getElem_bytes mem' t b n i (by rwa [length_bytes])]
  exact List.getElem_of_eq h _

/-- `bs` stands at `a`. -/
def Holds (s : ρ) (a : ℕ) (bs : List UInt8) : Prop := mem.bytes s a bs.length = bs

theorem holds_congr {mem mem' : Mem ρ} {s : ρ} (h : mem s = mem' s) (a : ℕ) (bs : List UInt8) :
    mem.Holds s a bs ↔ mem'.Holds s a bs := by
  unfold Holds bytes
  rw [h]

theorem holds_append (s : ρ) (a : ℕ) (xs ys : List UInt8) :
    mem.Holds s a (xs ++ ys) ↔ mem.Holds s a xs ∧ mem.Holds s (a + xs.length) ys := by
  rw [Holds, List.length_append, bytes_add]
  constructor
  · intro h
    exact List.append_inj h (by simp)
  · rintro ⟨hx, hy⟩
    rw [hx, hy]

theorem holds_cons (s : ρ) (a : ℕ) (x : UInt8) (xs : List UInt8) :
    mem.Holds s a (x :: xs) ↔ mem s a = x ∧ mem.Holds s (a + 1) xs := by
  have h := mem.holds_append s a [x] xs
  simpa [Holds, bytes_one] using h

variable [DecidableEq ρ]

/-- Write `bs` into `s` from `a`. -/
def blit (s : ρ) (a : ℕ) (bs : List UInt8) : Mem ρ := fun t i =>
  if t = s ∧ a ≤ i ∧ i < a + bs.length then bs.getD (i - a) 0 else mem t i

@[simp] theorem blit_nil (s : ρ) (a : ℕ) : mem.blit s a [] = mem := by
  funext t i
  simp only [blit, List.length_nil, Nat.add_zero]
  rw [if_neg (by omega)]

theorem blit_ne {s t : ρ} (h : t ≠ s) (a : ℕ) (bs : List UInt8) : mem.blit s a bs t = mem t := by
  funext i
  simp [blit, h]

/-- A write to a segment depends on that segment alone. -/
theorem blit_congr {mem mem' : Mem ρ} {s : ρ} (h : mem s = mem' s) (a : ℕ) (bs : List UInt8) :
    mem.blit s a bs s = mem'.blit s a bs s := by
  funext i
  simp only [blit, h]

theorem blit_apply_of_lt {s : ρ} {a i : ℕ} (bs : List UInt8) (h : i < a) :
    mem.blit s a bs s i = mem s i := by
  rw [blit, if_neg (by omega)]

theorem blit_apply_of_ge {s : ρ} {a i : ℕ} (bs : List UInt8) (h : a + bs.length ≤ i) :
    mem.blit s a bs s i = mem s i := by
  rw [blit, if_neg (by omega)]

theorem blit_apply_add {s : ρ} {a i : ℕ} {bs : List UInt8} (h : i < bs.length) :
    mem.blit s a bs s (a + i) = bs[i] := by
  rw [blit, if_pos ⟨rfl, by omega⟩]
  simp [h]

/-- A byte of what was copied from the start of a segment to the start of another. -/
theorem blit_bytes_apply {ρ' : Type*} (mem' : Mem ρ') {s : ρ} {t : ρ'} {n i : ℕ} (h : i < n) :
    mem.blit s 0 (mem'.bytes t 0 n) s i = mem' t i := by
  have hget : mem.blit s 0 (mem'.bytes t 0 n) s (0 + i) = _ :=
    mem.blit_apply_add (by rwa [length_bytes])
  rw [Nat.zero_add, getElem_bytes, Nat.zero_add] at hget
  exact hget

theorem bytes_blit (s : ρ) (a : ℕ) (bs : List UInt8) :
    (mem.blit s a bs).bytes s a bs.length = bs :=
  List.ext_getElem (by simp) fun i hi hi' => by
    rw [getElem_bytes, blit_apply_add]

/-- Reading back part of a write. -/
theorem bytes_blit_inside {s : ρ} {a b n : ℕ} {bs : List UInt8} (h : b + n ≤ bs.length) :
    (mem.blit s a bs).bytes s (a + b) n = (bs.drop b).take n :=
  List.ext_getElem (by simp; omega) fun i hi hi' => by
    rw [length_bytes] at hi
    rw [getElem_bytes, Nat.add_assoc, blit_apply_add _ (by omega)]
    simp

theorem bytes_blit_ne {s t : ρ} (h : t ≠ s) (a b n : ℕ) (bs : List UInt8) :
    (mem.blit s a bs).bytes t b n = mem.bytes t b n := by
  simp only [bytes, mem.blit_ne h]

/-- Two writes end to end are one. -/
theorem blit_append (s : ρ) (a : ℕ) (xs ys : List UInt8) :
    (mem.blit s a xs).blit s (a + xs.length) ys = mem.blit s a (xs ++ ys) := by
  funext t i
  by_cases ht : t = s
  · subst ht
    rcases Nat.lt_or_ge i a with hi | hi
    · rw [blit_apply_of_lt _ _ (by omega), blit_apply_of_lt _ _ hi, blit_apply_of_lt _ _ hi]
    · obtain ⟨j, rfl⟩ := Nat.exists_eq_add_of_le hi
      rcases Nat.lt_or_ge j xs.length with hj | hj
      · rw [blit_apply_of_lt _ _ (by omega), blit_apply_add _ hj,
          blit_apply_add _ (by simp; omega), List.getElem_append_left hj]
      · obtain ⟨k, rfl⟩ := Nat.exists_eq_add_of_le hj
        rcases Nat.lt_or_ge k ys.length with hk | hk
        · rw [← Nat.add_assoc, blit_apply_add _ hk, Nat.add_assoc,
            blit_apply_add _ (by simp; omega)]
          simp
        · rw [blit_apply_of_ge _ _ (by omega), blit_apply_of_ge _ _ (by omega),
            blit_apply_of_ge _ _ (by simp; omega)]
  · rw [blit_ne _ ht, blit_ne _ ht, blit_ne _ ht]

theorem blit_cons (s : ρ) (a : ℕ) (x : UInt8) (xs : List UInt8) :
    mem.blit s a (x :: xs) = (mem.blit s a [x]).blit s (a + 1) xs :=
  (mem.blit_append s a [x] xs).symm

/-- Writing over the first byte of a write. -/
theorem blit_cons_head (s : ρ) (a : ℕ) (v w : UInt8) (bs : List UInt8) :
    (mem.blit s a (v :: bs)).blit s a [w] = mem.blit s a (w :: bs) := by
  funext t i
  by_cases ht : t = s
  · subst ht
    rcases Nat.lt_or_ge i a with hi | hi
    · simp only [blit_apply_of_lt _ _ hi]
    · obtain ⟨j, rfl⟩ := Nat.exists_eq_add_of_le hi
      cases j with
      | zero => rw [blit_apply_add _ (by simp), blit_apply_add _ (by simp)]; simp
      | succ j =>
        rw [blit_apply_of_ge _ _ (by simp)]
        rcases Nat.lt_or_ge j bs.length with hj | hj
        · rw [blit_apply_add _ (by simpa using hj), blit_apply_add _ (by simpa using hj)]
          rfl
        · rw [blit_apply_of_ge _ _ (by simp; omega), blit_apply_of_ge _ _ (by simp; omega)]
  · simp only [blit_ne _ ht]

/-! ### Stores by offset -/

/-- Write `f i` at `a + i`, for `n` bytes. -/
def fill (s : ρ) (a n : ℕ) (f : ℕ → UInt8) : Mem ρ := mem.blit s a ((List.range n).map f)

@[simp] theorem fill_zero (s : ρ) (a : ℕ) (f : ℕ → UInt8) : mem.fill s a 0 f = mem :=
  mem.blit_nil s a

theorem fill_one (s : ρ) (a : ℕ) (f : ℕ → UInt8) : mem.fill s a 1 f = mem.blit s a [f 0] := rfl

/-- A fill after a fill is one. -/
theorem fill_add (s : ρ) (a n m : ℕ) (f : ℕ → UInt8) :
    mem.fill s a (n + m) f = (mem.fill s a n f).fill s (a + n) m fun i => f (n + i) := by
  have happ := mem.blit_append s a ((List.range n).map f) ((List.range m).map fun i => f (n + i))
  rw [List.length_map, List.length_range] at happ
  simp only [fill]
  rw [happ, List.range_add, List.map_append, List.map_map]
  rfl

theorem fill_congr {f g : ℕ → UInt8} {n : ℕ} (h : ∀ i < n, f i = g i) (s : ρ) (a : ℕ) :
    mem.fill s a n f = mem.fill s a n g := by
  rw [fill, fill, List.map_congr_left fun i hi => h i (List.mem_range.1 hi)]

theorem fill_congr_mem {mem mem' : Mem ρ} {s : ρ} (h : mem s = mem' s) (a n : ℕ)
    (f : ℕ → UInt8) : mem.fill s a n f s = mem'.fill s a n f s :=
  blit_congr h a _

theorem fill_apply_add {s : ρ} {a n i : ℕ} (f : ℕ → UInt8) (h : i < n) :
    mem.fill s a n f s (a + i) = f i := by
  rw [fill, blit_apply_add _ (by simpa using h)]
  simp

theorem fill_apply_of_lt {s : ρ} {a i : ℕ} (n : ℕ) (f : ℕ → UInt8) (h : i < a) :
    mem.fill s a n f s i = mem s i :=
  mem.blit_apply_of_lt _ h

end Mem

/-! ## Accesses -/

/-- One memory access : `size` bytes of a segment from `addr`. -/
inductive Access (ρ : Type*) where
  | read (seg : ρ) (addr size : ℕ)
  | write (seg : ρ) (addr size : ℕ)
  deriving DecidableEq

/-- Memory, with every access to it so far. -/
structure Machine (ρ : Type*) where
  mem : Mem ρ
  log : List (Access ρ)

namespace Machine

variable {ρ : Type*} (m : Machine ρ)

/-- Log a read of `n` bytes. The value is taken from `mem`. -/
def read (s : ρ) (a n : ℕ) : Machine ρ :=
  { m with log := m.log ++ [.read s a n] }

/-- Every logged access satisfies `P`. -/
def All (P : Access ρ → Prop) : Prop := ∀ a ∈ m.log, P a

@[simp] theorem mem_read (s : ρ) (a n : ℕ) : (m.read s a n).mem = m.mem := rfl

@[simp] theorem all_read (P : Access ρ → Prop) (s : ρ) (a n : ℕ) :
    (m.read s a n).All P ↔ m.All P ∧ P (.read s a n) := by
  simp [All, read, or_imp, forall_and]

variable [DecidableEq ρ]

/-- Store `bs` at `a`, as one access. -/
def store (s : ρ) (a : ℕ) (bs : List UInt8) : Machine ρ :=
  ⟨m.mem.blit s a bs, m.log ++ [.write s a bs.length]⟩

@[simp] theorem mem_store (s : ρ) (a : ℕ) (bs : List UInt8) :
    (m.store s a bs).mem = m.mem.blit s a bs := rfl

@[simp] theorem all_store (P : Access ρ → Prop) (s : ρ) (a : ℕ) (bs : List UInt8) :
    (m.store s a bs).All P ↔ m.All P ∧ P (.write s a bs.length) := by
  simp [All, store, or_imp, forall_and]

/-- The addresses of `d` written so far, in order. -/
def written (d : ρ) : List ℕ :=
  m.log.flatMap fun
    | .read _ _ _ => []
    | .write s a n => if s = d then List.range' a n else []

@[simp] theorem written_read (d s : ρ) (a n : ℕ) : (m.read s a n).written d = m.written d := by
  simp [written, read]

@[simp] theorem written_store_self (d : ρ) (a : ℕ) (bs : List UInt8) :
    (m.store d a bs).written d = m.written d ++ List.range' a bs.length := by
  simp [written, store]

end Machine

/-! ## String moves -/

/-- The registers of a string move. -/
structure Move (ρ : Type*) where
  esi : ℕ
  edi : ℕ
  m : Machine ρ

namespace Move

variable {ρ : Type*} [DecidableEq ρ]

/-- One `movs` of `k` bytes from segment `s` to segment `d` : read, store, advance. -/
def movs (k : ℕ) (s d : ρ) (c : Move ρ) : Move ρ where
  esi := c.esi + k
  edi := c.edi + k
  m := (c.m.read s c.esi k).store d c.edi (c.m.mem.bytes s c.esi k)

@[simp] theorem movs_esi (k : ℕ) (s d : ρ) (c : Move ρ) : (movs k s d c).esi = c.esi + k := rfl

@[simp] theorem movs_edi (k : ℕ) (s d : ρ) (c : Move ρ) : (movs k s d c).edi = c.edi + k := rfl

/-- `rep movs` : `n` moves of `k` bytes. -/
def repMovs (k : ℕ) (s d : ρ) : ℕ → Move ρ → Move ρ
  | 0, c => c
  | n + 1, c => repMovs k s d n (movs k s d c)

theorem repMovs_esi (k : ℕ) (s d : ρ) :
    ∀ (n : ℕ) (c : Move ρ), (repMovs k s d n c).esi = c.esi + n * k
  | 0, c => by simp [repMovs]
  | n + 1, c => by
    rw [repMovs, repMovs_esi k s d n, movs_esi, Nat.succ_mul]
    omega

theorem repMovs_edi (k : ℕ) (s d : ρ) :
    ∀ (n : ℕ) (c : Move ρ), (repMovs k s d n c).edi = c.edi + n * k
  | 0, c => by simp [repMovs]
  | n + 1, c => by
    rw [repMovs, repMovs_edi k s d n, movs_edi, Nat.succ_mul]
    omega

/-- Between different segments a string move is one write of the source bytes. -/
theorem repMovs_mem {s d : ρ} (h : s ≠ d) (k : ℕ) :
    ∀ (n : ℕ) (c : Move ρ), (repMovs k s d n c).m.mem =
      c.m.mem.blit d c.edi (c.m.mem.bytes s c.esi (n * k))
  | 0, c => by simp [repMovs]
  | n + 1, c => by
    rw [repMovs, repMovs_mem h k n, Nat.succ_mul, Nat.add_comm (n * k) k, Mem.bytes_add,
      ← Mem.blit_append]
    simp [movs, Mem.bytes_blit_ne _ h]

/-- The addresses a string move writes follow one another. -/
theorem written_repMovs (k : ℕ) (s d : ρ) :
    ∀ (n : ℕ) (c : Move ρ), (repMovs k s d n c).m.written d =
      c.m.written d ++ List.range' c.edi (n * k)
  | 0, c => by simp [repMovs]
  | n + 1, c => by
    rw [repMovs, written_repMovs k s d n, Nat.succ_mul, Nat.add_comm (n * k) k,
      ← List.range'_append_1, ← List.append_assoc]
    simp [movs]

/-- A string move reads and writes only inside `[esi, esi + n·k)` and `[edi, edi + n·k)`. -/
theorem all_repMovs {P : Access ρ → Prop} (k : ℕ) (s d : ρ) :
    ∀ (n : ℕ) (c : Move ρ), c.m.All P →
      (∀ j, j + k ≤ n * k → P (.read s (c.esi + j) k) ∧ P (.write d (c.edi + j) k)) →
      (repMovs k s d n c).m.All P
  | 0, _, hc, _ => hc
  | n + 1, c, hc, hP => by
    have h0 := hP 0 (by rw [Nat.succ_mul]; omega)
    refine all_repMovs k s d n _ (by simpa [movs, hc] using h0) fun j hj => ?_
    have hj' := hP (j + k) (by rw [Nat.succ_mul]; omega)
    simpa [movs, Nat.add_assoc, Nat.add_comm k j] using hj'

end Move

end Inboard
